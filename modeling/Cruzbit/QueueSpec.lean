/-
Cruzbit/QueueSpec.lean

What the transaction queue keeps.  `WellFormed` ties the list and the map
together: the map sends each queued transaction's ID to its element and
nothing else, and queued transactions are checked transfers.  Every
operation keeps it, and none of them ever removes a missing element.

`Replays` says what the balance cache is for: it is what applying the queue
front to back leaves on a fresh cache.  Adding a transaction keeps that, and
`reprocessQueue` establishes it from any well-formed queue
(`reprocessQueue_eq`), whatever the cache held before.
-/
import Cruzbit.LedgerChain
import Cruzbit.Queue

namespace Cruzbit

open Accounts Chain Word

namespace BalanceCache

/-- Apply transactions in order; all of them must be applicable. -/
def applyAll (get : PublicKey → Res Int) : BalanceCache → List Transaction → Option BalanceCache
  | b, [] => some b
  | b, tx :: txs =>
    match b.apply get tx with
    | (b', .ok true) => applyAll get b' txs
    | _ => none

theorem applyAll_append (get : PublicKey → Res Int) (b : BalanceCache) (txs txs' : List Transaction) :
    b.applyAll get (txs ++ txs') = (b.applyAll get txs).bind fun b' => b'.applyAll get txs' := by
  induction txs generalizing b with
  | nil => rfl
  | cons tx txs ih =>
    simp only [List.cons_append, applyAll]
    split
    · exact ih _
    · rfl

/-- Transfers that can be applied in order are covered, and leave solvent accounts. -/
theorem applyAll_shows {get : PublicKey → Res Int} {v w : PublicKey →₀ ℤ} {b b' : BalanceCache}
    {txs : List Transaction} (hget : ∀ pk, get pk = .ok (v pk)) (hs : Shows v b w)
    (hw : Solvent w) (htxs : ∀ tx ∈ txs, tx.Checked ∧ tx.isCoinbase = false)
    (h : b.applyAll get txs = some b') :
    (∃ w', Shows v b' w' ∧ Solvent w') ∧ Covered w (txs.map Transaction.payment) := by
  induction txs generalizing b w with
  | nil =>
    obtain rfl : b = b' := Option.some.inj h
    exact ⟨⟨w, hs, hw⟩, trivial⟩
  | cons tx txs ih =>
    obtain ⟨ht, hcb⟩ := htxs tx List.mem_cons_self
    obtain ⟨⟨b₁, hb₁, -, hcov, hshow⟩ | ⟨hb₁, -⟩, -⟩ := apply_transfer hget hs hw ht hcb
    · simp only [applyAll, hb₁] at h
      have hw₁ : Solvent (w + tx.payment.delta) := by
        refine hw.pay ht.sound hcov ?_
        have := Ledger.issued_transfer_nonpos ht hcb
        have := hw.total_le
        omega
      obtain ⟨hw', hcovered⟩ := ih hshow hw₁ (fun t h => htxs t (List.mem_cons_of_mem _ h)) h
      exact ⟨hw', hcov, hcovered⟩
    · simp [applyAll, hb₁] at h

end BalanceCache

namespace TransactionQueue

/-- The queued transactions, front to back. -/
def transactions (q : TransactionQueue) : List Transaction := q.txQueue.map Element.value

/-- The list and the map agree, and hold checked transfers. -/
structure WellFormed (crypto : Crypto) (q : TransactionQueue) : Prop where
  ptr_lt : ∀ e ∈ q.txQueue, e.ptr < q.nextPtr
  ptr_nodup : (q.txQueue.map Element.ptr).Nodup
  map_iff : ∀ id e, q.txMap[id]? = some e ↔ e ∈ q.txQueue ∧ e.value.id crypto = id
  checked : ∀ e ∈ q.txQueue, e.value.Checked ∧ e.value.isCoinbase = false
  minBalance : q.balanceCache.minBalance = minAmountCruzbits + minFeeCruzbits

section Structure

variable {crypto : Crypto} {q : TransactionQueue} {id : TransactionID} {tx : Transaction}

theorem WellFormed.transactions_checked (h : WellFormed crypto q) :
    ∀ tx ∈ q.transactions, tx.Checked ∧ tx.isCoinbase = false := by
  intro tx htx
  obtain ⟨e, he, rfl⟩ := List.mem_map.mp htx
  exact h.checked e he

theorem wellFormed_new : WellFormed crypto new where
  ptr_lt := by simp [new]
  ptr_nodup := by simp [new]
  map_iff := by simp [new]
  checked := by simp [new]
  minBalance := rfl

/-- The queue without the element under an ID. -/
theorem WellFormed.erase (h : WellFormed crypto q) {e : Element} (he : q.txMap[id]? = some e) :
    WellFormed crypto { q.removeElement e.ptr with txMap := q.txMap.erase id } := by
  obtain ⟨hmem, hid⟩ := (h.map_iff id e).mp he
  have hptr : ∀ e' ∈ q.txQueue, e'.ptr = e.ptr → e' = e :=
    fun e' he' heq => List.inj_on_of_nodup_map h.ptr_nodup he' hmem heq
  refine ⟨?_, ?_, ?_, ?_, h.minBalance⟩
  · exact fun e' he' => h.ptr_lt e' (List.mem_of_mem_filter he')
  · exact (List.filter_sublist.map _).nodup h.ptr_nodup
  · intro id' e'
    simp only [Table.get_erase, removeElement, List.mem_filter, decide_eq_true_eq]
    split_ifs with heq
    · subst heq
      constructor
      · intro hn
        exact absurd hn (by simp)
      · rintro ⟨⟨he', hne⟩, hid'⟩
        have := (h.map_iff id e').mpr ⟨he', hid'⟩
        rw [he, Option.some.injEq] at this
        exact absurd (congrArg Element.ptr this.symm) hne
    · rw [h.map_iff]
      constructor
      · rintro ⟨he', hid'⟩
        refine ⟨⟨he', fun hp => heq ?_⟩, hid'⟩
        rw [← hid', hptr e' he' hp, hid]
      · rintro ⟨⟨he', -⟩, hid'⟩
        exact ⟨he', hid'⟩
  · exact fun e' he' => h.checked e' (List.mem_of_mem_filter he')

theorem WellFormed.removeIfQueued (h : WellFormed crypto q) (id : TransactionID) :
    WellFormed crypto (q.removeIfQueued id) := by
  unfold TransactionQueue.removeIfQueued
  cases he : q.txMap[id]? with
  | none => exact h
  | some e => exact h.erase he

theorem WellFormed.removeAll (h : WellFormed crypto q) (ids : List TransactionID) :
    WellFormed crypto (ids.foldl TransactionQueue.removeIfQueued q) := by
  induction ids generalizing q with
  | nil => exact h
  | cons id ids ih => exact ih (h.removeIfQueued id)

/-- Nothing is left under an ID that was removed. -/
theorem WellFormed.ne_of_removeIfQueued (h : WellFormed crypto q) :
    ∀ e ∈ (q.removeIfQueued id).txQueue, e.value.id crypto ≠ id := by
  intro e he heq
  have hget := ((h.removeIfQueued id).map_iff id e).mpr ⟨he, heq⟩
  unfold TransactionQueue.removeIfQueued at hget
  cases hq : q.txMap[id]? with
  | none =>
    rw [hq] at hget
    simp only [hq] at hget
    exact absurd hget (by simp)
  | some e' =>
    rw [hq] at hget
    simp only [Table.get_erase, if_true] at hget
    exact absurd hget (by simp)

/-- A new transaction goes in at either end. -/
theorem WellFormed.push (h : WellFormed crypto q) (htx : tx.Checked ∧ tx.isCoinbase = false)
    (hnew : ∀ e ∈ q.txQueue, e.value.id crypto ≠ tx.id crypto) {q' : TransactionQueue}
    (hperm : q'.txQueue.Perm (⟨q.nextPtr, tx⟩ :: q.txQueue))
    (hmap : q'.txMap = q.txMap.insert (tx.id crypto) ⟨q.nextPtr, tx⟩)
    (hptr : q'.nextPtr = q.nextPtr + 1)
    (hmin : q'.balanceCache.minBalance = minAmountCruzbits + minFeeCruzbits) :
    WellFormed crypto q' := by
  refine ⟨?_, ?_, ?_, ?_, hmin⟩
  · intro e he
    rcases List.mem_cons.mp (hperm.mem_iff.mp he) with rfl | he
    · simp [hptr]
    · have := h.ptr_lt e he
      omega
  · rw [(hperm.map Element.ptr).nodup_iff, List.map_cons, List.nodup_cons]
    refine ⟨fun hmem => ?_, h.ptr_nodup⟩
    obtain ⟨e, he, heq⟩ := List.mem_map.mp hmem
    have := h.ptr_lt e he
    simp only at heq
    omega
  · intro id e
    rw [hmap, Table.get_insert, hperm.mem_iff, List.mem_cons]
    split_ifs with heq
    · subst heq
      rw [Option.some.injEq]
      constructor
      · rintro rfl
        exact ⟨Or.inl rfl, rfl⟩
      · rintro ⟨rfl | he, hid⟩
        · rfl
        · exact absurd hid (hnew e he)
    · rw [h.map_iff]
      constructor
      · rintro ⟨he, hid⟩
        exact ⟨Or.inr he, hid⟩
      · rintro ⟨rfl | he, hid⟩
        · exact absurd hid heq
        · exact ⟨he, hid⟩
  · intro e he
    rcases List.mem_cons.mp (hperm.mem_iff.mp he) with rfl | he
    · exact htx
    · exact h.checked e he

theorem addToFront_eq (q : TransactionQueue) (id : TransactionID) (tx : Transaction) :
    q.addToFront id tx = (q.removeIfQueued id).pushFront id tx := by
  unfold addToFront TransactionQueue.removeIfQueued
  cases q.txMap[id]? with
  | none => rfl
  | some e =>
    simp only [pushFront, removeElement, TransactionQueue.mk.injEq, and_true]
    refine Std.ExtTreeMap.ext_getElem? fun {k} => ?_
    simp only [Table.get_insert, Table.get_erase]
    split_ifs <;> rfl

theorem WellFormed.addToFront (h : WellFormed crypto q) (htx : tx.Checked ∧ tx.isCoinbase = false) :
    WellFormed crypto (q.addToFront (tx.id crypto) tx) := by
  rw [addToFront_eq]
  exact (h.removeIfQueued _).push htx h.ne_of_removeIfQueued (List.Perm.refl _) rfl rfl
    (h.removeIfQueued _).minBalance

theorem WellFormed.addBatch (h : WellFormed crypto q) {txs : List Transaction}
    (htxs : ∀ tx ∈ txs, tx.Checked ∧ tx.isCoinbase = false) :
    WellFormed crypto (q.addBatch (txs.map (Transaction.id crypto)) txs) := by
  induction txs with
  | nil => exact h
  | cons tx txs ih =>
    exact (ih fun t ht => htxs t (List.mem_cons_of_mem _ ht)).addToFront
      (htxs tx List.mem_cons_self)

/-! ### What the operations let in -/

theorem mem_removeIfQueued {e : Element} (he : e ∈ (q.removeIfQueued id).txQueue) :
    e ∈ q.txQueue := by
  unfold removeIfQueued at he
  split at he
  · exact he
  · exact List.mem_of_mem_filter he

theorem mem_removeAll {ids : List TransactionID} {e : Element}
    (he : e ∈ (ids.foldl removeIfQueued q).txQueue) : e ∈ q.txQueue := by
  induction ids generalizing q with
  | nil => exact he
  | cons id ids ih => exact mem_removeIfQueued (ih he)

/-- Nothing is left under the IDs that were removed. -/
theorem WellFormed.id_notMem_of_removeAll (h : WellFormed crypto q) {ids : List TransactionID}
    {e : Element} (he : e ∈ (ids.foldl TransactionQueue.removeIfQueued q).txQueue) :
    e.value.id crypto ∉ ids := by
  induction ids generalizing q with
  | nil => exact List.not_mem_nil
  | cons id ids ih =>
    rw [List.mem_cons, not_or]
    exact ⟨h.ne_of_removeIfQueued e (mem_removeAll he), ih (h.removeIfQueued id) he⟩

theorem mem_addBatch {ids : List TransactionID} {txs : List Transaction} {e : Element}
    (he : e ∈ (q.addBatch ids txs).txQueue) : e.value ∈ txs ∨ e ∈ q.txQueue := by
  induction txs generalizing ids with
  | nil =>
    cases ids with
    | nil => exact Or.inr he
    | cons id ids => exact Or.inr he
  | cons tx txs ih =>
    cases ids with
    | nil => exact Or.inr he
    | cons id ids =>
      rw [TransactionQueue.addBatch, addToFront_eq] at he
      rcases List.mem_cons.mp he with rfl | he
      · exact Or.inl List.mem_cons_self
      · exact (ih (mem_removeIfQueued he)).imp_left (List.mem_cons_of_mem _)

end Structure

theorem invalidated_eq_false_iff {tx : Transaction} {height : Int} :
    invalidated tx height = false ↔
      checkTransactionSeries tx (height + 1) = true ∧ tx.isMature (height + 1) = true ∧
        tx.isExpired (height + 1) = false ∧ minFeeCruzbits ≤ tx.fee ∧
        minAmountCruzbits ≤ tx.amount := by
  simp [invalidated, and_assoc]

/-! ### The cache replays the queue -/

/-- The balance cache is what applying the queue to a fresh cache leaves. -/
def Replays (get : PublicKey → Res Int) (q : TransactionQueue) : Prop :=
  (BalanceCache.new (minAmountCruzbits + minFeeCruzbits)).applyAll get q.transactions =
    some q.balanceCache

/-- The exact results of the machine arithmetic of `reprocessQueue`'s loop. -/
def reprocessSums (crypto : Crypto) (get : PublicKey → Res Int) (height : Int) :
    List Transaction → TransactionQueue → List Int
  | [], _ => []
  | tx :: txs, q =>
    if invalidated tx height then
      match q.removeID (tx.id crypto) with
      | .error _ => []
      | .ok q => reprocessSums crypto get height txs q
    else
      q.balanceCache.applySums get tx ++
      match q.balanceCache.apply get tx with
      | (_, .error _) => []
      | (b, .ok false) =>
        match { q with balanceCache := b }.removeID (tx.id crypto) with
        | .error _ => []
        | .ok q => reprocessSums crypto get height txs q
      | (b, .ok true) => reprocessSums crypto get height txs { q with balanceCache := b }

section Replay

variable {crypto : Crypto} {q : TransactionQueue} {get : PublicKey → Res Int}
  {v w : PublicKey →₀ ℤ} {height : Int}

/-- Removing the first of the remaining transactions. -/
theorem WellFormed.removeID_eq (h : WellFormed crypto q) {kept rest : List Element} {e : Element}
    (hq : q.txQueue = kept ++ e :: rest) :
    ∃ q', q.removeID (e.value.id crypto) = .ok q' ∧ WellFormed crypto q' ∧
      q'.txQueue = kept ++ rest ∧ q'.balanceCache = q.balanceCache := by
  have hmem : e ∈ q.txQueue := by simp [hq]
  have hget := (h.map_iff (e.value.id crypto) e).mpr ⟨hmem, rfl⟩
  refine ⟨_, by rw [removeID, hget], h.erase hget, ?_, rfl⟩
  -- no other element has the same identity
  have hnd := h.ptr_nodup
  rw [hq, List.map_append, List.map_cons, List.nodup_append, List.nodup_cons] at hnd
  obtain ⟨-, ⟨hrest, -⟩, hkept⟩ := hnd
  have keep {es : List Element} (hes : ∀ e' ∈ es, e'.ptr ≠ e.ptr) :
      es.filter (fun e' => e'.ptr ≠ e.ptr) = es := by
    rw [List.filter_eq_self]
    exact fun e' he' => by simpa using hes e' he'
  simp only [removeElement, hq, List.filter_append]
  rw [keep fun e' he' heq => hkept e'.ptr (List.mem_map_of_mem he') e.ptr List.mem_cons_self heq,
    List.filter_cons_of_neg (by simp),
    keep fun e' he' heq => hrest (heq ▸ List.mem_map_of_mem he')]

/-- The loop of `reprocessQueue`, with `kept` done and `rest` to do. -/
theorem WellFormed.reprocess_eq (hget : ∀ pk, get pk = .ok (v pk)) (kept : List Element)
    {rest : List Element} (h : WellFormed crypto q) (hq : q.txQueue = kept ++ rest)
    (hs : Shows v q.balanceCache w) (hw : Solvent w)
    (hkept : (BalanceCache.new (minAmountCruzbits + minFeeCruzbits)).applyAll get
      (kept.map Element.value) = some q.balanceCache) :
    (∃ q', reprocess crypto get height (rest.map Element.value) q = (q', .ok ()) ∧
      WellFormed crypto q' ∧ Replays get q' ∧
      ∀ e ∈ q'.txQueue, e ∈ kept ∨ e ∈ rest ∧ invalidated e.value height = false) ∧
    ∀ x ∈ reprocessSums crypto get height (rest.map Element.value) q, Fits64 x := by
  induction rest generalizing q kept w with
  | nil =>
    rw [List.append_nil] at hq
    refine ⟨⟨q, rfl, h, ?_, fun e he => Or.inl (hq ▸ he)⟩, by simp [reprocessSums]⟩
    rw [Replays, transactions, hq, hkept]
  | cons e rest ih =>
    obtain ⟨ht, hcb⟩ := h.checked e (by simp [hq])
    have later {e' : Element} (he' : e' ∈ rest ∧ invalidated e'.value height = false) :
        e' ∈ e :: rest ∧ invalidated e'.value height = false :=
      ⟨List.mem_cons_of_mem _ he'.1, he'.2⟩
    simp only [List.map_cons, reprocess, reprocessSums]
    by_cases hinv : invalidated e.value height = true
    · obtain ⟨q₁, hok, h₁, hq₁, hb₁⟩ := h.removeID_eq hq
      obtain ⟨⟨q', hok', h', hr', hmem⟩, hfit⟩ := ih kept h₁ hq₁ (hb₁ ▸ hs) hw (hb₁ ▸ hkept)
      simp only [if_pos hinv, hok]
      exact ⟨⟨q', hok', h', hr', fun e' he' => (hmem e' he').imp_right later⟩, hfit⟩
    · simp only [if_neg hinv, List.mem_append]
      obtain ⟨⟨b, hb, hmin, hcov, hshow⟩ | ⟨hb, -⟩, hfit⟩ :=
        BalanceCache.apply_transfer hget hs hw ht hcb
      · -- the transaction stays
        have h₁ : WellFormed crypto { q with balanceCache := b } :=
          ⟨h.ptr_lt, h.ptr_nodup, h.map_iff, h.checked, hmin.trans h.minBalance⟩
        have hw₁ : Solvent (w + e.value.payment.delta) := by
          refine hw.pay ht.sound hcov ?_
          have := Ledger.issued_transfer_nonpos ht hcb
          have := hw.total_le
          omega
        obtain ⟨⟨q', hok', h', hr', hmem⟩, hfits⟩ := ih (kept ++ [e]) h₁ (by simp [hq]) hshow hw₁ (by
          rw [List.map_append, BalanceCache.applyAll_append, hkept]
          simp [BalanceCache.applyAll, hb])
        simp only [hb]
        refine ⟨⟨q', hok', h', hr', fun e' he' => ?_⟩, fun x hx => hx.elim (hfit x) (hfits x)⟩
        rcases hmem e' he' with he' | he'
        · refine (List.mem_append.mp he').imp_right fun he' => ?_
          rw [List.mem_singleton.mp he']
          exact ⟨List.mem_cons_self, Bool.not_eq_true _ ▸ hinv⟩
        · exact Or.inr (later he')
      · -- the transaction has lost its cover
        obtain ⟨q₁, hok, h₁, hq₁, hb₁⟩ := h.removeID_eq hq
        obtain ⟨⟨q', hok', h', hr', hmem⟩, hfits⟩ := ih kept h₁ hq₁ (hb₁ ▸ hs) hw (hb₁ ▸ hkept)
        simp only [hb, hok]
        exact ⟨⟨q', hok', h', hr', fun e' he' => (hmem e' he').imp_right later⟩,
          fun x hx => hx.elim (hfit x) (hfits x)⟩

/-- **Reprocessing** always succeeds, makes the cache replay the queue and
leaves only transactions that a block at the next height may hold. -/
theorem WellFormed.reprocessQueue_eq (height : Int) (h : WellFormed crypto q)
    (hget : ∀ pk, get pk = .ok (v pk)) (hv : Solvent v) :
    (∃ q', q.reprocessQueue crypto get height = (q', .ok ()) ∧ WellFormed crypto q' ∧
      Replays get q' ∧ ∀ e ∈ q'.txQueue, e ∈ q.txQueue ∧ invalidated e.value height = false) ∧
    ∀ x ∈ reprocessSums crypto get height q.transactions
      { q with balanceCache := q.balanceCache.reset }, Fits64 x := by
  have hreset : q.balanceCache.reset = BalanceCache.new (minAmountCruzbits + minFeeCruzbits) := by
    rw [BalanceCache.reset, BalanceCache.new, h.minBalance]
  have h₀ : WellFormed crypto { q with balanceCache := q.balanceCache.reset } :=
    ⟨h.ptr_lt, h.ptr_nodup, h.map_iff, h.checked, h.minBalance⟩
  obtain ⟨⟨q', hok, h', hr, hmem⟩, hfits⟩ := h₀.reprocess_eq hget [] rfl
    (BalanceCache.shows_empty rfl) hv
    (by simp only [List.map_nil, BalanceCache.applyAll, hreset])
  exact ⟨⟨q', hok, h', hr, fun e he => (hmem e he).resolve_left List.not_mem_nil⟩, hfits⟩

/-- **Adding a transaction** keeps the queue well-formed and replayed. -/
theorem WellFormed.add_cases (h : WellFormed crypto q) (hget : ∀ pk, get pk = .ok (v pk))
    (hv : Solvent v) (hr : Replays get q) {tx : Transaction}
    (htx : tx.Checked ∧ tx.isCoinbase = false) :
    (∃ q' r, q.add get (tx.id crypto) tx = (q', r) ∧ WellFormed crypto q' ∧ Replays get q' ∧
      ∀ e ∈ q'.txQueue, e ∈ q.txQueue ∨ e.value = tx) ∧
    ∀ x ∈ q.balanceCache.applySums get tx, Fits64 x := by
  obtain ⟨⟨w, hs, hw⟩, -⟩ := BalanceCache.applyAll_shows (v := v) hget (BalanceCache.shows_new _) hv
    h.transactions_checked hr
  obtain ⟨hcases, hfit⟩ := BalanceCache.apply_transfer hget hs hw htx.1 htx.2
  refine ⟨?_, hfit⟩
  unfold add
  by_cases hc : q.txMap.contains (tx.id crypto) = true
  · exact ⟨q, _, by rw [if_pos hc], h, hr, fun e he => Or.inl he⟩
  rw [if_neg hc]
  rcases hcases with ⟨b, hb, hmin, -, -⟩ | ⟨hb, -⟩
  · have hnew : ∀ e ∈ q.txQueue, e.value.id crypto ≠ tx.id crypto := by
      intro e he heq
      exact hc ((Table.contains_iff _ _).mpr ⟨e, (h.map_iff _ _).mpr ⟨he, heq⟩⟩)
    refine ⟨{ q with balanceCache := b }.pushBack (tx.id crypto) tx, .ok true, by rw [hb],
      h.push htx hnew ?_ rfl rfl (hmin.trans h.minBalance), ?_, ?_⟩
    · exact List.perm_append_singleton _ _
    · have ht : (TransactionQueue.pushBack { q with balanceCache := b } (tx.id crypto)
          tx).transactions = q.transactions ++ [tx] := by
        simp [transactions, pushBack]
      have hr' : _ = some q.balanceCache := hr
      rw [Replays, ht, BalanceCache.applyAll_append, hr']
      simp [BalanceCache.applyAll, hb, pushBack]
    · intro e he
      rcases List.mem_append.mp he with he | he
      · exact Or.inl he
      · rw [List.mem_singleton] at he
        exact Or.inr (by rw [he])
  · exact ⟨q, _, by rw [hb], h, hr, fun e he => Or.inl he⟩

end Replay

end TransactionQueue

end Cruzbit

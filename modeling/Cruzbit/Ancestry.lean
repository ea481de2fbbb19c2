/-
Cruzbit/Ancestry.lean

Validity of a block as a property of its ancestors, without a node.

The checks of `processBlock` read the state of the node: storage for the
median time, storage and ledger for the target, the queue for signatures
already verified.  `Follows` states them for a block on top of a list of
ancestors, and a chain has a valid ancestry when each block follows those
below it (`Ancestry`).  The target is any function of the ancestors that the
node agrees with (`TargetOf`); before the revised algorithm it is
`ancestorTarget` (`targetOf_ancestorTarget`).

The two notions meet.  The main chain of a node has a valid ancestry
(`Admitted.ancestry`), and a delivered block whose ancestry is valid and
known becomes known (`Settled.learns`).  Every chain with a valid ancestry is
the main chain of some run (`Ancestry.settled_deliver`).
-/
import Cruzbit.Run

namespace Cruzbit

open Accounts Chain Encoding Lineage Word

/-! ### Validity without a node -/

/-- The median of the times of the last blocks. -/
def Chain.medianTime (c : Chain) : Int :=
  let timestamps := (c.take numBlocksForMedianTimestamp).map fun x => x.2.header.time
  (timestamps.insertionSort (· ≤ ·)).getD (timestamps.length / 2) 0

/-- The block passes `checkBlock` at some time and the checks of `acceptBlock`
on top of the chain, signatures verified. -/
structure Proposed (crypto : Crypto) (target : Chain → Res BlockID) (c : Chain)
    (x : BlockID × Block) : Prop where
  id_eq : x.1 = x.2.id crypto
  checked : ∃ now, checkBlock crypto x.1 x.2 now = .ok ()
  parent : ∀ p ∈ c.head?, x.2.header.previous = p.1 ∧
    x.2.header.height = p.2.header.height + 1 ∧
    computeChainWork x.2.header.target p.2.header.chainWork = .ok x.2.header.chainWork
  target : target c = .ok x.2.header.target
  time : c.medianTime < x.2.header.time
  transactions : ∀ tx ∈ x.2.transactions,
    Acceptable crypto TransactionQueue.new x.2.header.height tx
  reward : x.2.coinbaseAmount =
    int64 (blockCreationReward x.2.header.height + x.2.wrappedFees)

/-- Moreover the ledger of the chain can connect it. -/
structure Follows (crypto : Crypto) (prune : Bool) (target : Chain → Res BlockID) (c : Chain)
    (x : BlockID × Block) : Prop extends Proposed crypto target c x where
  connects : Connects crypto prune c x.2

/-- Each block follows those below it, down to genesis. -/
inductive Ancestry (crypto : Crypto) (prune : Bool) (target : Chain → Res BlockID) : Chain → Prop
  | genesis : Ancestry crypto prune target [genesisEntry crypto]
  | cons {c : Chain} {x : BlockID × Block} : Ancestry crypto prune target c →
      Follows crypto prune target c x → Ancestry crypto prune target (x :: c)

/-- On lines of known blocks the node requires the target `target`. -/
def TargetOf (crypto : Crypto) (target : Chain → Res BlockID) (s : Processor) : Prop :=
  ∀ (c : Chain) (p : BlockID × Block), c.head? = some p → BlockLine crypto s.blockStore c →
    Stored s.blockStore c → (∀ y ∈ c, s.ledger.Known y.1) →
    computeTarget p.2.header s.blockStore s.ledger = target c

/-- The node requires the target `target`, and no stored block has the ID that
stands for the missing parent of genesis. -/
structure Agrees (crypto : Crypto) (target : Chain → Res BlockID) (s : Processor) : Prop where
  target : TargetOf crypto target s
  orphan : s.blockStore[genesisBlock.header.previous]? = none

section Facts

variable {crypto : Crypto} {prune : Bool} {target : Chain → Res BlockID} {c d : Chain}
  {x : BlockID × Block} {blockStore blockStore' : BlockStorage}

theorem Ancestry.ne_nil (h : Ancestry crypto prune target c) : c ≠ [] := by
  cases h <;> simp

theorem Ancestry.tail (h : Ancestry crypto prune target (x :: c)) (hne : c ≠ []) :
    Ancestry crypto prune target c ∧ Follows crypto prune target c x := by
  cases h with
  | genesis => exact absurd rfl hne
  | cons hc hx => exact ⟨hc, hx⟩

theorem Ancestry.eq_genesis (h : Ancestry crypto prune target [x]) : x = genesisEntry crypto := by
  cases h with
  | genesis => rfl
  | cons hc _ => exact absurd rfl hc.ne_nil

theorem Ancestry.id_eq (h : Ancestry crypto prune target c) : ∀ x ∈ c, x.1 = x.2.id crypto := by
  induction h with
  | genesis => simp [genesisEntry]
  | cons _ hx ih => exact List.forall_mem_cons.mpr ⟨hx.id_eq, ih⟩

theorem Ancestry.wellFormed (h : Ancestry crypto prune target c) :
    ∀ x ∈ c, x.2.WellFormed crypto := by
  induction h with
  | genesis => simpa [genesisEntry] using genesisBlock_wellFormed crypto
  | cons _ hx ih =>
    obtain ⟨now, hok⟩ := hx.checked
    exact List.forall_mem_cons.mpr ⟨Block.WellFormed.of_checkBlock hok, ih⟩

/-- In storage a valid ancestry is a line of blocks. -/
theorem Ancestry.line (h : Ancestry crypto prune target c) (hst : Stored blockStore c) :
    BlockLine crypto blockStore c := by
  induction h with
  | genesis => exact ⟨List.isChain_singleton _, rfl⟩
  | @cons c x hc hx ih =>
    have hline := ih fun y hy => hst y (List.mem_cons_of_mem _ hy)
    obtain ⟨p, c, rfl⟩ := List.exists_cons_of_ne_nil hc.ne_nil
    obtain ⟨hprev, hheight, -⟩ := hx.parent p rfl
    exact hline.cons ⟨hprev, hheight, (hc.wellFormed p List.mem_cons_self).height_nonneg,
      hst p (by simp)⟩

/-! ### Median time -/

theorem collectTimestamps_eq (n : Nat) (h : BlockLine crypto blockStore c)
    (hx : c.head? = some x) (horphan : blockStore[genesisBlock.header.previous]? = none) :
    collectTimestamps blockStore n x.2.header = (c.take n).map fun y => y.2.header.time := by
  induction n generalizing c x with
  | zero => rfl
  | succ n ih =>
    obtain ⟨y, c, rfl⟩ := List.exists_cons_of_ne_nil h.ne_nil
    obtain rfl : y = x := Option.some.inj hx
    rcases eq_or_ne c [] with rfl | hne
    · -- genesis: the walk ends here
      obtain rfl : y = genesisEntry crypto := by simpa using h.last
      have hnone : blockStore.getBlockHeader genesisBlock.header.previous = none := by
        rw [BlockStorage.getBlockHeader, horphan]
        rfl
      simp [collectTimestamps, genesisEntry, hnone]
    · obtain ⟨p, c, rfl⟩ := List.exists_cons_of_ne_nil hne
      have hparent := h.parent_head
      obtain ⟨storedAt, hp⟩ := hparent.stored
      have hget : blockStore.getBlockHeader y.2.header.previous = some (p.2.header, storedAt) := by
        rw [BlockStorage.getBlockHeader, hparent.previous, hp]
        rfl
      simp only [collectTimestamps, hget, List.take_succ_cons, List.map_cons]
      rw [ih (h.tail hne) rfl]

/-- The node computes the median time of the ancestors. -/
theorem computeMedianTimestamp_eq (h : BlockLine crypto blockStore c) (hx : c.head? = some x)
    (horphan : blockStore[genesisBlock.header.previous]? = none) :
    computeMedianTimestamp x.2.header blockStore = c.medianTime := by
  rw [computeMedianTimestamp, collectTimestamps_eq _ h hx horphan, medianTime]

/-- An entry of a sorted list is an entry of the list, or the default. -/
theorem getD_insertionSort {p : Int → Prop} {ts : List Int} (h₀ : p 0) (h : ∀ t ∈ ts, p t)
    (n : Nat) : p ((ts.insertionSort (· ≤ ·)).getD n 0) := by
  simp only [List.getD_eq_getElem?_getD]
  cases hget : (ts.insertionSort (· ≤ ·))[n]? with
  | none => exact h₀
  | some a =>
    exact h a ((List.perm_insertionSort (· ≤ ·) ts).mem_iff.mp (List.mem_of_getElem? hget))

/-- The median is at most the latest time. -/
theorem medianTime_le {t : Int} (h₀ : 0 ≤ t) (h : ∀ x ∈ c, x.2.header.time ≤ t) :
    c.medianTime ≤ t := by
  refine getD_insertionSort (p := (· ≤ t)) h₀ (fun a ha => ?_) _
  obtain ⟨x, hx, rfl⟩ := List.mem_map.mp ha
  exact h x (List.mem_of_mem_take hx)

/-! ### The target as a function of the ancestors -/

/-- A storage that holds just the chain. -/
def storageOf (c : Chain) : BlockStorage :=
  c.foldr (fun x blockStore => blockStore.store x.1 x.2 0) ∅

/-- The original target computation over the ancestors alone. -/
def ancestorTarget : Chain → Res BlockID
  | [] => .error (.panic .nilHeader)
  | p :: c => computeTargetBitcoin p.2.header (storageOf (p :: c))

theorem stored_storageOf (h : c.ids.Nodup) : Stored (storageOf c) c := by
  induction c with
  | nil => simp [Stored]
  | cons x c ih =>
    obtain ⟨hx, hc⟩ := List.nodup_cons.mp h
    refine List.forall_mem_cons.mpr ⟨⟨0, ?_⟩, (ih hc).store hx 0⟩
    exact (BlockStorage.get_store _ _ _ _ _).trans (if_pos rfl)

/-- A valid ancestry is a valid chain if no ID occurs twice. -/
theorem Ancestry.valid (h : Ancestry crypto prune target c) (hnd : c.ids.Nodup) :
    Valid crypto prune c := by
  induction h with
  | genesis => exact .cons .nil extends_genesis
  | @cons c x hc hx ih =>
    obtain ⟨hfresh, hnd'⟩ := List.nodup_cons.mp hnd
    have hvalid := ih hnd'
    have hheight := BlockLine.height_eq ((Ancestry.cons hc hx).line (stored_storageOf hnd))
    obtain ⟨now, hok⟩ := hx.checked
    have hwf := Block.WellFormed.of_checkBlock hok
    refine .cons hvalid ⟨⟨hwf, hfresh, hheight, fun p hp => (hx.parent p hp).1⟩, hx.connects, ?_⟩
    exact hvalid.reward_exact hwf hx.connects (hheight ▸ hx.reward)

/-- The original computation only reads the line below the parent. -/
theorem computeTargetBitcoin_congr (h : BlockLine crypto blockStore (x :: c))
    (h' : BlockLine crypto blockStore' (x :: c)) :
    computeTargetBitcoin x.2.header blockStore = computeTargetBitcoin x.2.header blockStore' := by
  have hheight := BlockLine.height_eq h
  have hwalk : ∀ n : Nat, (n : Int) ≤ x.2.header.height →
      walkHeaders blockStore n x.2.header = walkHeaders blockStore' n x.2.header := by
    intro n hn
    have hlen : n < (x :: c).length := by
      rw [List.length_cons]
      omega
    rw [h.walkHeaders_getElem hlen, h'.walkHeaders_getElem hlen]
  simp only [computeTargetBitcoin]
  split_ifs with hinterval hfirst
  · rfl
  · -- a later multiple of the interval
    rw [Int.tmod_eq_emod_of_nonneg (by omega)] at hinterval
    simp only [retargetInterval] at hinterval hfirst ⊢
    rw [hwalk _ (by omega)]
  · simp only [retargetInterval] at hfirst ⊢
    rw [hwalk _ (by omega)]

/-- **Before the revised algorithm the target is a function of the ancestors.** -/
theorem computeTarget_eq_ancestorTarget (ledger : Ledger)
    (h : BlockLine crypto blockStore (x :: c)) (hst : Stored blockStore (x :: c))
    (hlow : x.2.header.height < bitcoinCashRetargetAlgorithmHeight) :
    computeTarget x.2.header blockStore ledger = ancestorTarget (x :: c) := by
  rw [computeTarget, if_neg (not_le.mpr hlow)]
  exact computeTargetBitcoin_congr h
    (BlockLine.of_stored h (stored_storageOf (BlockLine.ids_nodup h hst)))

theorem targetOf_ancestorTarget {s : Processor}
    (hlow : ∀ (id : BlockID) (e : StoredBlock), s.blockStore[id]? = some e →
      e.block.header.height < bitcoinCashRetargetAlgorithmHeight) :
    TargetOf crypto ancestorTarget s := by
  intro c p hp hline hst _
  obtain ⟨y, c, rfl⟩ := List.exists_cons_of_ne_nil hline.ne_nil
  obtain rfl : y = p := Option.some.inj hp
  obtain ⟨storedAt, hget⟩ := hst y List.mem_cons_self
  exact computeTarget_eq_ancestorTarget s.ledger hline hst (hlow _ _ hget)

end Facts

/-! ### The node and the ancestry -/

section Node

variable {crypto : Crypto} {prune : Bool} {P : Transaction → Prop} {Q : Processor → Prop}
  {target : Chain → Res BlockID} {s : Processor} {c d : Chain} {K : Set BlockID}
  {x : BlockID × Block} {b : Block} {now : Int}

theorem existsSigned_new (id : TransactionID) (signature : Signature) :
    TransactionQueue.new.existsSigned id signature = false := by
  simp [TransactionQueue.existsSigned, TransactionQueue.new]

/-- A signature that was verified is good whatever the queue. -/
theorem Acceptable.of_verify {q : TransactionQueue} {height : Int} {tx : Transaction}
    (h : Acceptable crypto q height tx) (hv : tx.isCoinbase = false → tx.verify crypto = true)
    (q' : TransactionQueue) : Acceptable crypto q' height tx :=
  ⟨h.series, h.mature, h.unexpired, fun hcb => Or.inr (hv hcb)⟩

theorem Acceptable.verify_of_new {height : Int} {tx : Transaction}
    (h : Acceptable crypto TransactionQueue.new height tx) (hcb : tx.isCoinbase = false) :
    tx.verify crypto = true := by
  have := h.signed hcb
  rwa [existsSigned_new, Bool.false_eq_true, false_or] at this

/-- An admitted block that connects follows its line. -/
theorem Admits.follows (h : Admits crypto P s c x) (hP : ∀ tx, P tx → tx.verify crypto = true)
    (hs : Agrees crypto target s) (hline : BlockLine crypto s.blockStore c)
    (hconn : Connects crypto prune c x.2) : Follows crypto prune target c x := by
  obtain ⟨p, c, rfl⟩ := List.exists_cons_of_ne_nil hline.ne_nil
  obtain ⟨hprev, hheight, hchecks⟩ := h.parent p rfl
  obtain ⟨htarget, hwork, htime, hacc, -, hreward⟩ := acceptBlockChecks_ok_iff.mp hchecks
  rw [hs.target _ p rfl hline h.stored h.known] at htarget
  rw [computeMedianTimestamp_eq hline rfl hs.orphan] at htime
  refine ⟨⟨h.id_eq, h.checked, ?_, htarget, htime, ?_, hreward⟩, hconn⟩
  · intro p' hp'
    obtain rfl : p = p' := Option.some.inj hp'
    exact ⟨hprev, hheight, hwork⟩
  · intro tx htx
    refine (hacc tx htx).of_verify (fun hcb => hP tx (h.vouched tx ?_)) _
    obtain ⟨now, hok⟩ := h.checked
    obtain ⟨coinbase, transfers, hshape, hcoinbase, -⟩ := (Block.WellFormed.of_checkBlock hok).shape
    rw [hshape] at htx ⊢
    rcases List.mem_cons.mp htx with rfl | htx
    · exact absurd (hcb.symm.trans hcoinbase) Bool.false_ne_true
    · exact htx

/-- **The line of an admitted block is a valid ancestry** if it is a valid
chain. -/
theorem Admitted.ancestry (h : Admitted crypto P Q c) (hP : ∀ tx, P tx → tx.verify crypto = true)
    (hQ : ∀ s, Q s → Agrees crypto target s) (hvalid : Valid crypto prune c) :
    Ancestry crypto prune target c := by
  induction h with
  | genesis => exact .genesis
  | cons s hc hs hx ih =>
    exact .cons (ih hvalid.tail)
      (hx.follows hP (hQ s hs) (hc.line hx.stored) hvalid.head.toConnects)

/-- The clock only decides whether a block is too far in the future. -/
theorem checkBlock_of_late {id : BlockID} {now' : Int} (h : checkBlock crypto id b now' = .ok ())
    (hlate : b.header.time ≤ int64 (now + maxFutureSeconds)) :
    checkBlock crypto id b now = .ok () := by
  rw [checkBlock_ok_iff] at h ⊢
  exact { h with time_le := hlate }

/-- A block on top of a valid and known ancestry passes the node's checks, if the
node requires the target that the block has. -/
theorem Placed.passes_of_target (h : Placed crypto prune P Q s c K)
    (horphan : s.blockStore[genesisBlock.header.previous]? = none)
    (htarget : ∀ p, d.head? = some p →
      computeTarget p.2.header s.blockStore s.ledger = target d)
    (hd : Ancestry crypto prune target d) (hb : Proposed crypto target d (b.id crypto, b))
    (hst : Stored s.blockStore d) (hknown : ∀ y ∈ d, y.1 ∈ K) (hid : b.id crypto ∉ K)
    (hlate : b.header.time ≤ int64 (now + maxFutureSeconds)) :
    Passes crypto P Q s K b now d := by
  have hline := hd.line hst
  obtain ⟨p, e, rfl⟩ := List.exists_cons_of_ne_nil hd.ne_nil
  obtain ⟨now', hok⟩ := hb.checked
  obtain ⟨hprev, hheight, hwork⟩ := hb.parent p rfl
  have hadm : Admitted crypto P Q (p :: e) := by
    obtain ⟨q, e', hadm, hst', -⟩ := h.tree p.1 (hknown p List.mem_cons_self)
    have hq : p = (p.1, q) :=
      hst.eq_of_fst_eq hst' List.mem_cons_self List.mem_cons_self rfl
    rw [← hq] at hadm hst'
    rwa [BlockLine.ext hline (hadm.line hst')]
  refine ⟨hid, checkBlock_of_late hok hlate, hadm, hst, hknown, p, rfl, hprev, hheight,
    acceptBlockChecks_ok_iff.mpr ⟨?_, hwork, ?_, ?_, ?_, hb.reward⟩⟩
  · rw [htarget p rfl]
    exact hb.target
  · rw [computeMedianTimestamp_eq hline rfl horphan]
    exact hb.time
  · exact fun tx htx => (hb.transactions tx htx).of_verify (hb.transactions tx htx).verify_of_new _
  · obtain ⟨coinbase, transfers, hshape, -⟩ := (Block.WellFormed.of_checkBlock hok).shape
    simp [show b.transactions = coinbase :: transfers from hshape]

theorem Placed.passes (h : Placed crypto prune P Q s c K) (hs : Agrees crypto target s)
    (hd : Ancestry crypto prune target d) (hb : Proposed crypto target d (b.id crypto, b))
    (hst : Stored s.blockStore d) (hknown : ∀ y ∈ d, y.1 ∈ K) (hid : b.id crypto ∉ K)
    (hlate : b.header.time ≤ int64 (now + maxFutureSeconds)) :
    Passes crypto P Q s K b now d := by
  refine h.passes_of_target hs.orphan (fun p hp => ?_) hd hb hst hknown hid hlate
  exact hs.target d p hp (hd.line hst) hst fun y hy =>
    (h.describes.known_iff y.1).mpr (hknown y hy)

/-- A block passes the checks on one line only. -/
theorem Passes.unique (h : Passes crypto P Q s K b now c) (h' : Passes crypto P Q s K b now d) :
    c = d := by
  obtain ⟨p, hp, hprev, -⟩ := h.parent
  obtain ⟨q, hq, hprev', -⟩ := h'.parent
  obtain ⟨c, rfl⟩ : ∃ e, c = p :: e := ⟨c.tail, (List.cons_head?_tail hp).symm⟩
  obtain ⟨d, rfl⟩ : ∃ e, d = q :: e := ⟨d.tail, (List.cons_head?_tail hq).symm⟩
  obtain rfl := h.stored.eq_of_fst_eq h'.stored List.mem_cons_self List.mem_cons_self
    (hprev.symm.trans hprev')
  rw [BlockLine.ext (h.admitted.line h.stored) (h'.admitted.line h'.stored)]

/-- **Known blocks stay known.** -/
theorem Settled.step_known (h : Settled crypto prune P Q s c K) (hQ : Q s) {call : Call}
    (hP : call.Vouches crypto P) {id : BlockID} (hid : s.ledger.Known id) :
    (s.step crypto prune call).1.ledger.Known id := by
  have hK := (h.describes.known_iff id).mp hid
  cases call with
  | transaction tx => rwa [(h.processTransaction_settled hP).2.1]
  | block b now source =>
    have hout := h.processBlock_cases hQ source hP
    generalize (s.step crypto prune (.block b now source)).1 = s',
      (s.step crypto prune (.block b now source)).2 = r at hout ⊢
    cases hout with
    | known _ => exact hid
    | refused _ _ => exact hid
    | judged _ _ _ hverdict =>
      cases hverdict with
      | side hs' _ => exact (hs'.describes.known_iff id).mpr (Set.mem_insert_of_mem _ hK)
      | moved hs' _ => exact (hs'.describes.known_iff id).mpr (Set.mem_insert_of_mem _ hK)
      | rejected _ _ _ hl => rwa [hl]

/-- A delivered block that passes the checks is stored and judged. -/
theorem Settled.judged (h : Settled crypto prune P Q s c K) (hQ : Q s) (source : String)
    (hP : (Call.block b now source).Vouches crypto P) (hd : Passes crypto P Q s K b now d) :
    (s.step crypto prune (.block b now source)).1.blockStore =
        s.blockStore.store (b.id crypto) b now ∧
      Verdict crypto prune P Q source s c d K (b.id crypto, b)
        (s.step crypto prune (.block b now source)).1
        (s.step crypto prune (.block b now source)).2 := by
  have hout := h.processBlock_cases hQ source hP
  generalize (s.step crypto prune (.block b now source)).1 = s',
    (s.step crypto prune (.block b now source)).2 = r at hout ⊢
  cases hout with
  | known hK => exact absurd hK hd.unknown
  | refused _ hno => exact absurd hd (hno d)
  | judged hd' _ hstore hverdict =>
    obtain rfl := hd.unique hd'
    exact ⟨hstore, hverdict⟩

/-- **A delivered block that passes the checks on a valid line becomes known.** -/
theorem Settled.learns (h : Settled crypto prune P Q s c K) (hQ : Q s) (source : String)
    (hP : (Call.block b now source).Vouches crypto P) (hd : Passes crypto P Q s K b now d)
    (hvalid : Valid crypto prune ((b.id crypto, b) :: d)) :
    (s.step crypto prune (.block b now source)).1.ledger.Known (b.id crypto) := by
  obtain ⟨-, hverdict⟩ := h.judged hQ source hP hd
  generalize (s.step crypto prune (.block b now source)).1 = s',
    (s.step crypto prune (.block b now source)).2 = r at hverdict ⊢
  cases hverdict with
  | side hs' _ => exact (hs'.describes.known_iff _).mpr (Set.mem_insert _ _)
  | moved hs' _ => exact (hs'.describes.known_iff _).mpr (Set.mem_insert _ _)
  | rejected hnot => exact absurd hvalid hnot

/-- No block is better than the tip. -/
theorem Settled.not_better {t : BlockID × Block} (h : Settled crypto prune P Q s (t :: c) K)
    {id : BlockID} (hid : id ∈ K) : ¬ Better crypto s.blockStore id t.1 := by
  intro hb
  have hirrefl : ¬ Better crypto s.blockStore t.1 t.1 := by
    rintro ⟨e, e', he, he', hcmp⟩
    obtain rfl : e = e' := Option.some.inj (he.symm.trans he')
    rw [compare_irrefl] at hcmp
    exact Bool.false_ne_true hcmp
  by_cases heq : id = t.1
  · exact hirrefl (heq ▸ hb)
  · exact hirrefl ((h.best t rfl id hid heq).trans hb)

section Tip

variable {t : BlockID × Block} {tipWhen : Int}

/-- The stored block and the tip, once the block is stored. -/
theorem Settled.stored_pair (h : Settled crypto prune P Q s (t :: c) K)
    (hd : Passes crypto P Q s K b now d) (htip : s.blockStore[t.1]? = some ⟨t.2, tipWhen⟩)
    {s' : Processor} (hstore : s'.blockStore = s.blockStore.store (b.id crypto) b now) :
    s'.blockStore[b.id crypto]? = some ⟨b, now⟩ ∧
      s'.blockStore[t.1]? = some ⟨t.2, tipWhen⟩ := by
  have hne : b.id crypto ≠ t.1 := fun heq => hd.unknown (heq ▸ h.tip_mem)
  rw [hstore, BlockStorage.get_store, if_pos rfl, BlockStorage.get_store, if_neg hne]
  exact ⟨rfl, htip⟩

/-- **A better block on a valid line becomes the tip.** -/
theorem Settled.moves (h : Settled crypto prune P Q s (t :: c) K) (hQ : Q s) (source : String)
    (hP : (Call.block b now source).Vouches crypto P) (hd : Passes crypto P Q s K b now d)
    (hvalid : Valid crypto prune ((b.id crypto, b) :: d))
    (htip : s.blockStore[t.1]? = some ⟨t.2, tipWhen⟩)
    (hbetter : b.header.compare crypto t.2.header now tipWhen = true) :
    Settled crypto prune P Q (s.step crypto prune (.block b now source)).1
      ((b.id crypto, b) :: d) (insert (b.id crypto) K) ∧
      (s.step crypto prune (.block b now source)).2 = .ok () ∧
      Moved source s (s.step crypto prune (.block b now source)).1 (t :: c) d (b.id crypto, b) := by
  obtain ⟨hstore, hverdict⟩ := h.judged hQ source hP hd
  generalize (s.step crypto prune (.block b now source)).1 = s',
    (s.step crypto prune (.block b now source)).2 = r at hstore hverdict ⊢
  obtain ⟨hself, htip'⟩ := h.stored_pair hd htip hstore
  cases hverdict with
  | moved hs' hmoved => exact ⟨hs', rfl, hmoved⟩
  | rejected hnot => exact absurd hvalid hnot
  | side hs' _ =>
    exact absurd ⟨_, _, hself, htip', hbetter⟩ (hs'.not_better (Set.mem_insert _ _))

/-- **A block that is no better than the tip is put aside.** -/
theorem Settled.puts_aside (h : Settled crypto prune P Q s (t :: c) K) (hQ : Q s) (source : String)
    (hP : (Call.block b now source).Vouches crypto P) (hd : Passes crypto P Q s K b now d)
    (hvalid : Valid crypto prune ((b.id crypto, b) :: d))
    (htip : s.blockStore[t.1]? = some ⟨t.2, tipWhen⟩)
    (hworse : b.header.compare crypto t.2.header now tipWhen = false) :
    Settled crypto prune P Q (s.step crypto prune (.block b now source)).1 (t :: c)
      (insert (b.id crypto) K) ∧
      (s.step crypto prune (.block b now source)).2 = .ok () ∧
      (s.step crypto prune (.block b now source)).1.tipChanges = s.tipChanges := by
  obtain ⟨hstore, hverdict⟩ := h.judged hQ source hP hd
  generalize (s.step crypto prune (.block b now source)).1 = s',
    (s.step crypto prune (.block b now source)).2 = r at hstore hverdict ⊢
  obtain ⟨hself, htip'⟩ := h.stored_pair hd htip hstore
  cases hverdict with
  | side hs' htips => exact ⟨hs', rfl, htips⟩
  | rejected hnot => exact absurd hvalid hnot
  | moved hs' _ =>
    have hne : t.1 ≠ b.id crypto := fun heq => hd.unknown (heq ▸ h.tip_mem)
    obtain ⟨e, e', he, he', hcmp⟩ := hs'.best _ rfl t.1 (Set.mem_insert_of_mem _ h.tip_mem) hne
    obtain rfl := Option.some.inj (hself.symm.trans he)
    obtain rfl := Option.some.inj (htip'.symm.trans he')
    exact absurd (hworse.symm.trans hcmp) Bool.false_ne_true

/-- **A better block on a line that is not valid is refused**, and the move to it
is undone. -/
theorem Settled.refuses (h : Settled crypto prune P Q s (t :: c) K) (hQ : Q s) (source : String)
    (hP : (Call.block b now source).Vouches crypto P) (hd : Passes crypto P Q s K b now d)
    (hnot : ¬ Valid crypto prune ((b.id crypto, b) :: d))
    (htip : s.blockStore[t.1]? = some ⟨t.2, tipWhen⟩)
    (hbetter : b.header.compare crypto t.2.header now tipWhen = true) :
    Settled crypto prune P Q (s.step crypto prune (.block b now source)).1 (t :: c) K ∧
      (∃ e, (s.step crypto prune (.block b now source)).2 = .error e) ∧
      Undone crypto prune source s (s.step crypto prune (.block b now source)).1 t c d := by
  obtain ⟨hstore, hverdict⟩ := h.judged hQ source hP hd
  generalize (s.step crypto prune (.block b now source)).1 = s',
    (s.step crypto prune (.block b now source)).2 = r at hstore hverdict ⊢
  obtain ⟨hself, htip'⟩ := h.stored_pair hd htip hstore
  cases hverdict with
  | side hs' _ =>
    exact absurd ⟨_, _, hself, htip', hbetter⟩ (hs'.not_better (Set.mem_insert _ _))
  | moved hs' _ => exact absurd hs'.valid hnot
  | rejected _ _ hs' _ hundone => exact ⟨hs', ⟨_, rfl⟩, hundone t c rfl⟩

/-- **A block with more work on top of the tip becomes the tip.** -/
theorem Settled.extend (h : Settled crypto prune P Q s (t :: c) K) (hQ : Q s)
    (source : String) (hP : (Call.block b now source).Vouches crypto P)
    (hd : Passes crypto P Q s K b now (t :: c))
    (hvalid : Valid crypto prune ((b.id crypto, b) :: t :: c))
    (hwork : t.2.header.chainWork.toNat < b.header.chainWork.toNat) :
    Settled crypto prune P Q (s.step crypto prune (.block b now source)).1
      ((b.id crypto, b) :: t :: c) (insert (b.id crypto) K) ∧
      (s.step crypto prune (.block b now source)).2 = .ok () ∧
      (s.step crypto prune (.block b now source)).1.blockStore =
        s.blockStore.store (b.id crypto) b now := by
  obtain ⟨tipWhen, htip⟩ := h.stored t List.mem_cons_self
  obtain ⟨hs', hok, -⟩ := h.moves hQ source hP hd hvalid htip (compare_of_work hwork)
  exact ⟨hs', hok, (h.judged hQ source hP hd).1⟩

end Tip

end Node

/-! ### Every valid chain is the main chain of a run -/

section Deliver

variable {crypto : Crypto} {prune : Bool} {A : Call → Prop} {target : Chain → Res BlockID}
  {c : Chain}

/-- The call that delivers a block at the time it carries. -/
def Block.call (b : Block) : Call := .block b b.header.time ""

variable (crypto prune) in
/-- Deliver the blocks of a chain, oldest first. -/
def Chain.deliver : Chain → Processor
  | [] => Processor.new
  | x :: c => ((deliver c).step crypto prune x.2.call).1

/-- A block is never too far in the future at the time it carries. -/
theorem le_maxFuture {id : BlockID} {b : Block} {now : Int}
    (h : checkBlock crypto id b now = .ok ()) :
    b.header.time ≤ int64 (b.header.time + maxFutureSeconds) := by
  obtain ⟨h₀, hmax⟩ := (checkBlock_ok_iff.mp h).time_range
  simp only [maxNumber] at hmax
  rw [int64_of_fits]
  · simp only [maxFutureSeconds]
    omega
  · simp only [Fits64, maxFutureSeconds]
    omega

/-- A block that is not filed under the null ID adds work. -/
theorem Follows.work_lt {x p : BlockID × Block} (h : Follows crypto prune target c x)
    (hp : c.head? = some p) (hnull : x.1 ≠ genesisBlock.header.previous) :
    p.2.header.chainWork.toNat < x.2.header.chainWork.toNat := by
  obtain ⟨now, hok⟩ := h.checked
  have hpow := (checkBlock_ok_iff.mp hok).pow
  have hpos : 0 < x.1.toNat := by
    rw [Nat.pos_iff_ne_zero]
    intro h0
    exact hnull (BitVec.eq_of_toNat_eq h0)
  rw [computeChainWork_eq_ok (h.parent p hp).2.2]
  exact Nat.lt_add_of_pos_right (computeBlockWork_pos (lt_of_lt_of_le hpos hpow))

/-- If no delivered block has the null ID, none is stored under it. -/
theorem Run.orphan {s : Processor} (h : Run crypto prune A s)
    (hA : ∀ b now source, A (.block b now source) → b.id crypto ≠ genesisBlock.header.previous)
    (hg : genesisBlock.id crypto ≠ genesisBlock.header.previous) :
    s.blockStore[genesisBlock.header.previous]? = none := by
  cases hnull : s.blockStore[genesisBlock.header.previous]? with
  | none => rfl
  | some e =>
    obtain ⟨hne, hid⟩ := h.stored (fun b now source hb _ => hA b now source hb) hg hnull
    exact absurd hid hne

/-- A run over few enough blocks, none of them with the null ID, agrees with
the target of the ancestors. -/
theorem Run.agrees {s : Processor} (h : Run crypto prune A s)
    (hA : ∀ b now source, A (.block b now source) →
      b.header.height < bitcoinCashRetargetAlgorithmHeight ∧
        b.id crypto ≠ genesisBlock.header.previous)
    (hg : genesisBlock.id crypto ≠ genesisBlock.header.previous) :
    Agrees crypto ancestorTarget s := by
  refine ⟨targetOf_ancestorTarget fun id e he => ?_, ?_⟩
  · exact (h.stored (fun b now source hb _ => (hA b now source hb).1) (by decide) he).1
  · exact h.orphan (fun b now source hb => (hA b now source hb).2) hg

/-- **Every chain with a valid ancestry is the main chain of the run** that
delivers its blocks in order, as long as the original target computation is in
use. -/
theorem Ancestry.settled_deliver (h : Ancestry crypto prune ancestorTarget c)
    (hg : checkBlock crypto (genesisBlock.id crypto) genesisBlock genesisBlock.header.time = .ok ())
    (hnd : c.ids.Nodup) (hA : ∀ x ∈ c, A x.2.call)
    (hlow : (c.length : Int) ≤ bitcoinCashRetargetAlgorithmHeight + 1)
    (hnull : ∀ b now source, A (.block b now source) →
      b.id crypto ≠ genesisBlock.header.previous)
    (hgenesis : genesisBlock.id crypto ≠ genesisBlock.header.previous) :
    Run crypto prune A (c.deliver crypto prune) ∧
      Settled crypto prune (fun _ => True) (Run crypto prune A) (c.deliver crypto prune) c
        {id | id ∈ c.ids} ∧
      ∀ x ∈ c, (c.deliver crypto prune).blockStore[x.1]? = some ⟨x.2, x.2.header.time⟩ := by
  induction h with
  | genesis =>
    obtain ⟨s, hok, hs, hstore, -⟩ := genesis_step "" hg
    have hdeliver : Chain.deliver crypto prune [genesisEntry crypto] = s :=
      congrArg Prod.fst hok
    have hK : {id | id ∈ ids [genesisEntry crypto]} = {genesisBlock.id crypto} := by
      ext id
      simp [ids, genesisEntry]
    rw [hdeliver, hK]
    refine ⟨.genesis _ "" hok, hs, fun x hx => ?_⟩
    rw [List.mem_singleton.mp hx, hstore]
    exact (BlockStorage.get_store _ _ _ _ _).trans (if_pos rfl)
  | @cons c x hc hx ih =>
    obtain ⟨hxc, hnd'⟩ := List.nodup_cons.mp hnd
    rw [List.length_cons] at hlow
    obtain ⟨hrun, hs, htimes⟩ := ih hnd' (fun y hy => hA y (List.mem_cons_of_mem _ hy)) (by omega)
    obtain ⟨t, c, rfl⟩ := List.exists_cons_of_ne_nil hc.ne_nil
    have hid := hx.id_eq
    obtain ⟨id, b⟩ := x
    obtain rfl : id = b.id crypto := hid
    obtain ⟨now, hok⟩ := hx.checked
    have hline := hc.line hs.stored
    have hheight := BlockLine.height_eq hline
    have hpass : Passes crypto (fun _ => True) (Run crypto prune A) (deliver crypto prune (t :: c))
        {id | id ∈ ids (t :: c)} b b.header.time (t :: c) := by
      refine hs.passes_of_target (hrun.orphan hnull hgenesis) (fun p hp => ?_) hc hx.toProposed
        hs.stored (fun y hy => List.mem_map_of_mem hy) hxc (le_maxFuture hok)
      obtain rfl : t = p := Option.some.inj hp
      refine computeTarget_eq_ancestorTarget _ hline hs.stored ?_
      rw [List.length_cons] at hlow
      omega
    have hvalid : Valid crypto prune ((b.id crypto, b) :: t :: c) :=
      (Ancestry.cons hc hx).valid hnd
    obtain ⟨hs', -, hstore⟩ := hs.extend hrun "" (vouches_true _) hpass hvalid
      (hx.work_lt rfl (hnull b _ _ (hA _ List.mem_cons_self)))
    have hK : {id | id ∈ ids ((b.id crypto, b) :: t :: c)} =
        insert (b.id crypto) {id | id ∈ ids (t :: c)} := by
      ext id
      simp [ids]
    rw [hK]
    refine ⟨.call _ hrun (hA _ List.mem_cons_self), hs', List.forall_mem_cons.mpr ⟨?_, ?_⟩⟩
    · exact (congrArg (·[b.id crypto]?) hstore).trans
        ((BlockStorage.get_store _ _ _ _ _).trans (if_pos rfl))
    · intro y hy
      refine (congrArg (·[y.1]?) hstore).trans ((BlockStorage.get_store _ _ _ _ _).trans ?_)
      rw [if_neg]
      · exact htimes y hy
      · intro heq
        have hmem : y.1 ∈ ids (t :: c) := List.mem_map_of_mem hy
        exact hxc (heq ▸ hmem)

end Deliver

/-! ### A sample chain -/

namespace Sample

/-- A hash that reads the time out of an encoded transaction or header.  Every
other text has the hash list root of genesis. -/
@[irreducible] def sum256 (l : List UInt8) : BitVec 256 :=
  if l.head? ≠ some 123 then genesisBlock.header.hashListRoot
  else if l[2]? = some 116 then BitVec.ofNat 256 (readNumber (l.drop 8))
  else BitVec.ofNat 256 (readNumber (l.drop 170))

/-- Every signature verifies. -/
def crypto : Crypto := ⟨sum256, fun _ _ _ => true⟩

theorem sum256_of_head {l : List UInt8} (h : l.head? ≠ some 123) :
    sum256 l = genesisBlock.header.hashListRoot := by
  rw [sum256, if_pos h]

theorem sum256_text {a b : List UInt8} {x : Int} (hx : 0 ≤ x) (hhead : a.head? = some 123)
    (ha : a[2]? = some 116 ∧ a.length = 8 ∨ a[2]? = some 112 ∧ a.length = 170) :
    sum256 (a ++ (decimal x ++ 44 :: b)) = BitVec.ofNat 256 x.natAbs := by
  have hhead' : (a ++ (decimal x ++ 44 :: b)).head? = some 123 := by
    rw [List.head?_append, hhead, Option.some_or]
  have hdrop : (a ++ (decimal x ++ 44 :: b)).drop a.length = decimal x ++ 44 :: b := List.drop_left
  have hthird : 2 < a.length → (a ++ (decimal x ++ 44 :: b))[2]? = a[2]? :=
    fun h => List.getElem?_append_left h
  rw [sum256, if_neg (not_not.mpr hhead')]
  rcases ha with ⟨h2, hlen⟩ | ⟨h2, hlen⟩
  · rw [if_pos ((hthird (by omega)).trans h2), ← hlen, hdrop, readNumber_decimal hx]
  · rw [if_neg, ← hlen, hdrop, readNumber_decimal hx]
    rw [hthird (by omega), h2]
    decide

theorem transaction_id {tx : Transaction} (h : 0 ≤ tx.time) :
    tx.id crypto = BitVec.ofNat 256 tx.time.natAbs := by
  rw [Transaction.id, Transaction.idJson]
  exact sum256_text (a := ascii "\x7b\"time\":") h (by decide) (Or.inl (by decide))

theorem jsonID_length (id : BitVec 256) : (jsonID id).length = 66 := by
  simp [jsonID, idBytes, List.length_flatMap]

theorem header_json (h : BlockHeader) :
    ∃ a b, h.json = a ++ (decimal h.time ++ 44 :: b) ∧ a.head? = some 123 ∧ a[2]? = some 112 ∧
      a.length = 170 := by
  have htarget : ascii ",\"target\":" = 44 :: ascii "\"target\":" := by decide
  have hhead : ascii "\x7b\"previous\":" = 123 :: 34 :: 112 :: ascii "revious\":" := by decide
  refine ⟨ascii "\x7b\"previous\":" ++ (jsonID h.previous ++ (ascii ",\"hash_list_root\":" ++
    (jsonID h.hashListRoot ++ ascii ",\"time\":"))),
    ascii "\"target\":" ++ (jsonID h.target ++ (ascii ",\"chain_work\":" ++ (jsonID h.chainWork ++
      (ascii ",\"nonce\":" ++ (decimal h.nonce ++ (ascii ",\"height\":" ++ (decimal h.height ++
      (ascii ",\"transaction_count\":" ++ (decimal h.transactionCount ++ ascii "\x7d"))))))))),
    ?_, ?_, ?_, ?_⟩
  · simp only [BlockHeader.json, htarget, List.append_assoc, List.cons_append]
  · rw [hhead]
    rfl
  · rw [hhead]
    rfl
  · simp only [List.length_append, jsonID_length]
    decide

theorem header_id {h : BlockHeader} (h₀ : 0 ≤ h.time) :
    h.id crypto = BitVec.ofNat 256 h.time.natAbs := by
  obtain ⟨a, b, hjson, hhead, hthird, hlen⟩ := header_json h
  rw [BlockHeader.id, hjson]
  exact sum256_text h₀ hhead (Or.inr ⟨hthird, hlen⟩)

/-- The texts of hash lists begin with an identifier below `2 ^ 53`, so with a
zero byte. -/
theorem sum256_idBytes {x : Int} (h : x.natAbs < 2 ^ 53) (l : List UInt8) :
    sum256 (idBytes (BitVec.ofNat 256 x.natAbs) ++ l) = genesisBlock.header.hashListRoot := by
  apply sum256_of_head
  rw [List.head?_append, idBytes, bigEndian_head, Option.some_or, BitVec.toNat_ofNat,
    Nat.mod_eq_of_lt (by omega), Nat.div_eq_of_lt (by omega)]
  decide

theorem computeHashListRoot_eq (coinbase : Transaction) (h₀ : 0 ≤ coinbase.time)
    (h : coinbase.time ≤ maxNumber) (txs : List Transaction) :
    computeHashListRoot crypto (coinbase :: txs) = .ok genesisBlock.header.hashListRoot := by
  simp only [maxNumber] at h
  rw [computeHashListRoot, addCoinbaseToHashListRoot, transaction_id h₀]
  exact congrArg Except.ok (sum256_idBytes (by omega) _)

/-- A block every ten minutes. -/
def time (n : Nat) : Int := genesisBlock.header.time + 600 * n

/-- A transfer by the recipient of the genesis coinbase, with the given
`Matures`. -/
def transfer (matures : Int) : Transaction :=
  { genesisCoinbase with
    time := time 100 + 1
    fromKey := genesisCoinbase.toKey
    toKey := some (List.replicate 32 1)
    amount := 1000000000
    fee := minFeeCruzbits
    matures := matures
    signature := List.replicate 64 0 }

/-- The recipient of the transfer. -/
def payee : PublicKey := List.replicate 32 1

/-- The transfer is mined as soon as it can be paid for. -/
def transfers (matures : Int) (n : Nat) : List Transaction :=
  if n = 100 then [transfer matures] else []

def coinbase (matures : Int) (n : Nat) : Transaction :=
  { genesisCoinbase with
    time := time n
    amount := initialCoinbaseReward + ((transfers matures n).map Transaction.fee).sum }

theorem coinbase_recipient (matures : Int) (n : Nat) :
    (coinbase matures n).recipient = genesisCoinbase.recipient := by
  rw [Transaction.recipient, coinbase, Transaction.recipient]

def block (matures : Int) (n : Nat) : Block where
  header :=
    { genesisBlock.header with
      previous := BitVec.ofNat 256 (time (n - 1)).natAbs
      time := time n
      chainWork := BitVec.ofNat 256 (0x100010001 * (n + 1))
      nonce := 0
      height := n
      transactionCount := 1 + (transfers matures n).length }
  transactions := coinbase matures n :: transfers matures n

def entry (matures : Int) : Nat → BlockID × Block
  | 0 => genesisEntry crypto
  | n + 1 => ((block matures (n + 1)).id crypto, block matures (n + 1))

/-- The first blocks of the chain, newest first. -/
def chain (matures : Int) : Nat → Chain
  | 0 => [entry matures 0]
  | n + 1 => entry matures (n + 1) :: chain matures n

variable {matures : Int} {n : Nat}

theorem entry_time (n : Nat) : (entry matures n).2.header.time = time n := by
  cases n with
  | zero => rfl
  | succ n => rfl

theorem entry_target (n : Nat) :
    (entry matures n).2.header.target = genesisBlock.header.target := by
  cases n <;> rfl

theorem entry_height (n : Nat) : (entry matures n).2.header.height = n := by
  cases n <;> rfl

theorem entry_chainWork (n : Nat) :
    (entry matures n).2.header.chainWork = BitVec.ofNat 256 (0x100010001 * (n + 1)) := by
  cases n <;> rfl

theorem entry_fst (n : Nat) : (entry matures n).1 = BitVec.ofNat 256 (time n).natAbs := by
  have h : (entry matures n).1 = (entry matures n).2.header.id crypto := by cases n <;> rfl
  rw [h, header_id] <;> rw [entry_time]
  simp only [time, genesisBlock]
  omega

theorem mem_chain {x : BlockID × Block} :
    x ∈ chain matures n ↔ ∃ k ≤ n, x = entry matures k := by
  induction n with
  | zero => simp [chain]
  | succ n ih =>
    rw [chain, List.mem_cons, ih]
    constructor
    · rintro (rfl | ⟨k, hk, rfl⟩)
      · exact ⟨n + 1, le_rfl, rfl⟩
      · exact ⟨k, by omega, rfl⟩
    · rintro ⟨k, hk, rfl⟩
      rcases Nat.lt_or_ge n k with hlt | hge
      · exact Or.inl (by rw [show k = n + 1 by omega])
      · exact Or.inr ⟨k, hge, rfl⟩

theorem chain_head (n : Nat) : (chain matures n).head? = some (entry matures n) := by
  cases n <;> rfl

theorem chain_length (n : Nat) : (chain matures n).length = n + 1 := by
  induction n with
  | zero => rfl
  | succ n ih => rw [chain, List.length_cons, ih]

theorem ofNat_inj {a b : Nat} (ha : a < 2 ^ 53) (hb : b < 2 ^ 53)
    (h : BitVec.ofNat 256 a = BitVec.ofNat 256 b) : a = b := by
  have := congrArg BitVec.toNat h
  rwa [BitVec.toNat_ofNat, BitVec.toNat_ofNat, Nat.mod_eq_of_lt (by omega),
    Nat.mod_eq_of_lt (by omega)] at this

theorem time_bounds (hn : n ≤ 101) : 0 ≤ time n ∧ time n + 1 < 2 ^ 31 := by
  simp only [time, genesisBlock]
  omega

theorem chain_nodup (hn : n ≤ 101) : (chain matures n).ids.Nodup := by
  induction n with
  | zero => exact List.nodup_singleton _
  | succ n ih =>
    refine List.nodup_cons.mpr ⟨fun hmem => ?_, ih (by omega)⟩
    obtain ⟨x, hx, hid⟩ := List.mem_map.mp hmem
    obtain ⟨k, hk, rfl⟩ := mem_chain.mp hx
    rw [entry_fst, entry_fst] at hid
    have h₁ := time_bounds (n := n + 1) hn
    have h₂ := time_bounds (n := k) (by omega)
    have := ofNat_inj (by omega) (by omega) hid
    simp only [time] at this h₁ h₂
    omega

theorem coinbase_id (hn : n ≤ 101) :
    (coinbase matures n).id crypto = BitVec.ofNat 256 (time n).natAbs :=
  transaction_id (time_bounds hn).1

theorem transfer_id : (transfer matures).id crypto = BitVec.ofNat 256 (time 100 + 1).natAbs :=
  transaction_id (show 0 ≤ time 100 + 1 by decide)

theorem coinbase_checked (hn : n ≤ 101) : (coinbase matures n).Checked := by
  have htime := time_bounds hn
  have hg := genesisCoinbase_checked
  have hamount : 0 < (coinbase matures n).amount ∧ (coinbase matures n).amount ≤ maxMoney := by
    simp only [coinbase, transfers]
    split_ifs <;>
      simp [transfer, initialCoinbaseReward, cruzbitsPerCruz, maxMoney, minFeeCruzbits]
  refine { hg with time_range := ⟨htime.1, ?_⟩, amount_pos := hamount.1, amount_le := hamount.2 }
  simp only [coinbase, maxNumber]
  omega

theorem transfer_checked (hm : 0 ≤ matures ∧ matures ≤ maxNumber) : (transfer matures).Checked :=
  have h : (transfer 0).Checked := Transaction.checkTransaction_ok_iff.mp
    (show checkTransaction 0 (transfer 0) = .ok () by decide +kernel)
  { h with
    matures_range := hm
    coinbase := fun hcb => absurd (show (transfer 0).isCoinbase = true from hcb) (by decide) }

theorem mem_transfers {tx : Transaction} (h : tx ∈ transfers matures n) :
    n = 100 ∧ tx = transfer matures := by
  unfold transfers at h
  split_ifs at h with hn
  · exact ⟨hn, List.mem_singleton.mp h⟩
  · simp at h

theorem txIDs_nodup (matures : Int) (hn : n ≤ 101) : ((block matures n).txIDs crypto).Nodup := by
  simp only [Block.txIDs, block, List.map_cons, List.nodup_cons, transfers]
  split_ifs with h
  · refine ⟨fun hmem => ?_, by simp⟩
    subst h
    rw [List.map_singleton, List.mem_singleton, coinbase_id hn, transfer_id] at hmem
    have := time_bounds hn
    have := ofNat_inj (by omega) (by omega) hmem
    omega
  · simp

theorem checkBlock_block (hn : n ≤ 101) (hm : 0 ≤ matures ∧ matures ≤ maxNumber) :
    checkBlock crypto (BitVec.ofNat 256 (time n).natAbs) (block matures n) (time n) = .ok () := by
  have htime := time_bounds hn
  obtain ⟨max, hmax, hle⟩ := le_computeMaxTransactionsPerBlock (Int.natCast_nonneg n)
  have hmany : 10000 ≤ max := hle
  have hlen : (transfers matures n).length ≤ 1 := by
    unfold transfers
    split_ifs <;> simp
  have hpow : (BitVec.ofNat 256 (time n).natAbs).toNat ≤ genesisBlock.header.target.toNat := by
    rw [BitVec.toNat_ofNat, Nat.mod_eq_of_lt (by omega)]
    have : 2 ^ 53 ≤ genesisBlock.header.target.toNat := by decide
    omega
  have hroot := computeHashListRoot_eq (coinbase matures n) htime.1
    (show time n ≤ maxNumber by simp only [maxNumber]; omega) (transfers matures n)
  have hfuture : int64 (time n + maxFutureSeconds) = time n + maxFutureSeconds :=
    int64_of_fits (by simp only [Fits64, maxFutureSeconds]; omega)
  refine checkBlock_ok_iff.mpr ⟨?_, ?_, hpow, ?_, ?_, ?_, ?_, ?_, ⟨max, hmax, ?_⟩, ?_,
    txIDs_nodup matures hn, hroot⟩
  · simp only [block, maxNumber]
    omega
  · rw [hfuture]
    simp only [block, maxFutureSeconds]
    omega
  · simp [block, maxNumber]
  · simp only [block, maxNumber]
    omega
  · rw [checkpointCheck, checkpoints, if_neg]
    simp only [block, latestCheckpointHeight]
    omega
  · simp only [block, List.length_cons]
    omega
  · refine ⟨coinbase matures n, transfers matures n, rfl, rfl, fun tx htx => ?_⟩
    obtain ⟨-, rfl⟩ := mem_transfers htx
    rfl
  · simp only [block, List.length_cons]
    omega
  · intro tx htx
    rcases List.mem_cons.mp htx with rfl | htx
    · exact coinbase_checked hn
    · obtain ⟨-, rfl⟩ := mem_transfers htx
      exact transfer_checked hm

theorem checkBlock_genesis :
    checkBlock crypto (genesisBlock.id crypto) genesisBlock genesisBlock.header.time = .ok () := by
  have hid : genesisBlock.id crypto = BitVec.ofNat 256 genesisBlock.header.time.natAbs :=
    header_id (by decide)
  have hroot := computeHashListRoot_eq genesisCoinbase (by decide) (by decide) []
  rw [hid]
  unfold checkBlock
  simp only [show genesisBlock.transactions = [genesisCoinbase] from rfl, hroot,
    checkTransactions, Transaction.checkTransaction_ok_iff.mpr genesisCoinbase_checked]
  decide +kernel

theorem genesis_ok (prune : Bool) :
    (Processor.new.step crypto prune genesisBlock.call).2 = .ok () := by
  obtain ⟨s, hok, -⟩ : ∃ s, Processor.new.step crypto prune genesisBlock.call = (s, .ok ()) ∧
      Settled crypto prune (fun _ => True) (fun _ => True) s _ _ ∧ _ :=
    genesis_step "" checkBlock_genesis
  rw [hok]

theorem dues_eq_nil (matures : Int) (hn : n + 1 < 100) :
    dues (chain matures n) (block matures (n + 1)) = [] := by
  have hdrop : (chain matures n).drop (coinbaseMaturity.toNat - 1) = [] := by
    rw [List.drop_eq_nil_iff, chain_length]
    exact Nat.le_of_lt_succ hn
  have htransfers : transfers matures (n + 1) = [] := if_neg (by omega)
  simp [dues, matured, hdrop, block, htransfers]

/-- No money is spendable before the hundredth block. -/
theorem balances_eq_zero (hn : n < 100) : balances (chain matures n) = 0 := by
  induction n with
  | zero => simp [chain, balances, dues, matured, entry, genesisEntry, genesisBlock]
  | succ n ih =>
    have hdues := dues_eq_nil matures hn
    show settle (balances (chain matures n)) ((dues _ (block matures (n + 1))).map _) = 0
    rw [hdues, ih (by omega)]
    rfl

theorem chain_split (matures : Int) (n : Nat) :
    ∃ e : Chain, chain matures n = e ++ [genesisEntry crypto] ∧ e.length = n := by
  induction n with
  | zero => exact ⟨[], rfl, rfl⟩
  | succ n ih =>
    obtain ⟨e, he, hlen⟩ := ih
    exact ⟨entry matures (n + 1) :: e, by rw [chain, he]; rfl, by rw [List.length_cons, hlen]⟩

/-- The hundredth block pays out the genesis coinbase and holds the transfer. -/
theorem dues_hundred (matures : Int) :
    dues (chain matures 99) (block matures 100) = [genesisCoinbase, transfer matures] := by
  have hmatured : matured (chain matures 99) = some genesisCoinbase := by
    obtain ⟨e, he, hlen⟩ := chain_split matures 99
    have hdrop : (chain matures 99).drop (coinbaseMaturity.toNat - 1) = [genesisEntry crypto] := by
      rw [he]
      exact List.drop_left' hlen
    rw [matured, hdrop]
    rfl
  have htransfers : (block matures 100).transactions.tail = [transfer matures] := rfl
  rw [dues, hmatured, htransfers]
  rfl

theorem genesis_paid :
    (0 + genesisCoinbase.payment.delta) genesisCoinbase.recipient = 5000000000 := by
  rw [zero_add]
  exact Payment.delta_payee (by simp [Transaction.payment, genesisCoinbase])

/-- Only coinbases mature. -/
theorem payer_of_matured {tx : Transaction} (h : matured (chain matures n) = some tx) :
    tx.payment.payer = none := by
  obtain ⟨x, hx, htx⟩ := Option.bind_eq_some_iff.mp h
  obtain ⟨k, hk, rfl⟩ := mem_chain.mp (List.mem_of_mem_drop (List.mem_of_mem_head? hx))
  cases k with
  | zero =>
    obtain rfl : genesisCoinbase = tx := Option.some.inj htx
    rfl
  | succ k =>
    obtain rfl : coinbase matures (k + 1) = tx := Option.some.inj htx
    rfl

theorem covered (hn : n < 101) : Covered (balances (chain matures n))
    ((dues (chain matures n) (block matures (n + 1))).map Transaction.payment) := by
  rcases Nat.lt_or_ge (n + 1) 100 with hlt | hge
  · rw [balances_eq_zero (by omega), dues_eq_nil matures hlt]
    simp [Covered]
  rcases Nat.eq_or_lt_of_le hge with heq | hgt
  · obtain rfl : n = 99 := by omega
    rw [balances_eq_zero (by omega), dues_hundred]
    refine ⟨fun k hk => absurd hk (by simp [Transaction.payment, genesisCoinbase]), ?_, trivial⟩
    -- the sender has just been paid the genesis coinbase
    intro k hk
    obtain rfl : genesisCoinbase.recipient = k := Option.some.inj hk
    rw [genesis_paid]
    show (1000000000 : Int) + minFeeCruzbits ≤ 5000000000
    decide
  · refine covered_of_payer_none (fun p hp => ?_) _
    obtain ⟨tx, htx, rfl⟩ := List.mem_map.mp hp
    have htransfers : transfers matures (n + 1) = [] := if_neg (by omega)
    simp only [dues, block, List.tail_cons, htransfers, List.append_nil, Option.mem_toList] at htx
    exact payer_of_matured htx

/-- What is left to the recipient of the genesis coinbase. -/
theorem balance_hundred (matures : Int) :
    balances (chain matures 100) genesisCoinbase.recipient = 3999000000 := by
  show settle (balances (chain matures 99)) ((dues _ (block matures 100)).map _) _ = _
  rw [dues_hundred, balances_eq_zero (by omega), List.map_cons, List.map_singleton, settle_cons,
    settle_cons, settle_nil, Finsupp.add_apply, genesis_paid]
  have hspent : (transfer matures).payment.delta genesisCoinbase.recipient =
      -((transfer matures).amount + (transfer matures).fee) := by
    refine Payment.delta_payer rfl ?_
    show genesisCoinbase.recipient ≠ (transfer 0).recipient
    decide
  rw [hspent]
  rfl

/-- What the recipient of the transfer has. -/
theorem balance_payee (matures : Int) : balances (chain matures 100) payee = 1000000000 := by
  show settle (balances (chain matures 99)) ((dues _ (block matures 100)).map _) _ = _
  rw [dues_hundred, balances_eq_zero (by omega), List.map_cons, List.map_singleton, settle_cons,
    settle_cons, settle_nil, Finsupp.add_apply]
  have hnone : (0 + genesisCoinbase.payment.delta) payee = 0 := by
    rw [zero_add]
    refine Payment.delta_other ?_ ?_ <;> decide
  have hpaid : (transfer matures).payment.delta payee = (transfer matures).amount := by
    refine Payment.delta_payee ?_
    show (transfer 0).payment.payer ≠ some payee
    decide
  rw [hnone, hpaid]
  rfl

/-- The transactions of a block have the time of the block or one second more. -/
theorem mem_txIDs (hn : n < 101) {id : TransactionID}
    (h : id ∈ (block matures (n + 1)).txIDs crypto) :
    ∃ t : Int, (t = time (n + 1) ∨ t = time (n + 1) + 1) ∧ id = BitVec.ofNat 256 t.natAbs := by
  obtain ⟨tx, htx, rfl⟩ := List.mem_map.mp h
  rcases List.mem_cons.mp htx with rfl | htx
  · exact ⟨_, Or.inl rfl, coinbase_id hn⟩
  · obtain ⟨hn', rfl⟩ := mem_transfers htx
    rw [hn']
    exact ⟨_, Or.inr rfl, transfer_id⟩

theorem mem_txIDs_entry (hn : n < 101) {id : TransactionID}
    (h : id ∈ (entry matures n).2.txIDs crypto) :
    ∃ t : Int, (time n - 30 ≤ t ∧ t ≤ time n + 1) ∧ id = BitVec.ofNat 256 t.natAbs := by
  cases n with
  | zero =>
    obtain rfl : id = genesisCoinbase.id crypto := List.mem_singleton.mp h
    exact ⟨_, by decide, transaction_id (by decide)⟩
  | succ n =>
    obtain ⟨t, ht, rfl⟩ := mem_txIDs (by omega) h
    exact ⟨t, by omega, rfl⟩

theorem unconfirmed (hn : n < 101) {x : BlockID × Block} (hx : x ∈ chain matures n) :
    ∀ id ∈ (block matures (n + 1)).txIDs crypto, id ∉ x.2.txIDs crypto := by
  obtain ⟨k, hk, rfl⟩ := mem_chain.mp hx
  intro id hid hid'
  obtain ⟨t, ht, rfl⟩ := mem_txIDs hn hid
  obtain ⟨t', ht', heq⟩ := mem_txIDs_entry (by omega) hid'
  have h₁ := time_bounds (n := n + 1) hn
  have h₂ := time_bounds (n := k) (by omega)
  have := ofNat_inj (by omega) (by omega) heq
  simp only [time] at *
  omega

theorem computeChainWork_eq (hn : n < 2 ^ 32) :
    computeChainWork genesisBlock.header.target (BitVec.ofNat 256 (0x100010001 * (n + 1))) =
      .ok (BitVec.ofNat 256 (0x100010001 * (n + 1 + 1))) := by
  have hwork : computeBlockWork genesisBlock.header.target = 0x100010001 := by decide +kernel
  have hsum : ((0x100010001 * (n + 1) : Nat) : Int) + (0x100010001 : Nat) =
      (0x100010001 * (n + 1 + 1) : Nat) := by
    push_cast
    ring
  rw [computeChainWork, hwork, BitVec.toNat_ofNat, Nat.mod_eq_of_lt (by omega), hsum, setBigInt,
    Int.natAbs_natCast, if_neg (by omega)]

theorem ancestorTarget_eq (hn : n < 101) :
    ancestorTarget (chain matures n) = .ok genesisBlock.header.target := by
  obtain ⟨c, hc⟩ : ∃ c, chain matures n = entry matures n :: c := by cases n <;> exact ⟨_, rfl⟩
  rw [hc, ancestorTarget, computeTargetBitcoin, entry_height, entry_target, if_pos]
  rw [Int.tmod_eq_emod_of_nonneg (by omega), retargetInterval]
  omega

theorem acceptable (hn : n < 101) (hm : matures = 0 ∨ 100 ≤ matures) {tx : Transaction}
    (htx : tx ∈ (block matures (n + 1)).transactions) :
    Acceptable crypto TransactionQueue.new (n + 1 : Nat) tx := by
  have hdiv : ((n + 1 : Nat) : Int).tdiv blocksUntilNewSeries = 0 := by
    rw [Int.tdiv_eq_ediv_of_nonneg (by omega), blocksUntilNewSeries]
    omega
  rcases List.mem_cons.mp htx with rfl | htx
  · have hcb : (coinbase matures (n + 1)).isCoinbase = true := rfl
    refine ⟨?_, ?_, ?_, ?_⟩
    · rw [checkTransactionSeries, if_pos hcb, hdiv]
      rfl
    all_goals exact fun h => absurd (h.symm.trans hcb) Bool.false_ne_true
  · obtain ⟨hn', rfl⟩ := mem_transfers htx
    refine ⟨?_, fun _ => ?_, fun _ => rfl, fun _ => Or.inr rfl⟩
    · simp only [checkTransactionSeries, hdiv]
      rfl
    · rw [hn', Transaction.isMature]
      split_ifs with h
      · rfl
      · exact decide_eq_true (hm.resolve_left h)

theorem reward_eq (hn : n < 101) : (block matures (n + 1)).coinbaseAmount =
    int64 (blockCreationReward (n + 1 : Nat) + (block matures (n + 1)).wrappedFees) := by
  have hreward : blockCreationReward (n + 1 : Nat) = initialCoinbaseReward := by
    rw [blockCreationReward_natCast, Nat.div_eq_of_lt (by omega)]
    decide
  rw [hreward]
  simp only [Block.coinbaseAmount, Block.wrappedFees, block, coinbase, transfers]
  split_ifs <;> rfl

theorem follows (prune : Bool) (hn : n < 101) (hm : matures = 0 ∨ 100 ≤ matures)
    (hmax : matures ≤ maxNumber) :
    Follows crypto prune ancestorTarget (chain matures n) (entry matures (n + 1)) := by
  have htime := time_bounds (n := n + 1) hn
  refine ⟨⟨rfl, ?_, ?_, ?_, ?_, ?_, ?_⟩, ?_, covered hn⟩
  · rw [entry_fst]
    exact ⟨_, checkBlock_block hn ⟨by omega, hmax⟩⟩
  · intro p hp
    obtain rfl : entry matures n = p := Option.some.inj ((chain_head n).symm.trans hp)
    refine ⟨(entry_fst n).symm, ?_, ?_⟩
    · rw [entry_height, entry_height]
      push_cast
      rfl
    · rw [entry_target, entry_chainWork, entry_chainWork]
      exact computeChainWork_eq (by omega)
  · rw [entry_target]
    exact ancestorTarget_eq hn
  · rw [entry_time]
    refine lt_of_le_of_lt (medianTime_le (time_bounds (n := n) (by omega)).1 fun x hx => ?_) ?_
    · obtain ⟨k, hk, rfl⟩ := mem_chain.mp hx
      rw [entry_time]
      simp only [time]
      omega
    · simp only [time]
      omega
  · exact fun tx htx => acceptable hn hm htx
  · exact reward_eq hn
  · exact fun y hy => unconfirmed hn (Table.mem_of_mem_window hy)

theorem ancestry (prune : Bool) (hn : n ≤ 101) (hm : matures = 0 ∨ 100 ≤ matures)
    (hmax : matures ≤ maxNumber) : Ancestry crypto prune ancestorTarget (chain matures n) := by
  induction n with
  | zero => exact .genesis
  | succ n ih => exact .cons (ih (by omega)) (follows prune hn hm hmax)

/-- The call delivers a block of the chain. -/
def Delivers (matures : Int) (call : Call) : Prop := ∃ n ≤ 100, call = (entry matures n).2.call

theorem entry_id (matures : Int) (n : Nat) :
    (entry matures n).2.id crypto = BitVec.ofNat 256 (time n).natAbs := by
  rw [← entry_fst]
  cases n <;> rfl

theorem entry_ne_null (hn : n ≤ 100) :
    BitVec.ofNat 256 (time n).natAbs ≠ genesisBlock.header.previous := by
  intro h
  have htime := time_bounds (n := n) (by omega)
  have := ofNat_inj (b := 0) (by omega) (by omega) h
  simp only [time, genesisBlock] at this htime
  omega

/-- The processor after the first `n` blocks. -/
def state (prune : Bool) (matures : Int) (n : Nat) : Processor :=
  (chain matures n).deliver crypto prune

/-- **The sample chain is the main chain of a run.** -/
theorem settled (prune : Bool) (hn : n ≤ 100) (hm : matures = 0 ∨ 100 ≤ matures)
    (hmax : matures ≤ maxNumber) :
    Run crypto prune (Delivers matures) (state prune matures n) ∧
      Settled crypto prune (fun _ => True) (Run crypto prune (Delivers matures))
        (state prune matures n) (chain matures n) {id | id ∈ (chain matures n).ids} := by
  have hdelivers : ∀ x ∈ chain matures n, Delivers matures x.2.call := by
    intro x hx
    obtain ⟨k, hk, rfl⟩ := mem_chain.mp hx
    exact ⟨k, by omega, rfl⟩
  have hlow : ((chain matures n).length : Int) ≤ bitcoinCashRetargetAlgorithmHeight + 1 := by
    rw [chain_length]
    simp only [bitcoinCashRetargetAlgorithmHeight]
    omega
  have hnull : ∀ b now source, Delivers matures (.block b now source) →
      b.id crypto ≠ genesisBlock.header.previous := by
    rintro b now source ⟨k, hk, hcall⟩
    obtain rfl : b = (entry matures k).2 := by
      injection hcall
    rw [entry_id]
    exact entry_ne_null hk
  have hgenesis : genesisBlock.id crypto ≠ genesisBlock.header.previous :=
    entry_id matures 0 ▸ entry_ne_null (by omega)
  obtain ⟨hrun, hs, -⟩ := (ancestry prune (by omega) hm hmax).settled_deliver checkBlock_genesis
    (chain_nodup (by omega)) hdelivers hlow hnull hgenesis
  exact ⟨hrun, hs⟩

theorem reachable (prune : Bool) (hn : n ≤ 100) (hm : matures = 0 ∨ 100 ≤ matures)
    (hmax : matures ≤ maxNumber) : Reachable crypto prune (state prune matures n) :=
  (settled prune hn hm hmax).1.mono fun _ _ => trivial

/-- The block at height `n` is stored and on the main chain. -/
theorem state_block (prune : Bool) (hn : n ≤ 100) (hm : matures = 0 ∨ 100 ≤ matures)
    (hmax : matures ≤ maxNumber) {k : Nat} (hk : k ≤ n) :
    (state prune matures n).ledger.getBranchType (entry matures k).1 = .main ∧
      ∃ storedAt, (state prune matures n).blockStore[(entry matures k).1]? =
        some ⟨(entry matures k).2, storedAt⟩ := by
  have hs := (settled prune hn hm hmax).2
  have hmem : entry matures k ∈ chain matures n := mem_chain.mpr ⟨k, hk, rfl⟩
  exact ⟨(hs.describes.getBranchType_eq_main _).mpr (List.mem_map_of_mem hmem),
    hs.stored _ hmem⟩

/-! ### A sibling of the first block -/

/-- A sibling of the first block, seven seconds later. -/
def sibling : Block :=
  { block 0 1 with header := { (block 0 1).header with time := time 1 + 7 } }

theorem genesis_id : genesisBlock.id crypto = BitVec.ofNat 256 1561173156 :=
  header_id (h := genesisBlock.header) (by decide)

theorem sibling_id : sibling.id crypto = BitVec.ofNat 256 1561173763 :=
  header_id (h := sibling.header) (by decide)

theorem sibling_ne_genesis : sibling.id crypto ≠ genesisBlock.id crypto := by
  rw [sibling_id, genesis_id]
  decide

theorem sibling_follows (prune : Bool) :
    Follows crypto prune ancestorTarget (chain 0 0) (sibling.id crypto, sibling) := by
  have hf : Follows crypto prune ancestorTarget (chain 0 0) (entry 0 1) :=
    follows prune (by decide) (Or.inl rfl) (by decide)
  obtain ⟨now, hok⟩ := hf.checked
  have hsane := checkBlock_ok_iff.mp hok
  refine ⟨⟨rfl, ⟨1561173763, checkBlock_ok_iff.mpr ?_⟩, hf.parent, hf.target, ?_, hf.transactions,
    hf.reward⟩, hf.connects.unconfirmed, hf.connects.covered⟩
  · refine ⟨by decide, by decide, ?_, hsane.nonce_range, hsane.height_range, rfl, hsane.count,
      hsane.shape, hsane.size, hsane.checked, hsane.nodup, hsane.root⟩
    rw [sibling_id]
    decide
  · exact hf.time.trans (by decide)

end Sample

end Cruzbit

/-
Cruzbit/LedgerLoops.lean

The transaction loops of `ConnectBlock` and `DisconnectBlock` against the
payments of the chain.  The connecting loop succeeds exactly when no
transaction is indexed already and every payment is covered in its turn
(`connectTransactions_cases`); the disconnecting loop, run on what the
connecting loop leaves, takes the payments back in reverse order
(`disconnectTransactions_eq`).  Either way the batch holds the index
operations of the block and the cache shows the new accounts.

`connectSums` and `disconnectSums` list the exact results of the machine
arithmetic of a loop, up to the point where it stops; all of them fit.
-/
import Cruzbit.Balances

namespace Cruzbit

open Accounts Word

/-- The index operations of the transactions of a block, numbered from `i`. -/
def indexWrites (indices : Crypto → Int → Nat → Transaction → List Write) (crypto : Crypto)
    (height : Int) (i : Nat) (txs : List Transaction) : List Write :=
  (txs.zipIdx i).flatMap fun e => indices crypto height e.2 e.1

/-- The index operations of the transactions of a block, last transaction
first. -/
def reverseIndexWrites (indices : Crypto → Int → Nat → Transaction → List Write) (crypto : Crypto)
    (height : Int) (i : Nat) (txs : List Transaction) : List Write :=
  (txs.zipIdx i).reverse.flatMap fun e => indices crypto height e.2 e.1

namespace Ledger

/-! ### Machine arithmetic of the loops -/

/-- The exact results of the arithmetic that applying what is due carries out. -/
def applyDueSums (l : Ledger) (b : BalanceCache) : Option Transaction → List Int
  | none => []
  | some txToApply => b.applySums l.getPublicKeyBalance txToApply

/-- The same for one round of the loop of `ConnectBlock`. -/
def connectTransactionSums (crypto : Crypto) (l : Ledger) (blockStore : BlockStorage)
    (height : Int) (tx : Transaction) (p : Pass) : List Int :=
  if l.txIndex.contains (tx.id crypto) then []
  else
    match l.dueTransaction blockStore height tx with
    | .error _ => []
    | .ok txToApply => l.applyDueSums p.balanceCache txToApply

/-- The same for the loop of `ConnectBlock`, up to the round that fails. -/
def connectSums (crypto : Crypto) (l : Ledger) (blockStore : BlockStorage) (height : Int) :
    Nat → List Transaction → Pass → List Int
  | _, [], _ => []
  | i, tx :: txs, p =>
    l.connectTransactionSums crypto blockStore height tx p ++
      match l.connectTransaction crypto blockStore height i tx p with
      | .error _ => []
      | .ok p => connectSums crypto l blockStore height (i + 1) txs p

/-- The exact results of the arithmetic of one round of `DisconnectBlock`. -/
def disconnectTransactionSums (l : Ledger) (blockStore : BlockStorage) (height : Int)
    (tx : Transaction) (p : Pass) : List Int :=
  match l.dueTransaction blockStore height tx with
  | .error _ => []
  | .ok none => []
  | .ok (some txToUndo) => p.balanceCache.undoSums l.getPublicKeyBalance txToUndo

/-- The same for the loop of `DisconnectBlock`. -/
def disconnectSums (crypto : Crypto) (l : Ledger) (blockStore : BlockStorage) (height : Int) :
    Nat → List Transaction → Pass → List Int
  | _, [], _ => []
  | i, tx :: txs, p =>
    disconnectSums crypto l blockStore height (i + 1) txs p ++
      match l.disconnectTransactions crypto blockStore height (i + 1) txs p with
      | .error _ => []
      | .ok p => l.disconnectTransactionSums blockStore height tx p

section Loops

variable {crypto : Crypto} {l : Ledger} {blockStore : BlockStorage} {height : Int} {i : Nat}
  {tx : Transaction} {p : Pass} {v w : PublicKey →₀ ℤ} {m : Option Transaction}

/-! ### One round -/

theorem issued_transfer_nonpos (ht : tx.Checked) (hcb : tx.isCoinbase = false) :
    tx.payment.issued ≤ 0 := by
  have hfrom := Transaction.isCoinbase_eq_false_iff.mp hcb
  have := ht.fee_nonneg
  simp only [Payment.issued, Transaction.payment, hfrom]
  omega

variable (crypto) in
/-- Applying what is due makes its payment or fails with an ordinary error. -/
theorem applyDue_cases {b : BalanceCache} (hget : ∀ pk, l.getPublicKeyBalance pk = .ok (v pk))
    (hs : Shows v b w) (hw : Solvent w) (hmin : b.minBalance = 0) (hm : ∀ t ∈ m, t.Checked) :
    ((∃ b', l.applyDue crypto b m = .ok b' ∧ b'.minBalance = 0 ∧
        Covered w (m.toList.map Transaction.payment) ∧
        Shows v b' (settle w (m.toList.map Transaction.payment))) ∨
      (∃ e, l.applyDue crypto b m = .error e ∧ e.isPanic = false ∧
        ¬ Covered w (m.toList.map Transaction.payment))) ∧
    ∀ x ∈ l.applyDueSums b m, Fits64 x := by
  cases m with
  | none =>
    refine ⟨Or.inl ⟨b, rfl, hmin, trivial, by simpa using hs⟩, ?_⟩
    simp [applyDueSums]
  | some t =>
    have ht := hm t rfl
    simp only [Option.toList_some, List.map_cons, List.map_nil, Covered, and_true, settle_cons,
      settle_nil, applyDue, applyDueSums]
    cases hcb : t.isCoinbase with
    | true =>
      obtain ⟨⟨b', hb', hmin', hshow⟩, hfit⟩ := BalanceCache.apply_coinbase hget hs hw ht hcb
      have hcov : t.payment.CoveredBy w := by
        intro k hk
        rw [Transaction.payment, Transaction.isCoinbase_eq_true_iff.mp hcb] at hk
        exact absurd hk (by simp)
      exact ⟨Or.inl ⟨b', by rw [hb'], hmin'.trans hmin, hcov, hshow⟩, hfit⟩
    | false =>
      obtain ⟨⟨b', hb', hmin', hcov, hshow⟩ | ⟨hb', hncov⟩, hfit⟩ :=
        BalanceCache.apply_transfer hget hs hw ht hcb
      · exact ⟨Or.inl ⟨b', by rw [hb'], hmin'.trans hmin, hcov, hshow⟩, hfit⟩
      · exact ⟨Or.inr ⟨_, by rw [hb'], rfl, hncov hmin.le⟩, hfit⟩

variable (crypto) in
/-- One round of `ConnectBlock`. -/
theorem connectTransaction_cases (hget : ∀ pk, l.getPublicKeyBalance pk = .ok (v pk))
    (hs : Shows v p.balanceCache w) (hw : Solvent w) (hmin : p.balanceCache.minBalance = 0)
    (hdue : l.dueTransaction blockStore height tx = .ok m) (hm : ∀ t ∈ m, t.Checked) :
    ((∃ b, l.connectTransaction crypto blockStore height i tx p =
          .ok ⟨b, p.batch ++ putIndices crypto height i tx⟩ ∧ b.minBalance = 0 ∧
        l.txIndex.contains (tx.id crypto) = false ∧
        Covered w (m.toList.map Transaction.payment) ∧
        Shows v b (settle w (m.toList.map Transaction.payment))) ∨
      (∃ e, l.connectTransaction crypto blockStore height i tx p = .error e ∧ e.isPanic = false ∧
        ¬ (l.txIndex.contains (tx.id crypto) = false ∧
          Covered w (m.toList.map Transaction.payment)))) ∧
    ∀ x ∈ l.connectTransactionSums crypto blockStore height tx p, Fits64 x := by
  simp only [connectTransaction, connectTransactionSums, hdue, failIf]
  cases hc : l.txIndex.contains (tx.id crypto) with
  | true => exact ⟨Or.inr ⟨_, rfl, rfl, by simp⟩, by simp⟩
  | false =>
    obtain ⟨⟨b, hb, hmin', hcov, hshow⟩ | ⟨e, he, hpanic, hncov⟩, hfit⟩ :=
      applyDue_cases crypto hget hs hw hmin hm
    · exact ⟨Or.inl ⟨b, by simp only [Bool.false_eq_true, if_false, bind, Except.bind, hb]; rfl,
        hmin', rfl, hcov, hshow⟩, hfit⟩
    · exact ⟨Or.inr ⟨e, by simp only [Bool.false_eq_true, if_false, bind, Except.bind, he],
        hpanic, fun h => hncov h.2⟩, hfit⟩

variable (blockStore height) in
theorem dueTransaction_transfer (hcb : tx.isCoinbase = false) :
    l.dueTransaction blockStore height tx = .ok (some tx) := by
  simp [dueTransaction, hcb]

/-! ### The connecting loop -/

variable (crypto blockStore height) in
/-- The loop over transfers. -/
theorem connectTransfers_cases {txs : List Transaction}
    (hget : ∀ pk, l.getPublicKeyBalance pk = .ok (v pk))
    (htxs : ∀ tx ∈ txs, tx.Checked ∧ tx.isCoinbase = false)
    (hs : Shows v p.balanceCache w) (hw : Solvent w) (hmin : p.balanceCache.minBalance = 0) :
    ((∃ b, l.connectTransactions crypto blockStore height i txs p =
          .ok ⟨b, p.batch ++ indexWrites putIndices crypto height i txs⟩ ∧
        (∀ tx ∈ txs, l.txIndex.contains (tx.id crypto) = false) ∧
        Covered w (txs.map Transaction.payment) ∧
        Shows v b (settle w (txs.map Transaction.payment))) ∨
      (∃ e, l.connectTransactions crypto blockStore height i txs p = .error e ∧
        e.isPanic = false ∧
        ¬ ((∀ tx ∈ txs, l.txIndex.contains (tx.id crypto) = false) ∧
          Covered w (txs.map Transaction.payment)))) ∧
    ∀ x ∈ l.connectSums crypto blockStore height i txs p, Fits64 x := by
  induction txs generalizing i p w with
  | nil =>
    refine ⟨Or.inl ⟨p.balanceCache, ?_, by simp, trivial, by simpa using hs⟩, by simp [connectSums]⟩
    simp [connectTransactions, indexWrites]
  | cons tx txs ih =>
    obtain ⟨ht, hcb⟩ := htxs tx List.mem_cons_self
    obtain ⟨hstep, hfit⟩ := connectTransaction_cases crypto (i := i) hget hs hw hmin
      (dueTransaction_transfer _ _ hcb) (by simpa using ht)
    simp only [Option.toList_some, List.map_cons, List.map_nil, Covered, and_true, settle_cons,
      settle_nil] at hstep
    simp only [connectTransactions, connectSums, List.map_cons, Covered, settle_cons,
      List.forall_mem_cons, List.mem_append]
    rcases hstep with ⟨b, hok, hmin', hnew, hcov, hshow⟩ | ⟨e, herr, hpanic, hfail⟩
    · -- the accounts stay solvent, so the rest of the loop is covered by induction
      have hw' : Solvent (w + tx.payment.delta) := by
        refine hw.pay ht.sound hcov ?_
        have := issued_transfer_nonpos ht hcb
        have := hw.total_le
        omega
      obtain ⟨hrest, hfits⟩ := ih (i := i + 1) (p := ⟨b, p.batch ++ putIndices crypto height i tx⟩)
        (fun t ht => htxs t (List.mem_cons_of_mem _ ht)) hshow hw' hmin'
      rw [hok]
      refine ⟨?_, fun x hx => hx.elim (hfit x) (hfits x)⟩
      rcases hrest with ⟨b', hok', hnew', hcov', hshow'⟩ | ⟨e, herr', hpanic', hfail'⟩
      · refine Or.inl ⟨b', hok'.trans ?_, ⟨hnew, hnew'⟩, ⟨hcov, hcov'⟩, hshow'⟩
        simp [indexWrites, List.zipIdx_cons]
      · exact Or.inr ⟨e, herr', hpanic', fun h => hfail' ⟨h.1.2, h.2.2⟩⟩
    · rw [herr]
      refine ⟨Or.inr ⟨e, rfl, hpanic, fun h => hfail ⟨h.1.1, h.2.1⟩⟩, ?_⟩
      simpa using hfit

variable (crypto) in
/-- **The connecting loop** of a block whose coinbase position pays out `m`. -/
theorem connectTransactions_cases {coinbase : Transaction} {transfers : List Transaction}
    (hget : ∀ pk, l.getPublicKeyBalance pk = .ok (v pk)) (hv : Solvent v)
    (hdue : l.dueTransaction blockStore height coinbase = .ok m)
    (hm : ∀ t ∈ m, t.Checked)
    (hsolvent : Covered v (m.toList.map Transaction.payment) →
      Solvent (settle v (m.toList.map Transaction.payment)))
    (htxs : ∀ tx ∈ transfers, tx.Checked ∧ tx.isCoinbase = false) :
    ((∃ b, l.connectTransactions crypto blockStore height 0 (coinbase :: transfers) Pass.start =
          .ok ⟨b, indexWrites putIndices crypto height 0 (coinbase :: transfers)⟩ ∧
        (∀ tx ∈ coinbase :: transfers, l.txIndex.contains (tx.id crypto) = false) ∧
        Covered v ((m.toList ++ transfers).map Transaction.payment) ∧
        Shows v b (settle v ((m.toList ++ transfers).map Transaction.payment))) ∨
      (∃ e, l.connectTransactions crypto blockStore height 0 (coinbase :: transfers) Pass.start =
          .error e ∧ e.isPanic = false ∧
        ¬ ((∀ tx ∈ coinbase :: transfers, l.txIndex.contains (tx.id crypto) = false) ∧
          Covered v ((m.toList ++ transfers).map Transaction.payment)))) ∧
    ∀ x ∈ l.connectSums crypto blockStore height 0 (coinbase :: transfers) Pass.start,
      Fits64 x := by
  obtain ⟨hstep, hfit⟩ := connectTransaction_cases crypto (i := 0) (p := Pass.start)
    hget (BalanceCache.shows_new 0) hv rfl hdue hm
  simp only [connectTransactions, connectSums, List.map_append, covered_append, settle_append,
    List.forall_mem_cons, List.mem_append]
  rcases hstep with ⟨b, hok, hmin, hnew, hcov, hshow⟩ | ⟨e, herr, hpanic, hfail⟩
  · obtain ⟨hrest, hfits⟩ := connectTransfers_cases crypto blockStore height (i := 1)
      (p := ⟨b, Pass.start.batch ++ putIndices crypto height 0 coinbase⟩) hget htxs hshow
      (hsolvent hcov) hmin
    rw [hok]
    refine ⟨?_, fun x hx => hx.elim (hfit x) (hfits x)⟩
    rcases hrest with ⟨b', hok', hnew', hcov', hshow'⟩ | ⟨e, herr', hpanic', hfail'⟩
    · refine Or.inl ⟨b', hok'.trans ?_, ⟨hnew, hnew'⟩, ⟨hcov, hcov'⟩, hshow'⟩
      simp [indexWrites, List.zipIdx_cons, Pass.start]
    · exact Or.inr ⟨e, herr', hpanic', fun h => hfail' ⟨h.1.2, h.2.2⟩⟩
  · rw [herr]
    refine ⟨Or.inr ⟨e, rfl, hpanic, fun h => hfail ⟨h.1.1, h.2.1⟩⟩, ?_⟩
    simpa using hfit

/-! ### The disconnecting loop -/

variable (crypto) in
/-- One round of `DisconnectBlock` takes back the payment that was due. -/
theorem disconnectTransaction_eq (hget : ∀ pk, l.getPublicKeyBalance pk = .ok (v pk))
    (hw : Solvent w) (hdue : l.dueTransaction blockStore height tx = .ok m)
    (hm : ∀ t ∈ m, t.Checked)
    (hs : Shows v p.balanceCache (settle w (m.toList.map Transaction.payment))) :
    (∃ b, l.disconnectTransaction crypto blockStore height i tx p =
        .ok ⟨b, p.batch ++ deleteIndices crypto height i tx⟩ ∧ Shows v b w) ∧
    ∀ x ∈ l.disconnectTransactionSums blockStore height tx p, Fits64 x := by
  simp only [disconnectTransaction, disconnectTransactionSums, hdue, bind, Except.bind]
  cases m with
  | none => exact ⟨⟨p.balanceCache, rfl, by simpa using hs⟩, by simp⟩
  | some t =>
    simp only [Option.toList_some, List.map_cons, List.map_nil, settle_cons, settle_nil] at hs
    obtain ⟨⟨b, hb, -, hshow⟩, hfit⟩ := BalanceCache.undo_payment hget hw (hm t rfl) hs
    exact ⟨⟨b, by simp only [undoDue, hb]; rfl, hshow⟩, hfit⟩

variable (crypto blockStore height) in
/-- The loop over transfers, last transfer first. -/
theorem disconnectTransfers_eq {txs : List Transaction}
    (hget : ∀ pk, l.getPublicKeyBalance pk = .ok (v pk))
    (htxs : ∀ tx ∈ txs, tx.Checked ∧ tx.isCoinbase = false) (hw : Solvent w)
    (hcov : Covered w (txs.map Transaction.payment))
    (hs : Shows v p.balanceCache (settle w (txs.map Transaction.payment))) :
    (∃ b, l.disconnectTransactions crypto blockStore height i txs p =
        .ok ⟨b, p.batch ++ reverseIndexWrites deleteIndices crypto height i txs⟩ ∧ Shows v b w) ∧
    ∀ x ∈ l.disconnectSums crypto blockStore height i txs p, Fits64 x := by
  induction txs generalizing i w with
  | nil =>
    refine ⟨⟨p.balanceCache, ?_, by simpa using hs⟩, by simp [disconnectSums]⟩
    simp [disconnectTransactions, reverseIndexWrites]
  | cons tx txs ih =>
    obtain ⟨ht, hcb⟩ := htxs tx List.mem_cons_self
    simp only [List.map_cons, Covered, settle_cons] at hcov hs
    have hw' : Solvent (w + tx.payment.delta) := by
      refine hw.pay ht.sound hcov.1 ?_
      have := issued_transfer_nonpos ht hcb
      have := hw.total_le
      omega
    obtain ⟨⟨b, hok, hshow⟩, hfits⟩ := ih (i := i + 1)
      (fun t ht => htxs t (List.mem_cons_of_mem _ ht)) hw' hcov.2 hs
    obtain ⟨⟨b', hok', hshow'⟩, hfit⟩ := disconnectTransaction_eq crypto (i := i)
      (p := ⟨b, p.batch ++ reverseIndexWrites deleteIndices crypto height (i + 1) txs⟩)
      hget hw (dueTransaction_transfer blockStore height hcb)
      (by simpa using ht) (by simpa using hshow)
    simp only [disconnectTransactions, disconnectSums, List.mem_append]
    rw [hok]
    refine ⟨⟨b', hok'.trans ?_, hshow'⟩, fun x hx => hx.elim (hfits x) (hfit x)⟩
    simp [reverseIndexWrites, List.zipIdx_cons]

variable (crypto) in
/-- **The disconnecting loop** undoes what the connecting loop did. -/
theorem disconnectTransactions_eq {coinbase : Transaction} {transfers : List Transaction}
    (hget : ∀ pk, l.getPublicKeyBalance pk = .ok (v pk)) (hw : Solvent w)
    (hdue : l.dueTransaction blockStore height coinbase = .ok m)
    (hm : ∀ t ∈ m, t.Checked)
    (hsolvent : Solvent (settle w (m.toList.map Transaction.payment)))
    (htxs : ∀ tx ∈ transfers, tx.Checked ∧ tx.isCoinbase = false)
    (hcov : Covered w ((m.toList ++ transfers).map Transaction.payment))
    (hv : v = settle w ((m.toList ++ transfers).map Transaction.payment)) :
    (∃ b, l.disconnectTransactions crypto blockStore height 0 (coinbase :: transfers) Pass.start =
        .ok ⟨b, reverseIndexWrites deleteIndices crypto height 0 (coinbase :: transfers)⟩ ∧
      Shows v b w) ∧
    ∀ x ∈ l.disconnectSums crypto blockStore height 0 (coinbase :: transfers) Pass.start,
      Fits64 x := by
  rw [List.map_append, covered_append] at hcov
  rw [List.map_append, settle_append] at hv
  obtain ⟨⟨b, hok, hshow⟩, hfits⟩ := disconnectTransfers_eq crypto blockStore height (i := 1)
    (p := Pass.start) hget htxs hsolvent hcov.2 (hv ▸ BalanceCache.shows_new 0)
  obtain ⟨⟨b', hok', hshow'⟩, hfit⟩ := disconnectTransaction_eq crypto (i := 0)
    (p := ⟨b, Pass.start.batch ++
      reverseIndexWrites deleteIndices crypto height 1 transfers⟩) hget hw hdue hm hshow
  simp only [disconnectTransactions, disconnectSums, List.mem_append]
  rw [hok]
  refine ⟨⟨b', hok'.trans ?_, hshow'⟩, fun x hx => hx.elim (hfits x) (hfit x)⟩
  simp [reverseIndexWrites, List.zipIdx_cons, Pass.start]

end Loops

end Ledger

end Cruzbit

/-
Cruzbit/Admission.lean

What the processor establishes before it lets a block in.

`acceptBlockChecks_ok_iff` lists the checks of `acceptBlock` as conditions on
the block, its parent and the state.  A block is admitted when it passed
them, and `checkBlock` before, on top of a line of stored blocks (`Admits`).
A line is admitted when each of its blocks was, genesis apart, possibly in
different states and long ago (`Admitted`).  Everything that later modules
know about a side branch block comes from here: it can be offered to the
ledger on top of its line (`Admitted.ready`), and chain work does not
decrease and is more than that of genesis (`Admitted.work_lt`).
-/
import Cruzbit.Reorg

namespace Cruzbit

open Chain Lineage Word

/-! ### The checks of acceptBlock -/

/-- What `acceptBlock` checks of each transaction. -/
structure Acceptable (crypto : Crypto) (txQueue : TransactionQueue) (height : Int)
    (tx : Transaction) : Prop where
  series : checkTransactionSeries tx height = true
  mature : tx.isCoinbase = false → tx.isMature height = true
  unexpired : tx.isCoinbase = false → tx.isExpired height = false
  signed : tx.isCoinbase = false →
    txQueue.existsSigned (tx.id crypto) tx.signature = true ∨ tx.verify crypto = true

theorem acceptTransactions_ok_iff {crypto : Crypto} {txQueue : TransactionQueue} {height : Int}
    {txs : List Transaction} {fees total : Int} :
    acceptTransactions crypto txQueue height txs fees = .ok total ↔
      (∀ tx ∈ txs, Acceptable crypto txQueue height tx) ∧
        txs.foldl (fun fees tx => int64 (fees + tx.fee)) fees = total := by
  induction txs generalizing fees with
  | nil => simp [acceptTransactions]
  | cons tx txs ih =>
    simp only [acceptTransactions, Res.bind_eq_ok, Res.exists_unit, failIf_eq_ok, ih,
      List.forall_mem_cons, List.foldl_cons]
    constructor
    · rintro ⟨hseries, hmature, hexpired, hsigned, hrest, htotal⟩
      refine ⟨⟨⟨by simpa using hseries, ?_, ?_, ?_⟩, hrest⟩, htotal⟩
      · intro hcb
        simpa using not_and.mp hmature hcb
      · intro hcb
        simpa using not_and.mp hexpired hcb
      · intro hcb
        have := not_and.mp hsigned hcb
        rw [not_and_or] at this
        simpa using this
    · rintro ⟨⟨⟨hseries, hmature, hexpired, hsigned⟩, hrest⟩, htotal⟩
      refine ⟨by simp [hseries], fun h => ?_, fun h => ?_, fun h => ?_, hrest, htotal⟩
      · exact Bool.false_ne_true (h.2.symm.trans (hmature h.1))
      · exact Bool.false_ne_true ((hexpired h.1).symm.trans h.2)
      · rcases hsigned h.1 with hq | hv
        · exact Bool.false_ne_true (h.2.1.symm.trans hq)
        · exact Bool.false_ne_true (h.2.2.symm.trans hv)

theorem checkCoinbaseAmount_ok_iff {id : BlockID} {block : Block} {reward : Int} :
    checkCoinbaseAmount id block reward = .ok () ↔
      block.transactions ≠ [] ∧ block.coinbaseAmount = reward := by
  unfold checkCoinbaseAmount Block.coinbaseAmount
  cases block.transactions <;> simp

section Checks

variable {crypto : Crypto} {txQueue : TransactionQueue} {blockStore : BlockStorage}
  {ledger : Ledger} {id : BlockID} {block : Block} {prevHeader : BlockHeader}

/-- **The checks of `acceptBlock`.** -/
theorem acceptBlockChecks_ok_iff :
    acceptBlockChecks crypto txQueue blockStore ledger id block prevHeader = .ok () ↔
      computeTarget prevHeader blockStore ledger = .ok block.header.target ∧
      computeChainWork block.header.target prevHeader.chainWork = .ok block.header.chainWork ∧
      computeMedianTimestamp prevHeader blockStore < block.header.time ∧
      (∀ tx ∈ block.transactions, Acceptable crypto txQueue block.header.height tx) ∧
      block.transactions ≠ [] ∧
      block.coinbaseAmount =
        int64 (blockCreationReward block.header.height + block.wrappedFees) := by
  simp only [acceptBlockChecks, Res.bind_eq_ok, Res.exists_unit, failIf_eq_ok,
    acceptTransactions_ok_iff, checkCoinbaseAmount_ok_iff, not_not, not_le, ne_eq]
  constructor
  · rintro ⟨target, ht, rfl, work, hw, rfl, htime, fees, ⟨htxs, rfl⟩, hne, hreward⟩
    exact ⟨ht, hw, htime, htxs, hne, hreward⟩
  · rintro ⟨ht, hw, htime, htxs, hne, hreward⟩
    exact ⟨_, ht, rfl, _, hw, rfl, htime, _, ⟨htxs, rfl⟩, hne, hreward⟩

end Checks

/-- The block after genesis is required to have the target of genesis. -/
theorem computeTarget_genesis (blockStore : BlockStorage) (ledger : Ledger) :
    computeTarget genesisBlock.header blockStore ledger = .ok genesisBlock.header.target := rfl

/-! ### Admitted lines -/

/-- In the state `s` the block passes the processor's checks on top of the
stored line `c`.  Its transfers satisfy `P`. -/
structure Admits (crypto : Crypto) (P : Transaction → Prop) (s : Processor) (c : Chain)
    (x : BlockID × Block) : Prop where
  id_eq : x.1 = x.2.id crypto
  checked : ∃ now, checkBlock crypto x.1 x.2 now = .ok ()
  stored : Stored s.blockStore c
  known : ∀ y ∈ c, s.ledger.Known y.1
  parent : ∀ p ∈ c.head?, x.2.header.previous = p.1 ∧
    x.2.header.height = p.2.header.height + 1 ∧
    acceptBlockChecks crypto s.txQueue s.blockStore s.ledger x.1 x.2 p.2.header = .ok ()
  vouched : ∀ tx ∈ x.2.transactions.tail, P tx

/-- A line each of whose blocks was admitted in a state that satisfies `Q`. -/
inductive Admitted (crypto : Crypto) (P : Transaction → Prop) (Q : Processor → Prop) : Chain → Prop
  | genesis : Admitted crypto P Q [genesisEntry crypto]
  | cons {c : Chain} {x : BlockID × Block} (s : Processor) : Admitted crypto P Q c → Q s →
      Admits crypto P s c x → Admitted crypto P Q (x :: c)

section Admitted

variable {crypto : Crypto} {P : Transaction → Prop} {Q : Processor → Prop} {s : Processor}
  {c d : Chain} {x y : BlockID × Block} {blockStore : BlockStorage}

theorem Admits.acceptable (h : Admits crypto P s c x) (hy : c.head? = some y) :
    ∀ tx ∈ x.2.transactions, Acceptable crypto s.txQueue x.2.header.height tx :=
  (acceptBlockChecks_ok_iff.mp (h.parent y hy).2.2).2.2.2.1

theorem Admitted.ne_nil (h : Admitted crypto P Q c) : c ≠ [] := by
  cases h <;> simp

theorem Admitted.getLast (h : Admitted crypto P Q c) : c.getLast? = some (genesisEntry crypto) := by
  induction h with
  | genesis => rfl
  | @cons c x s hc _ _ ih =>
    obtain ⟨y, c, rfl⟩ := List.exists_cons_of_ne_nil hc.ne_nil
    rw [List.getLast?_cons_cons]
    exact ih

theorem Admitted.suffix (h : Admitted crypto P Q (d ++ x :: c)) : Admitted crypto P Q (x :: c) := by
  induction d with
  | nil => exact h
  | cons y d ih =>
    apply ih
    rw [List.cons_append] at h
    generalize hd : d ++ x :: c = e at h
    cases h with
    | genesis => simp at hd
    | cons s hc _ _ => exact hc

theorem Admitted.tail (h : Admitted crypto P Q (x :: c)) (hc : c ≠ []) : Admitted crypto P Q c := by
  obtain ⟨y, c, rfl⟩ := List.exists_cons_of_ne_nil hc
  exact Admitted.suffix (d := [x]) h

/-- Blocks are filed under their IDs. -/
theorem Admitted.id_eq (h : Admitted crypto P Q c) : ∀ x ∈ c, x.1 = x.2.id crypto := by
  induction h with
  | genesis => simp [genesisEntry]
  | cons s _ _ hx ih => exact List.forall_mem_cons.mpr ⟨hx.id_eq, ih⟩

theorem Admitted.wellFormed (h : Admitted crypto P Q c) : ∀ x ∈ c, x.2.WellFormed crypto := by
  induction h with
  | genesis => simpa [genesisEntry] using genesisBlock_wellFormed crypto
  | cons s _ _ hx ih =>
    obtain ⟨now, hok⟩ := hx.checked
    exact List.forall_mem_cons.mpr ⟨Block.WellFormed.of_checkBlock hok, ih⟩

theorem Admitted.vouched (h : Admitted crypto P Q c) :
    ∀ x ∈ c, ∀ tx ∈ x.2.transactions.tail, P tx := by
  induction h with
  | genesis => simp [genesisEntry, genesisBlock]
  | cons s _ _ hx ih => exact List.forall_mem_cons.mpr ⟨hx.vouched, ih⟩

/-- What `acceptBlock` checked of the transactions of an admitted block. -/
theorem Admitted.acceptable (h : Admitted crypto P Q (x :: c)) {tx : Transaction}
    (htx : tx ∈ x.2.transactions) : ∃ q, Acceptable crypto q x.2.header.height tx := by
  generalize hd : x :: c = d at h
  cases h with
  | genesis =>
    obtain ⟨rfl, -⟩ := List.cons.inj hd
    obtain rfl : tx = genesisCoinbase := List.mem_singleton.mp htx
    have hcb : genesisCoinbase.isCoinbase ≠ false := by decide
    have hseries : checkTransactionSeries genesisCoinbase genesisBlock.header.height = true := by
      decide
    exact ⟨TransactionQueue.new, hseries, fun h => absurd h hcb, fun h => absurd h hcb,
      fun h => absurd h hcb⟩
  | cons s hadm _ hx =>
    obtain ⟨rfl, rfl⟩ := List.cons.inj hd
    obtain ⟨p, c, rfl⟩ := List.exists_cons_of_ne_nil hadm.ne_nil
    exact ⟨_, hx.acceptable rfl tx htx⟩

/-- An admitted line in storage is linked down to genesis. -/
theorem Admitted.line (h : Admitted crypto P Q c) (hst : Stored blockStore c) :
    BlockLine crypto blockStore c := by
  induction h with
  | genesis => exact ⟨List.isChain_singleton _, rfl⟩
  | @cons c x s hc _ hx ih =>
    have hline := ih fun y hy => hst y (List.mem_cons_of_mem _ hy)
    obtain ⟨p, c, rfl⟩ := List.exists_cons_of_ne_nil hc.ne_nil
    obtain ⟨hprev, hheight, -⟩ := hx.parent p rfl
    exact hline.cons ⟨hprev, hheight, (hc.wellFormed p List.mem_cons_self).height_nonneg,
      hst p (by simp)⟩

/-- **An admitted block can be offered to the ledger** on top of its line. -/
theorem Admitted.ready (h : Admitted crypto P Q (x :: c)) (hst : Stored blockStore (x :: c))
    (hc : c ≠ []) : Ready crypto blockStore c x := by
  have hline := h.line hst
  have hheight := BlockLine.height_eq hline
  obtain ⟨p, e, rfl⟩ := List.exists_cons_of_ne_nil hc
  cases h with
  | cons s hadm _ hx =>
    obtain ⟨now, hok⟩ := hx.checked
    obtain ⟨hprev, -, hchecks⟩ := hx.parent p rfl
    refine ⟨⟨Block.WellFormed.of_checkBlock hok, ?_, hheight, ?_⟩, hst x List.mem_cons_self,
      (acceptBlockChecks_ok_iff.mp hchecks).2.2.2.2.2⟩
    · exact (List.nodup_cons.mp (BlockLine.ids_nodup hline hst)).1
    · simpa using hprev

/-! ### Chain work -/

theorem Admits.chainWork (h : Admits crypto P s c x) (hy : c.head? = some y) :
    x.2.header.chainWork.toNat =
      y.2.header.chainWork.toNat + computeBlockWork x.2.header.target :=
  computeChainWork_eq_ok (acceptBlockChecks_ok_iff.mp (h.parent y hy).2.2).2.1

/-- **Every other block has more chain work than genesis.** -/
theorem Admitted.work_lt (h : Admitted crypto P Q (x :: c)) (hc : c ≠ []) :
    genesisBlock.header.chainWork.toNat < x.2.header.chainWork.toNat := by
  induction c generalizing x with
  | nil => exact absurd rfl hc
  | cons p c ih =>
    cases h with
    | cons s hadm _ hx =>
      have hwork := hx.chainWork rfl
      rcases eq_or_ne c [] with rfl | hne
      · -- right above genesis the target is still the initial one
        obtain rfl : p = genesisEntry crypto := by simpa using hadm.getLast
        obtain ⟨htarget, -⟩ := acceptBlockChecks_ok_iff.mp (hx.parent _ rfl).2.2
        have ht : genesisBlock.header.target = x.2.header.target :=
          Except.ok.inj ((computeTarget_genesis _ _).symm.trans htarget)
        have hpos : 0 < computeBlockWork x.2.header.target := by
          rw [← ht]
          exact computeBlockWork_pos (by decide)
        rw [hwork]
        exact Nat.lt_add_of_pos_right hpos
      · exact lt_of_lt_of_le (ih hadm hne) (by omega)

end Admitted

end Cruzbit

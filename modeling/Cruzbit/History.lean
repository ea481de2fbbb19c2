/-
Cruzbit/History.lean

Whole runs of the ledger.  A run starts from the empty ledger with genesis
connected and makes any of the calls the processor can issue: storing a block
that is not known yet, connecting a stored block that passed the processor's
checks, disconnecting a stored block other than genesis, filing a block that
is not known yet as a side branch block.  A call that fails leaves the ledger
as it is.

`LedgerRun.invariant` is what every run keeps: the ledger describes a valid
chain that ends in genesis and lies in storage.  The rest of the module reads
the tables off that chain.
-/
import Cruzbit.LedgerChain

namespace Cruzbit

open Accounts Chain Word

/-! ### Calls and runs -/

/-- A call to block storage or to the ledger. -/
inductive LedgerCall
  | store (id : BlockID) (block : Block) (now : Int)
  | connectBlock (id : BlockID) (block : Block)
  | disconnectBlock (id : BlockID) (block : Block)
  /-- The branch type is `SIDE`. -/
  | setBranchType (id : BlockID)

/-- What the processor has checked of a block before it asks the ledger to
connect it: it passed `checkBlock`, its height is its parent's plus one, and
its coinbase pays the reward and the fees. -/
structure Screened (crypto : Crypto) (blockStore : BlockStorage) (id : BlockID) (block : Block) :
    Prop where
  stored : ∃ storedAt, blockStore[id]? = some ⟨block, storedAt⟩
  checked : ∃ now, checkBlock crypto id block now = .ok ()
  height : ∃ parent storedAt, blockStore.getBlockHeader block.header.previous =
    some (parent, storedAt) ∧ block.header.height = parent.height + 1
  reward : block.coinbaseAmount =
    int64 (blockCreationReward block.header.height + block.wrappedFees)

/-- The processor can issue the call. -/
def LedgerCall.Issued (crypto : Crypto) (blockStore : BlockStorage) (l : Ledger) :
    LedgerCall → Prop
  | .store id _ _ => l.getBranchType id = .unknown
  | .connectBlock id block => Screened crypto blockStore id block
  | .disconnectBlock id block =>
    (∃ storedAt, blockStore[id]? = some ⟨block, storedAt⟩) ∧ id ≠ genesisBlock.id crypto
  | .setBranchType id => l.getBranchType id = .unknown

/-- The block storage after a call. -/
def LedgerCall.blockStore (s : BlockStorage) : LedgerCall → BlockStorage
  | .store id block now => s.store id block now
  | _ => s

/-- The result of a call on the ledger. -/
def LedgerCall.result (crypto : Crypto) (prune : Bool) (s : BlockStorage) (l : Ledger) :
    LedgerCall → Res Ledger
  | .store _ _ _ => .ok l
  | .connectBlock id block => (l.connectBlock crypto prune s id block).map Prod.fst
  | .disconnectBlock id block => (l.disconnectBlock crypto prune s id block).map Prod.fst
  | .setBranchType id => .ok (l.setBranchType id .side)

/-- The ledger after a call: a failed call writes nothing. -/
def LedgerCall.ledger (crypto : Crypto) (prune : Bool) (s : BlockStorage) (l : Ledger)
    (call : LedgerCall) : Ledger :=
  match call.result crypto prune s l with
  | .ok l' => l'
  | .error _ => l

theorem LedgerCall.ledger_of_ok {crypto : Crypto} {prune : Bool} {s : BlockStorage} {l l' : Ledger}
    {call : LedgerCall} (h : call.result crypto prune s l = .ok l') :
    call.ledger crypto prune s l = l' := by
  rw [LedgerCall.ledger, h]

theorem LedgerCall.ledger_of_error {crypto : Crypto} {prune : Bool} {s : BlockStorage} {l : Ledger}
    {call : LedgerCall} {e : Err} (h : call.result crypto prune s l = .error e) :
    call.ledger crypto prune s l = l := by
  rw [LedgerCall.ledger, h]

/-- The runs of the ledger. -/
inductive LedgerRun (crypto : Crypto) (prune : Bool) : BlockStorage → Ledger → Prop
  | genesis {l : Ledger} {txIDs : List TransactionID} (now : Int) :
      Ledger.empty.connectBlock crypto prune
        (BlockStorage.store ∅ (genesisBlock.id crypto) genesisBlock now)
        (genesisBlock.id crypto) genesisBlock = .ok (l, txIDs) →
      LedgerRun crypto prune (BlockStorage.store ∅ (genesisBlock.id crypto) genesisBlock now) l
  | call {s : BlockStorage} {l : Ledger} (call : LedgerCall) : LedgerRun crypto prune s l →
      call.Issued crypto s l →
      LedgerRun crypto prune (call.blockStore s) (call.ledger crypto prune s l)

/-! ### The invariant of runs -/

/-- The ledger describes a valid chain from genesis that lies in storage. -/
structure OnChain (crypto : Crypto) (prune : Bool) (s : BlockStorage) (l : Ledger) (c : Chain)
    (K : Set BlockID) : Prop where
  describes : Describes crypto prune l c K
  valid : Valid crypto prune c
  stored : Stored s c
  genesis : c.getLast? = some (genesisEntry crypto)

section Invariant

variable {crypto : Crypto} {prune : Bool} {s : BlockStorage} {l : Ledger} {c : Chain}
  {K : Set BlockID} {id : BlockID} {block : Block}

/-- Storing an unknown block does not touch the chain. -/
theorem Stored.store (h : Stored s c) (hid : id ∉ c.ids) (now : Int) :
    Stored (s.store id block now) c := by
  intro x hx
  obtain ⟨t, ht⟩ := h x hx
  refine ⟨t, ?_⟩
  rw [BlockStorage.get_store, if_neg, ht]
  rintro rfl
  exact hid (List.mem_map.mpr ⟨x, hx, rfl⟩)

theorem Describes.not_mem_of_unknown (h : Describes crypto prune l c K)
    (hu : l.getBranchType id = .unknown) : id ∉ K := by
  intro hK
  unfold Ledger.getBranchType at hu
  by_cases hc : id ∈ c.ids
  · rw [h.main id hc] at hu
    exact absurd hu (by decide)
  · rw [h.side id hc hK] at hu
    exact absurd hu (by decide)

/-- Filing a side branch block. -/
theorem Describes.setBranchType_side (h : Describes crypto prune l c K)
    (hid : id ∉ c.ids) : Describes crypto prune (l.setBranchType id .side) c (insert id K) := by
  have hget (id' : BlockID) : (l.setBranchType id .side).branchTypes[id']? =
      if id = id' then some .side else l.branchTypes[id']? := Table.get_insert _ _ _ _
  refine ⟨h.chainTip, fun id' h' => Set.mem_insert_of_mem _ (h.known id' h'), ?_, ?_, ?_,
    h.heightIndex, h.txIndex, h.pubKeyTxIndex, h.balances⟩
  · intro id' h'
    rw [hget, if_neg, h.main id' h']
    rintro rfl
    exact hid h'
  · intro id' h' hK
    rw [hget]
    split_ifs with heq
    · rfl
    · exact h.side id' h' (hK.resolve_left (Ne.symm heq))
  · intro id' h'
    rw [Set.mem_insert_iff, not_or] at h'
    rw [hget, if_neg (Ne.symm h'.1), h.unknown id' h'.2]

/-- A screened block that names the tip as its parent fits on the chain. -/
theorem Screened.fits (h : OnChain crypto prune s l c K) (hs : Screened crypto s id block)
    {y : BlockID × Block} (hy : c.head? = some y) (hprev : block.header.previous = y.1) :
    Fits crypto c (id, block) := by
  obtain ⟨t, ht⟩ := hs.stored
  obtain ⟨now, hchk⟩ := hs.checked
  have hheight : block.header.height = c.length := by
    obtain ⟨parent, t', hparent, hh⟩ := hs.height
    obtain ⟨d, rfl⟩ : ∃ d, c = y :: d := List.head?_eq_some_iff.mp hy
    obtain ⟨ty, hty⟩ := h.stored y List.mem_cons_self
    rw [hprev, BlockStorage.getBlockHeader, hty] at hparent
    simp only [Option.map_some, Option.some.injEq, Prod.mk.injEq] at hparent
    rw [hh, ← hparent.1, h.valid.head.height]
    simp
  refine ⟨Block.WellFormed.of_checkBlock hchk, ?_, hheight, ?_⟩
  · -- a block of the chain has a smaller height
    intro hmem
    obtain ⟨x, hx, rfl⟩ := List.mem_map.mp hmem
    obtain ⟨tx, htx⟩ := h.stored x hx
    rw [ht, Option.some.injEq, StoredBlock.mk.injEq] at htx
    have := h.valid.height_lt hx
    rw [← htx.1, hheight] at this
    omega
  · intro z hz
    rw [hy, Option.mem_def, Option.some.injEq] at hz
    rw [← hz, hprev]

theorem Describes.connectBlock_mismatch (h : Describes crypto prune l c K) {y : BlockID × Block}
    (hy : c.head? = some y) (hprev : block.header.previous ≠ y.1) :
    l.connectBlock crypto prune s id block =
      .error (.connectPreviousMismatch id block.header.previous y.1) := by
  simp only [Ledger.connectBlock, Ledger.checkConnects, h.chainTip, hy, Option.map_some, failIf,
    if_pos (Ne.symm hprev)]
  rfl

theorem OnChain.exists_head (h : OnChain crypto prune s l c K) : ∃ y d, c = y :: d := by
  cases c with
  | nil => exact absurd h.genesis (by simp)
  | cons y d => exact ⟨y, d, rfl⟩

/-- **One connect call**: it succeeds exactly when the block names the tip as
its parent and connects, and then the chain grows by it. -/
theorem OnChain.connectBlock_cases (h : OnChain crypto prune s l c K)
    (hs : Screened crypto s id block) :
    (((∃ y ∈ c.head?, block.header.previous = y.1) ∧ Connects crypto prune c block) ∧
      ∃ l', l.connectBlock crypto prune s id block = .ok (l', block.txIDs crypto) ∧
        OnChain crypto prune s l' ((id, block) :: c) (insert id K)) ∨
    (¬ ((∃ y ∈ c.head?, block.header.previous = y.1) ∧ Connects crypto prune c block) ∧
      ∃ e, l.connectBlock crypto prune s id block = .error e) := by
  obtain ⟨y, d, rfl⟩ := h.exists_head
  by_cases hprev : block.header.previous = y.1
  · have hfits := hs.fits h rfl hprev
    rcases h.describes.connectBlock_cases h.valid h.stored hfits with
      ⟨hconn, l', hok, hd⟩ | ⟨hnot, e, herr, -⟩
    · have hreward := h.valid.reward_exact hfits.wellFormed hconn (hfits.height ▸ hs.reward)
      refine Or.inl ⟨⟨⟨y, rfl, hprev⟩, hconn⟩, l', hok, hd, h.valid.cons ⟨hfits, hconn, hreward⟩, ?_,
        by rw [List.getLast?_cons_cons]; exact h.genesis⟩
      exact List.forall_mem_cons.mpr ⟨hs.stored, h.stored⟩
    · exact Or.inr ⟨fun hc => hnot hc.2, e, herr⟩
  · refine Or.inr ⟨?_, _, h.describes.connectBlock_mismatch rfl hprev⟩
    rintro ⟨⟨z, hz, hprev'⟩, -⟩
    rw [List.head?_cons, Option.mem_def, Option.some.injEq] at hz
    exact hprev (hz ▸ hprev')

/-- **One disconnect call**: it succeeds exactly on the tip, and then the chain
shrinks by it. -/
theorem OnChain.disconnectBlock_cases (h : OnChain crypto prune s l c K)
    (hst : ∃ storedAt, s[id]? = some ⟨block, storedAt⟩) (hne : id ≠ genesisBlock.id crypto) :
    (∃ d, c = (id, block) :: d ∧
      ∃ l', l.disconnectBlock crypto prune s id block = .ok (l', block.txIDs crypto) ∧
        OnChain crypto prune s l' d K) ∨
    ((∀ y ∈ c.head?, y.1 ≠ id) ∧ ∃ e, l.disconnectBlock crypto prune s id block = .error e) := by
  obtain ⟨y, d, rfl⟩ := h.exists_head
  by_cases hid : y.1 = id
  · -- storage holds the block that was connected
    obtain ⟨t, ht⟩ := hst
    obtain ⟨t', ht'⟩ := h.stored y List.mem_cons_self
    rw [hid, ht, Option.some.injEq, StoredBlock.mk.injEq] at ht'
    obtain rfl : y = (id, block) := Prod.ext hid ht'.1.symm
    have hd : d ≠ [] := by
      rintro rfl
      have := h.genesis
      rw [List.getLast?_singleton, Option.some.injEq] at this
      exact hne (congrArg Prod.fst this)
    obtain ⟨l', hok, hdesc⟩ := h.describes.disconnectBlock_eq h.valid h.stored hd
    refine Or.inl ⟨d, rfl, l', hok, hdesc, h.valid.tail,
      fun x hx => h.stored x (List.mem_cons_of_mem _ hx), ?_⟩
    obtain ⟨z, e, rfl⟩ := List.exists_cons_of_ne_nil hd
    exact List.getLast?_cons_cons ▸ h.genesis
  · refine Or.inr ⟨by simpa using hid, .disconnectNotTip id y.1, ?_⟩
    simp only [Ledger.disconnectBlock, Ledger.checkDisconnects, h.describes.chainTip,
      List.head?_cons, Option.map_some, failIf, if_pos hid]
    rfl

/-- Genesis connects to the empty ledger. -/
theorem genesis_connects (crypto : Crypto) (prune : Bool) (now : Int) :
    ∃ l, Ledger.empty.connectBlock crypto prune
        (BlockStorage.store ∅ (genesisBlock.id crypto) genesisBlock now)
        (genesisBlock.id crypto) genesisBlock = .ok (l, genesisBlock.txIDs crypto) ∧
      OnChain crypto prune (BlockStorage.store ∅ (genesisBlock.id crypto) genesisBlock now) l
        [genesisEntry crypto] {genesisBlock.id crypto} := by
  have hext : Extends crypto prune [] (genesisEntry crypto) := extends_genesis
  have hempty : Describes crypto prune Ledger.empty [] ∅ := describes_empty
  have hstored : Stored (BlockStorage.store ∅ (genesisBlock.id crypto) genesisBlock now) [] := by
    simp [Stored]
  rcases hempty.connectBlock_cases Valid.nil hstored hext.toFits with
    ⟨-, l, hok, hd⟩ | ⟨hnot, -⟩
  · refine ⟨l, hok, ?_, Valid.nil.cons hext, ?_, rfl⟩
    · rw [insert_empty_eq] at hd
      exact hd
    · simp only [Stored, List.mem_singleton, forall_eq]
      exact ⟨now, by simp [genesisEntry, BlockStorage.get_store]⟩
  · exact absurd hext.toConnects hnot

theorem onChain_genesis {txIDs : List TransactionID} {now : Int}
    (h : Ledger.empty.connectBlock crypto prune
      (BlockStorage.store ∅ (genesisBlock.id crypto) genesisBlock now)
      (genesisBlock.id crypto) genesisBlock = .ok (l, txIDs)) :
    OnChain crypto prune (BlockStorage.store ∅ (genesisBlock.id crypto) genesisBlock now) l
      [genesisEntry crypto] {genesisBlock.id crypto} := by
  obtain ⟨l', hok, hc⟩ := genesis_connects crypto prune now
  obtain rfl : l = l' := congrArg Prod.fst (Except.ok.inj (h.symm.trans hok))
  exact hc

theorem OnChain.setBranchType (h : OnChain crypto prune s l c K)
    (hid : l.getBranchType id = .unknown) :
    OnChain crypto prune s (l.setBranchType id .side) c (insert id K) := by
  refine ⟨h.describes.setBranchType_side fun hmem => ?_, h.valid, h.stored, h.genesis⟩
  exact h.describes.not_mem_of_unknown hid (h.describes.known id hmem)

/-- **One call**: the chain stays, grows by a block or loses its newest one. -/
theorem OnChain.call_cases (h : OnChain crypto prune s l c K) {call : LedgerCall}
    (hissued : call.Issued crypto s l) :
    (∃ K', K ⊆ K' ∧
      OnChain crypto prune (call.blockStore s) (call.ledger crypto prune s l) c K') ∨
    (∃ x, OnChain crypto prune (call.blockStore s) (call.ledger crypto prune s l) (x :: c)
      (insert x.1 K)) ∨
    ∃ x d, c = x :: d ∧
      OnChain crypto prune (call.blockStore s) (call.ledger crypto prune s l) d K := by
  cases call with
  | store id block now =>
    have hid : id ∉ c.ids := fun hmem =>
      h.describes.not_mem_of_unknown hissued (h.describes.known id hmem)
    exact Or.inl ⟨K, subset_rfl, h.describes, h.valid, h.stored.store hid now, h.genesis⟩
  | connectBlock id block =>
    rcases h.connectBlock_cases hissued with ⟨-, l', hok, h'⟩ | ⟨-, e, herr⟩
    · rw [LedgerCall.ledger_of_ok (by rw [LedgerCall.result, hok]; rfl)]
      exact Or.inr (Or.inl ⟨(id, block), h'⟩)
    · rw [LedgerCall.ledger_of_error (by rw [LedgerCall.result, herr]; rfl)]
      exact Or.inl ⟨K, subset_rfl, h⟩
  | disconnectBlock id block =>
    rcases h.disconnectBlock_cases hissued.1 hissued.2 with ⟨d, hd, l', hok, h'⟩ | ⟨-, e, herr⟩
    · rw [LedgerCall.ledger_of_ok (by rw [LedgerCall.result, hok]; rfl)]
      exact Or.inr (Or.inr ⟨(id, block), d, hd, h'⟩)
    · rw [LedgerCall.ledger_of_error (by rw [LedgerCall.result, herr]; rfl)]
      exact Or.inl ⟨K, subset_rfl, h⟩
  | setBranchType id => exact Or.inl ⟨insert id K, Set.subset_insert _ _, h.setBranchType hissued⟩

/-- **Every run keeps a chain.** -/
theorem LedgerRun.invariant (h : LedgerRun crypto prune s l) :
    ∃ c K, OnChain crypto prune s l c K := by
  induction h with
  | genesis now hok => exact ⟨_, _, onChain_genesis hok⟩
  | call call _ hissued ih =>
    obtain ⟨c, K, hc⟩ := ih
    rcases hc.call_cases hissued with ⟨K', -, h'⟩ | ⟨x, h'⟩ | ⟨x, d, -, h'⟩
    · exact ⟨c, K', h'⟩
    · exact ⟨x :: c, _, h'⟩
    · exact ⟨d, K, h'⟩

end Invariant

/-! ### Reading the tables off the chain -/

/-- What the transaction pays to the key. -/
def Transaction.received (pk : PublicKey) (tx : Transaction) : Int :=
  if tx.recipient = pk then tx.amount else 0

/-- What the transaction takes from the key, fee included. -/
def Transaction.sent (pk : PublicKey) (tx : Transaction) : Int :=
  if tx.fromKey = some pk then tx.amount + tx.fee else 0

/-- The key is the recipient, or the sender of a transaction that has one. -/
def Transaction.Involves (pk : PublicKey) (tx : Transaction) : Prop :=
  pk = tx.recipient ∨ (tx.isCoinbase = false ∧ pk = tx.sender)

namespace Chain

/-- The block at a height. -/
def blockAt (c : Chain) (n : Nat) : Option (BlockID × Block) := c.reverse[n]?

theorem blockAt_cons (x : BlockID × Block) (c : Chain) (n : Nat) :
    blockAt (x :: c) n = if n = c.length then some x else blockAt c n := by
  simp only [blockAt, List.reverse_cons, List.getElem?_append, List.length_reverse]
  split_ifs with h₁ h₂ h₂
  · omega
  · rfl
  · simp [h₂]
  · rw [List.getElem?_eq_none (by simp; omega), List.getElem?_eq_none (by simp; omega)]

theorem blockAt_append {d e : Chain} {m : Nat} (hm : m < e.length) :
    blockAt (d ++ e) m = blockAt e m := by
  rw [blockAt, List.reverse_append, List.getElem?_append_left (by rwa [List.length_reverse])]
  rfl

theorem blockAt_length (x : BlockID × Block) (c : Chain) : blockAt (x :: c) c.length = some x := by
  rw [blockAt_cons, if_pos rfl]

/-- The transaction at a height and index. -/
def transactionAt (c : Chain) (n i : Nat) : Option Transaction :=
  (blockAt c n).bind fun x => x.2.transactions[i]?

/-- The sum of the amounts received by the key in non-coinbase transactions,
minus the amounts and fees it sent, plus the coinbases paid to it at heights at
least 100 below the tip. -/
def recordedBalance (c : Chain) (pk : PublicKey) : Int :=
  (c.map fun x => ((x.2.transactions.filter fun tx => !tx.isCoinbase).map fun tx =>
    tx.received pk - tx.sent pk).sum).sum +
  ((c.filter fun x => x.2.header.height ≤ (c.length : Int) - 1 - coinbaseMaturity).map fun x =>
    ((x.2.transactions.filter Transaction.isCoinbase).map (Transaction.received pk)).sum).sum

section Read

variable {crypto : Crypto} {prune : Bool} {c : Chain} {x : BlockID × Block} {b : Block}

theorem Valid.blockAt_iff (h : Valid crypto prune c) {n : Nat} :
    blockAt c n = some x ↔ x ∈ c ∧ x.2.header.height = n := by
  induction h with
  | nil => simp [blockAt]
  | @cons c y hc hy ih =>
    rw [blockAt_cons, List.mem_cons]
    have hyh := hy.height
    split_ifs with hn
    · subst hn
      rw [Option.some.injEq]
      constructor
      · rintro rfl
        exact ⟨Or.inl rfl, hyh⟩
      · rintro ⟨rfl | hx, hh⟩
        · rfl
        · have := hc.height_lt hx
          omega
    · rw [ih]
      constructor
      · rintro ⟨hx, hh⟩
        exact ⟨Or.inr hx, hh⟩
      · rintro ⟨rfl | hx, hh⟩
        · omega
        · exact ⟨hx, hh⟩

theorem delta_apply (tx : Transaction) (pk : PublicKey) :
    tx.payment.delta pk = tx.received pk - tx.sent pk := by
  classical
  unfold Payment.delta Payment.charge Transaction.received Transaction.sent Transaction.payment
  rw [Finsupp.sub_apply, Finsupp.single_apply]
  congr 1
  cases tx.fromKey with
  | none => rfl
  | some k => rw [Finsupp.single_apply]; simp

theorem filter_transfers (hb : b.WellFormed crypto) :
    b.transactions.filter (fun tx => !tx.isCoinbase) = b.transactions.tail := by
  obtain ⟨coinbase, transfers, hshape, hcb, hsigned⟩ := hb.shape
  rw [hshape, List.tail_cons, List.filter_cons_of_neg (by simp [hcb]), List.filter_eq_self]
  intro tx htx
  simp [hsigned tx htx]

theorem filter_coinbase (hb : b.WellFormed crypto) :
    b.transactions.filter Transaction.isCoinbase = b.transactions.head?.toList := by
  obtain ⟨coinbase, transfers, hshape, hcb, hsigned⟩ := hb.shape
  rw [hshape, List.filter_cons_of_pos hcb, List.filter_eq_nil_iff.mpr]
  · rfl
  · intro tx htx
    simp [hsigned tx htx]

/-- The blocks at least `n` below the tip are the ones after the first `n`. -/
theorem Valid.filter_height (h : Valid crypto prune c) (n : Nat) :
    c.filter (fun x => x.2.header.height ≤ (c.length : Int) - 1 - n) = c.drop n := by
  conv_lhs => rw [← List.take_append_drop n c]
  rw [List.filter_append, List.filter_eq_nil_iff.mpr, List.filter_eq_self.mpr, List.nil_append]
  · intro y hy
    have hlt := (h.drop n).height_lt hy
    have hpos := List.length_pos_of_mem hy
    rw [List.length_drop] at hlt hpos
    simp only [List.take_append_drop, decide_eq_true_eq]
    omega
  · intro y hy
    obtain ⟨a, e, he⟩ := List.append_of_mem hy
    have hc : c = a ++ y :: (e ++ c.drop n) := by
      conv_lhs => rw [← List.take_append_drop n c, he]
      simp
    have hh := (hc ▸ h : Valid crypto prune (a ++ y :: (e ++ c.drop n))).extends_of_append.height
    have hlen : (e ++ c.drop n).length ≥ c.length - n := by simp
    simp only [List.take_append_drop, decide_eq_true_eq]
    omega

/-- The newest `n` blocks, by height. -/
theorem Valid.mem_take_iff (h : Valid crypto prune c) (n : Nat) :
    x ∈ c.take n ↔ x ∈ c ∧ (c.length : Int) ≤ x.2.header.height + n := by
  have hdrop : x ∈ c.drop n ↔ x ∈ c ∧ x.2.header.height ≤ (c.length : Int) - 1 - n := by
    rw [← h.filter_height n, List.mem_filter, decide_eq_true_eq]
  have hdisjoint := List.disjoint_take_drop (List.Nodup.of_map _ h.ids_nodup) (le_refl n)
  have hall : x ∈ c ↔ x ∈ c.take n ∨ x ∈ c.drop n := by
    rw [← List.mem_append, List.take_append_drop]
  constructor
  · intro hx
    have hnot := mt hdrop.mpr (hdisjoint hx)
    exact ⟨List.mem_of_mem_take hx, by have := not_and.mp hnot (List.mem_of_mem_take hx); omega⟩
  · rintro ⟨hx, hheight⟩
    refine (hall.mp hx).resolve_right fun hmem => ?_
    have := (hdrop.mp hmem).2
    omega

/-- What a block's coinbase pays to the key. -/
def coinbaseReceived (pk : PublicKey) (x : BlockID × Block) : Int :=
  (x.2.transactions.head?.toList.map (Transaction.received pk)).sum

theorem sum_delta_apply (txs : List Transaction) (pk : PublicKey) :
    ((txs.map Transaction.payment).map Payment.delta).sum pk =
      (txs.map fun tx => tx.received pk - tx.sent pk).sum := by
  induction txs with
  | nil => rfl
  | cons tx txs ih => simp only [List.map_cons, List.sum_cons, Finsupp.add_apply, delta_apply, ih]

/-- The matured coinbase is the newest of the longer chain's old coinbases. -/
theorem Valid.matured_received (h : Valid crypto prune c) (pk : PublicKey) :
    ((matured c).toList.map fun tx => tx.received pk - tx.sent pk).sum +
        ((c.drop coinbaseMaturity.toNat).map (coinbaseReceived pk)).sum =
      ((c.drop (coinbaseMaturity.toNat - 1)).map (coinbaseReceived pk)).sum := by
  have hnext : c.drop coinbaseMaturity.toNat = (c.drop (coinbaseMaturity.toNat - 1)).tail := by
    rw [List.tail_drop]
    rfl
  have hcb : ∀ tx ∈ matured c, tx.isCoinbase = true := fun tx htx => (h.matured_coinbase htx).2
  rw [hnext]
  unfold matured at hcb ⊢
  cases hd : c.drop (coinbaseMaturity.toNat - 1) with
  | nil => simp
  | cons y d =>
    rw [hd] at hcb
    simp only [List.head?_cons, Option.bind_some, List.tail_cons, List.map_cons,
      List.sum_cons] at hcb ⊢
    congr 2
    refine List.map_congr_left fun tx htx => ?_
    have hfrom := Transaction.isCoinbase_eq_true_iff.mp (hcb tx (Option.mem_toList.mp htx))
    simp [Transaction.sent, hfrom]

theorem Valid.balances_apply (h : Valid crypto prune c) (pk : PublicKey) :
    balances c pk =
      (c.map fun x => (x.2.transactions.tail.map fun tx => tx.received pk - tx.sent pk).sum).sum +
      ((c.drop coinbaseMaturity.toNat).map (coinbaseReceived pk)).sum := by
  induction h with
  | nil => simp [balances]
  | @cons c x hc hx ih =>
    have hdrop : (x :: c).drop coinbaseMaturity.toNat = c.drop (coinbaseMaturity.toNat - 1) := rfl
    rw [balances, settle, Finsupp.add_apply, ih, sum_delta_apply, dues, List.map_append,
      List.sum_append, List.map_cons, List.sum_cons, hdrop, ← hc.matured_received pk]
    ring

/-- **The closed form of the accounts.** -/
theorem Valid.balances_eq (h : Valid crypto prune c) (pk : PublicKey) :
    balances c pk = recordedBalance c pk := by
  have hfilter := h.filter_height coinbaseMaturity.toNat
  rw [show ((coinbaseMaturity.toNat : Nat) : Int) = coinbaseMaturity from rfl] at hfilter
  rw [h.balances_apply, recordedBalance, hfilter]
  congr 2
  · exact List.map_congr_left fun x hx => by rw [filter_transfers (h.mem_wellFormed hx)]
  · refine List.map_congr_left fun x hx => ?_
    rw [coinbaseReceived, filter_coinbase (h.mem_wellFormed (List.mem_of_mem_drop hx))]

end Read

end Chain

/-- The tables of an unpruned ledger, read off its main chain. -/
structure MainChainTables (crypto : Crypto) (l : Ledger) (c : Chain) : Prop where
  /-- `T` is the newest block with its height. -/
  chainTip : ∃ x, c.head? = some x ∧ l.chainTip = some (x.1, (c.length : Int) - 1)
  /-- `h` maps exactly the heights of the chain to its blocks' IDs. -/
  heightIndex : ∀ (height : Int) (id : BlockID), l.heightIndex[height]? = some id ↔
    ∃ n : Nat, height = n ∧ (blockAt c n).map Prod.fst = some id
  /-- A block is marked main exactly when it is in `h`. -/
  main : ∀ id, l.getBranchType id = .main ↔ ∃ height : Int, l.heightIndex[height]? = some id
  /-- `t` holds the height and index of every transaction of the chain. -/
  txIndex : ∀ (id : TransactionID) (height index : Int), l.txIndex[id]? = some (height, index) ↔
    ∃ n i : Nat, height = n ∧ index = i ∧ (transactionAt c n i).map (Transaction.id crypto) = some id
  /-- `k` holds an entry for every key involved in a transaction of the chain. -/
  pubKeyTxIndex : ∀ key, l.pubKeyTxIndex.contains key = true ↔
    ∃ pk tx, ∃ n i : Nat, transactionAt c n i = some tx ∧ tx.Involves pk ∧
      key = computePubKeyTransactionIndexKey pk (some (n : Int)) (some (i : Int))
  /-- Different keys or different transactions have different entries in `k`. -/
  pubKeyTxIndex_inj : ∀ pk pk' tx tx', ∀ n i n' i' : Nat,
    transactionAt c n i = some tx → tx.Involves pk →
    transactionAt c n' i' = some tx' → tx'.Involves pk' →
    computePubKeyTransactionIndexKey pk (some (n : Int)) (some (i : Int)) =
      computePubKeyTransactionIndexKey pk' (some (n' : Int)) (some (i' : Int)) →
    pk = pk' ∧ n = n' ∧ i = i'
  /-- `b` holds the nonzero balances. -/
  balances : ∀ pk, l.balances[pk]? =
    if recordedBalance c pk = 0 then none else some (recordedBalance c pk)

section Tables

variable {crypto : Crypto} {prune : Bool} {s s' : BlockStorage} {l l' : Ledger} {c c' : Chain}
  {K K' : Set BlockID} {x : BlockID × Block}

theorem Describes.getBranchType_eq_main (h : Describes crypto prune l c K) (id : BlockID) :
    l.getBranchType id = .main ↔ id ∈ c.ids := by
  unfold Ledger.getBranchType
  by_cases hc : id ∈ c.ids
  · simp [h.main id hc, hc]
  · by_cases hK : id ∈ K
    · simp [h.side id hc hK, hc]
    · simp [h.unknown id hK, hc]

theorem Describes.getBranchType_eq_unknown (h : Describes crypto prune l c K) (id : BlockID) :
    l.getBranchType id = .unknown ↔ id ∉ K := by
  refine ⟨h.not_mem_of_unknown, fun hK => ?_⟩
  rw [Ledger.getBranchType, h.unknown id hK]
  rfl

theorem Describes.known_iff (h : Describes crypto prune l c K) (id : BlockID) :
    l.Known id ↔ id ∈ K := by
  unfold Ledger.Known Ledger.getBranchType
  by_cases hc : id ∈ c.ids
  · simp [h.main id hc, h.known id hc]
  · by_cases hK : id ∈ K
    · simp [h.side id hc hK, hK]
    · simp [h.unknown id hK, hK]

theorem mem_partyKeys {height : Int} {i : Nat} {tx : Transaction} {key : List UInt8} :
    key ∈ partyKeys height i tx ↔ ∃ pk, tx.Involves pk ∧
      key = computePubKeyTransactionIndexKey pk (some height) (some (i : Int)) := by
  unfold partyKeys Transaction.Involves
  cases hcb : tx.isCoinbase
  · simp only [Bool.false_eq_true, if_false, List.cons_append, List.nil_append, List.mem_cons,
      List.not_mem_nil, or_false, true_and]
    constructor
    · rintro (rfl | rfl)
      · exact ⟨tx.sender, Or.inr rfl, rfl⟩
      · exact ⟨tx.recipient, Or.inl rfl, rfl⟩
    · rintro ⟨pk, rfl | rfl, rfl⟩
      · exact Or.inr rfl
      · exact Or.inl rfl
  · simp only [if_true, List.nil_append, List.mem_singleton, reduceCtorEq, false_and, or_false,
      exists_eq_left]

theorem Chain.Valid.transactionAt_iff (h : Valid crypto prune c) {n i : Nat} {tx : Transaction} :
    transactionAt c n i = some tx ↔
      ∃ x ∈ c, x.2.header.height = n ∧ x.2.transactions[i]? = some tx := by
  unfold transactionAt
  rw [Option.bind_eq_some_iff]
  simp only [h.blockAt_iff, and_assoc]

/-- A party of a transaction of a valid chain has a key of the right size. -/
theorem Chain.Valid.involves_length (h : Valid crypto prune c) {n i : Nat} {tx : Transaction}
    (htx : transactionAt c n i = some tx) {pk : PublicKey} (hpk : tx.Involves pk) :
    pk.length = publicKeySize ∧ (n : Int) ≤ maxNumber ∧ (i : Int) < 2 ^ 31 := by
  obtain ⟨x, hx, hheight, hget⟩ := h.transactionAt_iff.mp htx
  have hwf := h.mem_wellFormed hx
  have hchk := hwf.checked tx (List.mem_of_getElem? hget)
  have hi := (List.getElem?_eq_some_iff.mp hget).1
  have hlen := hwf.length_lt
  refine ⟨?_, hheight ▸ hwf.height_le, by omega⟩
  rcases hpk with rfl | ⟨hcb, rfl⟩
  · exact hchk.recipient_length
  · exact (hchk.signed hcb).1

theorem OnChain.tables (h : OnChain crypto false s l c K) : MainChainTables crypto l c where
  chainTip := by
    obtain ⟨y, d, rfl⟩ := h.exists_head
    exact ⟨y, rfl, h.describes.chainTip⟩
  heightIndex := by
    intro height id
    rw [h.describes.heightIndex height id]
    simp only [List.mem_map, heightEntry, Prod.mk.injEq, Option.map_eq_some_iff,
      h.valid.blockAt_iff]
    constructor
    · rintro ⟨x, hx, rfl, rfl⟩
      have := (h.valid.mem_wellFormed hx).height_nonneg
      exact ⟨x.2.header.height.toNat, by omega, x, ⟨hx, by omega⟩, rfl⟩
    · rintro ⟨n, rfl, x, ⟨hx, hheight⟩, rfl⟩
      exact ⟨x, hx, hheight, rfl⟩
  main := by
    intro id
    rw [h.describes.getBranchType_eq_main, ids, List.mem_map]
    constructor
    · rintro ⟨x, hx, rfl⟩
      exact ⟨_, (h.describes.heightIndex _ _).mpr (List.mem_map.mpr ⟨x, hx, rfl⟩)⟩
    · rintro ⟨height, hheight⟩
      obtain ⟨x, hx, heq⟩ := List.mem_map.mp ((h.describes.heightIndex _ _).mp hheight)
      exact ⟨x, hx, congrArg Prod.snd heq⟩
  txIndex := by
    intro id height index
    rw [h.describes.txIndex id (height, index)]
    simp only [List.mem_flatMap, Option.map_eq_some_iff, h.valid.transactionAt_iff]
    constructor
    · rintro ⟨x, hx, hmem⟩
      obtain ⟨e, he, heq⟩ := List.mem_map.mp hmem
      simp only [Prod.mk.injEq] at heq
      have := (h.valid.mem_wellFormed hx).height_nonneg
      exact ⟨x.2.header.height.toNat, e.2, by omega, heq.2.2.symm, e.1,
        ⟨x, hx, by omega, List.mem_zipIdx_iff_getElem?.mp he⟩, heq.1⟩
    · rintro ⟨n, i, rfl, rfl, tx, ⟨x, hx, hheight, hget⟩, rfl⟩
      refine ⟨x, hx, List.mem_map.mpr ⟨(tx, i), List.mem_zipIdx_iff_getElem?.mpr hget, ?_⟩⟩
      rw [hheight]
  pubKeyTxIndex := by
    intro key
    rw [h.describes.pubKeyTxIndex.contains_iff]
    simp only [List.mem_flatMap, keyEntries, List.mem_map, Prod.mk.injEq, and_true, mem_partyKeys,
      h.valid.transactionAt_iff]
    constructor
    · rintro ⟨-, x, hx, e, he, key, ⟨pk, hpk, rfl⟩, rfl⟩
      have := (h.valid.mem_wellFormed hx).height_nonneg
      refine ⟨pk, e.1, x.2.header.height.toNat, e.2, ⟨x, hx, by omega,
        List.mem_zipIdx_iff_getElem?.mp he⟩, hpk, ?_⟩
      rw [Int.toNat_of_nonneg this]
    · rintro ⟨pk, tx, n, i, ⟨x, hx, hheight, hget⟩, hpk, rfl⟩
      exact ⟨(), x, hx, (tx, i), List.mem_zipIdx_iff_getElem?.mpr hget, _,
        ⟨pk, hpk, by rw [hheight]⟩, rfl⟩
  pubKeyTxIndex_inj := by
    intro pk pk' tx tx' n i n' i' htx hpk htx' hpk' heq
    obtain ⟨hl, hn, hi⟩ := h.valid.involves_length htx hpk
    obtain ⟨hl', hn', hi'⟩ := h.valid.involves_length htx' hpk'
    obtain ⟨rfl, hn, hi⟩ := computePubKeyTransactionIndexKey_inj hl hl' ⟨by omega, hn⟩
      ⟨by omega, hn'⟩ ⟨by omega, hi⟩ ⟨by omega, hi'⟩ heq
    exact ⟨rfl, by omega, by omega⟩
  balances := by
    intro pk
    rw [h.describes.balances pk, h.valid.balances_eq]

/-- The block on the main chain at a height, as the height index and block
storage give it. -/
def mainBlock (s : BlockStorage) (l : Ledger) (n : Nat) : Option (BlockID × Block) :=
  (l.getBlockIDForHeight n).bind fun id => (s[id]?).map fun e => (id, e.block)

theorem OnChain.mainBlock_eq (h : OnChain crypto prune s l c K) (n : Nat) :
    mainBlock s l n = blockAt c n := by
  refine Option.ext fun x => ?_
  have hget : ∀ y ∈ c, (s[y.1]?).map (fun e => (y.1, e.block)) = some y := by
    intro y hy
    obtain ⟨t, ht⟩ := h.stored y hy
    simp [ht]
  simp only [mainBlock, Option.bind_eq_some_iff, h.valid.blockAt_iff, Ledger.getBlockIDForHeight,
    h.describes.heightIndex _ _, List.mem_map, heightEntry, Prod.mk.injEq]
  constructor
  · rintro ⟨id, ⟨y, hy, hheight, rfl⟩, hx⟩
    rw [hget y hy, Option.some.injEq] at hx
    exact hx ▸ ⟨hy, hheight⟩
  · rintro ⟨hx, hheight⟩
    exact ⟨x.1, ⟨x, hx, hheight, rfl⟩, hget x hx⟩

/-- The chain is what the height index and block storage say it is. -/
theorem OnChain.chain_unique {prune' : Bool} (h : OnChain crypto prune s l c K)
    (h' : OnChain crypto prune' s' l' c' K') (heq : ∀ n, mainBlock s' l' n = mainBlock s l n) :
    c' = c := by
  refine List.reverse_injective (List.ext_getElem? fun n => ?_)
  exact (h'.mainBlock_eq n).symm.trans ((heq n).trans (h.mainBlock_eq n))

theorem OnChain.linked (h : OnChain crypto prune s l c K) :
    c.IsChain fun x y => x.2.header.previous = y.1 := by
  have hv := h.valid
  clear h
  induction hv with
  | nil => exact List.isChain_nil
  | @cons c x _ hx ih =>
    cases c with
    | nil => exact List.isChain_singleton x
    | cons y c => exact List.isChain_cons_cons.mpr ⟨hx.linked y rfl, ih⟩

end Tables

end Cruzbit

/-
Cruzbit/BlockMessage.lean

`checkBlock` on what a peer sends.

The array of transactions in a "block" message is decoded into a slice of
pointers, and a JSON null in it becomes a nil pointer.  The message handler
looks for a nil block and a nil header but not for nil transactions, and
`IsCoinbase` and `ID` read through the pointer.  `DecodedBlock.checkBlock` is
`checkBlock` with these reads in it.

Without nulls it is the `checkBlock` of the rest of the model
(`checkBlock_ofBlock`), which never panics.  With nulls it panics at the first
one it reads, unless one of the checks in front of it returns an error
(`checkBlock_total_iff`).
-/
import Cruzbit.BlockCheck

namespace Cruzbit

/-! ### Panics -/

section Panics

variable {α β : Type}

/-- The computation ends in a run-time panic. -/
def Panics (r : Res α) : Prop := ∃ p, r = .error (.panic p)

@[simp] theorem not_panics_ok (a : α) : ¬ Panics (.ok a) := by
  rintro ⟨p, hp⟩
  cases hp

@[simp] theorem panics_panic (p : Panic) : Panics (.error (.panic p) : Res α) := ⟨p, rfl⟩

@[simp] theorem panics_bind {x : Res α} {f : α → Res β} :
    Panics (x >>= f) ↔ Panics x ∨ ∃ a, x = .ok a ∧ Panics (f a) := by
  cases x with
  | ok a => simp [bind, Except.bind]
  | error e => simp [bind, Except.bind, Panics]

@[simp] theorem panics_failIf {cond : Prop} [Decidable cond] {e : Err} :
    Panics (failIf cond e) ↔ cond ∧ e.isPanic = true := by
  unfold failIf Panics
  split_ifs with h
  · cases e <;> simp [h, Err.isPanic]
  · simp [h]

end Panics

/-! ### A decoded block -/

/-- A block as decoded from a message: an element of the array may be null. -/
structure DecodedBlock where
  header : BlockHeader
  transactions : List (Option Transaction)
  deriving DecidableEq, Repr

/-- A method with a value receiver, called through the pointer, reads it. -/
def deref : Option Transaction → Res Transaction
  | none => .error (.panic .nilTransaction)
  | some tx => .ok tx

/-- `xs[i]`. -/
def index {α : Type} (xs : List α) (i : Nat) : Res α :=
  match xs[i]? with
  | none => .error (.panic .sliceBounds)
  | some x => .ok x

namespace DecodedBlock

/-- CheckPOW verifies the block's proof-of-work satisfies the declared target. -/
def checkPOW (b : DecodedBlock) (id : BlockID) : Bool := decide (id.toNat ≤ b.header.target.toNat)

/-- The loop that looks for a second coinbase. -/
def checkRest (id : BlockID) : List (Option Transaction) → Res Unit
  | [] => .ok ()
  | tx :: txs => do
    let tx ← deref tx
    failIf (tx.isCoinbase = true) (.multipleCoinbases id)
    checkRest id txs

/-- The basic transaction checks, and the IDs they collect. -/
def checkTransactions (crypto : Crypto) : List (Option Transaction) → Res (List TransactionID)
  | [] => .ok []
  | tx :: txs => do
    let tx ← deref tx
    checkTransaction (tx.id crypto) tx
    let txIDs ← checkTransactions crypto txs
    return tx.id crypto :: txIDs

/-- What the loop of `computeHashListRoot` writes to the hasher. -/
def hashedIDs (crypto : Crypto) : List (Option Transaction) → Res (List UInt8)
  | [] => .ok []
  | tx :: txs => do
    let tx ← deref tx
    let bytes ← hashedIDs crypto txs
    return idBytes (tx.id crypto) ++ bytes

/-- Compute a hash list root of all transaction hashes, the coinbase last. -/
def computeHashListRoot (crypto : Crypto) : List (Option Transaction) → Res TransactionID
  | [] => .error (.panic .sliceBounds)
  | coinbase :: rest => do
    let bytes ← hashedIDs crypto rest
    let coinbase ← deref coinbase
    return addCoinbaseToHashListRoot crypto (crypto.sum256 bytes) coinbase

/-- Context-free block sanity checker. -/
def checkBlock (crypto : Crypto) (id : BlockID) (block : DecodedBlock) (now : Int) : Res Unit := do
  failIf (block.header.time < 0 ∨ block.header.time > maxNumber) (.invalidTime id)
  failIf (block.header.time > Word.int64 (now + maxFutureSeconds))
    (.timestampTooFarInFuture block.header.time now id)
  failIf (block.checkPOW id = false) (.insufficientProofOfWork id)
  failIf (block.header.nonce < 0 ∨ block.header.nonce > maxNumber) (.invalidNonce id)
  failIf (block.header.height < 0 ∨ block.header.height > maxNumber) (.invalidHeight id)
  checkpointCheck id block.header.height
  failIf (block.header.transactionCount < 0) (.negativeTransactionCount id)
  failIf (block.header.transactionCount ≠ block.transactions.length) (.transactionCountMismatch id)
  failIf (block.transactions.length = 0) (.noTransactions id)
  let first ← index block.transactions 0
  let coinbase ← deref first
  failIf (coinbase.isCoinbase = false) (.firstNotCoinbase id)
  let max ← computeMaxTransactionsPerBlock block.header.height
  failIf (block.transactions.length > max) (.tooManyTransactions id block.transactions.length max)
  checkRest id block.transactions.tail
  let txIDs ← checkTransactions crypto block.transactions
  failIf (txIDs.dedup.length ≠ block.transactions.length) (.duplicateTransaction id)
  let hashListRoot ← computeHashListRoot crypto block.transactions
  failIf (hashListRoot ≠ block.header.hashListRoot) (.hashListRootMismatch id)

/-- A block with no null in it. -/
def ofBlock (b : Block) : DecodedBlock := ⟨b.header, b.transactions.map some⟩

/-! ### Blocks without nulls -/

section OfBlock

variable {crypto : Crypto} {id : BlockID} {now : Int}

theorem checkRest_map_some (id : BlockID) (txs : List Transaction) :
    checkRest id (txs.map some) =
      failIf (∃ tx ∈ txs, tx.isCoinbase = true) (.multipleCoinbases id) := by
  induction txs with
  | nil => simp [checkRest, failIf]
  | cons tx txs ih =>
    simp only [List.map_cons, checkRest, deref, bind, Except.bind, ih]
    cases htx : tx.isCoinbase <;> simp [failIf, htx]

theorem checkTransactions_map_some (crypto : Crypto) (txs : List Transaction) :
    checkTransactions crypto (txs.map some) = do
      Cruzbit.checkTransactions crypto txs
      return txs.map (Transaction.id crypto) := by
  induction txs with
  | nil => rfl
  | cons tx txs ih =>
    simp only [List.map_cons, checkTransactions, deref, bind, Except.bind, ih,
      Cruzbit.checkTransactions]
    cases checkTransaction (tx.id crypto) tx with
    | error e => rfl
    | ok u => cases Cruzbit.checkTransactions crypto txs <;> rfl

theorem hashedIDs_map_some (crypto : Crypto) (txs : List Transaction) :
    hashedIDs crypto (txs.map some) = .ok (txs.flatMap fun tx => idBytes (tx.id crypto)) := by
  induction txs with
  | nil => rfl
  | cons tx txs ih => simp [hashedIDs, deref, ih, bind, Except.bind, pure, Except.pure]

theorem computeHashListRoot_map_some (crypto : Crypto) (txs : List Transaction) :
    computeHashListRoot crypto (txs.map some) = Cruzbit.computeHashListRoot crypto txs := by
  cases txs with
  | nil => rfl
  | cons coinbase rest =>
    simp [computeHashListRoot, hashedIDs_map_some, deref, Cruzbit.computeHashListRoot, bind,
      Except.bind, pure, Except.pure]

theorem checkTransactions_bind (crypto : Crypto) (txs : List Transaction) {α : Type}
    (f : List TransactionID → Res α) :
    (checkTransactions crypto (txs.map some) >>= f) =
      Cruzbit.checkTransactions crypto txs >>= fun _ => f (txs.map (Transaction.id crypto)) := by
  rw [checkTransactions_map_some, bind_assoc]
  rfl

/-- **Without nulls** this is the check of the rest of the model. -/
theorem checkBlock_ofBlock (crypto : Crypto) (id : BlockID) (b : Block) (now : Int) :
    checkBlock crypto id (ofBlock b) now = Cruzbit.checkBlock crypto id b now := by
  have hpow : (ofBlock b).checkPOW id = b.checkPOW id := rfl
  unfold checkBlock Cruzbit.checkBlock
  rw [hpow]
  simp only [ofBlock, List.length_map, computeHashListRoot_map_some, checkTransactions_bind,
    ← List.map_tail, checkRest_map_some]
  cases htx : b.transactions with
  | nil => rfl
  | cons tx txs =>
    simp only [List.map_cons, index, List.getElem?_cons_zero, Block.txIDs, htx]
    rfl

/-! ### No panic without nulls -/

theorem not_panics_checkpointCheck (id : BlockID) (height : Int) :
    ¬ Panics (checkpointCheck id height) := by
  unfold checkpointCheck
  cases checkpoints height <;> simp [Err.isPanic]

theorem not_panics_checkTransaction (id : TransactionID) (tx : Transaction) :
    ¬ Panics (checkTransaction id tx) := by
  simp only [checkTransaction, checkTransactionSender, panics_bind, panics_failIf, Err.isPanic]
  split_ifs <;> simp [Err.isPanic]

theorem not_panics_checkTransactions (crypto : Crypto) (txs : List Transaction) :
    ¬ Panics (Cruzbit.checkTransactions crypto txs) := by
  induction txs with
  | nil => simp [Cruzbit.checkTransactions]
  | cons tx txs ih => simp [Cruzbit.checkTransactions, not_panics_checkTransaction, ih]

/-- `checkBlock` returns on every block without nulls. -/
theorem not_panics_checkBlock (crypto : Crypto) (id : BlockID) (b : Block) (now : Int) :
    ¬ Panics (Cruzbit.checkBlock crypto id b now) := by
  unfold Cruzbit.checkBlock
  simp only [panics_bind, panics_failIf, Err.isPanic, Bool.false_eq_true, and_false, false_or,
    or_false, not_panics_checkpointCheck, not_panics_checkTransactions, failIf_eq_ok, not_or, not_lt,
    exists_false]
  rintro ⟨_, -, _, -, _, -, _, -, _, ⟨hheight, -⟩, _, -, _, -, _, -, _, hne, _, -, hmax | hroot⟩
  · obtain ⟨max, hok, -⟩ := le_computeMaxTransactionsPerBlock hheight
    exact not_panics_ok max (hok ▸ hmax)
  · obtain ⟨_, -, _, -, _, -, _, -, _, -, hroot⟩ := hroot
    cases htx : b.transactions with
    | nil => exact hne (by rw [htx]; rfl)
    | cons coinbase rest =>
      rw [htx] at hroot
      exact not_panics_ok _ hroot

end OfBlock

/-! ### Blocks with nulls -/

section Nulls

variable {crypto : Crypto} {id : BlockID} {now : Int} {txs : List (Option Transaction)}

/-- The checks in front of the first use of a transaction pass. -/
structure HeaderSane (id : BlockID) (block : DecodedBlock) (now : Int) : Prop where
  time_range : 0 ≤ block.header.time ∧ block.header.time ≤ maxNumber
  time_le : block.header.time ≤ Word.int64 (now + maxFutureSeconds)
  pow : block.checkPOW id = true
  nonce_range : 0 ≤ block.header.nonce ∧ block.header.nonce ≤ maxNumber
  height_range : 0 ≤ block.header.height ∧ block.header.height ≤ maxNumber
  checkpoint : checkpointCheck id block.header.height = .ok ()
  count : block.header.transactionCount = block.transactions.length

/-- In front of every null there is a coinbase. -/
def NullsGuarded (txs : List (Option Transaction)) : Prop :=
  ∀ pre post, txs = pre ++ none :: post → ∃ tx, some tx ∈ pre ∧ tx.isCoinbase = true

/-- If the checks get that far, the first transaction is not null, and in the
rest a second coinbase is found before a null. -/
def Guarded (id : BlockID) (block : DecodedBlock) (now : Int) : Prop :=
  block.HeaderSane id now → ∀ first rest, block.transactions = first :: rest →
    ∃ coinbase, first = some coinbase ∧
      ∀ max, coinbase.isCoinbase = true →
        computeMaxTransactionsPerBlock block.header.height = .ok max →
        block.transactions.length ≤ max → NullsGuarded rest

theorem panics_deref {tx : Option Transaction} : Panics (deref tx) ↔ tx = none := by
  cases tx <;> simp [deref]

theorem deref_eq_ok {o : Option Transaction} {tx : Transaction} :
    deref o = .ok tx ↔ o = some tx := by
  cases o <;> simp [deref]

theorem nullsGuarded_cons_some {tx : Transaction} :
    NullsGuarded (some tx :: txs) ↔ tx.isCoinbase = true ∨ NullsGuarded txs := by
  constructor
  · intro h
    rcases Bool.eq_false_or_eq_true tx.isCoinbase with htx | htx
    · exact Or.inl htx
    · refine Or.inr fun pre post hsplit => ?_
      obtain ⟨tx', hmem, hcb⟩ := h (some tx :: pre) post (by rw [hsplit, List.cons_append])
      rcases List.mem_cons.mp hmem with heq | hmem
      · obtain rfl := Option.some.inj heq
        exact absurd (htx.symm.trans hcb) Bool.false_ne_true
      · exact ⟨tx', hmem, hcb⟩
  · intro h pre post hsplit
    cases pre with
    | nil => simp at hsplit
    | cons o pre =>
      obtain ⟨rfl, hrest⟩ := List.cons.inj hsplit
      rcases h with htx | hguarded
      · exact ⟨tx, List.mem_cons_self, htx⟩
      · obtain ⟨tx', hmem, hcb⟩ := hguarded pre post hrest
        exact ⟨tx', List.mem_cons_of_mem _ hmem, hcb⟩

/-- The loop over the rest panics at a null in front of the first coinbase. -/
theorem not_panics_checkRest (id : BlockID) : ¬ Panics (checkRest id txs) ↔ NullsGuarded txs := by
  induction txs with
  | nil => simp [checkRest, NullsGuarded]
  | cons o txs ih =>
    cases o with
    | none =>
      refine iff_of_false (by simp [checkRest, panics_deref]) fun h => ?_
      obtain ⟨tx, hmem, -⟩ := h [] txs rfl
      simp at hmem
    | some tx =>
      rw [nullsGuarded_cons_some, ← ih]
      cases htx : tx.isCoinbase <;> simp [checkRest, panics_deref, deref_eq_ok, Err.isPanic, htx]

/-- After the loop there are no nulls. -/
theorem checkRest_eq_ok (h : checkRest id txs = .ok ()) :
    ∃ rest : List Transaction, txs = rest.map some := by
  induction txs with
  | nil => exact ⟨[], rfl⟩
  | cons o txs ih =>
    obtain ⟨tx, htx, h⟩ := Res.bind_eq_ok.mp h
    obtain ⟨-, -, h⟩ := Res.bind_eq_ok.mp h
    obtain ⟨rest, rfl⟩ := ih h
    exact ⟨tx :: rest, by rw [deref_eq_ok.mp htx, List.map_cons]⟩

variable {block : DecodedBlock} {first : Option Transaction} {rest : List (Option Transaction)}

/-- A null is read: the first element, or one in the rest. -/
def ReadsNull (id : BlockID) (block : DecodedBlock) (first : Option Transaction)
    (rest : List (Option Transaction)) : Prop :=
  first = none ∨ ∃ coinbase max, first = some coinbase ∧ coinbase.isCoinbase = true ∧
    computeMaxTransactionsPerBlock block.header.height = .ok max ∧
    block.transactions.length ≤ max ∧ Panics (checkRest id rest)

/-- How far the checks get before they panic. -/
theorem exists_readsNull (h : Panics (checkBlock crypto id block now)) :
    block.HeaderSane id now ∧ ∃ first rest, block.transactions = first :: rest ∧
      ReadsNull id block first rest := by
  have hpanics := h
  unfold checkBlock at h
  simp only [panics_bind, panics_failIf, Err.isPanic, Bool.false_eq_true, and_false, false_or,
    or_false, not_panics_checkpointCheck, failIf_eq_ok, not_or, not_lt, exists_false,
    Bool.not_eq_false, not_not, ne_eq, Res.exists_unit, gt_iff_lt] at h
  obtain ⟨htime, hfuture, hpow, hnonce, hheight, hcheckpoint, -, hcount, hne, h⟩ := h
  refine ⟨⟨htime, hfuture, hpow, hnonce, hheight, hcheckpoint, hcount⟩, ?_⟩
  obtain ⟨first, rest, htxs⟩ := List.exists_cons_of_length_pos (Nat.pos_of_ne_zero hne)
  refine ⟨first, rest, htxs, ?_⟩
  have hindex : index block.transactions 0 = .ok first := by rw [htxs]; rfl
  simp only [hindex, not_panics_ok, false_or, Except.ok.injEq, exists_eq_left', panics_deref,
    deref_eq_ok] at h
  rcases h with hnone | ⟨coinbase, rfl, hcb, hmax | ⟨max, hmax, hlen, h⟩⟩
  · exact Or.inl hnone
  · obtain ⟨max, hok, -⟩ := le_computeMaxTransactionsPerBlock hheight.1
    exact absurd (hok ▸ hmax) (not_panics_ok max)
  · refine Or.inr ⟨coinbase, max, rfl, hcb, hmax, hlen, ?_⟩
    rw [htxs, List.tail_cons] at h
    rcases h with hrest | ⟨hrest, -⟩
    · exact hrest
    · -- past the loop there are no nulls left
      obtain ⟨txs, rfl⟩ := checkRest_eq_ok hrest
      have hblock : block = ofBlock ⟨block.header, coinbase :: txs⟩ := by
        rw [ofBlock, List.map_cons, ← htxs]
      rw [hblock, checkBlock_ofBlock] at hpanics
      exact absurd hpanics (not_panics_checkBlock _ _ _ _)

theorem ReadsNull.panics (hnull : ReadsNull id block first rest) (h : block.HeaderSane id now)
    (htxs : block.transactions = first :: rest) : Panics (checkBlock crypto id block now) := by
  have hindex : index block.transactions 0 = .ok first := by rw [htxs]; rfl
  have hcount : 0 ≤ (block.transactions.length : Int) := Int.natCast_nonneg _
  have hne : ¬ block.transactions.length = 0 := by simp [htxs]
  simp only [checkBlock, panics_bind, panics_failIf, failIf_eq_ok, Res.exists_unit, not_or, not_lt,
    gt_iff_lt, h.time_range, h.time_le, h.pow, h.nonce_range, h.height_range, h.checkpoint, h.count,
    hcount, hne, hindex, Except.ok.injEq, exists_eq_left', panics_deref, deref_eq_ok, Err.isPanic,
    Bool.false_eq_true, Bool.true_eq_false, not_panics_ok, and_false, false_or, true_and, ne_eq,
    not_true_eq_false, not_false_eq_true, Bool.not_eq_false]
  rcases hnull with rfl | ⟨coinbase, max, rfl, hcb, hmax, hlen, hrest⟩
  · exact Or.inl rfl
  · refine Or.inr ⟨coinbase, rfl, hcb, Or.inr ⟨max, hmax, hlen, Or.inl ?_⟩⟩
    rwa [htxs]

/-- **When `checkBlock` is total.**  It neither reads through a nil pointer nor
out of range nor panics otherwise, if and only if no null is reached. -/
theorem checkBlock_total_iff :
    ¬ Panics (checkBlock crypto id block now) ↔ block.Guarded id now := by
  constructor
  · intro h hsane first rest htxs
    cases first with
    | none => exact absurd (ReadsNull.panics (Or.inl rfl) hsane htxs) h
    | some coinbase =>
      refine ⟨coinbase, rfl, fun max hcb hmax hlen => ?_⟩
      refine (not_panics_checkRest id).mp fun hrest => h ?_
      exact ReadsNull.panics (Or.inr ⟨coinbase, max, rfl, hcb, hmax, hlen, hrest⟩) hsane htxs
  · intro hguarded hpanics
    obtain ⟨hsane, first, rest, htxs, hnull⟩ := exists_readsNull hpanics
    obtain ⟨coinbase, rfl, hrest⟩ := hguarded hsane first rest htxs
    rcases hnull with hnone | ⟨coinbase, max, heq, hcb, hmax, hlen, hpanics⟩
    · simp at hnone
    · obtain rfl := Option.some.inj heq
      exact (not_panics_checkRest id).mpr (hrest max hcb hmax hlen) hpanics

/-- A header with the easiest target declares one transaction, and it is null. -/
def nullBlock : DecodedBlock where
  header := { genesisBlock.header with target := BitVec.allOnes 256 }
  transactions := [none]

theorem checkBlock_nullBlock (crypto : Crypto) :
    checkBlock crypto (nullBlock.header.id crypto) nullBlock nullBlock.header.time =
      .error (.panic .nilTransaction) := by
  have hpow : nullBlock.checkPOW (nullBlock.header.id crypto) = true := by
    have hlt := (nullBlock.header.id crypto).isLt
    have htarget : nullBlock.header.target.toNat = 2 ^ 256 - 1 := by decide
    rw [checkPOW, htarget, decide_eq_true_eq]
    omega
  unfold checkBlock
  rw [hpow]
  rfl

/-- **A null transaction** stops the node, as it does whatever the hash of the
header is. -/
theorem checkBlock_panics_on_null :
    checkBlock ⟨fun text => BitVec.ofNat 256 text.length, fun _ _ _ => true⟩
        (nullBlock.header.id ⟨fun text => BitVec.ofNat 256 text.length, fun _ _ _ => true⟩)
        nullBlock nullBlock.header.time =
      .error (.panic .nilTransaction) :=
  checkBlock_nullBlock _

end Nulls

end DecodedBlock

end Cruzbit

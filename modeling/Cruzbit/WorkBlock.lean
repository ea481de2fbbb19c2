/-
Cruzbit/WorkBlock.lean

A block under construction (`NewBlock`, `AddTransaction` of `block.go`).

While a block is mined it keeps the state of the hash over its transaction
IDs.  The hash is modelled by the bytes it has absorbed; `Sum` reads them and
changes nothing.  The coinbase is not among them: its ID changes with every
fee, so each new root hashes it last.

`WorkBlock.Agrees` says that the running fields are what a block built from
scratch would have.  One addition keeps it (`Agrees.addTransaction`), so any
number of them do (`addTransactions_agrees`).
-/
import Cruzbit.Block

namespace Cruzbit

open Encoding Word

/-- The bytes of the IDs of the transactions, one after the other. -/
def hashedIDs (crypto : Crypto) (txs : List Transaction) : List UInt8 :=
  txs.flatMap fun tx => idBytes (tx.id crypto)

/-- A block with the running hash of its transactions: `hasher` is what the
hash has absorbed. -/
structure WorkBlock where
  block : Block
  hasher : List UInt8
  deriving DecidableEq

namespace WorkBlock

/-- NewBlock with the hash it saves to use while mining. -/
def new (crypto : Crypto) (now nonce : Int) (previous : BlockID) (height : Int)
    (target chainWork : BlockID) (transactions : List Transaction) : Res WorkBlock := do
  let block ← newBlock crypto now nonce previous height target chainWork transactions
  .ok { block := block, hasher := hashedIDs crypto transactions.tail }

/-- AddTransaction adds a new transaction to the block.  Called by the miner
when mining a new block. -/
def addTransaction (crypto : Crypto) (b : WorkBlock) (id : TransactionID) (tx : Transaction) :
    Res WorkBlock :=
  -- hash the new transaction hash with the running state
  let hasher := b.hasher ++ idBytes id
  match b.block.transactions with
  | [] => .error (.panic .sliceBounds)
  | coinbase :: rest =>
    -- update coinbase's fee
    let coinbase := { coinbase with amount := int64 (coinbase.amount + tx.fee) }
    .ok
      { block :=
          { header :=
              { b.block.header with
                hashListRoot := addCoinbaseToHashListRoot crypto (crypto.sum256 hasher) coinbase
                transactionCount := int32 (b.block.header.transactionCount + 1) }
            -- append the new transaction to the list
            transactions := coinbase :: rest ++ [tx] }
        hasher := hasher }

/-- Transactions added one after the other, each under its own ID. -/
def addTransactions (crypto : Crypto) (b : WorkBlock) (txs : List Transaction) : Res WorkBlock :=
  txs.foldlM (fun b tx => b.addTransaction crypto (tx.id crypto) tx) b

/-! ### Building from scratch -/

/-- The block that started with `coinbase` and `rest` and got `added` has the
fields of a block made of all these transactions at once. -/
structure Agrees (crypto : Crypto) (coinbase : Transaction) (rest added : List Transaction)
    (b : WorkBlock) : Prop where
  transactions : b.block.transactions =
    { coinbase with amount := int64 (coinbase.amount + (added.map Transaction.fee).sum) } ::
      (rest ++ added)
  hasher : b.hasher = hashedIDs crypto b.block.transactions.tail
  root : computeHashListRoot crypto b.block.transactions = .ok b.block.header.hashListRoot
  count : b.block.header.transactionCount = int32 b.block.transactions.length

section Agrees

variable {crypto : Crypto} {now nonce height : Int} {previous target chainWork : BlockID}
  {coinbase tx : Transaction} {rest added : List Transaction} {b : WorkBlock}

theorem new_eq_ok {transactions : List Transaction}
    (h : new crypto now nonce previous height target chainWork transactions = .ok b) :
    transactions.length ≤ maxTransactionsPerBlock ∧ b.block.transactions = transactions ∧
      b.hasher = hashedIDs crypto transactions.tail ∧
      computeHashListRoot crypto transactions = .ok b.block.header.hashListRoot ∧
      b.block.header.transactionCount = transactions.length := by
  unfold new newBlock at h
  simp only [Res.bind_eq_ok, failIf_eq_ok] at h
  obtain ⟨block, ⟨-, hlen, root, hroot, work, -, hblock⟩, hb⟩ := h
  cases hblock
  cases hb
  exact ⟨not_lt.mp hlen, rfl, rfl, hroot, rfl⟩

theorem new_agrees (hfits : Fits64 coinbase.amount)
    (h : new crypto now nonce previous height target chainWork (coinbase :: rest) = .ok b) :
    b.Agrees crypto coinbase rest [] := by
  obtain ⟨hlen, htxs, hhasher, hroot, hcount⟩ := new_eq_ok h
  rw [← htxs] at hhasher hroot hcount
  refine ⟨?_, hhasher, hroot, ?_⟩
  · rw [htxs, List.map_nil, List.sum_nil, add_zero, int64_of_fits hfits, List.append_nil]
  · rw [hcount, int32_of_fits (by omega)]
    rw [htxs]
    simp only [maxTransactionsPerBlock] at hlen
    omega

/-- One more transaction leaves the fields as those of a block built from
scratch. -/
theorem Agrees.addTransaction (h : b.Agrees crypto coinbase rest added) (tx : Transaction) :
    ∃ b', b.addTransaction crypto (tx.id crypto) tx = .ok b' ∧
      b'.Agrees crypto coinbase rest (added ++ [tx]) := by
  have htxs := h.transactions
  have hhasher : b.hasher ++ idBytes (tx.id crypto) = hashedIDs crypto (rest ++ added ++ [tx]) := by
    rw [h.hasher, htxs, List.tail_cons]
    simp [hashedIDs]
  have hamount : int64 (int64 (coinbase.amount + (added.map Transaction.fee).sum) + tx.fee) =
      int64 (coinbase.amount + ((added ++ [tx]).map Transaction.fee).sum) := by
    rw [int64_add_int64, List.map_append, List.sum_append, List.map_singleton,
      List.sum_singleton, add_assoc]
  unfold WorkBlock.addTransaction
  rw [htxs]
  refine ⟨_, rfl, ?_, ?_, ?_, ?_⟩
  · show _ :: (rest ++ added) ++ [tx] = _ :: (rest ++ (added ++ [tx]))
    rw [hamount, List.cons_append, List.append_assoc]
  · exact hhasher
  · -- the coinbase goes in last, with the amount it has now
    show Except.ok (addCoinbaseToHashListRoot crypto
      (crypto.sum256 (hashedIDs crypto (rest ++ added ++ [tx]))) _) = _
    rw [← hhasher]
  · show int32 (b.block.header.transactionCount + 1) =
      int32 ((_ :: (rest ++ added) ++ [tx]).length : Nat)
    rw [h.count, htxs, int32_add_int32, List.length_append, List.length_singleton,
      List.length_cons, List.length_cons]
    push_cast
    rfl

theorem Agrees.addTransactions (h : b.Agrees crypto coinbase rest added)
    (txs : List Transaction) :
    ∃ b', b.addTransactions crypto txs = .ok b' ∧
      b'.Agrees crypto coinbase rest (added ++ txs) := by
  induction txs generalizing b added with
  | nil =>
    refine ⟨b, rfl, ?_⟩
    rwa [List.append_nil]
  | cons tx txs ih =>
    obtain ⟨b₁, hb₁, h₁⟩ := h.addTransaction tx
    obtain ⟨b', hb', h'⟩ := ih h₁
    refine ⟨b', ?_, ?_⟩
    · rw [WorkBlock.addTransactions, List.foldlM_cons, hb₁]
      exact hb'
    · rwa [List.append_assoc] at h'

/-- **Building a block step by step is building it from scratch**: after any
additions to a new block, its root is the one computed from its transactions,
its count is their number, and its coinbase has gained the added fees.  The
count and the amount are words of 32 and 64 bits. -/
theorem addTransactions_agrees (hfits : Fits64 coinbase.amount)
    (h : new crypto now nonce previous height target chainWork (coinbase :: rest) = .ok b)
    (txs : List Transaction) :
    ∃ b', b.addTransactions crypto txs = .ok b' ∧
      computeHashListRoot crypto b'.block.transactions = .ok b'.block.header.hashListRoot ∧
      b'.block.header.transactionCount = int32 b'.block.transactions.length ∧
      b'.block.transactions =
        { coinbase with amount := int64 (coinbase.amount + (txs.map Transaction.fee).sum) } ::
          (rest ++ txs) := by
  obtain ⟨b', hb', h'⟩ := (new_agrees hfits h).addTransactions txs
  exact ⟨b', hb', h'.root, h'.count, h'.transactions⟩

/-- A fee of 5 added to a coinbase of 50. -/
theorem addTransactions_agrees_fee :
    ∃ crypto b b', new crypto 0 0 0 1 1 0 [newTransaction 0 0 none none 50 0 0 0 1 []] = .ok b ∧
      b.addTransactions crypto [newTransaction 0 0 (some []) none 7 5 0 0 1 []] = .ok b' ∧
      computeHashListRoot crypto b'.block.transactions = .ok b'.block.header.hashListRoot ∧
      b'.block.header.transactionCount = 2 ∧
      b'.block.transactions.map Transaction.amount = [55, 7] := by
  have hnew : ∃ b, new ⟨fun text => BitVec.ofNat 256 text.length, fun _ _ _ => true⟩ 0 0 0 1 1 0
      [newTransaction 0 0 none none 50 0 0 0 1 []] = .ok b := ⟨_, rfl⟩
  obtain ⟨b, hb⟩ := hnew
  obtain ⟨b', hb', hroot, hcount, htxs⟩ := addTransactions_agrees (by decide) hb
    [newTransaction 0 0 (some []) none 7 5 0 0 1 []]
  refine ⟨_, b, b', hb, hb', hroot, ?_, ?_⟩
  · rw [hcount, htxs]
    rfl
  · rw [htxs]
    rfl

end Agrees

end WorkBlock

end Cruzbit

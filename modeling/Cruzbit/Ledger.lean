/-
Cruzbit/Ledger.lean

The ledger on disk (`ledger_disk.go`, `balance_cache.go`): the leveldb tables
and the two operations that move the tip, `connectBlock` and
`disconnectBlock`.

The tables follow the schema in the source:

    T                    -> {bid}{height} (main chain tip)
    B{bid}               -> main|side|orphan
    h{height}            -> {bid}
    t{txid}              -> {height}{index}
    k{pk}{height}{index} -> 1
    b{pk}                -> {balance}

Each table has its own type of keys, except that `k` keeps the byte keys of
the source since it is read in key order.  All writes of an operation go
through one batch; reads during the operation see the tables as they were
before it.  An operation that fails writes nothing, so it returns no ledger.
-/
import Cruzbit.BlockCheck

namespace Cruzbit

open Word

/-! ### Balance cache -/

/-- A partial unconfirmed view of the ledger: balances that override the
recorded ones. -/
structure BalanceCache where
  minBalance : Int
  cache : Table PublicKey Int

/-- `copy` into a `[32]byte`. -/
def pubKeyArray (pk : PublicKey) : PublicKey :=
  pk.take publicKeySize ++ List.replicate (publicKeySize - pk.length) 0

namespace BalanceCache

/-- NewBalanceCache returns a new instance of a BalanceCache. -/
def new (minBalance : Int) : BalanceCache := ⟨minBalance, ∅⟩

/-- Reset resets the balance cache. -/
def reset (b : BalanceCache) : BalanceCache := { b with cache := ∅ }

/-- The cached balance of a key, or the recorded one if it is not cached. -/
def lookup (getPublicKeyBalance : PublicKey → Res Int) (b : BalanceCache) (pk : PublicKey) :
    Res Int :=
  match b.cache[pubKeyArray pk]? with
  | some balance => .ok balance
  | none => getPublicKeyBalance pk

def put (b : BalanceCache) (pk : PublicKey) (balance : Int) : BalanceCache :=
  { b with cache := b.cache.insert (pubKeyArray pk) balance }

/-- The second half of `Apply`: credit recipient balance. -/
def credit (getPublicKeyBalance : PublicKey → Res Int) (b : BalanceCache) (tx : Transaction) :
    BalanceCache × Res Bool :=
  match b.lookup getPublicKeyBalance tx.recipient with
  | .error e => (b, .error e)
  | .ok recipientBalance => (b.put tx.recipient (int64 (recipientBalance + tx.amount)), .ok true)

/-- Apply applies the effect of the transaction to the involved parties' cached
balances.  It returns false if sender balance would go negative, or if a
remaining non-zero sender balance would be less than `minBalance`. -/
def apply (getPublicKeyBalance : PublicKey → Res Int) (b : BalanceCache) (tx : Transaction) :
    BalanceCache × Res Bool :=
  if tx.isCoinbase then b.credit getPublicKeyBalance tx
  else
    -- check and debit sender balance
    match b.lookup getPublicKeyBalance tx.sender with
    | .error e => (b, .error e)
    | .ok senderBalance =>
      let totalSpent := int64 (tx.amount + tx.fee)
      if totalSpent > senderBalance then (b, .ok false)
      else
        let remaining := int64 (senderBalance - totalSpent)
        if remaining > 0 ∧ remaining < b.minBalance then (b, .ok false)
        else (b.put tx.sender remaining).credit getPublicKeyBalance tx

/-- The second half of `Undo`: debit recipient balance. -/
def debit (getPublicKeyBalance : PublicKey → Res Int) (b : BalanceCache) (tx : Transaction) :
    Res BalanceCache := do
  let recipientBalance ← b.lookup getPublicKeyBalance tx.recipient
  failIf (recipientBalance < tx.amount) (.panic .recipientBalanceNegative)
  pure (b.put tx.recipient (int64 (recipientBalance - tx.amount)))

/-- Undo undoes the effects of a transaction on the involved parties' cached
balances. -/
def undo (getPublicKeyBalance : PublicKey → Res Int) (b : BalanceCache) (tx : Transaction) :
    Res BalanceCache :=
  if tx.isCoinbase then b.debit getPublicKeyBalance tx
  else do
    -- credit balance for sender
    let senderBalance ← b.lookup getPublicKeyBalance tx.sender
    let totalSpent := int64 (tx.amount + tx.fee)
    (b.put tx.sender (int64 (senderBalance + totalSpent))).debit getPublicKeyBalance tx

end BalanceCache

/-! ### Tables -/

/-- The type of branch a particular block resides on. -/
inductive BranchType
  | main
  | side
  | orphan
  | unknown
  deriving DecidableEq, Repr

/-- The ledger's tables. -/
@[ext]
structure Ledger where
  chainTip : Option (BlockID × Int)
  branchTypes : Table BlockID BranchType
  heightIndex : Table Int BlockID
  txIndex : Table TransactionID (Int × Int)
  pubKeyTxIndex : Table (List UInt8) Unit
  balances : Table PublicKey Int

/-- One operation of a batch: `some` puts a value, `none` deletes the key. -/
inductive Write
  | chainTip (id : BlockID) (height : Int)
  | branchType (id : BlockID) (branchType : BranchType)
  | blockHeight (height : Int) (id : Option BlockID)
  | transaction (id : TransactionID) (index : Option (Int × Int))
  | pubKeyTransaction (key : List UInt8) (mark : Option Unit)
  | pubKeyBalance (pk : PublicKey) (balance : Option Int)

namespace Ledger

/-- A new ledger database. -/
def empty : Ledger := ⟨none, ∅, ∅, ∅, ∅, ∅⟩

/-- Apply one operation of a batch. -/
def write1 (l : Ledger) : Write → Ledger
  | .chainTip id height => { l with chainTip := some (id, height) }
  | .branchType id branchType => { l with branchTypes := l.branchTypes.insert id branchType }
  | .blockHeight height id => { l with heightIndex := l.heightIndex.set height id }
  | .transaction id index => { l with txIndex := l.txIndex.set id index }
  | .pubKeyTransaction key mark => { l with pubKeyTxIndex := l.pubKeyTxIndex.set key mark }
  | .pubKeyBalance pk balance => { l with balances := l.balances.set pk balance }

/-- Perform the writes of a batch. -/
def write (l : Ledger) (batch : List Write) : Ledger := batch.foldl write1 l

/-- GetBlockIDForHeight returns the ID of the block at the given block chain height. -/
def getBlockIDForHeight (l : Ledger) (height : Int) : Option BlockID := l.heightIndex[height]?

/-- SetBranchType sets the branch type for the given block. -/
def setBranchType (l : Ledger) (id : BlockID) (branchType : BranchType) : Ledger :=
  l.write [.branchType id branchType]

/-- GetBranchType returns the branch type for the given block. -/
def getBranchType (l : Ledger) (id : BlockID) : BranchType := (l.branchTypes[id]?).getD .unknown

/-- The block is on the main chain or on a side branch. -/
def Known (l : Ledger) (id : BlockID) : Prop :=
  l.getBranchType id = .main ∨ l.getBranchType id = .side

/-- GetPublicKeyBalance returns the current balance of a given public key. -/
def getPublicKeyBalance (l : Ledger) (pk : PublicKey) : Res Int := .ok ((l.balances[pk]?).getD 0)

/-- GetTransactionIndex returns the block and index of a processed transaction. -/
def getTransactionIndex (l : Ledger) (id : TransactionID) : Option (Option BlockID × Int) :=
  (l.txIndex[id]?).map fun e => (l.getBlockIDForHeight e.1, e.2)

/-- Balance returns the total current ledger balance by summing the balance of
all public keys. -/
def balance (l : Ledger) : Int :=
  l.balances.toList.foldl (fun total e => int64 (total + e.2)) 0

end Ledger

/-! ### Keys and batches -/

/-- `computePubKeyTransactionIndexKey`: `k{pk}{height}{index}`, the height and
the index optional. -/
def computePubKeyTransactionIndexKey (pk : PublicKey) (height index : Option Int) : List UInt8 :=
  107 :: pk ++
    match height with
    | none => []
    | some height => bigEndian 8 (unsigned 8 height) ++
      match index with
      | none => []
      | some index => bigEndian 4 (unsigned 4 (int32 index))

/-- The keys that associate a transaction with both parties. -/
def partyKeys (height : Int) (i : Nat) (tx : Transaction) : List (List UInt8) :=
  (if tx.isCoinbase then []
    else [computePubKeyTransactionIndexKey tx.sender (some height) (some i)]) ++
  [computePubKeyTransactionIndexKey tx.recipient (some height) (some i)]

/-- Set the indices of the transaction at `(height, i)`. -/
def putIndices (crypto : Crypto) (height : Int) (i : Nat) (tx : Transaction) : List Write :=
  .transaction (tx.id crypto) (some (height, int32 i)) ::
    (partyKeys height i tx).map fun key => .pubKeyTransaction key (some ())

/-- Delete the indices of the transaction at `(height, i)`. -/
def deleteIndices (crypto : Crypto) (height : Int) (i : Nat) (tx : Transaction) : List Write :=
  .transaction (tx.id crypto) none ::
    (partyKeys height i tx).map fun key => .pubKeyTransaction key none

/-- Update recorded balances; a zero balance is deleted. -/
def balanceWrites (b : BalanceCache) : List Write :=
  b.cache.toList.map fun e => .pubKeyBalance e.1 (if e.2 = 0 then none else some e.2)

/-- The state of the transaction loops of `ConnectBlock` and `DisconnectBlock`. -/
structure Pass where
  balanceCache : BalanceCache
  batch : List Write

/-- The state before the first transaction. -/
def Pass.start : Pass := ⟨BalanceCache.new 0, []⟩

namespace Ledger

/-- The transaction whose effect is due at this point of the block: the
transaction itself, or for a coinbase the one from 100 blocks ago, if any. -/
def dueTransaction (l : Ledger) (blockStore : BlockStorage) (height : Int) (tx : Transaction) :
    Res (Option Transaction) :=
  if tx.isCoinbase then
    if height - coinbaseMaturity ≥ 0 then
      match l.getBlockIDForHeight (height - coinbaseMaturity) with
      | none => .error (.missingBlockAtHeight (height - coinbaseMaturity))
      | some oldID => do
        let old ← blockStore.getTransaction oldID 0
        pure (some old.1)
    else .ok none
  else .ok (some tx)

/-! ### Connecting -/

/-- Check sender balance and update sender and receiver balances. -/
def applyDue (crypto : Crypto) (l : Ledger) (b : BalanceCache) : Option Transaction → Res BalanceCache
  | none => .ok b
  | some txToApply =>
    match b.apply l.getPublicKeyBalance txToApply with
    | (_, .error e) => .error e
    | (_, .ok false) => .error (.insufficientSenderBalance (txToApply.id crypto))
    | (b', .ok true) => .ok b'

/-- The body of the transaction loop of `ConnectBlock`. -/
def connectTransaction (crypto : Crypto) (l : Ledger) (blockStore : BlockStorage) (height : Int)
    (i : Nat) (tx : Transaction) (p : Pass) : Res Pass := do
  -- verify the transaction hasn't been processed already
  failIf (l.txIndex.contains (tx.id crypto) = true) (.alreadyProcessed (tx.id crypto))
  let txToApply ← l.dueTransaction blockStore height tx
  let balanceCache ← l.applyDue crypto p.balanceCache txToApply
  pure ⟨balanceCache, p.batch ++ putIndices crypto height i tx⟩

/-- The transaction loop of `ConnectBlock`. -/
def connectTransactions (crypto : Crypto) (l : Ledger) (blockStore : BlockStorage) (height : Int) :
    Nat → List Transaction → Pass → Res Pass
  | _, [], p => .ok p
  | i, tx :: txs, p => do
    let p ← l.connectTransaction crypto blockStore height i tx p
    connectTransactions crypto l blockStore height (i + 1) txs p

/-- The index operations for the block at the given height, one list for each
of its transactions. -/
def indicesAt (crypto : Crypto) (l : Ledger) (blockStore : BlockStorage) (height : Int)
    (indices : Crypto → Int → Nat → Transaction → List Write) : Res (List Write) :=
  match l.getBlockIDForHeight height with
  | none => .error (.missingBlockIDForHeight height)
  | some id => do
    let block ← blockStore.getBlock id
    pure (block.transactions.zipIdx.flatMap fun e =>
      indices crypto block.header.height e.2 e.1)

/-- Prune transaction and public key transaction indices created by the block
at the given height. -/
def pruneIndices (crypto : Crypto) (l : Ledger) (blockStore : BlockStorage) (height : Int) :
    Res (List Write) :=
  l.indicesAt crypto blockStore height deleteIndices

/-- Restore transaction and public key transaction indices created by the
block at the given height. -/
def restoreIndices (crypto : Crypto) (l : Ledger) (blockStore : BlockStorage) (height : Int) :
    Res (List Write) :=
  l.indicesAt crypto blockStore height putIndices

/-- If pruning is on, the operations for the block two series below the given
height, if there is one. -/
def whenHistoric (prune : Bool) (height : Int) (f : Int → Res (List Write)) : Res (List Write) :=
  if prune = true ∧ height ≥ 2 * blocksUntilNewSeries then f (height - 2 * blocksUntilNewSeries)
  else .ok []

/-- The sanity check of `ConnectBlock`: the block is to go on the current tip. -/
def checkConnects (l : Ledger) (id : BlockID) (block : Block) : Res Unit :=
  match l.chainTip with
  | none => .ok ()
  | some (tipID, _) =>
    failIf (tipID ≠ block.header.previous) (.connectPreviousMismatch id block.header.previous tipID)

/-- ConnectBlock connects a block to the tip of the block chain and applies the
transactions to the ledger. -/
def connectBlock (crypto : Crypto) (prune : Bool) (blockStore : BlockStorage) (l : Ledger)
    (id : BlockID) (block : Block) : Res (Ledger × List TransactionID) := do
  l.checkConnects id block
  let height := block.header.height
  let p ← l.connectTransactions crypto blockStore height 0 block.transactions Pass.start
  -- prune historic transaction and public key transaction indices now
  let pruned ← whenHistoric prune height (l.pruneIndices crypto blockStore)
  -- perform the writes
  pure (l.write (p.batch ++ balanceWrites p.balanceCache ++
    [.blockHeight height (some id), .branchType id .main, .chainTip id height] ++ pruned),
    block.txIDs crypto)

/-! ### Disconnecting -/

/-- Credit sender and debit recipient. -/
def undoDue (l : Ledger) (b : BalanceCache) : Option Transaction → Res BalanceCache
  | none => .ok b
  | some txToUndo => b.undo l.getPublicKeyBalance txToUndo

/-- The body of the transaction loop of `DisconnectBlock`. -/
def disconnectTransaction (crypto : Crypto) (l : Ledger) (blockStore : BlockStorage)
    (height : Int) (i : Nat) (tx : Transaction) (p : Pass) : Res Pass := do
  let txToUndo ← l.dueTransaction blockStore height tx
  let balanceCache ← l.undoDue p.balanceCache txToUndo
  pure ⟨balanceCache, p.batch ++ deleteIndices crypto height i tx⟩

/-- The transaction loop of `DisconnectBlock`: in reverse order. -/
def disconnectTransactions (crypto : Crypto) (l : Ledger) (blockStore : BlockStorage)
    (height : Int) : Nat → List Transaction → Pass → Res Pass
  | _, [], p => .ok p
  | i, tx :: txs, p => do
    let p ← disconnectTransactions crypto l blockStore height (i + 1) txs p
    l.disconnectTransaction crypto blockStore height i tx p

/-- The sanity check of `DisconnectBlock`: the block is the current tip. -/
def checkDisconnects (l : Ledger) (id : BlockID) : Res Unit :=
  match l.chainTip with
  | none => .error (.disconnectNoTip id)
  | some (tipID, _) => failIf (tipID ≠ id) (.disconnectNotTip id tipID)

/-- DisconnectBlock disconnects a block from the tip of the block chain and
undoes the effects of the transactions on the ledger. -/
def disconnectBlock (crypto : Crypto) (prune : Bool) (blockStore : BlockStorage) (l : Ledger)
    (id : BlockID) (block : Block) : Res (Ledger × List TransactionID) := do
  l.checkDisconnects id
  let height := block.header.height
  let p ← l.disconnectTransactions crypto blockStore height 0 block.transactions Pass.start
  -- restore historic indices now
  let restored ← whenHistoric prune height (l.restoreIndices crypto blockStore)
  -- perform the writes
  pure (l.write (p.batch ++ balanceWrites p.balanceCache ++
    [.blockHeight height none, .branchType id .side,
      .chainTip block.header.previous (height - 1)] ++ restored),
    block.txIDs crypto)

end Ledger

end Cruzbit

/-
Cruzbit/LedgerDisk.lean

The ledger as `ledger_disk.go` has it: byte strings in one leveldb database.

    T                    -> {bid}{height} (main chain tip)
    B{bid}               -> main|side|orphan (1 byte)
    h{height}            -> {bid}
    t{txid}              -> {height}{index} (prunable up to the previous series)
    k{pk}{height}{index} -> 1
    b{pk}                -> {balance}

`Ledger.lean` has a table of typed entries for each of these, and its operations
take what they read for granted.  Here every read fetches bytes and decodes
them, with the error that the decoding can end in, and every batch is a list
of puts and deletes of byte strings.  A map is iterated over in any order
(`MapOrder`).

`LedgerRefinement.lean` compares the two.
-/
import Cruzbit.BalanceAt
import Cruzbit.KeyValue

namespace Cruzbit

open KeyValue Word

/-! ### Values -/

/-- The value of the constant. -/
def BranchType.code : BranchType → UInt8
  | .main => 0
  | .side => 1
  | .orphan => 2
  | .unknown => 3

/-- `copy` into a block ID. -/
def copyID (bytes : List UInt8) : BlockID :=
  BitVec.ofNat 256 (ofBigEndian (bytes.take 32 ++ List.replicate (32 - bytes.length) 0))

def encodeChainTip (id : BlockID) (height : Int) : List UInt8 :=
  idBytes id ++ bigEndian 8 (unsigned 8 height)

def decodeChainTip (ctBytes : List UInt8) : Res (BlockID × Int) :=
  if ctBytes.length < 32 + 8 then .error .unexpectedEOF
  else .ok (BitVec.ofNat 256 (ofBigEndian (ctBytes.take 32)),
    int64 (ofBigEndian ((ctBytes.drop 32).take 8)))

def encodeNumber (num : Int) : List UInt8 := bigEndian 8 (unsigned 8 num)

/-- `binary.Read` into a balance.  The error is not looked at. -/
def readBalance (balanceBytes : List UInt8) : Int :=
  if balanceBytes.length < 8 then 0 else int64 (ofBigEndian (balanceBytes.take 8))

def encodeTransactionIndex (height index : Int) : List UInt8 :=
  bigEndian 8 (unsigned 8 height) ++ bigEndian 4 (unsigned 4 (int32 index))

def decodeTransactionIndex (indexBytes : List UInt8) : Res (Int × Int) :=
  if indexBytes.length < 8 + 4 then .error .unexpectedEOF
  else .ok (int64 (ofBigEndian (indexBytes.take 8)),
    int32 (ofBigEndian ((indexBytes.drop 8).take 4)))

/-- A batch of puts and deletes. -/
abbrev Batch := List (List UInt8 × Option (List UInt8))

/-- The order in which a range over the map of balances comes upon the entries. -/
structure MapOrder where
  entries : BalanceCache → List (PublicKey × Int)
  perm : ∀ b, (entries b).Perm b.cache.toList

namespace LedgerDisk

/-! ### Reading -/

/-- GetChainTip returns the ID and the height of the block at the current tip of the main chain. -/
def getChainTip (db : Store) : Res (Option (BlockID × Int)) :=
  match db[computeChainTipKey]? with
  | none => .ok none
  | some ctBytes => (decodeChainTip ctBytes).map some

/-- GetBlockIDForHeight returns the ID of the block at the given block chain height. -/
def getBlockIDForHeight (db : Store) (height : Int) : Option BlockID :=
  (db[computeBlockHeightIndexKey height]?).map copyID

/-- GetBranchType returns the branch type for the given block.  Indexing an empty value would
panic. -/
def getBranchType (db : Store) (id : BlockID) : Option UInt8 :=
  match db[computeBranchTypeKey id]? with
  | none => some BranchType.unknown.code
  | some branchType => branchType.head?

/-- GetPublicKeyBalance returns the current balance of a given public key. -/
def getPublicKeyBalance (db : Store) (pubKey : PublicKey) : Res Int :=
  match db[computePubKeyBalanceKey pubKey]? with
  | none => .ok 0
  | some balanceBytes => .ok (readBalance balanceBytes)

/-- GetPublicKeyBalances returns the current balance of the given public keys along with block
ID and height of the corresponding main chain tip. -/
def getPublicKeyBalances (db : Store) (pubKeys : List PublicKey) :
    Res (Table PublicKey Int × Option (BlockID × Int)) := do
  let tip ← getChainTip db
  let balances ← pubKeys.foldlM (fun (balances : Table PublicKey Int) pubKey => do
    let balance ← getPublicKeyBalance db pubKey
    pure (balances.insert (pubKeyArray pubKey) balance)) ∅
  pure (balances, tip)

/-- GetTransactionIndex returns the index of a processed transaction. -/
def getTransactionIndex (db : Store) (id : TransactionID) : Res (Option (Option BlockID × Int)) :=
  match db[computeTransactionIndexKey id]? with
  | none => .ok none
  | some indexBytes => do
    let (height, index) ← decodeTransactionIndex indexBytes
    -- map height to block id
    pure (some (getBlockIDForHeight db height, index))

/-- An iterator over the keys from `start` up to but not including `limit`.  If `start` is above
`limit` the outcome is not that of the keys: goleveldb then finds nothing, reports an invalid
slice range or panics, depending on the tables the keys have been moved to. -/
def newIterator (db : Store) (start limit : List UInt8) : Option (List (List UInt8)) :=
  if start ≤ limit then
    some ((db.keys.filter fun key => start ≤ key ∧ key < limit).insertionSort (· ≤ ·))
  else none

/-- The ID of the block at the height, looked up once for each height. -/
def lookupHeight (db : Store) (heightMap : Table Int BlockID) (height : Int) :
    Res (BlockID × Table Int BlockID) :=
  match heightMap[height]? with
  | some id => .ok (id, heightMap)
  | none =>
    match getBlockIDForHeight db height with
    | none => .error (.noBlockFound height)
    | some id => .ok (id, heightMap.insert height id)

/-- The loop over the iterator, in either direction. -/
def rangeLoop (db : Store) (limit : Int) :
    List (List UInt8) → RangeResult → Table Int BlockID → Res RangeResult
  | [], r, _ => .ok r
  | key :: keys, r, heightMap => do
    let (_, lastHeight, lastIndex) ← decodePubKeyTransactionIndexKey key
    let (id, heightMap) ← lookupHeight db heightMap lastHeight
    let r : RangeResult := ⟨r.ids ++ [id], r.indices ++ [lastIndex], lastHeight, lastIndex⟩
    if limit ≠ 0 ∧ r.indices.length = limit then .ok r
    else rangeLoop db limit keys r heightMap

/-- GetPublicKeyTransactionIndicesRange returns transaction indices involving a given public key
over a range of heights.  If startHeight > endHeight this iterates in reverse. -/
def getPublicKeyTransactionIndicesRange (db : Store) (pubKey : PublicKey)
    (startHeight endHeight startIndex limit : Int) : Option (Res RangeResult) :=
  if endHeight ≥ startHeight then
    let startKey := computePubKeyTransactionIndexKey pubKey (some startHeight) (some startIndex)
    -- make it inclusive
    let endKey := computePubKeyTransactionIndexKey pubKey (some (int64 (endHeight + 1))) none
    (newIterator db startKey endKey).map fun keys => rangeLoop db limit keys .empty ∅
  else
    let endKey := computePubKeyTransactionIndexKey pubKey (some endHeight) none
    -- make it inclusive
    let startKey := computePubKeyTransactionIndexKey pubKey (some startHeight)
      (some (int64 (startIndex + 1)))
    (newIterator db endKey startKey).map fun keys => rangeLoop db limit keys.reverse .empty ∅

/-- Balance returns the total current ledger balance by summing the balance of all public keys.
The range of the keys that begin with `b` ends before `c`. -/
def balance (db : Store) : Option Int :=
  (newIterator db [98] [99]).map fun keys =>
    keys.foldl (fun total key => int64 (total + readBalance ((db[key]?).getD []))) 0

/-- The loop of `GetPublicKeyBalanceAt`. -/
def balanceLoop (crypto : Crypto) (db : Store) (blockStore : BlockStorage) (pubKey : PublicKey)
    (currentHeight : Int) : List (List UInt8) → Int → Res Int
  | [], balance => .ok balance
  | key :: keys, balance => do
    let (_, height, index) ← decodePubKeyTransactionIndexKey key
    if index = 0 ∧ height > int64 (currentHeight - coinbaseMaturity) then
      -- coinbase isn't mature
      balanceLoop crypto db blockStore pubKey currentHeight keys balance
    else
      match getBlockIDForHeight db height with
      | none => .error (.noBlockFound height)
      | some id =>
        let (tx, _) ← blockStore.getTransaction id index.toNat
        let balance ← historicalBalance crypto pubKey tx balance
        balanceLoop crypto db blockStore pubKey currentHeight keys balance

/-- GetPublicKeyBalanceAt returns the public key balance at the given height. -/
def getPublicKeyBalanceAt (crypto : Crypto) (db : Store) (blockStore : BlockStorage)
    (pubKey : PublicKey) (height : Int) : Option (Res Int) :=
  match getChainTip db with
  | .error e => some (.error e)
  | .ok tip =>
    let startKey := computePubKeyTransactionIndexKey pubKey none none
    -- make it inclusive
    let endKey := computePubKeyTransactionIndexKey pubKey (some (int64 (height + 1))) none
    (newIterator db startKey endKey).map fun keys =>
      balanceLoop crypto db blockStore pubKey ((tip.map Prod.snd).getD 0) keys 0

/-! ### Writing -/

/-- SetBranchType sets the branch type for the given block. -/
def setBranchType (db : Store) (id : BlockID) (branchType : BranchType) : Store :=
  Table.write db [(computeBranchTypeKey id, some [branchType.code])]

/-- The state of the transaction loops. -/
structure Pass where
  balanceCache : BalanceCache
  batch : Batch

/-- The state before the first transaction. -/
def Pass.start : Pass := ⟨BalanceCache.new 0, []⟩

/-- Set the indices of the transaction at `(height, i)`. -/
def putIndices (crypto : Crypto) (height : Int) (i : Nat) (tx : Transaction) : Batch :=
  (computeTransactionIndexKey (tx.id crypto), some (encodeTransactionIndex height i)) ::
    (partyKeys height i tx).map fun key => (key, some [1])

/-- Delete the indices of the transaction at `(height, i)`. -/
def deleteIndices (crypto : Crypto) (height : Int) (i : Nat) (tx : Transaction) : Batch :=
  (computeTransactionIndexKey (tx.id crypto), none) ::
    (partyKeys height i tx).map fun key => (key, none)

/-- Update recorded balances; a zero balance is deleted. -/
def balanceWrites (order : MapOrder) (b : BalanceCache) : Batch :=
  (order.entries b).map fun e =>
    (computePubKeyBalanceKey e.1, if e.2 = 0 then none else some (encodeNumber e.2))

/-- The transaction whose effect is due at this point of the block: the transaction itself, or
for a coinbase the one from 100 blocks ago, if any. -/
def dueTransaction (db : Store) (blockStore : BlockStorage) (height : Int) (tx : Transaction) :
    Res (Option Transaction) :=
  if tx.isCoinbase then
    if height - coinbaseMaturity ≥ 0 then
      match getBlockIDForHeight db (height - coinbaseMaturity) with
      | none => .error (.missingBlockAtHeight (height - coinbaseMaturity))
      | some oldID => do
        let old ← blockStore.getTransaction oldID 0
        pure (some old.1)
    else .ok none
  else .ok (some tx)

/-- Check sender balance and update sender and receiver balances. -/
def applyDue (crypto : Crypto) (db : Store) (b : BalanceCache) :
    Option Transaction → Res BalanceCache
  | none => .ok b
  | some txToApply =>
    match b.apply (getPublicKeyBalance db) txToApply with
    | (_, .error e) => .error e
    | (_, .ok false) => .error (.insufficientSenderBalance (txToApply.id crypto))
    | (b', .ok true) => .ok b'

/-- Credit sender and debit recipient. -/
def undoDue (db : Store) (b : BalanceCache) : Option Transaction → Res BalanceCache
  | none => .ok b
  | some txToUndo => b.undo (getPublicKeyBalance db) txToUndo

/-- The body of the transaction loop of `ConnectBlock`. -/
def connectTransaction (crypto : Crypto) (db : Store) (blockStore : BlockStorage) (height : Int)
    (i : Nat) (tx : Transaction) (p : Pass) : Res Pass := do
  -- verify the transaction hasn't been processed already
  failIf (db.contains (computeTransactionIndexKey (tx.id crypto)) = true)
    (.alreadyProcessed (tx.id crypto))
  let txToApply ← dueTransaction db blockStore height tx
  let balanceCache ← applyDue crypto db p.balanceCache txToApply
  pure ⟨balanceCache, p.batch ++ putIndices crypto height i tx⟩

/-- The transaction loop of `ConnectBlock`. -/
def connectTransactions (crypto : Crypto) (db : Store) (blockStore : BlockStorage)
    (height : Int) : Nat → List Transaction → Pass → Res Pass
  | _, [], p => .ok p
  | i, tx :: txs, p => do
    let p ← connectTransaction crypto db blockStore height i tx p
    connectTransactions crypto db blockStore height (i + 1) txs p

/-- The body of the transaction loop of `DisconnectBlock`. -/
def disconnectTransaction (crypto : Crypto) (db : Store) (blockStore : BlockStorage)
    (height : Int) (i : Nat) (tx : Transaction) (p : Pass) : Res Pass := do
  let txToUndo ← dueTransaction db blockStore height tx
  let balanceCache ← undoDue db p.balanceCache txToUndo
  pure ⟨balanceCache, p.batch ++ deleteIndices crypto height i tx⟩

/-- The transaction loop of `DisconnectBlock`: in reverse order. -/
def disconnectTransactions (crypto : Crypto) (db : Store) (blockStore : BlockStorage)
    (height : Int) : Nat → List Transaction → Pass → Res Pass
  | _, [], p => .ok p
  | i, tx :: txs, p => do
    let p ← disconnectTransactions crypto db blockStore height (i + 1) txs p
    disconnectTransaction crypto db blockStore height i tx p

/-- The index operations for the block at the given height. -/
def indicesAt (crypto : Crypto) (db : Store) (blockStore : BlockStorage) (height : Int)
    (indices : Crypto → Int → Nat → Transaction → Batch) : Res Batch :=
  match getBlockIDForHeight db height with
  | none => .error (.missingBlockIDForHeight height)
  | some id => do
    let block ← blockStore.getBlock id
    pure (block.transactions.zipIdx.flatMap fun e =>
      indices crypto block.header.height e.2 e.1)

/-- Prune transaction and public key transaction indices created by the block at the given
height. -/
def pruneIndices (crypto : Crypto) (db : Store) (blockStore : BlockStorage) (height : Int) :
    Res Batch :=
  indicesAt crypto db blockStore height deleteIndices

/-- Restore transaction and public key transaction indices created by the block at the given
height. -/
def restoreIndices (crypto : Crypto) (db : Store) (blockStore : BlockStorage) (height : Int) :
    Res Batch :=
  indicesAt crypto db blockStore height putIndices

/-- If pruning is on, the operations for the block two series below the given height, if there
is one. -/
def whenHistoric (prune : Bool) (height : Int) (f : Int → Res Batch) : Res Batch :=
  if prune = true ∧ height ≥ 2 * blocksUntilNewSeries then f (height - 2 * blocksUntilNewSeries)
  else .ok []

/-- The sanity check of `ConnectBlock`. -/
def checkConnects (db : Store) (id : BlockID) (block : Block) : Res Unit := do
  match ← getChainTip db with
  | none => .ok ()
  | some (tipID, _) =>
    failIf (tipID ≠ block.header.previous) (.connectPreviousMismatch id block.header.previous tipID)

/-- ConnectBlock connects a block to the tip of the block chain and applies the transactions to
the ledger. -/
def connectBlock (crypto : Crypto) (prune : Bool) (order : MapOrder) (blockStore : BlockStorage)
    (db : Store) (id : BlockID) (block : Block) : Res (Store × List TransactionID) := do
  checkConnects db id block
  let height := block.header.height
  let p ← connectTransactions crypto db blockStore height 0 block.transactions Pass.start
  -- prune historic transaction and public key transaction indices now
  let pruned ← whenHistoric prune height (pruneIndices crypto db blockStore)
  -- perform the writes
  pure (Table.write db (p.batch ++ balanceWrites order p.balanceCache ++
    [(computeBlockHeightIndexKey height, some (idBytes id)),
      (computeBranchTypeKey id, some [BranchType.main.code]),
      (computeChainTipKey, some (encodeChainTip id height))] ++ pruned),
    block.txIDs crypto)

/-- The sanity check of `DisconnectBlock`. -/
def checkDisconnects (db : Store) (id : BlockID) : Res Unit := do
  match ← getChainTip db with
  | none => .error (.disconnectNoTip id)
  | some (tipID, _) => failIf (tipID ≠ id) (.disconnectNotTip id tipID)

/-- DisconnectBlock disconnects a block from the tip of the block chain and undoes the effects of
the transactions on the ledger. -/
def disconnectBlock (crypto : Crypto) (prune : Bool) (order : MapOrder)
    (blockStore : BlockStorage) (db : Store) (id : BlockID) (block : Block) :
    Res (Store × List TransactionID) := do
  checkDisconnects db id
  let height := block.header.height
  let p ← disconnectTransactions crypto db blockStore height 0 block.transactions Pass.start
  -- restore historic indices now
  let restored ← whenHistoric prune height (restoreIndices crypto db blockStore)
  -- perform the writes
  pure (Table.write db (p.batch ++ balanceWrites order p.balanceCache ++
    [(computeBlockHeightIndexKey height, none),
      (computeBranchTypeKey id, some [BranchType.side.code]),
      (computeChainTipKey, some (encodeChainTip block.header.previous (height - 1)))] ++ restored),
    block.txIDs crypto)

end LedgerDisk

end Cruzbit

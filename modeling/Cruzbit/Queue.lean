/-
Cruzbit/Queue.lean

The in-memory transaction queue (`transaction_queue_memory.go`).

The queue is a doubly linked list of elements and a map from transaction IDs
to elements.  An element has an identity of its own, a number that is never
used twice, so the map can in principle point to an element that is not in
the list, or the list hold an element no ID points to.
-/
import Cruzbit.Ledger

namespace Cruzbit

/-- An element of the linked list. -/
structure Element where
  ptr : Nat
  value : Transaction

/-- An in-memory FIFO queue of transactions. -/
structure TransactionQueue where
  txMap : Table TransactionID Element
  txQueue : List Element
  balanceCache : BalanceCache
  nextPtr : Nat

namespace TransactionQueue

/-- NewTransactionQueueMemory returns a new instance.  It does not accept
transactions that would leave an unspendable balance with this node. -/
def new : TransactionQueue :=
  ⟨∅, [], BalanceCache.new (minAmountCruzbits + minFeeCruzbits), 0⟩

/-- `list.Remove`. -/
def removeElement (q : TransactionQueue) (ptr : Nat) : TransactionQueue :=
  { q with txQueue := q.txQueue.filter fun e => e.ptr ≠ ptr }

/-- Remove a transaction that has been invalidated. -/
def removeID (q : TransactionQueue) (id : TransactionID) : Res TransactionQueue :=
  match q.txMap[id]? with
  | none => .error (.panic .nilElement)
  | some e => .ok { q.removeElement e.ptr with txMap := q.txMap.erase id }

/-- `PushFront`, indexed under the given ID. -/
def pushFront (q : TransactionQueue) (id : TransactionID) (tx : Transaction) : TransactionQueue :=
  { q with
    txQueue := ⟨q.nextPtr, tx⟩ :: q.txQueue
    txMap := q.txMap.insert id ⟨q.nextPtr, tx⟩
    nextPtr := q.nextPtr + 1 }

/-- `PushBack`, indexed under the given ID. -/
def pushBack (q : TransactionQueue) (id : TransactionID) (tx : Transaction) : TransactionQueue :=
  { q with
    txQueue := q.txQueue ++ [⟨q.nextPtr, tx⟩]
    txMap := q.txMap.insert id ⟨q.nextPtr, tx⟩
    nextPtr := q.nextPtr + 1 }

/-- Add adds the transaction to the queue.  Returns true if the transaction
was added to the queue on this call. -/
def add (getPublicKeyBalance : PublicKey → Res Int) (q : TransactionQueue) (id : TransactionID)
    (tx : Transaction) : TransactionQueue × Res Bool :=
  if q.txMap.contains id then (q, .ok false)
  else
    -- check sender balance and update sender and receiver balances
    match q.balanceCache.apply getPublicKeyBalance tx with
    | (b, .error e) => ({ q with balanceCache := b }, .error e)
    | (b, .ok false) =>
      ({ q with balanceCache := b }, .error (.queueInsufficientBalance id tx.sender))
    | (b, .ok true) => ({ q with balanceCache := b }.pushBack id tx, .ok true)

/-- Move one transaction of a disconnected block to the front of the queue. -/
def addToFront (q : TransactionQueue) (id : TransactionID) (tx : Transaction) : TransactionQueue :=
  match q.txMap[id]? with
  | some e => (q.removeElement e.ptr).pushFront id tx
  | none => q.pushFront id tx

/-- AddBatch adds a batch of transactions to the queue (a block has been
disconnected), to the front in reverse order. -/
def addBatch (q : TransactionQueue) : List TransactionID → List Transaction → TransactionQueue
  | id :: ids, tx :: txs => (q.addBatch ids txs).addToFront id tx
  | _, _ => q

/-- Remove a transaction if it is in the queue. -/
def removeIfQueued (q : TransactionQueue) (id : TransactionID) : TransactionQueue :=
  match q.txMap[id]? with
  | none => q
  | some e => { q.removeElement e.ptr with txMap := q.txMap.erase id }

/-- The transaction violates what a block at `height + 1` requires of it. -/
def invalidated (tx : Transaction) (height : Int) : Bool :=
  !checkTransactionSeries tx (height + 1) || !tx.isMature (height + 1) ||
    tx.isExpired (height + 1) || decide (tx.fee < minFeeCruzbits) ||
    decide (tx.amount < minAmountCruzbits)

/-- The loop of `reprocessQueue`, over a copy of the list. -/
def reprocess (crypto : Crypto) (getPublicKeyBalance : PublicKey → Res Int) (height : Int) :
    List Transaction → TransactionQueue → TransactionQueue × Res Unit
  | [], q => (q, .ok ())
  | tx :: txs, q =>
    if invalidated tx height then
      match q.removeID (tx.id crypto) with
      | .error e => (q, .error e)
      | .ok q => reprocess crypto getPublicKeyBalance height txs q
    else
      -- check balance
      match q.balanceCache.apply getPublicKeyBalance tx with
      | (b, .error e) => ({ q with balanceCache := b }, .error e)
      | (b, .ok false) =>
        match { q with balanceCache := b }.removeID (tx.id crypto) with
        | .error e => ({ q with balanceCache := b }, .error e)
        | .ok q => reprocess crypto getPublicKeyBalance height txs q
      | (b, .ok true) =>
        reprocess crypto getPublicKeyBalance height txs { q with balanceCache := b }

/-- Rebuild the balance cache and remove transactions now in violation. -/
def reprocessQueue (crypto : Crypto) (getPublicKeyBalance : PublicKey → Res Int)
    (q : TransactionQueue) (height : Int) : TransactionQueue × Res Unit :=
  reprocess crypto getPublicKeyBalance height (q.txQueue.map Element.value)
    { q with balanceCache := q.balanceCache.reset }

/-- RemoveBatch removes a batch of transactions from the queue (a block has
been connected).  `more` indicates if more connections are coming. -/
def removeBatch (crypto : Crypto) (getPublicKeyBalance : PublicKey → Res Int)
    (q : TransactionQueue) (ids : List TransactionID) (height : Int) (more : Bool) :
    TransactionQueue × Res Unit :=
  let q := ids.foldl removeIfQueued q
  if more then (q, .ok ()) else q.reprocessQueue crypto getPublicKeyBalance height

/-- Get returns transactions in the queue for the miner, all of them for a limit
of 0. -/
def get (q : TransactionQueue) (limit : Nat) : List Transaction :=
  if limit = 0 ∨ q.txQueue.length < limit then q.txQueue.map Element.value
  else (q.txQueue.take limit).map Element.value

/-- ExistsSigned returns true if the given transaction is in the queue and
contains the given signature. -/
def existsSigned (q : TransactionQueue) (id : TransactionID) (signature : Signature) : Bool :=
  match q.txMap[id]? with
  | none => false
  | some e => decide (e.value.signature = signature)

/-- Len returns the queue length. -/
def len (q : TransactionQueue) : Nat := q.txQueue.length

end TransactionQueue

end Cruzbit

/-
Cruzbit/Processor.lean

The processor (`processor.go`): it checks incoming blocks and transactions,
extends or reorganises the main chain, and feeds the transaction queue.

A method of the processor is a function from its state to the new state and
the result.  The state is kept on errors, since a failed reorganisation has
already moved the tip; only the ledger's own operations are atomic.  The
three loops that walk back to the fork point carry a step bound, the number
of stored blocks and one more, after which the walk has visited some block
twice and would never end (`Err.diverges`).

`tipChanges` collects the messages sent to a tip change listener.  `events`
is a history variable, the calls made to the ledger's two operations, to
`reprocessQueue` and to `Add` with the state they were made on; nothing reads
it.
-/
import Cruzbit.Queue

namespace Cruzbit

open Word

/-! ### State -/

/-- A message sent to registered new tip channels on main chain tip
(dis-)connection. -/
structure TipChange where
  blockID : BlockID
  block : Block
  source : String
  connect : Bool
  more : Bool

/-- A call recorded in the history. -/
inductive Event
  | connectBlock (blockStore : BlockStorage) (ledger : Ledger) (block : Block)
  | disconnectBlock (blockStore : BlockStorage) (ledger : Ledger) (block : Block)
  | reprocessQueue (ledger : Ledger) (txQueue : TransactionQueue) (height : Int)
  | add (ledger : Ledger) (txQueue : TransactionQueue) (tx : Transaction)

/-- Processes blocks and transactions in order to construct the ledger. -/
structure Processor where
  blockStore : BlockStorage
  txQueue : TransactionQueue
  ledger : Ledger
  tipChanges : List TipChange
  events : List Event

/-- A processor over empty databases. -/
def Processor.new : Processor := ⟨∅, TransactionQueue.new, Ledger.empty, [], []⟩

/-! ### Target and median time -/

/-- Follow `Previous` the given number of times. -/
def walkHeaders (blockStore : BlockStorage) : Nat → BlockHeader → Res BlockHeader
  | 0, h => .ok h
  | n + 1, h => do
    let prev ← blockStore.derefHeader h.previous
    walkHeaders blockStore n prev

/-- Bound a value to an interval. -/
def clamp (lo hi x : Int) : Int := if x < lo then lo else if x > hi then hi else x

/-- Original target computation. -/
def computeTargetBitcoin (prevHeader : BlockHeader) (blockStore : BlockStorage) : Res BlockID := do
  if (prevHeader.height + 1).tmod retargetInterval ≠ 0 then
    -- not 2016th block, use previous block's value
    .ok prevHeader.target
  else
    -- defend against time warp attack
    let blocksToGoBack :=
      if prevHeader.height + 1 ≠ retargetInterval then retargetInterval else retargetInterval - 1
    -- walk back to the first block of the interval
    let firstHeader ← walkHeaders blockStore blocksToGoBack.toNat prevHeader
    let actualTimespan := clamp (retargetTime / 4) (retargetTime * 4)
      (prevHeader.time - firstHeader.time)
    let newTarget := (prevHeader.target.toNat : Int) * actualTimespan / retargetTime
    setBigInt (if newTarget > initialTarget then initialTarget else newTarget)

/-- The time between two headers, bounded to a factor in [0.5, 2] of the time
the window should take. -/
def windowTimespan (prevHeader firstHeader : BlockHeader) : Int :=
  let actualTimespan := prevHeader.time - firstHeader.time
  if actualTimespan > 2 * retargetSmaWindow * targetSpacing then
    2 * retargetSmaWindow * targetSpacing
  else if actualTimespan < (retargetSmaWindow / 2) * targetSpacing then
    (retargetSmaWindow / 2) * targetSpacing
  else actualTimespan

/-- The work between two headers per spacing. -/
def windowWork (prevHeader firstHeader : BlockHeader) : Int :=
  ((prevHeader.chainWork.toNat : Int) - firstHeader.chainWork.toNat) * targetSpacing /
    windowTimespan prevHeader firstHeader

/-- The target for the block after `prevHeader`, from the work and the time
since `firstHeader`: the last lines of `computeTargetBitcoinCash`. -/
def windowTarget (prevHeader firstHeader : BlockHeader) : Res BlockID := do
  let work := windowWork prevHeader firstHeader
  -- T = (2^256 / W) - 1
  failIf (work = 0) (.panic .divisionByZero)
  let newTarget := (2 ^ 256 : Int) / work - 1
  -- don't go above the initial target
  setBigInt (if newTarget > initialTarget then initialTarget else newTarget)

/-- Revised target computation: the first header comes from the height index
of the main chain. -/
def computeTargetBitcoinCash (prevHeader : BlockHeader) (blockStore : BlockStorage)
    (ledger : Ledger) : Res BlockID :=
  match ledger.getBlockIDForHeight (prevHeader.height - retargetSmaWindow) with
  | none => .error (.panic .nilBlockID)
  | some firstID => do
    let firstHeader ← blockStore.derefHeader firstID
    windowTarget prevHeader firstHeader

/-- Compute expected target of the current block. -/
def computeTarget (prevHeader : BlockHeader) (blockStore : BlockStorage) (ledger : Ledger) :
    Res BlockID :=
  if prevHeader.height ≥ bitcoinCashRetargetAlgorithmHeight then
    computeTargetBitcoinCash prevHeader blockStore ledger
  else computeTargetBitcoin prevHeader blockStore

/-- The timestamps of a header and its ancestors, at most the given number. -/
def collectTimestamps (blockStore : BlockStorage) : Nat → BlockHeader → List Int
  | 0, _ => []
  | n + 1, h =>
    h.time ::
      match blockStore.getBlockHeader h.previous with
      | none => []
      | some (prev, _) => collectTimestamps blockStore n prev

/-- Compute the median timestamp of the last blocks. -/
def computeMedianTimestamp (prevHeader : BlockHeader) (blockStore : BlockStorage) : Int :=
  let timestamps := collectTimestamps blockStore numBlocksForMedianTimestamp prevHeader
  (timestamps.insertionSort (· ≤ ·)).getD (timestamps.length / 2) 0

/-! ### acceptBlock: the checks -/

/-- Check series, maturity, expiration then verify signatures and calculate
total fees. -/
def acceptTransactions (crypto : Crypto) (txQueue : TransactionQueue) (height : Int) :
    List Transaction → Int → Res Int
  | [], fees => .ok fees
  | tx :: txs, fees => do
    failIf (checkTransactionSeries tx height = false) (.transactionSeries (tx.id crypto))
    failIf (tx.isCoinbase = false ∧ tx.isMature height = false) (.transactionImmature (tx.id crypto))
    failIf (tx.isCoinbase = false ∧ tx.isExpired height = true) (.transactionExpired (tx.id crypto))
    -- if it's in the queue with the same signature we've verified it already
    failIf (tx.isCoinbase = false ∧ txQueue.existsSigned (tx.id crypto) tx.signature = false ∧
      tx.verify crypto = false) (.signatureVerificationFailed (tx.id crypto))
    acceptTransactions crypto txQueue height txs (int64 (fees + tx.fee))

/-- Verify coinbase reward. -/
def checkCoinbaseAmount (id : BlockID) (block : Block) (reward : Int) : Res Unit :=
  match block.transactions with
  | [] => .error (.panic .sliceBounds)
  | coinbase :: _ => failIf (coinbase.amount ≠ reward) (.incorrectCoinbaseAmount id)

/-- The checks of `acceptBlock` that follow the one for a block processed
already. -/
def acceptBlockChecks (crypto : Crypto) (txQueue : TransactionQueue) (blockStore : BlockStorage)
    (ledger : Ledger) (id : BlockID) (block : Block) (prevHeader : BlockHeader) : Res Unit := do
  -- check declared proof of work is correct
  let target ← computeTarget prevHeader blockStore ledger
  failIf (block.header.target ≠ target) (.incorrectTarget block.header.target target id)
  -- check that cumulative work is correct
  let chainWork ← computeChainWork block.header.target prevHeader.chainWork
  failIf (block.header.chainWork ≠ chainWork) (.incorrectChainWork block.header.chainWork chainWork id)
  -- check that the timestamp isn't too far in the past
  failIf (block.header.time ≤ computeMedianTimestamp prevHeader blockStore) (.timestampTooEarly id)
  let fees ← acceptTransactions crypto txQueue block.header.height block.transactions 0
  checkCoinbaseAmount id block (int64 (blockCreationReward block.header.height + fees))

/-! ### Moving the tip -/

namespace Processor

variable (crypto : Crypto) (prune : Bool)

/-- Update the ledger and transaction queue and notify undo tip channels. -/
def disconnectBlock (s : Processor) (id : BlockID) (block : Block) (source : String) :
    Processor × Res Unit :=
  let s := { s with events := s.events ++ [Event.disconnectBlock s.blockStore s.ledger block] }
  match s.ledger.disconnectBlock crypto prune s.blockStore id block with
  | .error e => (s, .error e)
  | .ok (ledger, txIDs) =>
    -- add newly disconnected non-coinbase transactions back to the queue
    ({ s with
        ledger := ledger
        txQueue := s.txQueue.addBatch txIDs.tail block.transactions.tail
        tipChanges := s.tipChanges ++ [TipChange.mk id block source false false] }, .ok ())

/-- Update the ledger and transaction queue and notify new tip channels. -/
def connectBlock (s : Processor) (id : BlockID) (block : Block) (source : String) (more : Bool) :
    Processor × Res Unit :=
  let s := { s with events := s.events ++ [Event.connectBlock s.blockStore s.ledger block] }
  match s.ledger.connectBlock crypto prune s.blockStore id block with
  | .error e => (s, .error e)
  | .ok (ledger, txIDs) =>
    -- remove newly confirmed non-coinbase transactions from the queue
    let events := if more then s.events else s.events ++
      [Event.reprocessQueue ledger (txIDs.tail.foldl TransactionQueue.removeIfQueued s.txQueue)
        block.header.height]
    match s.txQueue.removeBatch crypto ledger.getPublicKeyBalance txIDs.tail block.header.height
        more with
    | (txQueue, .error e) =>
      ({ s with ledger := ledger, txQueue := txQueue, events := events }, .error e)
    | (txQueue, .ok ()) =>
      ({ s with
          ledger := ledger
          txQueue := txQueue
          tipChanges := s.tipChanges ++ [TipChange.mk id block source true more]
          events := events }, .ok ())

/-- Disconnect any main chain blocks we need to. -/
def disconnectBlocks (s : Processor) (source : String) : List BlockID → Processor × Res Unit
  | [] => (s, .ok ())
  | id :: ids =>
    match s.blockStore.getBlock id with
    | .error e => (s, .error e)
    | .ok block =>
      match s.disconnectBlock crypto prune id block source with
      | (s, .error e) => (s, .error e)
      | (s, .ok ()) => s.disconnectBlocks source ids

/-- Connect any new chain blocks we need to. -/
def connectBlocks (s : Processor) (source : String) : List BlockID → Processor × Res Unit
  | [] => (s, .ok ())
  | id :: ids =>
    match s.blockStore.getBlock id with
    | .error e => (s, .error e)
    | .ok block =>
      match s.connectBlock crypto prune id block source true with
      | (s, .error e) => (s, .error e)
      | (s, .ok ()) => s.connectBlocks source ids

end Processor

/-! ### The fork point -/

/-- Walk back a chain to the given height: the blocks passed, and the ID and
header reached. -/
def walkToHeight (blockStore : BlockStorage) (minHeight : Int) :
    Nat → BlockID → BlockHeader → Res (List BlockID × BlockID × BlockHeader)
  | 0, _, _ => .error .diverges
  | fuel + 1, id, h =>
    if h.height > minHeight then do
      let prev ← blockStore.derefHeader h.previous
      let (ids, r) ← walkToHeight blockStore minHeight fuel h.previous prev
      pure (id :: ids, r)
    else .ok ([], id, h)

/-- Scan both chains until we get to the common ancestor: the blocks passed
on either side. -/
def scanToAncestor (blockStore : BlockStorage) :
    Nat → BlockID → BlockHeader → BlockID → BlockHeader → Res (List BlockID × List BlockID)
  | 0, _, _, _, _ => .error .diverges
  | fuel + 1, tipAncestorID, tipAncestor, newAncestorID, newAncestor =>
    if newAncestor ≠ tipAncestor then do
      let tipPrev ← blockStore.derefHeader tipAncestor.previous
      let newPrev ← blockStore.derefHeader newAncestor.previous
      let (tips, news) ← scanToAncestor blockStore fuel tipAncestor.previous tipPrev
        newAncestor.previous newPrev
      pure (tipAncestorID :: tips, newAncestorID :: news)
    else .ok ([], [])

/-- The blocks to disconnect, from the tip down, and the blocks to connect,
from the fork point up. -/
def findFork (blockStore : BlockStorage) (tipID : BlockID) (tipHeader : BlockHeader)
    (prevID : BlockID) (prevHeader : BlockHeader) : Res (List BlockID × List BlockID) := do
  let minHeight := min tipHeader.height prevHeader.height
  let fuel := blockStore.size + 1
  -- walk back each chain to the common minHeight
  let (tips, tipAncestorID, tipAncestor) ← walkToHeight blockStore minHeight fuel tipID tipHeader
  let (news, newAncestorID, newAncestor) ← walkToHeight blockStore minHeight fuel prevID prevHeader
  let (tips', news') ← scanToAncestor blockStore fuel tipAncestorID tipAncestor newAncestorID
    newAncestor
  pure (tips ++ tips', (news ++ news').reverse)

/-! ### Accepting blocks -/

namespace Processor

variable (crypto : Crypto) (prune : Bool)

/-- The current main chain's tip ID, header, and storage time. -/
def getChainTipHeader (s : Processor) : Res (BlockID × BlockHeader × Int) :=
  match s.ledger.chainTip with
  | none => .error (.panic .nilBlockID)
  | some (tipID, _) =>
    match s.blockStore.getBlockHeader tipID with
    | none => .error (.panic .nilHeader)
    | some (tipHeader, tipWhen) => .ok (tipID, tipHeader, tipWhen)

/-- Continue accepting the block. -/
def acceptBlockContinue (s : Processor) (id : BlockID) (block : Block) (blockWhen : Int)
    (prevHeader : Option BlockHeader) (source : String) : Processor × Res Unit :=
  match s.getChainTipHeader with
  | .error e => (s, .error e)
  | .ok (tipID, tipHeader, tipWhen) =>
    if id = tipID then
      -- can happen if we failed connecting a new block
      (s, .ok ())
    -- is this block better than the current tip?
    else if block.header.compare crypto tipHeader blockWhen tipWhen = false then
      -- flag this as a side branch block
      ({ s with ledger := s.ledger.setBranchType id .side }, .ok ())
    else
      -- the new block is the better chain
      match prevHeader with
      | none => (s, .error (.panic .nilHeader))
      | some prevHeader =>
        match findFork s.blockStore tipID tipHeader block.header.previous prevHeader with
        | .error e => (s, .error e)
        | .ok (blocksToDisconnect, blocksToConnect) =>
          match s.disconnectBlocks crypto prune source blocksToDisconnect with
          | (s, .error e) => (s, .error e)
          | (s, .ok ()) =>
            match s.connectBlocks crypto prune source blocksToConnect with
            | (s, .error e) => (s, .error e)
            | (s, .ok ()) =>
              -- and finally connect the new block
              s.connectBlock crypto prune id block source false

/-- Try to reconnect the previous tip block when acceptBlockContinue fails for
the new block. -/
def reconnectTip (s : Processor) (id : BlockID) (source : String) : Processor × Res Unit :=
  match s.blockStore.getBlock id with
  | .error e => (s, .error e)
  | .ok block =>
    let storedAt := ((s.blockStore.getBlockHeader id).map Prod.snd).getD 0
    let prevHeader := (s.blockStore.getBlockHeader block.header.previous).map Prod.fst
    s.acceptBlockContinue crypto prune id block storedAt prevHeader source

/-- The part of `acceptBlock` after the checks: store the block, finish
accepting it if possible, and re-activate the old tip if not. -/
def acceptCheckedBlock (s : Processor) (id : BlockID) (block : Block) (now : Int)
    (prevHeader : BlockHeader) (source : String) : Processor × Res Unit :=
  -- store the block if we think we're going to accept it
  let s := { s with blockStore := s.blockStore.store id block now }
  -- get the current tip before we try adjusting the chain
  let tipID := s.ledger.chainTip.map Prod.fst
  match s.acceptBlockContinue crypto prune id block now (some prevHeader) source with
  | (s, .ok ()) => (s, .ok ())
  | (s, .error e) =>
    -- a panic is not handled
    if e.isPanic = true then (s, .error e)
    else
      -- we may have disconnected the old best chain and partially
      -- connected the new one before encountering a problem. re-activate it now
      match tipID with
      | none => (s, .error (.panic .nilBlockID))
      | some tipID =>
        match s.reconnectTip crypto prune tipID source with
        | (s, .error e') => (s, .error (if e'.isPanic = true then e' else e))
        -- return the original error
        | (s, .ok ()) => (s, .error e)

/-- Attempt to extend the chain with the new block. -/
def acceptBlock (s : Processor) (id : BlockID) (block : Block) (now : Int) (source : String) :
    Processor × Res Unit :=
  match s.blockStore.derefHeader block.header.previous with
  | .error e => (s, .error e)
  | .ok prevHeader =>
    -- check height
    if block.header.height ≠ prevHeader.height + 1 then
      (s, .error (.unexpectedHeight (prevHeader.height + 1) block.header.height id))
    -- did we process it already?
    else if s.ledger.getBranchType id ≠ .unknown then (s, .ok ())
    else
      match acceptBlockChecks crypto s.txQueue s.blockStore s.ledger id block prevHeader with
      | .error e => (s, .error e)
      | .ok () => s.acceptCheckedBlock crypto prune id block now prevHeader source

/-- Process a block. -/
def processBlock (genesisID : BlockID) (s : Processor) (id : BlockID) (block : Block) (now : Int)
    (source : String) : Processor × Res Unit :=
  -- did we process this block already?
  if s.ledger.getBranchType id ≠ .unknown then (s, .ok ())
  else
    -- sanity check the block
    match checkBlock crypto id block now with
    | .error e => (s, .error e)
    | .ok () =>
      -- have we processed its parent?
      if s.ledger.getBranchType block.header.previous ≠ .main ∧
          s.ledger.getBranchType block.header.previous ≠ .side then
        if id = genesisID then
          -- store it and begin the ledger
          connectBlock crypto prune { s with blockStore := s.blockStore.store id block now }
            id block source false
        -- current block is an orphan
        else (s, .error (.orphan id))
      -- attempt to extend the chain
      else s.acceptBlock crypto prune id block now source

/-! ### Transactions -/

/-- The checks of `processTransaction` that precede queueing. -/
def processTransactionChecks (s : Processor) (id : TransactionID) (tx : Transaction) : Res Unit := do
  failIf (tx.fee < minFeeCruzbits) (.feeBelowMinimum id)
  failIf (tx.amount < minAmountCruzbits) (.amountBelowMinimum id)
  -- context-free checks
  checkTransaction id tx
  -- no loose coinbases
  failIf (tx.isCoinbase = true) (.looseCoinbase id)
  -- is the queue full?
  failIf ((s.txQueue.len : Int) ≥ maxTransactionQueueLength) (.queueFull id)
  -- is it confirmed already?
  failIf (((s.ledger.getTransactionIndex id).bind Prod.fst).isSome = true) (.alreadyConfirmed id)
  -- check series, maturity and expiration
  match s.ledger.chainTip with
  | none => .error .noChainTip
  | some (_, tipHeight) =>
    failIf (checkTransactionSeries tx (tipHeight + 1) = false) (.transactionSeries id)
    failIf (tx.isMature (tipHeight + 1) = false) (.transactionWouldBeImmature id)
    failIf (tx.isExpired (tipHeight + 1) = true) (.transactionIsExpired id tipHeight tx.expires)
    -- verify signature
    failIf (tx.verify crypto = false) (.signatureVerificationFailed id)

/-- Process a transaction. -/
def processTransaction (s : Processor) (id : TransactionID) (tx : Transaction) :
    Processor × Res Unit :=
  match s.processTransactionChecks crypto id tx with
  | .error e => (s, .error e)
  | .ok () =>
    let s := { s with events := s.events ++ [Event.add s.ledger s.txQueue tx] }
    -- rejects a transaction if sender would have insufficient balance
    match s.txQueue.add s.ledger.getPublicKeyBalance id tx with
    | (txQueue, .error e) => ({ s with txQueue := txQueue }, .error e)
    | (txQueue, .ok _) => ({ s with txQueue := txQueue }, .ok ())

end Processor

end Cruzbit

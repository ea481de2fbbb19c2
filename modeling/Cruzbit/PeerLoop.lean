/-
Cruzbit/PeerLoop.lean

The loops of a peer (`peer.go`): the writer loop, which sends tips, filtered
blocks, transactions and work to the peer, and the handlers of the reader
loop that set the filter.

The state is what the loops share with each other and with the processor.
Where the writer loop reads the databases several times in a row, its place
between the reads is a `Stage`, so that the processor may move in between.  A
call that makes the program panic is a step that is not there.

The block that is made for a mining peer is one object: what the peer submits
is written into it, and a tip change that is still under way may have it
(`overwrite`).  Blocks that others deliver are not written to any more.
-/
import Cruzbit.Cuckoo
import Cruzbit.Feed
import Cruzbit.Mining

namespace Cruzbit

open Chain Word

/-! ### Messages -/

/-- The errors sent in answer to filter messages. -/
inductive FilterErr
  | unsupportedType (filterType : String)    -- "Unsupported filter type: %s"
  | tooLarge                                 -- "Filter too large, max: %d\n"
  | cannotDecode (length : Nat)              -- "expected bytes to be multiple of %d, got %d"
  | tooManyPublicKeys                        -- "Too many public keys, limit: %d"
  | unableToInsert                           -- "Unable to insert into filter"
  | noFilterSet                              -- "No filter set"
  deriving DecidableEq, Repr

/-- The errors sent in answer to work messages. -/
inductive WorkErr
  | alreadyHasWork                           -- "Peer already has work"
  | noPublicKeys                             -- "No public keys specified"
  | memoTooLong (length : Nat)               -- "Max memo length (%d) exceeded: %d"
  | noWorkID                                 -- "No work ID set"
  | unexpectedWorkID (expected found : Int)  -- "Expected work ID %d, found %d"
  | failed (e : Err)
  deriving DecidableEq, Repr

/-- FilterBlockMessage: a pared down block, with the transactions that the peer
is interested in. -/
structure FilterBlock where
  blockID : BlockID
  header : BlockHeader
  transactions : List Transaction

/-- The answers of the reader loop. -/
inductive Answer
  | filterResult (error : Option FilterErr)
  | filterTransactionQueue (transactions : Except FilterErr (List Transaction))

/-- What is sent to a peer. -/
inductive PeerMessage
  | answer (a : Answer)
  | invBlock (blockIDs : List BlockID)
  | filterBlock (fb : FilterBlock)
  | filterBlockUndo (fb : FilterBlock)
  | pushTransaction (tx : Transaction)
  /-- A header to work on and the minimum time, under a work ID. -/
  | work (workID : Int) (body : Except WorkErr (BlockHeader × Int))
  | submitWorkResult (workID : Int) (error : Option WorkErr)

/-! ### The filter -/

/-- A filter with any number of buckets, as one can be loaded. -/
abbrev LoadedFilter := (n : Nat) × Cuckoo.Filter n

section Filter

-- MetroHash, with a seed
variable (hash64 : List UInt8 → UInt64 → UInt64)

/-- `Lookup`.  With no buckets it divides by zero. -/
def LoadedFilter.lookup (f : LoadedFilter) (data : List UInt8) : Option Bool :=
  match f with
  | ⟨0, _⟩ => none
  | ⟨_ + 1, f⟩ => some (f.lookup hash64 data)

/-- `Insert`, one key after the other until one fails. -/
def LoadedFilter.insertAll (f : LoadedFilter) (keys : List (Cuckoo.Draw × PublicKey)) :
    Option (LoadedFilter × Bool) :=
  match f with
  | ⟨0, f⟩ => if keys = [] then some (⟨0, f⟩, true) else none
  | ⟨n + 1, f⟩ =>
    let (f, ok) := f.insertAll hash64 keys
    some (⟨n + 1, f⟩, ok)

/-- Returns true if the transaction is of interest to the peer. -/
def filterLookup (filter : Option LoadedFilter) (tx : Transaction) : Option Bool :=
  match filter with
  | none => some true
  | some f =>
    if tx.isCoinbase then f.lookup hash64 tx.recipient
    else
      match f.lookup hash64 tx.sender with
      | some false => f.lookup hash64 tx.recipient
      | found => found

/-- The transactions of interest. -/
def filterTransactions (filter : Option LoadedFilter) :
    List Transaction → Option (List Transaction)
  | [] => some []
  | tx :: txs => do
    let interested ← filterLookup hash64 filter tx
    let txs ← filterTransactions filter txs
    return if interested then tx :: txs else txs

/-- Create a filter block, if a filter is set. -/
def createFilterBlock (filter : Option LoadedFilter) (id : BlockID) (block : Block) :
    Option (Option FilterBlock) :=
  match filter with
  -- nothing to do
  | none => some none
  | some _ => do
    -- filter out transactions the peer isn't interested in
    let txs ← filterTransactions hash64 filter block.transactions
    return some ⟨id, block.header, txs⟩

/-- Handle a request to set a transaction filter for the connection. -/
def onFilterLoad (filter : Option LoadedFilter) (filterType : String) (filterBytes : List UInt8) :
    Option LoadedFilter × Answer :=
  -- check filter type
  if filterType ≠ "cuckoo" then (filter, .filterResult (some (.unsupportedType filterType)))
  -- check limit
  else if filterBytes.length > 2 ^ 16 then (filter, .filterResult (some .tooLarge))
  else
    -- decode it
    match Cuckoo.decode filterBytes with
    | .error length => (filter, .filterResult (some (.cannotDecode length)))
    -- set the filter
    | .ok f => (some f, .filterResult none)

/-- Handle a request to add a set of public keys to the filter. -/
def onFilterAdd (filter : Option LoadedFilter) (keys : List (Cuckoo.Draw × PublicKey)) :
    Option (Option LoadedFilter × Answer) :=
  -- check limit
  if keys.length > 256 then some (filter, .filterResult (some .tooManyPublicKeys))
  else do
    -- set the filter if it's not set, and perform the inserts
    let (f, ok) ← (filter.getD ⟨_, Cuckoo.newFilter 65536⟩).insertAll hash64 keys
    return (some f, .filterResult (if ok then none else some .unableToInsert))

/-- Send back a filtered view of the transaction queue. -/
def onGetFilterTransactionQueue (filter : Option LoadedFilter) (txQueue : TransactionQueue) :
    Option Answer :=
  match filter with
  | none => some (.filterTransactionQueue (.error .noFilterSet))
  | some _ => do
    let txs ← filterTransactions hash64 filter (txQueue.get 0)
    return .filterTransactionQueue (.ok txs)

end Filter

/-! ### The loops -/

/-- Where the writer loop is. -/
inductive Stage
  /-- In its select. -/
  | idle
  /-- In `createNewWorkBlock`, before the median timestamp is computed.  It may
  have been called for a tip change. -/
  | median (tipID : BlockID) (tipHeader : BlockHeader) (change : Option TipChange)
  /-- Before the queue is read. -/
  | queue (tipID : BlockID) (tipHeader : BlockHeader) (pubKey : PublicKey)
      (change : Option TipChange)
  /-- Before the target is computed. -/
  | target (tipID : BlockID) (tipHeader : BlockHeader) (pubKey : PublicKey)
      (txQueue : TransactionQueue) (change : Option TipChange)
  /-- Before the peer is told about a tip change. -/
  | announce (change : TipChange)
  /-- In `onSubmitWork`, until the processor takes up the block. -/
  | submitting (workID : Int) (block : Block)
  /-- In `onSubmitWork`, until the result comes. -/
  | awaiting (workID : Int) (result : Res Unit)

structure PeerLoop where
  feed : Feed
  /-- The remote address. -/
  addr : String
  filter : Option LoadedFilter
  /-- What the reader loop is about to send to the writer loop. -/
  reply : Option Answer
  outChan : Option Answer
  pubKeys : List PublicKey
  memo : List UInt8
  workID : Int
  workBlock : Option Block
  /-- The tip changes, counted from the first, whose block is the work block itself: they have the
  pointer that was given to the processor. -/
  shared : List Nat
  medianTimestamp : Int
  stage : Stage
  /-- History: what was sent to the peer. -/
  sent : List PeerMessage

inductive PeerEvent
  /-- The processor goes on. -/
  | feed (l : FeedStep)
  /-- The reader loop handles a message. -/
  | filterLoad (filterType : String) (filterBytes : List UInt8)
  | filterAdd (keys : List (Cuckoo.Draw × PublicKey))
  | getFilterTransactionQueue
  /-- The reader loop sends its answer to the writer loop. -/
  | reply
  /-- The writer loop sends on the reader loop's answer. -/
  | write
  | takeTip
  | takeTx
  | announce
  | getWork (pubKeys : List PublicKey) (memo : List UInt8)
  | updateWorkCheck
  /-- The steps of `createNewWorkBlock`, with what is drawn at random. -/
  | median (keyIndex : Nat) (workID : Int)
  | readQueue
  | create (draw : Draw)
  | submitWork (workID : Int) (header : BlockHeader)
  /-- The processor takes up the submitted block. -/
  | process (now : Int)
  /-- The result has come. -/
  | submitted

namespace PeerLoop

variable (hash64 : List UInt8 → UInt64 → UInt64) (crypto : Crypto) (prune : Bool)

/-- Send a message to the peer. -/
def send (s : PeerLoop) (m : PeerMessage) : PeerLoop := { s with sent := s.sent ++ [m] }

/-- After `createNewWorkBlock`. -/
def resume (s : PeerLoop) : Option TipChange → PeerLoop
  | none => { s with stage := .idle }
  | some m => { s with stage := .announce m }

/-- Create a new work block for a mining peer. -/
def createNewWorkBlock (s : PeerLoop) (tipID : BlockID) (tipHeader : BlockHeader)
    (change : Option TipChange) : PeerLoop :=
  -- peer doesn't want work
  if s.pubKeys = [] then s.resume change
  else { s with stage := .median tipID tipHeader change }

/-- A tip change, up to the point where work is out. -/
def onTipChange (s : PeerLoop) (tip : TipChange) : PeerLoop :=
  -- only build off newly connected tip blocks
  if tip.connect = true ∧ tip.more = false then
    s.createNewWorkBlock tip.blockID tip.block.header (some tip)
  else { s with stage := .announce tip }

/-- Notify the peer of a tip change. -/
def announce (s : PeerLoop) (tip : TipChange) : Option PeerLoop :=
  let s := { s with stage := .idle }
  -- this is who sent us the block that caused the change
  if tip.source = s.addr then some s
  else do
    let s := if tip.connect then s.send (.invBlock [tip.blockID]) else s
    -- potentially create a filter_block
    let fb ← createFilterBlock hash64 s.filter tip.blockID tip.block
    return match fb with
      | none => s
      | some fb => s.send (if tip.connect then .filterBlock fb else .filterBlockUndo fb)

/-- Relay a transaction. -/
def onNewTx (s : PeerLoop) (newTx : NewTx) : Option PeerLoop :=
  -- this is who sent it to us
  if newTx.source = s.addr then some s
  else do
    let interested ← filterLookup hash64 s.filter newTx.transaction
    return if interested then s.send (.pushTransaction newTx.transaction) else s

/-- Handle a request for work. -/
def onGetWork (s : PeerLoop) (pubKeys : List PublicKey) (memo : List UInt8) : Option PeerLoop :=
  if s.workBlock.isSome then some (s.send (.work 0 (.error .alreadyHasWork)))
  else if pubKeys = [] then some (s.send (.work 0 (.error .noPublicKeys)))
  else if memo.length > maxMemoLength then
    some (s.send (.work 0 (.error (.memoTooLong memo.length))))
  else
    match s.feed.view.getChainTipHeader with
    | .error e => if e.isPanic then none else some (s.send (.work 0 (.error (.failed e))))
    | .ok (tipID, tipHeader, _) =>
      -- create and send out new work
      some ({ s with pubKeys := pubKeys, memo := memo }.createNewWorkBlock tipID tipHeader none)

/-- Check to see if we need to update work for miners. -/
def updateWorkCheck (s : PeerLoop) : Option PeerLoop :=
  match s.workBlock with
  -- peer doesn't have work
  | none => some s
  | some b =>
    -- already at capacity
    if (b.transactions.length : Int) = maxTransactionsToIncludePerBlock then some s
    else if (b.transactions.length : Int) - 1 ≠ s.feed.view.txQueue.len then
      match s.feed.view.getChainTipHeader with
      | .error e => if e.isPanic then none else some s
      | .ok (tipID, tipHeader, _) => some (s.createNewWorkBlock tipID tipHeader none)
    else some s

/-- The last part of `createNewWorkBlock`: the block is there or not. -/
def issueWork (s : PeerLoop) (r : Res Block) : PeerLoop :=
  match r with
  | .ok b =>
    { s with workBlock := some b, shared := [] }.send
      (.work s.workID (.ok (b.header, int64 (s.medianTimestamp + 1))))
  | .error e =>
    { s with workBlock := none, shared := [] }.send (.work s.workID (.error (.failed e)))

/-- Set the header of the work block, as the messages in the channel see it that have the block. -/
def overwrite (s : PeerLoop) (header : BlockHeader) : Feed :=
  { s.feed with
    tipChangeChan := s.feed.tipChangeChan.mapIdx fun i m =>
      if s.feed.taken.length + i ∈ s.shared then
        { m with block := { m.block with header := header } }
      else m }

/-- The last tip change of a call has the block that was given to the processor if it is the one
that was connected. -/
def sharedBy (p p' : Processor) (id : BlockID) : List Nat :=
  match (p.sent p').getLast? with
  | some m => if m.blockID = id then [p'.tipChanges.length - 1] else []
  | none => []

/-- Handle a submission of mining work, up to the call of the processor.  The header is set in the
block that the peer may have submitted before. -/
def onSubmitWork (s : PeerLoop) (workID : Int) (header : BlockHeader) : Option PeerLoop :=
  if workID = 0 then some (s.send (.submitWorkResult workID (some .noWorkID)))
  else if workID ≠ s.workID then
    some (s.send (.submitWorkResult workID (some (.unexpectedWorkID s.workID workID))))
  else
    match s.workBlock with
    | none => none
    | some b =>
      let b := { b with header := header }
      some
        { s with
          feed := s.overwrite header, workBlock := some b, stage := .submitting workID b }

/-- The result as it is sent to the peer. -/
def submitResult (workID : Int) : Res Unit → PeerMessage
  | .ok () => .submitWorkResult workID none
  | .error e => .submitWorkResult workID (some (.failed e))

def step (s : PeerLoop) : PeerEvent → Option PeerLoop
  | .feed l => do
    let feed ← s.feed.step crypto prune l
    return { s with feed := feed }
  -- the reader loop
  | .filterLoad filterType filterBytes =>
    match s.reply with
    | none =>
      let (filter, a) := onFilterLoad s.filter filterType filterBytes
      some { s with filter := filter, reply := some a }
    | some _ => none
  | .filterAdd keys =>
    match s.reply with
    | none => do
      let (filter, a) ← onFilterAdd hash64 s.filter keys
      return { s with filter := filter, reply := some a }
    | some _ => none
  | .getFilterTransactionQueue =>
    match s.reply with
    | none => do
      let a ← onGetFilterTransactionQueue hash64 s.filter s.feed.view.txQueue
      return { s with reply := some a }
    | some _ => none
  | .reply =>
    match s.reply, s.outChan with
    | some a, none => some { s with reply := none, outChan := some a }
    | _, _ => none
  -- the writer loop
  | .write =>
    match s.stage, s.outChan with
    | .idle, some a => some ({ s with outChan := none }.send (.answer a))
    | _, _ => none
  | .takeTip =>
    match s.stage, s.feed.tipChangeChan with
    | .idle, m :: ms => some ({ s with feed := { s.feed with tipChangeChan := ms } }.onTipChange m)
    | _, _ => none
  | .takeTx =>
    match s.stage, s.feed.newTxChan with
    | .idle, m :: ms => { s with feed := { s.feed with newTxChan := ms } }.onNewTx hash64 m
    | _, _ => none
  | .announce =>
    match s.stage with
    | .announce m => s.announce hash64 m
    | _ => none
  | .getWork pubKeys memo =>
    match s.stage with
    | .idle => s.onGetWork pubKeys memo
    | _ => none
  | .updateWorkCheck =>
    match s.stage with
    | .idle => s.updateWorkCheck
    | _ => none
  | .median keyIndex workID =>
    match s.stage, s.pubKeys[keyIndex]? with
    | .median tipID tipHeader change, some pubKey =>
      some
        { s with
          medianTimestamp := computeMedianTimestamp tipHeader s.feed.view.blockStore
          workID := workID
          stage := .queue tipID tipHeader pubKey change }
    | _, _ => none
  | .readQueue =>
    match s.stage with
    | .queue tipID tipHeader pubKey change =>
      some { s with stage := .target tipID tipHeader pubKey s.feed.view.txQueue change }
    | _ => none
  | .create draw =>
    match s.stage with
    | .target tipID tipHeader pubKey txQueue change =>
      match createNextBlock crypto draw tipID tipHeader txQueue s.feed.view.blockStore
          s.feed.view.ledger pubKey s.memo with
      | .ok b => some ((s.issueWork (.ok b)).resume change)
      | .error e => if e.isPanic then none else some ((s.issueWork (.error e)).resume change)
    | _ => none
  | .submitWork workID header =>
    match s.stage with
    | .idle => s.onSubmitWork workID header
    | _ => none
  | .process now =>
    match s.stage with
    | .submitting workID block => do
      let feed ← s.feed.step crypto prune (.block block now s.addr)
      let result := (s.feed.processor.step crypto prune (.block block now s.addr)).2
      let shared := s.shared ++ sharedBy s.feed.processor feed.processor (block.id crypto)
      return { s with feed := feed, shared := shared, stage := .awaiting workID result }
    | _ => none
  | .submitted =>
    match s.stage, s.feed.rest, s.feed.outbox with
    | .awaiting workID result, [], [] =>
      some ({ s with stage := .idle }.send (submitResult workID result))
    | _, _, _ => none

/-- A new connection. -/
def Start (A : Call → Prop) (s : PeerLoop) : Prop :=
  s.feed.Start crypto prune A ∧
    s = ⟨s.feed, s.addr, none, none, none, [], [], 0, none, [], 0, .idle, []⟩

/-- The calls of the processor meet a condition, and the peer does not submit again before the loop
has taken the tip change that its submission has led to. -/
def Meets (A : Call → Prop) (s : PeerLoop) : PeerEvent → Prop
  | .feed l => Feed.Meets A l
  | .process now => ∀ workID block, s.stage = .submitting workID block →
      A (.block block now s.addr)
  | .submitWork workID _ => workID = s.workID → ∀ i ∈ s.shared, i < s.feed.taken.length
  | _ => True

/-! ### What a step takes -/

section Steps

variable {hash64 : List UInt8 → UInt64 → UInt64} {crypto : Crypto} {prune : Bool}
  {s s' : PeerLoop}

theorem feed_eq_some {l : FeedStep} (hs : s.step hash64 crypto prune (.feed l) = some s') :
    ∃ f, s.feed.step crypto prune l = some f ∧ s' = { s with feed := f } := by
  obtain ⟨f, hf, hs⟩ := Option.bind_eq_some_iff.mp hs
  exact ⟨f, hf, (Option.some.inj hs).symm⟩

theorem filterLoad_eq_some {filterType : String} {filterBytes : List UInt8}
    (hs : s.step hash64 crypto prune (.filterLoad filterType filterBytes) = some s') :
    s.reply = none ∧ s' =
      { s with
        filter := (onFilterLoad s.filter filterType filterBytes).1
        reply := some (onFilterLoad s.filter filterType filterBytes).2 } := by
  simp only [step] at hs
  split at hs
  · next hreply => exact ⟨hreply, (Option.some.inj hs).symm⟩
  · cases hs

theorem filterAdd_eq_some {keys : List (Cuckoo.Draw × PublicKey)}
    (hs : s.step hash64 crypto prune (.filterAdd keys) = some s') :
    s.reply = none ∧ ∃ filter a, onFilterAdd hash64 s.filter keys = some (filter, a) ∧
      s' = { s with filter := filter, reply := some a } := by
  simp only [step] at hs
  split at hs
  · next hreply =>
    obtain ⟨⟨filter, a⟩, hadd, hs⟩ := Option.bind_eq_some_iff.mp hs
    exact ⟨hreply, filter, a, hadd, (Option.some.inj hs).symm⟩
  · cases hs

theorem getFilterTransactionQueue_eq_some
    (hs : s.step hash64 crypto prune .getFilterTransactionQueue = some s') :
    s.reply = none ∧ ∃ a, onGetFilterTransactionQueue hash64 s.filter s.feed.view.txQueue = some a ∧
      s' = { s with reply := some a } := by
  simp only [step] at hs
  split at hs
  · next hreply =>
    obtain ⟨a, ha, hs⟩ := Option.bind_eq_some_iff.mp hs
    exact ⟨hreply, a, ha, (Option.some.inj hs).symm⟩
  · cases hs

theorem reply_eq_some (hs : s.step hash64 crypto prune .reply = some s') :
    ∃ a, s.reply = some a ∧ s.outChan = none ∧
      s' = { s with reply := none, outChan := some a } := by
  simp only [step] at hs
  split at hs
  · next a hreply hout => exact ⟨a, hreply, hout, (Option.some.inj hs).symm⟩
  · cases hs

theorem write_eq_some (hs : s.step hash64 crypto prune .write = some s') :
    s.stage = .idle ∧ ∃ a, s.outChan = some a ∧
      s' = ({ s with outChan := none } : PeerLoop).send (.answer a) := by
  simp only [step] at hs
  split at hs
  · next a hstage hout => exact ⟨hstage, a, hout, (Option.some.inj hs).symm⟩
  · cases hs

theorem takeTip_eq_some (hs : s.step hash64 crypto prune .takeTip = some s') :
    s.stage = .idle ∧ ∃ m ms, s.feed.tipChangeChan = m :: ms ∧
      s' = ({ s with feed := { s.feed with tipChangeChan := ms } } : PeerLoop).onTipChange m := by
  simp only [step] at hs
  split at hs
  · next m ms hstage hchan => exact ⟨hstage, m, ms, hchan, (Option.some.inj hs).symm⟩
  · cases hs

theorem takeTx_eq_some (hs : s.step hash64 crypto prune .takeTx = some s') :
    s.stage = .idle ∧ ∃ m ms, s.feed.newTxChan = m :: ms ∧
      ({ s with feed := { s.feed with newTxChan := ms } } : PeerLoop).onNewTx hash64 m =
        some s' := by
  simp only [step] at hs
  split at hs
  · next m ms hstage hchan => exact ⟨hstage, m, ms, hchan, hs⟩
  · cases hs

theorem announce_eq_some (hs : s.step hash64 crypto prune .announce = some s') :
    ∃ m, s.stage = .announce m ∧ s.announce hash64 m = some s' := by
  simp only [step] at hs
  split at hs
  · next m hstage => exact ⟨m, hstage, hs⟩
  · cases hs

theorem getWork_eq_some {pubKeys : List PublicKey} {memo : List UInt8}
    (hs : s.step hash64 crypto prune (.getWork pubKeys memo) = some s') :
    s.stage = .idle ∧ s.onGetWork pubKeys memo = some s' := by
  simp only [step] at hs
  split at hs
  · next hstage => exact ⟨hstage, hs⟩
  · cases hs

theorem updateWorkCheck_eq_some (hs : s.step hash64 crypto prune .updateWorkCheck = some s') :
    s.stage = .idle ∧ s.updateWorkCheck = some s' := by
  simp only [step] at hs
  split at hs
  · next hstage => exact ⟨hstage, hs⟩
  · cases hs

theorem median_eq_some {keyIndex : Nat} {workID : Int}
    (hs : s.step hash64 crypto prune (.median keyIndex workID) = some s') :
    ∃ tipID tipHeader change pubKey, s.stage = .median tipID tipHeader change ∧
      s.pubKeys[keyIndex]? = some pubKey ∧ s' =
        { s with
          medianTimestamp := computeMedianTimestamp tipHeader s.feed.view.blockStore
          workID := workID
          stage := .queue tipID tipHeader pubKey change } := by
  simp only [step] at hs
  split at hs
  · next tipID tipHeader change pubKey hstage hkey =>
    exact ⟨tipID, tipHeader, change, pubKey, hstage, hkey, (Option.some.inj hs).symm⟩
  · cases hs

theorem readQueue_eq_some (hs : s.step hash64 crypto prune .readQueue = some s') :
    ∃ tipID tipHeader pubKey change, s.stage = .queue tipID tipHeader pubKey change ∧
      s' = { s with stage := .target tipID tipHeader pubKey s.feed.view.txQueue change } := by
  simp only [step] at hs
  split at hs
  · next tipID tipHeader pubKey change hstage =>
    exact ⟨tipID, tipHeader, pubKey, change, hstage, (Option.some.inj hs).symm⟩
  · cases hs

theorem create_eq_some {draw : Draw} (hs : s.step hash64 crypto prune (.create draw) = some s') :
    ∃ tipID tipHeader pubKey txQueue change,
      s.stage = .target tipID tipHeader pubKey txQueue change ∧
      s' = (s.issueWork (createNextBlock crypto draw tipID tipHeader txQueue
        s.feed.view.blockStore s.feed.view.ledger pubKey s.memo)).resume change := by
  simp only [step] at hs
  split at hs
  · next tipID tipHeader pubKey txQueue change hstage =>
    refine ⟨tipID, tipHeader, pubKey, txQueue, change, hstage, ?_⟩
    split at hs
    · next b hb =>
      rw [hb]
      exact (Option.some.inj hs).symm
    · next e he =>
      split_ifs at hs
      rw [he]
      exact (Option.some.inj hs).symm
  · cases hs

theorem submitWork_eq_some {workID : Int} {header : BlockHeader}
    (hs : s.step hash64 crypto prune (.submitWork workID header) = some s') :
    s.stage = .idle ∧ s.onSubmitWork workID header = some s' := by
  simp only [step] at hs
  split at hs
  · next hstage => exact ⟨hstage, hs⟩
  · cases hs

theorem process_eq_some {now : Int} (hs : s.step hash64 crypto prune (.process now) = some s') :
    ∃ workID block f, s.stage = .submitting workID block ∧
      s.feed.step crypto prune (.block block now s.addr) = some f ∧ s' =
        { s with
          feed := f
          shared := s.shared ++ sharedBy s.feed.processor f.processor (block.id crypto)
          stage := .awaiting workID
            (s.feed.processor.step crypto prune (.block block now s.addr)).2 } := by
  simp only [step] at hs
  split at hs
  · next workID block hstage =>
    obtain ⟨f, hf, hs⟩ := Option.bind_eq_some_iff.mp hs
    exact ⟨workID, block, f, hstage, hf, (Option.some.inj hs).symm⟩
  · cases hs

theorem submitted_eq_some (hs : s.step hash64 crypto prune .submitted = some s') :
    ∃ workID result, s.stage = .awaiting workID result ∧
      s' = ({ s with stage := .idle } : PeerLoop).send (submitResult workID result) := by
  simp only [step] at hs
  split at hs
  · next workID result hstage _ _ =>
    exact ⟨workID, result, hstage, (Option.some.inj hs).symm⟩
  · cases hs

/-- **The header of the work block is set.**  The tip changes that have the block have been taken,
so no message changes. -/
theorem overwrite_eq (h : ∀ i ∈ s.shared, i < s.feed.taken.length) (header : BlockHeader) :
    s.overwrite header = s.feed := by
  have hchan : (s.feed.tipChangeChan.mapIdx fun i m =>
      if s.feed.taken.length + i ∈ s.shared then
        { m with block := { m.block with header := header } }
      else m) = s.feed.tipChangeChan := by
    refine List.ext_getElem (by simp) fun i hi hi' => ?_
    rw [List.getElem_mapIdx, if_neg fun hmem => ?_]
    have := h _ hmem
    omega
  rw [overwrite, hchan]

theorem overwrite_of_chan (h : s.feed.tipChangeChan = []) (header : BlockHeader) :
    s.overwrite header = s.feed := by
  unfold overwrite
  rw [h, List.mapIdx_nil, ← h]

/-- **A submission that comes too early** goes into the tip change for the one before: the loop will
take another header for that of the new tip. -/
theorem overwrite_cons {m : TipChange} {ms : List TipChange}
    (hchan : s.feed.tipChangeChan = m :: ms) (hshared : s.feed.taken.length ∈ s.shared)
    (header : BlockHeader) :
    (s.overwrite header).tipChangeChan.head? =
      some { m with block := { m.block with header := header } } := by
  simp [overwrite, hchan, hshared]

/-- A submission is answered at once, or the block goes to the processor. -/
theorem onSubmitWork_eq_some {workID : Int} {header : BlockHeader}
    (hs : s.onSubmitWork workID header = some s') :
    (∃ e, s' = s.send (.submitWorkResult workID (some e))) ∨
      workID = s.workID ∧ ∃ b, s.workBlock = some b ∧ s' =
        { s with
          feed := s.overwrite header
          workBlock := some { b with header := header }
          stage := .submitting workID { b with header := header } } := by
  unfold onSubmitWork at hs
  split_ifs at hs with hzero hid
  · exact .inl ⟨_, (Option.some.inj hs).symm⟩
  · exact .inl ⟨_, (Option.some.inj hs).symm⟩
  · split at hs
    · cases hs
    · next b hb => exact .inr ⟨not_not.mp hid, b, hb, (Option.some.inj hs).symm⟩

end Steps

end PeerLoop

end Cruzbit

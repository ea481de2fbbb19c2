/-
Cruzbit/Session.lean

A session in which one node downloads the main chain of another.

The requester sends `find_common_ancestor`, and the responder answers with up
to 500 block IDs.  The requester asks for those that it does not know, with up to
eight requests on the way at a time.  When it asks for the last of them, the
responder also sends the ID of its tip.  That block is an orphan if there is
more to download, and then the requester looks for a common ancestor again.

The requester's reader loop is the one of `Download.lean`, with the answers of
its own databases, and the messages are put together as in `CommonAncestor.lean`.
New here are the responder's `getBlock` and the two streams of messages.  The
nodes take their steps in any order.  Neither hears from another node meanwhile.
-/
import Cruzbit.CommonAncestor
import Cruzbit.Convergence
import Cruzbit.Transition

namespace Cruzbit

open Chain Transition Word

/-- What the requester sends. -/
inductive Ask
  | getBlock (id : BlockID)
  | findCommonAncestor (ids : List BlockID)

/-- What the responder sends. -/
inductive Bid
  | invBlock (ids : List BlockID)
  /-- The block, if it was found. -/
  | block (id : BlockID) (block : Option Block)

structure Session where
  /-- The requester. -/
  node : Processor
  globalInflightQueue : BlockQueue
  peer : DownloadPeer
  /-- What is left of the `inv_block` message in hand: ID, index and length. -/
  inv : List (BlockID × Int × Int)
  /-- The messages on the way to the responder. -/
  asks : List Ask
  /-- The responder. -/
  remote : Processor
  continuationBlockID : BlockID
  /-- The messages on the way to the requester. -/
  bids : List Bid
  /-- The responder's address. -/
  addr : String

inductive SessionEvent
  /-- The requester's reader loop takes the next message. -/
  | receive (ibd : Bool) (now : Int)
  /-- It handles the next ID of the message in hand. -/
  | nextInv (now : Int)
  /-- Its handler goes on. -/
  | goOn (now : Int)
  /-- The responder handles the next message. -/
  | serve

namespace Session

variable (crypto : Crypto) (prune : Bool)

/-- The message for a request. -/
def ask (node : Processor) : PeerRequest → List Ask
  | .getBlock id => [.getBlock id]
  | .findCommonAncestor startID =>
    match Peer.sendFindCommonAncestor crypto node startID with
    | .error _ => []
    | .ok ids => [.findCommonAncestor ids]

/-- What the requester's databases answer about a block. -/
def answers (s : Session) (id : BlockID) (startID : Option BlockID) (now : Int) : Answers where
  branchType := .ok (s.node.ledger.getBranchType id)
  header := .ok none
  processed := .ok ()
  located := (Peer.sendFindCommonAncestor crypto s.node startID).map fun _ => true
  now := now

/-- The requester's peer has taken a step.  After an error the rest of an
`inv_block` message is not handled. -/
def advance (s : Session) (globalInflightQueue : BlockQueue) (peer : DownloadPeer) : Session :=
  { s with
    globalInflightQueue := globalInflightQueue
    peer := peer
    inv := if peer.logged.length = s.peer.logged.length then s.inv else []
    asks := s.asks ++ (peer.sent.drop s.peer.sent.length).flatMap (ask crypto s.node) }

/-- The requester receives a block. -/
def onBlock (s : Session) (block : Block) (ibd : Bool) (now : Int) : Session :=
  let header := (s.node.blockStore.getBlockHeader block.header.previous).map Prod.fst
  let call := Call.block block now s.addr
  -- the processor gets the block if it was requested, is high enough and no orphan
  let node :=
    if s.peer.localInflightQueue.peek = some (block.id crypto) ∧
        ¬ (ibd = false ∧ block.header.height < latestCheckpointHeight) ∧ header.isSome then
      (s.node.step crypto prune call).1
    else s.node
  { s with
    node := node
    peer := s.peer.onBlock crypto block ibd
      ⟨.ok .unknown, .ok header, (s.node.step crypto prune call).2, .ok true, now⟩ }

/-- The responder's `getBlock`. -/
def getBlock (s : Session) (id : BlockID) : Session :=
  match s.remote.blockStore.getBlock id with
  -- not found
  | .error _ => { s with bids := s.bids ++ [.block id none] }
  | .ok block =>
    let s := { s with bids := s.bids ++ [.block id (some block)] }
    -- was this the last block in the inv we sent in response to a find common ancestor request?
    if id = s.continuationBlockID then
      let s := { s with continuationBlockID := 0 }
      -- send an inv for our tip block
      match s.remote.ledger.chainTip with
      | none => s
      | some (tipID, _) => { s with bids := s.bids ++ [.invBlock [tipID]] }
    else s

/-- The responder handles a find_common_ancestor message. -/
def onFindCommonAncestors (s : Session) (ids : List BlockID) : Session :=
  match Peer.onFindCommonAncestors s.remote ids with
  | none => s
  | some inv =>
    match inv.getLast? with
    | none => s
    -- save the last ID
    | some last =>
      { s with continuationBlockID := last, bids := s.bids ++ [.invBlock inv] }

def step (s : Session) : SessionEvent → Option Session
  | .receive ibd now =>
    match s.peer.pc, s.inv, s.bids with
    | .idle, [], .invBlock ids :: bids =>
      some
        { s with
          inv := ids.zipIdx.map fun (id, i) => (id, (i : Int), (ids.length : Int))
          bids := bids }
    -- the reader loop is left
    | .idle, [], .block _ none :: bids =>
      some { s with peer := { s.peer with pc := .closing }, bids := bids }
    | .idle, [], .block _ (some block) :: bids =>
      some ({ s with bids := bids }.onBlock crypto prune block ibd now)
    | _, _, _ => none
  | .nextInv now =>
    match s.peer.pc, s.inv with
    | .idle, (id, index, length) :: inv =>
      some ({ s with inv := inv }.advance crypto s.globalInflightQueue
        (s.peer.onInvBlock id index length (s.answers crypto id (some id) now)))
    | _, _ => none
  | .goOn now =>
    match s.peer.pc with
    | .idle => none
    | _ =>
      match s.peer.run s.globalInflightQueue
          (s.answers crypto (s.peer.localDownloadQueue.peek.getD 0) none now) with
      | (_, none) => none
      | (globalInflightQueue, some peer) => some (s.advance crypto globalInflightQueue peer)
  | .serve =>
    match s.asks with
    | [] => none
    | .getBlock id :: asks => some ({ s with asks := asks }.getBlock id)
    | .findCommonAncestor ids :: asks => some ({ s with asks := asks }.onFindCommonAncestors ids)

/-- The requester has just connected and sent its first message.  Both nodes have
been running on blocks of `B` and transactions of `T`, each with its own choice of pruning. -/
def Start (remotePrune : Bool) (B : Set Block) (T : Set Transaction) (s : Session) : Prop :=
  Run crypto prune (Call.Among B T) s.node ∧ Run crypto remotePrune (Call.Among B T) s.remote ∧
    s = ⟨s.node, .new, .new s.peer.addr, [], ask crypto s.node (.findCommonAncestor none), s.remote,
      0, [], s.addr⟩

/-- **The condition on a step.**  Clocks do not show too early a time, and a block
below the latest checkpoint arrives only during the initial block download. -/
def Timely (s : Session) : SessionEvent → Prop
  | .receive ibd now => ∀ id block, s.bids.head? = some (.block id (some block)) →
      block.header.time ≤ int64 (now + maxFutureSeconds) ∧
        (ibd = true ∨ latestCheckpointHeight ≤ block.header.height)
  | _ => True

end Session

end Cruzbit

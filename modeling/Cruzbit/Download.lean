/-
Cruzbit/Download.lean

Which peer downloads which block: the handlers of `inv_block`, `block` and pong
messages in `peer.go`, and the cleanup when a peer disconnects.

Each peer has a queue of blocks to download and a queue of blocks that it has
requested, and all peers share the queue of the blocks in flight.  A peer's
handlers run one after the other, and the handlers of different peers run at
the same time.  One step here is what a handler does between two accesses to
the shared queue or to one of its own queues.

A pending download can be taken over by another peer, and the first peer is not
told.  Still every entry of the shared queue belongs to a peer that is
connected and that will remove it: the peer has the block in flight, or is in
the middle of a handler (`download_ownership`).
-/
import Cruzbit.BlockCheck
import Cruzbit.BlockQueue
import Cruzbit.Ledger

namespace Cruzbit

/-- Maximum blocks per inv_block message. -/
def maxBlocksPerInv : Nat := 500

/-- Maximum local inflight queue size. -/
def inflightQueueMax : Nat := 8

/-- Maximum local download queue size. -/
def downloadQueueMax : Nat := maxBlocksPerInv * 10

/-! ### One peer -/

/-- What a handler does after it has dropped a block from the queues. -/
inductive AfterDrop
  /-- The block is below the latest checkpoint: ignore future inv_blocks for it. -/
  | ignore (height : Int)
  /-- The block's parent could not be looked up. -/
  | fail (err : Err)
  /-- The block is an orphan: send find_common_ancestor, and request more blocks. -/
  | locate
  /-- The block has been accepted: request more blocks. -/
  | fill

/-- Where the handler of a peer is. -/
inductive Pc
  /-- No handler is running. -/
  | idle
  /-- At the head of the loop of `processDownloadQueue`. -/
  | filling
  /-- The block is to be added to the global inflight queue. -/
  | adding (id : BlockID)
  /-- It has been, and is to be popped off the local download queue. -/
  | added (id : BlockID)
  /-- It has been, and is to be marked inflight locally. -/
  | popped (id : BlockID)
  /-- The block is to be removed from the local inflight queue. -/
  | dropping (id : BlockID) (after : AfterDrop)
  /-- It has been, and is to be removed from the global one. -/
  | dropped (id : BlockID) (after : AfterDrop)
  /-- At the head of the cleanup's loop. -/
  | closing
  /-- The cleanup has removed the block from the local inflight queue. -/
  | closed (id : BlockID)

/-- A message to the peer.  Which block IDs a find_common_ancestor message has
depends on the block that it starts from. -/
inductive PeerRequest
  | getBlock (id : BlockID)
  | findCommonAncestor (startID : Option BlockID)
  deriving DecidableEq

/-- The parts of a `Peer` that its reader loop works on. -/
structure DownloadPeer where
  addr : List UInt8
  localDownloadQueue : BlockQueue
  localInflightQueue : BlockQueue
  ignoreBlocks : Table BlockID Unit
  pc : Pc
  /-- What has been written to the out channel. -/
  sent : List PeerRequest
  /-- The errors that have been logged. -/
  logged : List Err
  /-- The connection has been closed from our side. -/
  hungUp : Bool

/-- What the ledger, the block store, the processor and the clock answer. -/
structure Answers where
  branchType : Res BranchType
  header : Res (Option BlockHeader)
  processed : Res Unit
  /-- Whether `sendFindCommonAncestor` has a message to send.  An error of the ledger on its way
  back along the chain is only logged there. -/
  located : Res Bool
  now : Int

namespace DownloadPeer

def new (addr : List UInt8) : DownloadPeer where
  addr := addr
  localDownloadQueue := .new
  localInflightQueue := .new
  ignoreBlocks := ∅
  pc := .idle
  sent := []
  logged := []
  hungUp := false

/-- A handler returns an error, which is logged. -/
def fail (peer : DownloadPeer) (err : Err) : DownloadPeer :=
  { peer with pc := .idle, logged := peer.logged ++ [err] }

/-- Send find_common_ancestor and go on, or return the error. -/
def sendFindCommonAncestor (peer : DownloadPeer) (startID : Option BlockID) (located : Res Bool)
    (next : Pc) : DownloadPeer :=
  match located with
  | .error err => peer.fail err
  | .ok true => { peer with pc := next, sent := peer.sent ++ [.findCommonAncestor startID] }
  | .ok false => { peer with pc := next }

/-- Handle a message from a peer indicating block inventory available for download. -/
def onInvBlock (peer : DownloadPeer) (id : BlockID) (index length : Int) (answers : Answers) :
    DownloadPeer :=
  if length > maxBlocksPerInv then peer.fail (.tooManyBlockIDs length)
  -- is it on the ignore list?
  else if peer.ignoreBlocks.contains id then peer
  -- do we have it queued or inflight already?
  else if peer.localDownloadQueue.exists id || peer.localInflightQueue.exists id then peer
  else
    match answers.branchType with
    | .error err => peer.fail err
    | .ok .unknown =>
      -- don't return an error just stop adding them to the queue
      if peer.localDownloadQueue.len ≥ downloadQueueMax then peer
      else { peer with
        localDownloadQueue := (peer.localDownloadQueue.add id [] answers.now).1
        pc := .filling }
    | .ok _ =>
      -- we might be on a deep side chain; this will get us the next 500 blocks
      if length > 1 ∧ index + 1 = length then
        peer.sendFindCommonAncestor (some id) answers.located .idle
      else peer

/-- Handle receiving a block from a peer. -/
def onBlock (crypto : Crypto) (peer : DownloadPeer) (block : Block) (ibd : Bool)
    (answers : Answers) : DownloadPeer :=
  let id := block.id crypto
  if peer.localInflightQueue.peek ≠ some id then
    -- disconnect misbehaving peer
    { peer with hungUp := true }.fail .unrequestedBlock
  -- don't process low difficulty blocks
  else if ibd = false ∧ block.header.height < latestCheckpointHeight then
    { peer with pc := .dropping id (.ignore block.header.height) }
  else
    match answers.header with
    | .error err => { peer with pc := .dropping id (.fail err) }
    -- is it an orphan?
    | .ok none => { peer with pc := .dropping id .locate }
    | .ok (some _) =>
      match answers.processed with
      -- disconnect a peer that sends us a bad block
      | .error err => { peer with hungUp := true }.fail err
      | .ok () => { peer with pc := .dropping id .fill }

/-- A pong: try processing the queue in case we've been blocked by another client. -/
def onPong (peer : DownloadPeer) (ibd : Bool) : DownloadPeer :=
  if ibd then peer else { peer with pc := .filling }

/-- The handler goes on after the block has left the queues. -/
def resume (peer : DownloadPeer) (id : BlockID) (answers : Answers) : AfterDrop → DownloadPeer
  | .ignore height =>
    let ignoreBlocks := peer.ignoreBlocks.insert id ()
    -- they're intentionally sending us bad blocks
    let hungUp := peer.hungUp || decide (ignoreBlocks.size > maxBlocksPerInv)
    { peer with ignoreBlocks, hungUp }.fail (.belowLatestCheckpoint id height)
  | .fail err => peer.fail err
  | .locate => peer.sendFindCommonAncestor none answers.located .filling
  | .fill => { peer with pc := .filling }

/-- The next step of the handler that is running.  There is no peer left at the end of the
cleanup. -/
def run (peer : DownloadPeer) (globalInflightQueue : BlockQueue) (answers : Answers) :
    BlockQueue × Option DownloadPeer :=
  match peer.pc with
  | .idle => (globalInflightQueue, some peer)
  | .filling =>
    -- fill up as much of the inflight queue as possible
    if peer.localInflightQueue.len < inflightQueueMax then
      match peer.localDownloadQueue.peek with
      | none => (globalInflightQueue, some { peer with pc := .idle })
      | some id =>
        -- double-check if it's been processed since we last checked
        match answers.branchType with
        | .error err => (globalInflightQueue, some (peer.fail err))
        | .ok .unknown => (globalInflightQueue, some { peer with pc := .adding id })
        | .ok _ => (globalInflightQueue, some { peer with
            localDownloadQueue := (peer.localDownloadQueue.remove id []).1 })
    else (globalInflightQueue, some { peer with pc := .idle })
  | .adding id =>
    let added := globalInflightQueue.add id peer.addr answers.now
    -- another peer may be downloading it right now
    (added.1, some { peer with pc := if added.2 then .added id else .idle })
  | .added id =>
    (globalInflightQueue, some { peer with
      localDownloadQueue := (peer.localDownloadQueue.remove id []).1
      pc := .popped id })
  | .popped id =>
    (globalInflightQueue, some { peer with
      localInflightQueue := (peer.localInflightQueue.add id [] answers.now).1
      pc := .filling
      sent := peer.sent ++ [.getBlock id] })
  | .dropping id after =>
    (globalInflightQueue, some { peer with
      localInflightQueue := (peer.localInflightQueue.remove id []).1
      pc := .dropped id after })
  | .dropped id after =>
    ((globalInflightQueue.remove id peer.addr).1, some (peer.resume id answers after))
  | .closing =>
    match peer.localInflightQueue.peek with
    | none => (globalInflightQueue, none)
    | some id => (globalInflightQueue, some { peer with
        localInflightQueue := (peer.localInflightQueue.remove id []).1
        pc := .closed id })
  | .closed id =>
    ((globalInflightQueue.remove id peer.addr).1, some { peer with pc := .closing })

/-! ### What a step keeps -/

/-- What holds where a handler is that requests a block. -/
def AtPc (peer : DownloadPeer) : Pc → Prop
  | .adding id | .added id =>
    peer.localInflightQueue.len < inflightQueueMax ∧ peer.localDownloadQueue.exists id = true
  | .popped id => peer.localInflightQueue.len < inflightQueueMax ∧
      peer.localDownloadQueue.exists id = false ∧ peer.localInflightQueue.exists id = false
  | _ => True

/-- The peer's own queues are in order. -/
structure Ok (peer : DownloadPeer) : Prop where
  download : peer.localDownloadQueue.Local
  inflight : peer.localInflightQueue.Local
  disjoint : ∀ id, ¬ (peer.localDownloadQueue.exists id = true ∧
    peer.localInflightQueue.exists id = true)
  inflight_le : peer.localInflightQueue.len ≤ inflightQueueMax
  download_le : peer.localDownloadQueue.len ≤ downloadQueueMax
  atPc : peer.AtPc peer.pc

/-- The handler has taken the block from one queue, and not yet done the same with the other. -/
def Holds (id : BlockID) : Pc → Prop
  | .added id' | .popped id' | .dropped id' _ | .closed id' => id' = id
  | _ => False

/-- The peer will remove the block from the global queue, if it is responsible for it. -/
def Responsible (peer : DownloadPeer) (id : BlockID) : Prop :=
  peer.localInflightQueue.exists id = true ∨ Holds id peer.pc

/-- A step of a peer: its queues stay in order, and for every block that the shared queue
assigns to it after the step it is responsible, if it was before. -/
structure Kept (peer : DownloadPeer) (global : BlockQueue)
    (next : BlockQueue × Option DownloadPeer) : Prop where
  ok : ∀ peer' ∈ next.2, peer'.Ok ∧ peer'.addr = peer.addr
  owned : ∀ id who, next.1.Owns id who →
    (who = peer.addr ∧ ∃ peer' ∈ next.2, peer'.Responsible id) ∨
    (global.Owns id who ∧
      (who = peer.addr → peer.Responsible id → ∃ peer' ∈ next.2, peer'.Responsible id))

variable {peer peer' : DownloadPeer} {global : BlockQueue} {id : BlockID}

/-- A step that leaves the shared queue alone. -/
theorem kept_local (hok : peer'.Ok) (haddr : peer'.addr = peer.addr)
    (hres : ∀ id, peer.Responsible id → peer'.Responsible id) :
    peer.Kept global (global, some peer') where
  ok := by
    rintro _ ⟨⟩
    exact ⟨hok, haddr⟩
  owned := fun id _ hown => .inr ⟨hown, fun _ h => ⟨peer', rfl, hres id h⟩⟩

/-- A step that only moves on in the handler, or gets out of it. -/
theorem Ok.goto (h : peer.Ok) (hq : peer'.localDownloadQueue = peer.localDownloadQueue)
    (hq' : peer'.localInflightQueue = peer.localInflightQueue) (hpc : peer'.AtPc peer'.pc) :
    peer'.Ok where
  download := hq ▸ h.download
  inflight := hq' ▸ h.inflight
  disjoint := by
    rw [hq, hq']
    exact h.disjoint
  inflight_le := hq' ▸ h.inflight_le
  download_le := hq ▸ h.download_le
  atPc := hpc

theorem Ok.new (addr : List UInt8) : (new addr).Ok where
  download := BlockQueue.local_new
  inflight := BlockQueue.local_new
  disjoint := fun _ h => absurd h.1 Bool.false_ne_true
  inflight_le := Nat.zero_le _
  download_le := Nat.zero_le _
  atPc := trivial

theorem Ok.add_download (h : peer.Ok) (hd : peer.localDownloadQueue.exists id = false)
    (hi : peer.localInflightQueue.exists id = false)
    (hlen : peer.localDownloadQueue.len < downloadQueueMax) (now : Int) :
    Ok { peer with
      localDownloadQueue := (peer.localDownloadQueue.add id [] now).1
      pc := .filling } where
  download := h.download.add hd now
  inflight := h.inflight
  disjoint := by
    rintro id' ⟨hd', hi'⟩
    obtain rfl | hd' := (h.download.exists_add hd).mp hd'
    · exact Bool.false_ne_true (hi.symm.trans hi')
    · exact h.disjoint id' ⟨hd', hi'⟩
  inflight_le := h.inflight_le
  download_le := by
    show BlockQueue.len _ ≤ _
    rw [(BlockQueue.add_new hd).2]
    exact hlen
  atPc := trivial

theorem Ok.remove_download (h : peer.Ok) (id : BlockID) {pc : Pc}
    (hpc : AtPc { peer with localDownloadQueue := (peer.localDownloadQueue.remove id []).1 } pc) :
    Ok { peer with
      localDownloadQueue := (peer.localDownloadQueue.remove id []).1
      pc := pc } where
  download := h.download.remove id
  inflight := h.inflight
  disjoint := fun id' h' => h.disjoint id' ⟨(h.download.exists_remove.mp h'.1).1, h'.2⟩
  inflight_le := h.inflight_le
  download_le := BlockQueue.len_remove_le.trans h.download_le
  atPc := by
    cases pc <;> exact hpc

theorem Ok.remove_inflight (h : peer.Ok) (id : BlockID) {pc : Pc} (hpc : ∀ peer, AtPc peer pc) :
    Ok { peer with
      localInflightQueue := (peer.localInflightQueue.remove id []).1
      pc := pc } where
  download := h.download
  inflight := h.inflight.remove id
  disjoint := fun id' h' => h.disjoint id' ⟨h'.1, (h.inflight.exists_remove.mp h'.2).1⟩
  inflight_le := BlockQueue.len_remove_le.trans h.inflight_le
  download_le := h.download_le
  atPc := hpc _

theorem Ok.add_inflight (h : peer.Ok) (hpc : peer.pc = .popped id) (now : Int)
    (sent : List PeerRequest) :
    Ok { peer with
      localInflightQueue := (peer.localInflightQueue.add id [] now).1
      pc := .filling
      sent := sent } := by
  have hat := h.atPc
  rw [hpc] at hat
  obtain ⟨hlen, hd, hi⟩ := hat
  exact {
    download := h.download
    inflight := h.inflight.add hi now
    disjoint := by
      rintro id' ⟨hd', hi'⟩
      obtain rfl | hi' := (h.inflight.exists_add hi).mp hi'
      · exact Bool.false_ne_true (hd.symm.trans hd')
      · exact h.disjoint id' ⟨hd', hi'⟩
    inflight_le := by
      show BlockQueue.len _ ≤ _
      rw [(BlockQueue.add_new hi).2]
      exact hlen
    download_le := h.download_le
    atPc := trivial }

/-! ### The handlers -/

/-- A step that leaves all queues as they are, when the handler holds no block. -/
theorem Ok.kept_goto (h : peer.Ok) (hno : ∀ id, ¬ Holds id peer.pc)
    (haddr : peer'.addr = peer.addr)
    (hq : peer'.localDownloadQueue = peer.localDownloadQueue)
    (hq' : peer'.localInflightQueue = peer.localInflightQueue) (hpc : peer'.AtPc peer'.pc) :
    peer.Kept global (global, some peer') := by
  refine kept_local (h.goto hq hq' hpc) haddr fun id hres => .inl ?_
  rw [hq']
  exact hres.resolve_right (hno id)

theorem Ok.kept_fail (h : peer.Ok) (hno : ∀ id, ¬ Holds id peer.pc) (err : Err) :
    peer.Kept global (global, some (peer.fail err)) :=
  h.kept_goto hno rfl rfl rfl trivial

theorem not_holds_idle (hpc : peer.pc = .idle) (id : BlockID) : ¬ Holds id peer.pc := by
  rw [hpc]
  exact not_false

theorem Ok.kept_onInvBlock (h : peer.Ok) (hpc : peer.pc = .idle) (id : BlockID)
    (index length : Int) (answers : Answers) :
    peer.Kept global (global, some (peer.onInvBlock id index length answers)) := by
  have hno := not_holds_idle hpc
  have hsame : peer.Kept global (global, some peer) := h.kept_goto hno rfl rfl rfl h.atPc
  unfold onInvBlock
  split
  · exact h.kept_fail hno _
  split
  · exact hsame
  split
  · exact hsame
  rename_i hqueued
  obtain ⟨hd, hi⟩ := Bool.or_eq_false_iff.mp (Bool.not_eq_true _ ▸ hqueued)
  split
  · exact h.kept_fail hno _
  · split_ifs with hlen
    · exact hsame
    · refine kept_local (h.add_download hd hi (not_le.mp hlen) answers.now) rfl fun id hres => ?_
      exact .inl (hres.resolve_right (hno id))
  · split_ifs
    · unfold sendFindCommonAncestor
      split
      · exact h.kept_fail hno _
      · exact h.kept_goto hno rfl rfl rfl trivial
      · exact h.kept_goto hno rfl rfl rfl trivial
    · exact hsame

theorem Ok.kept_onBlock (h : peer.Ok) (hpc : peer.pc = .idle) (crypto : Crypto) (block : Block)
    (ibd : Bool) (answers : Answers) :
    peer.Kept global (global, some (peer.onBlock crypto block ibd answers)) := by
  have hno := not_holds_idle hpc
  unfold onBlock
  dsimp only
  split_ifs
  · exact h.kept_goto hno rfl rfl rfl trivial
  · exact h.kept_goto hno rfl rfl rfl trivial
  split
  · exact h.kept_goto hno rfl rfl rfl trivial
  · exact h.kept_goto hno rfl rfl rfl trivial
  · split <;> exact h.kept_goto hno rfl rfl rfl trivial

theorem Ok.kept_onPong (h : peer.Ok) (hpc : peer.pc = .idle) (ibd : Bool) :
    peer.Kept global (global, some (peer.onPong ibd)) := by
  have hno := not_holds_idle hpc
  unfold onPong
  split_ifs
  · exact h.kept_goto hno rfl rfl rfl h.atPc
  · exact h.kept_goto hno rfl rfl rfl trivial

/-! ### The steps of a running handler -/

/-- The loop of `processDownloadQueue` looks for the next block. -/
theorem Ok.kept_filling (h : peer.Ok) (hpc : peer.pc = .filling) (answers : Answers) :
    peer.Kept global (peer.run global answers) := by
  have hno : ∀ id, ¬ Holds id peer.pc := fun id => by rw [hpc]; exact not_false
  unfold run
  rw [hpc]
  dsimp only
  split_ifs with hlen
  · split
    · exact h.kept_goto hno rfl rfl rfl trivial
    next id hpeek =>
      split
      · exact h.kept_fail hno _
      · exact h.kept_goto hno rfl rfl rfl ⟨hlen, BlockQueue.exists_of_peek hpeek⟩
      · refine kept_local (h.remove_download id ?_) rfl fun id hres => ?_
        · rw [hpc]
          trivial
        · exact .inl (hres.resolve_right (hno id))
  · exact h.kept_goto hno rfl rfl rfl trivial

/-- The block comes to the shared queue, or belongs to another peer. -/
theorem Ok.kept_adding (h : peer.Ok) (hpc : peer.pc = .adding id) (answers : Answers) :
    peer.Kept global (peer.run global answers) := by
  have hno : ∀ id, ¬ Holds id peer.pc := fun id => by rw [hpc]; exact not_false
  have hat := h.atPc
  rw [hpc] at hat
  unfold run
  rw [hpc]
  dsimp only
  cases hadd : (global.add id peer.addr answers.now).2 with
  | false =>
    rw [BlockQueue.add_of_false hadd]
    exact h.kept_goto hno rfl rfl rfl trivial
  | true =>
    refine ⟨?_, fun id' who hown => ?_⟩
    · rintro _ ⟨⟩
      exact ⟨h.goto rfl rfl hat, rfl⟩
    · obtain ⟨rfl, rfl⟩ | ⟨-, hown⟩ := (BlockQueue.owns_add hadd).mp hown
      · exact .inl ⟨rfl, _, rfl, .inr rfl⟩
      · exact .inr ⟨hown, fun _ hres => ⟨_, rfl, .inl (hres.resolve_right (hno id'))⟩⟩

theorem Ok.kept_added (h : peer.Ok) (hpc : peer.pc = .added id) (answers : Answers) :
    peer.Kept global (peer.run global answers) := by
  have hat := h.atPc
  rw [hpc] at hat
  unfold run
  rw [hpc]
  refine kept_local (h.remove_download id ⟨hat.1, ?_, ?_⟩) rfl fun id' hres => ?_
  · refine Bool.eq_false_iff.mpr fun hex => ?_
    exact (h.download.exists_remove.mp hex).2 rfl
  · exact Bool.eq_false_iff.mpr fun hex => h.disjoint id ⟨hat.2, hex⟩
  · unfold Responsible at hres
    rw [hpc] at hres
    exact hres

theorem Ok.kept_popped (h : peer.Ok) (hpc : peer.pc = .popped id) (answers : Answers) :
    peer.Kept global (peer.run global answers) := by
  have hat := h.atPc
  rw [hpc] at hat
  unfold run
  rw [hpc]
  refine kept_local (h.add_inflight hpc _ _) rfl fun id' hres => .inl ?_
  refine (h.inflight.exists_add hat.2.2).mpr ?_
  unfold Responsible at hres
  rw [hpc] at hres
  exact hres.symm.imp_left Eq.symm

/-- The block leaves the local inflight queue; it still belongs to the peer. -/
theorem Ok.kept_remove_inflight (h : peer.Ok) (hno : ∀ id, ¬ Holds id peer.pc) {pc : Pc}
    (hpc : ∀ peer, AtPc peer pc) (hholds : Holds id pc) :
    peer.Kept global (global, some { peer with
      localInflightQueue := (peer.localInflightQueue.remove id []).1
      pc := pc }) := by
  refine kept_local (h.remove_inflight id hpc) rfl fun id' hres => ?_
  by_cases hid : id' = id
  · exact .inr (hid ▸ hholds)
  · exact .inl (h.inflight.exists_remove.mpr ⟨hres.resolve_right (hno id'), hid⟩)

/-- The peer gives the block back that the handler holds. -/
theorem Ok.kept_release (h : peer.Ok) (hholds : ∀ id', Holds id' peer.pc → id' = id)
    (haddr : peer'.addr = peer.addr)
    (hq : peer'.localDownloadQueue = peer.localDownloadQueue)
    (hq' : peer'.localInflightQueue = peer.localInflightQueue) (hpc : peer'.AtPc peer'.pc) :
    peer.Kept global ((global.remove id peer.addr).1, some peer') where
  ok := by
    rintro _ ⟨⟩
    exact ⟨h.goto hq hq' hpc, haddr⟩
  owned := by
    intro id' who hown
    obtain ⟨hown, hne⟩ := BlockQueue.owns_remove.mp hown
    refine .inr ⟨hown, fun hwho hres => ⟨peer', rfl, .inl ?_⟩⟩
    rw [hq']
    exact hres.resolve_right fun hh => hne ⟨hholds id' hh, hwho⟩

theorem Ok.kept_resume (h : peer.Ok) {after : AfterDrop} (hpc : peer.pc = .dropped id after)
    (answers : Answers) :
    peer.Kept global ((global.remove id peer.addr).1, some (peer.resume id answers after)) := by
  have hholds : ∀ id', Holds id' peer.pc → id' = id := by
    intro id' hh
    rw [hpc] at hh
    exact hh.symm
  cases after with
  | ignore height => exact h.kept_release hholds rfl rfl rfl trivial
  | fail err => exact h.kept_release hholds rfl rfl rfl trivial
  | locate =>
    unfold resume sendFindCommonAncestor
    dsimp only
    split <;> exact h.kept_release hholds rfl rfl rfl trivial
  | fill => exact h.kept_release hholds rfl rfl rfl trivial

/-- The cleanup takes the next block, and is done when there is none. -/
theorem Ok.kept_closing (h : peer.Ok) (hpc : peer.pc = .closing) (answers : Answers) :
    peer.Kept global (peer.run global answers) := by
  have hno : ∀ id, ¬ Holds id peer.pc := fun id => by rw [hpc]; exact not_false
  unfold run
  rw [hpc]
  dsimp only
  split
  next hpeek =>
    refine ⟨fun _ => nofun, fun id who hown => .inr ⟨hown, fun _ hres => ?_⟩⟩
    have hex := BlockQueue.exists_iff.mp (hres.resolve_right (hno id))
    exact absurd hex.choose_spec (BlockQueue.not_owns_of_peek hpeek)
  next id hpeek => exact h.kept_remove_inflight hno (fun _ => trivial) rfl

/-- **One step of a handler.** -/
theorem Ok.kept_run (h : peer.Ok) (answers : Answers) :
    peer.Kept global (peer.run global answers) := by
  cases hpc : peer.pc with
  | idle =>
    unfold run
    rw [hpc]
    exact h.kept_goto (not_holds_idle hpc) rfl rfl rfl h.atPc
  | filling => exact h.kept_filling hpc answers
  | adding id => exact h.kept_adding hpc answers
  | added id => exact h.kept_added hpc answers
  | popped id => exact h.kept_popped hpc answers
  | dropping id after =>
    unfold run
    rw [hpc]
    refine h.kept_remove_inflight (fun id => ?_) (fun _ => trivial) rfl
    rw [hpc]
    exact not_false
  | dropped id after =>
    unfold run
    rw [hpc]
    exact h.kept_resume hpc answers
  | closing => exact h.kept_closing hpc answers
  | closed id =>
    unfold run
    rw [hpc]
    refine h.kept_release (fun id' hh => ?_) rfl rfl rfl trivial
    rw [hpc] at hh
    exact hh.symm

end DownloadPeer

/-! ### All peers -/

/-- The peers that are connected, and the queue they share. -/
structure Downloads where
  globalInflightQueue : BlockQueue
  peers : Nat → Option DownloadPeer

def Downloads.empty : Downloads := ⟨.new, fun _ => none⟩

/-- A peer, and possibly the queue, changes. -/
def Downloads.update (net : Downloads) (p : Nat) (next : BlockQueue × Option DownloadPeer) :
    Downloads :=
  ⟨next.1, Function.update net.peers p next.2⟩

/-- A peer connects, a peer without a running handler gets a message or loses its
connection, or a peer's handler takes a step. -/
inductive DownloadStep (crypto : Crypto) : Downloads → Downloads → Prop
  | connect {net : Downloads} {p : Nat} (addr : List UInt8) : net.peers p = none →
      DownloadStep crypto net (net.update p (net.globalInflightQueue, some (.new addr)))
  | invBlock {net : Downloads} {p : Nat} {peer : DownloadPeer} (id : BlockID)
      (index length : Int) (answers : Answers) : net.peers p = some peer → peer.pc = .idle →
      DownloadStep crypto net (net.update p
        (net.globalInflightQueue, some (peer.onInvBlock id index length answers)))
  | block {net : Downloads} {p : Nat} {peer : DownloadPeer} (block : Block) (ibd : Bool)
      (answers : Answers) : net.peers p = some peer → peer.pc = .idle →
      DownloadStep crypto net (net.update p
        (net.globalInflightQueue, some (peer.onBlock crypto block ibd answers)))
  | pong {net : Downloads} {p : Nat} {peer : DownloadPeer} (ibd : Bool) :
      net.peers p = some peer → peer.pc = .idle →
      DownloadStep crypto net (net.update p (net.globalInflightQueue, some (peer.onPong ibd)))
  | close {net : Downloads} {p : Nat} {peer : DownloadPeer} :
      net.peers p = some peer → peer.pc = .idle →
      DownloadStep crypto net
        (net.update p (net.globalInflightQueue, some { peer with pc := .closing }))
  | run {net : Downloads} {p : Nat} {peer : DownloadPeer} (answers : Answers) :
      net.peers p = some peer →
      DownloadStep crypto net (net.update p (peer.run net.globalInflightQueue answers))

/-- Any interleaving, from the start of the node. -/
def DownloadRun (crypto : Crypto) : Downloads → Prop :=
  Relation.ReflTransGen (DownloadStep crypto) .empty

/-! ### Ownership -/

/-- Every peer's queues are in order, and every block in flight belongs to a peer that is
responsible for it. -/
structure Downloads.Owned (net : Downloads) : Prop where
  ok : ∀ p peer, net.peers p = some peer → peer.Ok
  owned : ∀ id who, net.globalInflightQueue.Owns id who →
    ∃ p peer, net.peers p = some peer ∧ peer.addr = who ∧ peer.Responsible id

namespace Downloads

variable {net net' : Downloads} {p : Nat} {peer : DownloadPeer}

theorem peers_update_self (net : Downloads) (p : Nat) (next : BlockQueue × Option DownloadPeer) :
    (net.update p next).peers p = next.2 :=
  Function.update_self ..

theorem peers_update_of_ne {q : Nat} (h : q ≠ p) (net : Downloads)
    (next : BlockQueue × Option DownloadPeer) : (net.update p next).peers q = net.peers q :=
  Function.update_of_ne h ..

theorem owned_empty : empty.Owned where
  ok := fun _ _ => nofun
  owned := fun _ _ hown => absurd hown BlockQueue.not_owns_new

theorem Owned.update (h : net.Owned) (hp : net.peers p = some peer)
    {next : BlockQueue × Option DownloadPeer}
    (hk : peer.Kept net.globalInflightQueue next) : (net.update p next).Owned where
  ok := by
    intro q peer' hq
    by_cases hqp : q = p
    · subst hqp
      exact (hk.ok peer' ((net.peers_update_self q _).symm.trans hq)).1
    · exact h.ok q peer' ((peers_update_of_ne hqp net _).symm.trans hq)
  owned := by
    intro id who hown
    -- the peer itself, if it is responsible after the step
    have hself : who = peer.addr → (∃ peer' ∈ next.2, peer'.Responsible id) →
        ∃ q peer', (net.update p next).peers q = some peer' ∧ peer'.addr = who ∧
          peer'.Responsible id := by
      rintro rfl ⟨peer', hpeer', hres⟩
      exact ⟨p, peer', (net.peers_update_self p _).trans hpeer', (hk.ok peer' hpeer').2, hres⟩
    obtain ⟨hwho, hres⟩ | ⟨hold, hkeep⟩ := hk.owned id who hown
    · exact hself hwho hres
    obtain ⟨q, peerq, hq, haddr, hres⟩ := h.owned id who hold
    by_cases hqp : q = p
    · subst hqp
      obtain rfl : peer = peerq := Option.some.inj (hp.symm.trans hq)
      exact hself haddr.symm (hkeep haddr.symm hres)
    · exact ⟨q, peerq, (peers_update_of_ne hqp net _).trans hq, haddr, hres⟩

theorem Owned.connect (h : net.Owned) (hp : net.peers p = none) (addr : List UInt8) :
    (net.update p (net.globalInflightQueue, some (.new addr))).Owned where
  ok := by
    intro q peer' hq
    by_cases hqp : q = p
    · subst hqp
      rw [← Option.some.inj ((net.peers_update_self q _).symm.trans hq)]
      exact .new addr
    · exact h.ok q peer' ((peers_update_of_ne hqp net _).symm.trans hq)
  owned := by
    intro id who hown
    obtain ⟨q, peerq, hq, hres⟩ := h.owned id who hown
    have hqp : q ≠ p := by
      rintro rfl
      exact Option.some_ne_none peerq (hq.symm.trans hp)
    exact ⟨q, peerq, (peers_update_of_ne hqp net _).trans hq, hres⟩

/-- **Any step.** -/
theorem Owned.step {crypto : Crypto} (h : net.Owned) (hstep : DownloadStep crypto net net') :
    net'.Owned := by
  cases hstep with
  | connect addr hp => exact h.connect hp addr
  | invBlock id index length answers hp hpc =>
    exact h.update hp ((h.ok _ _ hp).kept_onInvBlock hpc id index length answers)
  | block block ibd answers hp hpc =>
    exact h.update hp ((h.ok _ _ hp).kept_onBlock hpc crypto block ibd answers)
  | pong ibd hp hpc => exact h.update hp ((h.ok _ _ hp).kept_onPong hpc ibd)
  | close hp hpc =>
    exact h.update hp
      ((h.ok _ _ hp).kept_goto (DownloadPeer.not_holds_idle hpc) rfl rfl rfl trivial)
  | run answers hp => exact h.update hp ((h.ok _ _ hp).kept_run answers)

end Downloads

/-- **Any interleaving.** -/
theorem DownloadRun.owned {crypto : Crypto} {net : Downloads} (h : DownloadRun crypto net) :
    net.Owned := by
  induction h with
  | refl => exact Downloads.owned_empty
  | tail _ hstep ih => exact ih.step hstep

/-- **Block download ownership.**  In every interleaving each entry of the shared queue belongs
to a connected peer, which has the block in flight unless one of its handlers is running.  No
block is in both queues of a peer, the queues have their maximal sizes, and when no peer is
connected the shared queue is empty. -/
theorem download_ownership {crypto : Crypto} {net : Downloads} (h : DownloadRun crypto net) :
    (∀ e ∈ net.globalInflightQueue.entries, ∃ p peer, net.peers p = some peer ∧
      peer.addr = e.who ∧ (peer.pc = .idle → peer.localInflightQueue.exists e.id = true)) ∧
    (∀ p peer, net.peers p = some peer →
      (∀ id, ¬ (peer.localDownloadQueue.exists id = true ∧
        peer.localInflightQueue.exists id = true)) ∧
      peer.localInflightQueue.len ≤ inflightQueueMax ∧
      peer.localDownloadQueue.len ≤ downloadQueueMax) ∧
    ((∀ p, net.peers p = none) → net.globalInflightQueue.len = 0) := by
  have howned := h.owned
  refine ⟨?_, ?_, ?_⟩
  · intro e he
    obtain ⟨p, peer, hp, haddr, hres⟩ := howned.owned e.id e.who ⟨e, he, rfl, rfl⟩
    exact ⟨p, peer, hp, haddr, fun hpc => hres.resolve_right (peer.not_holds_idle hpc e.id)⟩
  · intro p peer hp
    have hok := howned.ok p peer hp
    exact ⟨hok.disjoint, hok.inflight_le, hok.download_le⟩
  · intro hnone
    refine List.length_eq_zero_iff.mpr (List.eq_nil_iff_forall_not_mem.mpr fun e he => ?_)
    obtain ⟨p, peer, hp, -⟩ := howned.owned e.id e.who ⟨e, he, rfl, rfl⟩
    exact Option.some_ne_none peer (hp.symm.trans (hnone p))

namespace Sample

/-- The block is unknown, at the given time. -/
def unknownAt (now : Int) : Answers := ⟨.ok .unknown, .ok none, .ok (), .ok true, now⟩

end Sample

open Relation in
theorem download_ownership_taken_over : ∃ crypto net, DownloadRun crypto net ∧
    net.globalInflightQueue.entries = [⟨1, [1], maxQueueWait⟩] ∧
    (∃ peer, net.peers 1 = some peer ∧ peer.addr = [1] ∧ peer.pc = .idle) ∧
    ∃ p peer, net.peers p = some peer ∧ peer.addr = [1] ∧
      (peer.pc = .idle → peer.localInflightQueue.exists 1 = true) := by
  let crypto : Crypto := ⟨fun _ => 0, fun _ _ _ => true⟩
  have h₁ : DownloadRun crypto _ :=
    (ReflTransGen.refl.tail (.connect [0] (p := 0) rfl)).tail (.connect [1] (p := 1) rfl)
  -- the first peer requests the block
  have h₂ : DownloadRun crypto _ :=
    h₁.tail (.invBlock 1 0 1 (Sample.unknownAt 0) (p := 0) rfl rfl)
  have h₃ : DownloadRun crypto _ :=
    (((h₂.tail (.run (Sample.unknownAt 0) (p := 0) rfl)).tail
      (.run (Sample.unknownAt 0) (p := 0) rfl)).tail
      (.run (Sample.unknownAt 0) (p := 0) rfl)).tail (.run (Sample.unknownAt 0) (p := 0) rfl)
  -- two minutes later the second peer takes the download over
  have h₄ : DownloadRun crypto _ :=
    h₃.tail (.invBlock 1 0 1 (Sample.unknownAt maxQueueWait) (p := 1) rfl rfl)
  have h₅ : DownloadRun crypto _ :=
    ((h₄.tail (.run (Sample.unknownAt maxQueueWait) (p := 1) rfl)).tail
      (.run (Sample.unknownAt maxQueueWait) (p := 1) rfl)).tail
      (.run (Sample.unknownAt maxQueueWait) (p := 1) rfl)
  have h₆ : DownloadRun crypto _ :=
    (h₅.tail (.run (Sample.unknownAt maxQueueWait) (p := 1) rfl)).tail
      (.run (Sample.unknownAt maxQueueWait) (p := 1) rfl)
  refine ⟨crypto, _, h₆, rfl, ⟨_, rfl, rfl, rfl⟩, ?_⟩
  exact (download_ownership h₆).1 ⟨1, [1], maxQueueWait⟩ (List.mem_singleton.mpr rfl)

end Cruzbit

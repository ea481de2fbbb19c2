/-
Cruzbit/SessionFlow.lean

The steps of a download session, while the blocks that the responder offered are
on their way.

`Flow` says which blocks those are: some have been sent, some have been asked
for, and some wait in the requester's queue.  There is one lemma for each kind of
step, and each says how the lists change; for the requester's handler one for
each stage (`DownloadPeer.Doing.goesOn`).  Unless it starts a new request a
step lowers `load`, a count of what is left to do.
-/
import Cruzbit.Session

namespace Cruzbit

open Chain Transition Word

/-! ### The IDs in a queue -/

namespace BlockQueue

variable {q : BlockQueue} {id : BlockID} {rest : List BlockID}

/-- The blocks in the queue, in order. -/
def ids (q : BlockQueue) : List BlockID := q.entries.map BlockQueueEntry.id

theorem exists_iff_mem_ids : q.exists id = true ↔ id ∈ q.ids := by
  rw [exists_iff]
  simp [Owns, ids]

theorem exists_eq_false_of_not_mem (h : id ∉ q.ids) : q.exists id = false :=
  Bool.eq_false_iff.mpr fun hex => h (exists_iff_mem_ids.mp hex)

theorem peek_eq : q.peek = q.ids.head? := by
  rw [peek, ids, List.head?_map]

theorem len_eq : q.len = q.ids.length := by
  rw [len, ids, List.length_map]

theorem ids_add (h : id ∉ q.ids) (who : List UInt8) (now : Int) :
    (q.add id who now).1.ids = q.ids ++ [id] := by
  have hnot := exists_eq_false_of_not_mem h
  obtain ⟨hex, -⟩ | ⟨hex, -⟩ | ⟨hf, hadd⟩ := q.add_cases id who now
  · exact absurd (hnot.symm.trans hex) Bool.false_ne_true
  · exact absurd (hnot.symm.trans hex) Bool.false_ne_true
  · rw [hadd]
    simp [ids, pushBack]

/-- The block at the front is removed. -/
theorem Local.ids_remove (h : q.Local) (hq : q.ids = id :: rest) :
    (q.remove id []).1.ids = rest := by
  obtain ⟨e, he, hid⟩ : ∃ e ∈ q.entries, e.id = id := by
    have hmem : id ∈ q.ids := by rw [hq]; exact List.mem_cons_self
    exact List.mem_map.mp hmem
  have hfind : q.find id = some e := find_eq_some.mpr ⟨he, hid⟩
  have hnd := q.nodup
  unfold BlockQueue.remove
  simp only [hfind, h e he, if_true]
  unfold ids at hq
  show (q.entries.filter _).map _ = rest
  cases hentries : q.entries with
  | nil => simp [hentries] at hq
  | cons e' es =>
    rw [hentries, List.map_cons] at hq hnd
    obtain ⟨rfl, rfl⟩ := List.cons.inj hq
    have hfresh := (List.nodup_cons.mp hnd).1
    rw [List.filter_cons_of_neg (by simp), List.filter_eq_self.mpr]
    intro e'' he''
    have hne : e''.id ≠ e'.id := fun heq => hfresh (heq ▸ List.mem_map_of_mem he'')
    simpa using hne

end BlockQueue

/-! ### What a peer is doing -/

/-- The handler goes on with the blocks that are wanted. -/
def Pc.Going : Pc → Prop
  | .dropping _ after => after = .fill
  | .dropped _ after => after = .fill
  | .closing => False
  | .closed _ => False
  | _ => True

theorem Pc.Going.ne_closing {pc : Pc} (h : pc.Going) : pc ≠ .closing := by
  rintro rfl
  exact h

namespace DownloadPeer

/-- The peer has requested the blocks of the first list and is to request those of
the second one. -/
def Doing (peer : DownloadPeer) (requested wanted : List BlockID) : Prop :=
  match peer.pc with
  | .idle => peer.localInflightQueue.ids = requested ∧ peer.localDownloadQueue.ids = wanted ∧
      (requested.length = inflightQueueMax ∨ wanted = [])
  | .filling => peer.localInflightQueue.ids = requested ∧ peer.localDownloadQueue.ids = wanted
  | .adding id => peer.localInflightQueue.ids = requested ∧
      peer.localDownloadQueue.ids = wanted ∧ wanted.head? = some id
  | .added id => peer.localInflightQueue.ids = requested ∧
      peer.localDownloadQueue.ids = wanted ∧ wanted.head? = some id
  | .popped id => peer.localInflightQueue.ids = requested ∧
      wanted = id :: peer.localDownloadQueue.ids
  | .dropping id _ => peer.localInflightQueue.ids = id :: requested ∧
      peer.localDownloadQueue.ids = wanted
  | .dropped _ _ => peer.localInflightQueue.ids = requested ∧
      peer.localDownloadQueue.ids = wanted
  | .closing => False
  | .closed _ => False

/-- What is left to do, up to the next message. -/
def load (peer : DownloadPeer) : Nat :=
  21 * peer.localDownloadQueue.len + match peer.pc with
    | .idle => 0
    | .filling => 4
    | .adding _ => 3
    | .added _ => 2
    | .popped _ => 22
    | .dropping _ _ => 7
    | .dropped _ _ => 6
    | .closing => 0
    | .closed _ => 0

/-! ### The stages of the handler -/

/-- What a step of the handler leaves alone that requests the blocks `ids`. -/
structure Runs (peer peer' : DownloadPeer) (ids : List BlockID) : Prop where
  sent : peer'.sent = peer.sent ++ ids.map .getBlock
  logged : peer'.logged = peer.logged
  hungUp : peer'.hungUp = peer.hungUp
  ignored : peer'.ignoreBlocks = peer.ignoreBlocks
  load : peer'.load + 17 * ids.length < peer.load

section Stages

variable {peer : DownloadPeer} {q : BlockQueue} {a : Answers} {requested wanted : List BlockID}
  {id : BlockID}

theorem Runs.silent {peer' : DownloadPeer} (hsent : peer'.sent = peer.sent)
    (hlogged : peer'.logged = peer.logged) (hungUp : peer'.hungUp = peer.hungUp)
    (hignored : peer'.ignoreBlocks = peer.ignoreBlocks) (hload : peer'.load < peer.load) :
    peer.Runs peer' [] :=
  ⟨by rw [hsent, List.map_nil, List.append_nil], hlogged, hungUp, hignored, by simpa using hload⟩

variable (peer q a requested wanted) in
/-- The next step of the handler goes on with what is wanted, and may request some of it. -/
def GoesOn : Prop :=
  ∃ q' peer' ids wanted', wanted = ids ++ wanted' ∧ peer.run q a = (q', some peer') ∧
    peer.Runs peer' ids ∧ peer'.pc.Going ∧ peer'.Doing (requested ++ ids) wanted'

theorem GoesOn.of_silent {q' : BlockQueue} {peer' : DownloadPeer}
    (hrun : peer.run q a = (q', some peer')) (hruns : peer.Runs peer' [])
    (hgoing : peer'.pc.Going) (hdoing : peer'.Doing requested wanted) :
    peer.GoesOn q a requested wanted :=
  ⟨q', peer', [], wanted, rfl, hrun, hruns, hgoing, by rw [List.append_nil]; exact hdoing⟩

/-- The handler is done when nothing more is wanted. -/
theorem Doing.run_filling_nil (h : peer.Doing requested []) (hpc : peer.pc = .filling)
    (q : BlockQueue) (a : Answers) : peer.run q a = (q, some { peer with pc := .idle }) := by
  simp only [Doing, hpc] at h
  simp [run, hpc, BlockQueue.peek_eq, h.2]

/-- The handler is done, or takes the next block that is wanted. -/
theorem Doing.goesOn_filling (h : peer.Doing requested wanted) (hok : peer.Ok)
    (hpc : peer.pc = .filling) (hnew : wanted ≠ [] → a.branchType = .ok .unknown) :
    peer.GoesOn q a requested wanted := by
  obtain ⟨hin, hdown⟩ : peer.localInflightQueue.ids = requested ∧
      peer.localDownloadQueue.ids = wanted := by simpa only [Doing, hpc] using h
  by_cases hlen : peer.localInflightQueue.len < inflightQueueMax
  · cases wanted with
    | nil =>
      exact .of_silent (h.run_filling_nil hpc q a)
        (.silent rfl rfl rfl rfl (by simp [load, hpc])) trivial ⟨hin, hdown, .inr rfl⟩
    | cons id rest =>
      have hrun : peer.run q a = (q, some { peer with pc := .adding id }) := by
        simp [run, hpc, hlen, BlockQueue.peek_eq, hdown, hnew (List.cons_ne_nil _ _)]
      exact .of_silent hrun (.silent rfl rfl rfl rfl (by simp [load, hpc])) trivial
        ⟨hin, hdown, rfl⟩
  · have hrun : peer.run q a = (q, some { peer with pc := .idle }) := by
      simp [run, hpc, hlen]
    have hfull : requested.length = inflightQueueMax := by
      rw [← hin, ← BlockQueue.len_eq]
      exact le_antisymm hok.inflight_le (not_lt.mp hlen)
    exact .of_silent hrun (.silent rfl rfl rfl rfl (by simp [load, hpc])) trivial
      ⟨hin, hdown, .inl hfull⟩

/-- A block that is in no queue comes to the shared one. -/
theorem Doing.goesOn_adding (h : peer.Doing requested wanted) (hpc : peer.pc = .adding id)
    (hnot : q.exists id = false) : peer.GoesOn q a requested wanted := by
  obtain ⟨hin, hdown, hhead⟩ : peer.localInflightQueue.ids = requested ∧
      peer.localDownloadQueue.ids = wanted ∧ wanted.head? = some id := by
    simpa only [Doing, hpc] using h
  have hrun : peer.run q a =
      ((q.add id peer.addr a.now).1, some { peer with pc := .added id }) := by
    simp [run, hpc, (BlockQueue.add_new hnot).1]
  exact .of_silent hrun (.silent rfl rfl rfl rfl (by simp [load, hpc])) trivial ⟨hin, hdown, hhead⟩

/-- The block leaves the queue of those that are wanted. -/
theorem Doing.goesOn_added (h : peer.Doing requested wanted) (hok : peer.Ok)
    (hpc : peer.pc = .added id) : peer.GoesOn q a requested wanted := by
  obtain ⟨hin, hdown, hhead⟩ : peer.localInflightQueue.ids = requested ∧
      peer.localDownloadQueue.ids = wanted ∧ wanted.head? = some id := by
    simpa only [Doing, hpc] using h
  obtain ⟨rest, rfl⟩ := List.head?_eq_some_iff.mp hhead
  have hrest := hok.download.ids_remove hdown
  have hrun : peer.run q a = (q, some { peer with
      localDownloadQueue := (peer.localDownloadQueue.remove id []).1
      pc := .popped id }) := by
    simp [run, hpc]
  refine .of_silent hrun (.silent rfl rfl rfl rfl ?_) trivial
    ⟨hin, congrArg (id :: ·) hrest.symm⟩
  simp only [load, hpc, BlockQueue.len_eq, hdown, hrest, List.length_cons]
  omega

/-- The block is requested. -/
theorem Doing.goesOn_popped (h : peer.Doing requested wanted) (hpc : peer.pc = .popped id)
    (hfresh : id ∉ requested) : peer.GoesOn q a requested wanted := by
  obtain ⟨hin, hwanted⟩ : peer.localInflightQueue.ids = requested ∧
      wanted = id :: peer.localDownloadQueue.ids := by simpa only [Doing, hpc] using h
  have hids := BlockQueue.ids_add (hin ▸ hfresh) [] a.now
  have hrun : peer.run q a = (q, some { peer with
      localInflightQueue := (peer.localInflightQueue.add id [] a.now).1
      pc := .filling
      sent := peer.sent ++ [.getBlock id] }) := by
    simp [run, hpc]
  refine ⟨_, _, [id], _, hwanted, hrun, ⟨rfl, rfl, rfl, rfl, ?_⟩, trivial, ?_, rfl⟩
  · simp only [load, hpc, List.length_singleton]
    omega
  · rw [hids, hin]

/-- A block that has arrived leaves the queue of those that were requested. -/
theorem Doing.run_dropping {after : AfterDrop} (h : peer.Doing requested wanted) (hok : peer.Ok)
    (hpc : peer.pc = .dropping id after) (q : BlockQueue) (a : Answers) :
    ∃ peer', peer.run q a = (q, some peer') ∧ peer.Runs peer' [] ∧
      peer'.pc = .dropped id after ∧ peer'.Doing requested wanted := by
  obtain ⟨hin, hdown⟩ : peer.localInflightQueue.ids = id :: requested ∧
      peer.localDownloadQueue.ids = wanted := by simpa only [Doing, hpc] using h
  have hrest := hok.inflight.ids_remove hin
  have hrun : peer.run q a = (q, some { peer with
      localInflightQueue := (peer.localInflightQueue.remove id []).1
      pc := .dropped id after }) := by
    simp [run, hpc]
  exact ⟨_, hrun, .silent rfl rfl rfl rfl (by simp [load, hpc]), rfl, hrest, hdown⟩

/-- The block leaves the shared queue. -/
theorem Doing.goesOn_dropped (h : peer.Doing requested wanted) (hpc : peer.pc = .dropped id .fill) :
    peer.GoesOn q a requested wanted := by
  have hrun : peer.run q a =
      ((q.remove id peer.addr).1, some { peer with pc := .filling }) := by
    simp [run, hpc, resume]
  exact .of_silent hrun (.silent rfl rfl rfl rfl (by simp [load, hpc])) trivial
    (by simpa only [Doing, hpc] using h)

/-- **The handler goes on**, where nobody else has what is wanted. -/
theorem Doing.goesOn (h : peer.Doing requested wanted) (hok : peer.Ok) (hpc : peer.pc ≠ .idle)
    (hgoing : peer.pc.Going)
    (hnew : peer.pc = .filling → wanted ≠ [] → a.branchType = .ok .unknown)
    (hnot : ∀ id ∈ wanted, peer.pc = .adding id → q.exists id = false)
    (hnd : (requested ++ wanted).Nodup) : peer.GoesOn q a requested wanted := by
  cases hpc' : peer.pc with
  | idle => exact absurd hpc' hpc
  | filling => exact h.goesOn_filling hok hpc' (hnew hpc')
  | adding id =>
    have hhead : wanted.head? = some id := by
      simp only [Doing, hpc'] at h
      exact h.2.2
    exact h.goesOn_adding hpc' (hnot id (List.mem_of_head? hhead) hpc')
  | added id => exact h.goesOn_added hok hpc'
  | popped id =>
    have hmem : id ∈ wanted := by
      simp only [Doing, hpc'] at h
      rw [h.2]
      exact List.mem_cons_self
    exact h.goesOn_popped hpc' fun hin => List.disjoint_of_nodup_append hnd hin hmem
  | dropping id after =>
    obtain ⟨peer', hrun, hruns, hdropped, hdoing⟩ := h.run_dropping hok hpc' q a
    rw [hpc'] at hgoing
    exact .of_silent hrun hruns (by rw [hdropped]; exact hgoing) hdoing
  | dropped id after =>
    obtain rfl : after = .fill := by
      rw [hpc'] at hgoing
      exact hgoing
    exact h.goesOn_dropped hpc'
  | closing =>
    simp only [Doing, hpc'] at h
  | closed id =>
    simp only [Doing, hpc'] at h

end Stages

end DownloadPeer

namespace Session

/-- What is left to do, with the messages on the way. -/
def load (s : Session) : Nat :=
  26 * s.inv.length + s.peer.load + 17 * s.asks.length + 8 * s.bids.length

/-- The requester is in order, and no error has been found. -/
structure Tidy (s : Session) : Prop where
  ok : s.peer.Ok
  owned : ∀ id who, s.globalInflightQueue.Owns id who → who = s.peer.addr ∧ s.peer.Responsible id
  hungUp : s.peer.hungUp = false
  logged : s.peer.logged = []
  ignored : s.peer.ignoreBlocks = ∅

/-- The first blocks are on the way to the requester, the next ones have been asked
for, and the last ones are to be.  Other messages come behind. -/
structure Flow (s : Session) (got asked wanted : Chain) (inv : List (BlockID × Int × Int))
    (asks : List Ask) (bids : List Bid) : Prop where
  bids : s.bids = got.map (fun x => Bid.block x.1 (some x.2)) ++ bids
  asks : s.asks = asked.map (fun x => Ask.getBlock x.1) ++ asks
  inv : s.inv = inv
  peer : s.peer.Doing (got ++ asked).ids wanted.ids

section Steps

variable {crypto : Crypto} {prune : Bool} {s s' : Session} {got asked wanted : Chain}
  {inv : List (BlockID × Int × Int)} {asks : List Ask} {bids : List Bid} {now : Int}

theorem advance_eq {q : BlockQueue} {peer : DownloadPeer} (requests : List PeerRequest)
    (hsent : peer.sent = s.peer.sent ++ requests) (hlogged : peer.logged = s.peer.logged) :
    s.advance crypto q peer =
      { s with
        globalInflightQueue := q
        peer := peer
        asks := s.asks ++ requests.flatMap (ask crypto s.node) } := by
  simp [advance, hsent, hlogged]

/-- A step of the peer keeps it in order. -/
theorem Tidy.of_kept (h : s.Tidy) {q : BlockQueue} {peer : DownloadPeer}
    (hk : s.peer.Kept s.globalInflightQueue (q, some peer)) (hqueue : s'.globalInflightQueue = q)
    (hpeer : s'.peer = peer) (hungUp : peer.hungUp = false) (hlogged : peer.logged = [])
    (hignored : peer.ignoreBlocks = ∅) : s'.Tidy := by
  obtain ⟨hok, haddr⟩ := hk.ok peer rfl
  subst hpeer
  refine ⟨hok, fun id who hown => ?_, hungUp, hlogged, hignored⟩
  rw [hqueue] at hown
  rcases hk.owned id who hown with ⟨hwho, peer', ⟨⟩, hres⟩ | ⟨hold, hkeep⟩
  · exact ⟨hwho.trans haddr.symm, hres⟩
  · obtain ⟨hwho, hres⟩ := h.owned id who hold
    obtain ⟨peer', ⟨⟩, hres'⟩ := hkeep hwho hres
    exact ⟨hwho.trans haddr.symm, hres'⟩

/-- A step that leaves both processors alone. -/
structure Onward (s s' : Session) : Prop where
  node : s'.node = s.node
  remote : s'.remote = s.remote
  tidy : s'.Tidy
  load : s'.load < s.load

/-- A step of the handler, with what it requests. -/
theorem Flow.advance (crypto : Crypto) (h : Flow s got asked wanted inv asks bids) (ht : s.Tidy)
    {q : BlockQueue} {peer : DownloadPeer} {a : Answers} {new wanted' : Chain}
    (hrun : s.peer.run s.globalInflightQueue a = (q, some peer)) (hruns : s.peer.Runs peer new.ids)
    (hasks : new ≠ [] → asks = [])
    (hdoing : peer.Doing (got ++ (asked ++ new)).ids wanted'.ids) :
    Onward s (s.advance crypto q peer) ∧
      (s.advance crypto q peer).continuationBlockID = s.continuationBlockID ∧
      Flow (s.advance crypto q peer) got (asked ++ new) wanted' inv asks bids := by
  have hk : s.peer.Kept s.globalInflightQueue (q, some peer) := hrun ▸ ht.ok.kept_run a
  have hmessages : (new.ids.map PeerRequest.getBlock).flatMap (ask crypto s.node) =
      new.map fun x => Ask.getBlock x.1 := by
    rw [Chain.ids, List.map_map, List.flatMap_map]
    exact List.map_eq_flatMap.symm
  rw [advance_eq _ hruns.sent hruns.logged, hmessages]
  refine ⟨⟨rfl, rfl, ?_, ?_⟩, rfl, ⟨h.bids, ?_, h.inv, hdoing⟩⟩
  · exact ht.of_kept hk rfl rfl (hruns.hungUp.trans ht.hungUp) (hruns.logged.trans ht.logged)
      (hruns.ignored.trans ht.ignored)
  · have hload := hruns.load
    simp only [Chain.ids, List.length_map] at hload
    simp only [load, List.length_append, List.length_map]
    omega
  · show s.asks ++ _ = _
    rw [h.asks]
    cases new with
    | nil => simp
    | cons x new =>
      rw [hasks (List.cons_ne_nil _ _)]
      simp

/-- What `run` leaves for the session. -/
theorem goOn_eq (hpc : s.peer.pc ≠ .idle) {q : BlockQueue} {peer : DownloadPeer}
    (hrun : s.peer.run s.globalInflightQueue
      (s.answers crypto (s.peer.localDownloadQueue.peek.getD 0) none now) = (q, some peer)) :
    s.step crypto prune (.goOn now) = some (s.advance crypto q peer) := by
  simp only [step, hrun]

/-- The block that the handler takes next is not known. -/
theorem Flow.branchType_filling (h : Flow s got asked wanted inv asks bids)
    (hnew : ∀ x ∈ wanted, s.node.ledger.getBranchType x.1 = .unknown)
    (crypto : Crypto) (now : Int) (hpc : s.peer.pc = .filling) (hne : wanted.ids ≠ []) :
    (s.answers crypto (s.peer.localDownloadQueue.peek.getD 0) none now).branchType =
      .ok .unknown := by
  have hdoing := h.peer
  simp only [DownloadPeer.Doing, hpc] at hdoing
  rw [BlockQueue.peek_eq, hdoing.2]
  cases wanted with
  | nil => exact absurd rfl hne
  | cons x rest => exact congrArg _ (hnew x List.mem_cons_self)

/-- A block that is yet to be requested is in nobody's hands. -/
theorem Flow.exists_eq_false (h : Flow s got asked wanted inv asks bids) (ht : s.Tidy)
    (hnd : ((got ++ asked).ids ++ wanted.ids).Nodup) {id : BlockID} (hmem : id ∈ wanted.ids)
    (hpc : s.peer.pc = .adding id) : s.globalInflightQueue.exists id = false := by
  have hdoing := h.peer
  simp only [DownloadPeer.Doing, hpc] at hdoing
  refine Bool.eq_false_iff.mpr fun hex => ?_
  obtain ⟨who, hown⟩ := BlockQueue.exists_iff.mp hex
  rcases (ht.owned _ _ hown).2 with hin | hholds
  · rw [BlockQueue.exists_iff_mem_ids, hdoing.1] at hin
    exact List.disjoint_of_nodup_append hnd hin hmem
  · rw [hpc] at hholds
    exact hholds

/-- **The handler goes on** with what is wanted. -/
theorem Flow.goOn (h : Flow s got asked wanted inv asks bids) (ht : s.Tidy)
    (hgoing : s.peer.pc.Going)
    (hnew : ∀ x ∈ wanted, s.node.ledger.getBranchType x.1 = .unknown)
    (hnd : (got ++ asked ++ wanted).ids.Nodup) (hasks : wanted ≠ [] → asks = [])
    (hs : s.step crypto prune (.goOn now) = some s') :
    Onward s s' ∧ s'.continuationBlockID = s.continuationBlockID ∧ s'.peer.pc.Going ∧
      ∃ asked' wanted', asked' ++ wanted' = asked ++ wanted ∧
        Flow s' got asked' wanted' inv asks bids := by
  have hpc : s.peer.pc ≠ .idle := fun hidle => by simp [step, hidle] at hs
  have hnd' : ((got ++ asked).ids ++ wanted.ids).Nodup := by
    rw [Chain.ids, List.map_append] at hnd
    exact hnd
  obtain ⟨q, peer, ids, wantedIDs, heq, hrun, hruns, hgoing', hdoing⟩ := h.peer.goesOn ht.ok hpc
    hgoing (h.branchType_filling hnew crypto now) (fun _ => h.exists_eq_false ht hnd') hnd'
  obtain ⟨new, wanted', rfl, rfl, rfl⟩ := List.map_eq_append_iff.mp heq
  obtain rfl : s.advance crypto q peer = s' :=
    Option.some.inj ((goOn_eq hpc hrun).symm.trans hs)
  have hasks' : new ≠ [] → asks = [] := fun hne => hasks (List.append_ne_nil_of_left_ne_nil hne _)
  have hdoing' : peer.Doing (got ++ (asked ++ new)).ids (Chain.ids wanted') := by
    rw [← List.append_assoc, Chain.ids, List.map_append]
    exact hdoing
  obtain ⟨hon, hcont, hflow⟩ := h.advance crypto ht hrun hruns hasks' hdoing'
  exact ⟨hon, hcont, hgoing', asked ++ new, wanted', List.append_assoc _ _ _, hflow⟩

variable {x : BlockID × Block}

/-- **The responder sends a block.**  With the last one it also sends its tip. -/
theorem Flow.serve (h : Flow s got (x :: asked) wanted inv asks []) (ht : s.Tidy)
    (hx : s.remote.blockStore.getBlock x.1 = .ok x.2) {tipID : BlockID} {height : Int}
    (htip : s.remote.ledger.chainTip = some (tipID, height))
    (hs : s.step crypto prune .serve = some s') :
    Onward s s' ∧ s'.peer.pc = s.peer.pc ∧
      if x.1 = s.continuationBlockID then
        s'.continuationBlockID = 0 ∧
          Flow s' (got ++ [x]) asked wanted inv asks [.invBlock [tipID]]
      else
        s'.continuationBlockID = s.continuationBlockID ∧
          Flow s' (got ++ [x]) asked wanted inv asks [] := by
  have hasks := h.asks
  rw [List.map_cons, List.cons_append] at hasks
  have hbids := h.bids
  rw [List.append_nil] at hbids
  simp only [step, hasks, getBlock, hx, htip] at hs
  have hpeer := h.peer
  rw [show got ++ x :: asked = got ++ [x] ++ asked by simp] at hpeer
  split_ifs at hs with hlast
  · obtain rfl := Option.some.inj hs
    rw [if_pos hlast]
    refine ⟨⟨rfl, rfl, ⟨ht.ok, ht.owned, ht.hungUp, ht.logged, ht.ignored⟩, ?_⟩, rfl, rfl, ?_, rfl,
      h.inv, hpeer⟩
    · simp only [load, hasks, List.length_append, List.length_cons, List.length_nil]
      omega
    · simp [hbids]
  · obtain rfl := Option.some.inj hs
    rw [if_neg hlast]
    refine ⟨⟨rfl, rfl, ⟨ht.ok, ht.owned, ht.hungUp, ht.logged, ht.ignored⟩, ?_⟩, rfl, rfl, ?_, rfl,
      h.inv, hpeer⟩
    · simp only [load, hasks, List.length_append, List.length_cons, List.length_nil]
      omega
    · simp [hbids]

/-- **An unknown block is wanted.** -/
theorem Flow.nextInv_unknown {index length : Int}
    (h : Flow s got asked wanted ((x.1, index, length) :: inv) asks bids) (ht : s.Tidy)
    (hidle : s.peer.pc = .idle) (hlength : length ≤ maxBlocksPerInv)
    (hnew : s.node.ledger.getBranchType x.1 = .unknown)
    (hfresh : x.1 ∉ (got ++ asked ++ wanted).ids) (hlen : wanted.length < downloadQueueMax)
    (hs : s.step crypto prune (.nextInv now) = some s') :
    Onward s s' ∧ s'.continuationBlockID = s.continuationBlockID ∧ s'.peer.pc = .filling ∧
      Flow s' got asked (wanted ++ [x]) inv asks bids := by
  have hdoing := h.peer
  simp only [DownloadPeer.Doing, hidle] at hdoing
  obtain ⟨hin, hdown, -⟩ := hdoing
  have hnotin : x.1 ∉ s.peer.localInflightQueue.ids := by
    rw [hin]
    simp only [Chain.ids, List.map_append, List.mem_append, not_or] at hfresh ⊢
    exact hfresh.1
  have hnotdown : x.1 ∉ s.peer.localDownloadQueue.ids := by
    rw [hdown]
    simp only [Chain.ids, List.map_append, List.mem_append, not_or] at hfresh ⊢
    exact hfresh.2
  obtain ⟨peer, hpeer, honInv⟩ : ∃ peer : DownloadPeer, peer = { s.peer with
        localDownloadQueue := (s.peer.localDownloadQueue.add x.1 [] now).1
        pc := .filling } ∧
      s.peer.onInvBlock x.1 index length (s.answers crypto x.1 (some x.1) now) = peer := by
    refine ⟨_, rfl, ?_⟩
    unfold DownloadPeer.onInvBlock
    rw [if_neg (not_lt.mpr hlength), if_neg (by rw [ht.ignored]; simp),
      if_neg (by
        rw [BlockQueue.exists_eq_false_of_not_mem hnotin,
          BlockQueue.exists_eq_false_of_not_mem hnotdown]
        simp)]
    simp only [answers, hnew]
    rw [if_neg]
    rw [BlockQueue.len_eq, hdown, Chain.ids, List.length_map]
    exact not_le.mpr hlen
  have hk : s.peer.Kept s.globalInflightQueue (s.globalInflightQueue, some peer) :=
    honInv ▸ ht.ok.kept_onInvBlock hidle x.1 index length _
  have heq : s' = { s with peer := peer, inv := inv } := by
    simp only [step, hidle, h.inv, honInv, Option.some.injEq] at hs
    rw [← hs, advance_eq [] (by rw [hpeer]; simp) (by rw [hpeer])]
    simp
  subst heq
  refine ⟨⟨rfl, rfl, ?_, ?_⟩, rfl, by rw [hpeer], h.bids, h.asks, rfl, ?_⟩
  · exact ht.of_kept hk rfl rfl (by rw [hpeer]; exact ht.hungUp) (by rw [hpeer]; exact ht.logged)
      (by rw [hpeer]; exact ht.ignored)
  · simp only [load, DownloadPeer.load, hidle, hpeer, h.inv, BlockQueue.len_eq,
      BlockQueue.ids_add hnotdown, List.length_append, List.length_cons, List.length_nil]
    omega
  · show peer.Doing _ _
    rw [hpeer]
    exact ⟨hin, by rw [BlockQueue.ids_add hnotdown, hdown]; simp [Chain.ids]⟩

/-- **A known block is passed over.** -/
theorem Flow.nextInv_known {id : BlockID} {index length : Int}
    (h : Flow s [] [] [] ((id, index, length) :: inv) asks bids) (ht : s.Tidy)
    (hidle : s.peer.pc = .idle) (hlength : length ≤ maxBlocksPerInv)
    (hknown : s.node.ledger.getBranchType id ≠ .unknown)
    (hmore : ¬ (length > 1 ∧ index + 1 = length))
    (hs : s.step crypto prune (.nextInv now) = some s') :
    Onward s s' ∧ s'.continuationBlockID = s.continuationBlockID ∧ s'.peer.pc = .idle ∧
      Flow s' [] [] [] inv asks bids := by
  have hdoing := h.peer
  simp only [DownloadPeer.Doing, hidle] at hdoing
  have honInv : s.peer.onInvBlock id index length (s.answers crypto id (some id) now) = s.peer := by
    unfold DownloadPeer.onInvBlock
    rw [if_neg (not_lt.mpr hlength), if_neg (by rw [ht.ignored]; simp)]
    cases hbranch : s.node.ledger.getBranchType id with
    | unknown => exact absurd hbranch hknown
    | _ => simp only [answers, hbranch, if_neg hmore, ite_self]
  have heq : s' = { s with inv := inv } := by
    simp only [step, hidle, h.inv, honInv, Option.some.injEq] at hs
    rw [← hs, advance_eq [] (by simp) rfl]
    simp
  subst heq
  refine ⟨⟨rfl, rfl, ⟨ht.ok, ht.owned, ht.hungUp, ht.logged, ht.ignored⟩, ?_⟩, rfl, hidle, h.bids,
    h.asks, rfl, h.peer⟩
  simp only [load, h.inv, List.length_cons]
  omega

/-- **The last of several known blocks** is where the next request starts. -/
theorem Flow.nextInv_last {id : BlockID} {index length : Int} {ids : List BlockID}
    (h : Flow s [] [] [] [(id, index, length)] [] bids) (ht : s.Tidy)
    (hidle : s.peer.pc = .idle) (hlength : length ≤ maxBlocksPerInv)
    (hknown : s.node.ledger.getBranchType id ≠ .unknown)
    (hlast : length > 1 ∧ index + 1 = length)
    (hids : Peer.sendFindCommonAncestor crypto s.node (some id) = .ok ids)
    (hs : s.step crypto prune (.nextInv now) = some s') :
    Onward s s' ∧ s'.peer.pc = .idle ∧
      Flow s' [] [] [] [] [.findCommonAncestor ids] bids := by
  have hdoing := h.peer
  simp only [DownloadPeer.Doing, hidle] at hdoing
  obtain ⟨hin, hdown, -⟩ := hdoing
  obtain ⟨peer, hpeer, honInv⟩ : ∃ peer : DownloadPeer, peer = { s.peer with
        pc := .idle
        sent := s.peer.sent ++ [.findCommonAncestor (some id)] } ∧
      s.peer.onInvBlock id index length (s.answers crypto id (some id) now) = peer := by
    refine ⟨_, rfl, ?_⟩
    have hnotin : s.peer.localInflightQueue.exists id = false :=
      BlockQueue.exists_eq_false_of_not_mem (by rw [hin]; simp [Chain.ids])
    have hnotdown : s.peer.localDownloadQueue.exists id = false :=
      BlockQueue.exists_eq_false_of_not_mem (by rw [hdown]; simp [Chain.ids])
    unfold DownloadPeer.onInvBlock
    rw [if_neg (not_lt.mpr hlength), if_neg (by rw [ht.ignored]; simp),
      if_neg (by rw [hnotin, hnotdown]; simp)]
    cases hbranch : s.node.ledger.getBranchType id with
    | unknown => exact absurd hbranch hknown
    | _ =>
      simp only [answers, hbranch, if_pos hlast, hids]
      rfl
  have hk : s.peer.Kept s.globalInflightQueue (s.globalInflightQueue, some peer) :=
    honInv ▸ ht.ok.kept_onInvBlock hidle id index length _
  have heq : s' = { s with peer := peer, inv := [], asks := [.findCommonAncestor ids] } := by
    have hasks : s.asks = [] := h.asks
    simp only [step, hidle, h.inv, honInv, Option.some.injEq] at hs
    rw [← hs, advance_eq _ (by rw [hpeer]) (by rw [hpeer])]
    simp [ask, hids, hasks]
  subst heq
  refine ⟨⟨rfl, rfl, ?_, ?_⟩, by rw [hpeer], h.bids, rfl, rfl, ?_⟩
  · exact ht.of_kept hk rfl rfl (by rw [hpeer]; exact ht.hungUp) (by rw [hpeer]; exact ht.logged)
      (by rw [hpeer]; exact ht.ignored)
  · simp only [load, DownloadPeer.load, hidle, hpeer, h.inv, h.asks, List.length_cons,
      List.length_nil, List.map_nil, List.nil_append]
    omega
  · show peer.Doing _ _
    rw [hpeer]
    exact ⟨hin, hdown, .inr rfl⟩

/-- What the peer does with the block it waits for. -/
theorem onBlock_peer (h : s.peer.localInflightQueue.peek = some x.1) (hx : x.1 = x.2.id crypto)
    {ibd : Bool} (hibd : ibd = true ∨ latestCheckpointHeight ≤ x.2.header.height) {a : Answers}
    {header : Option BlockHeader} (hheader : a.header = .ok header)
    (hok : header.isSome → a.processed = .ok ()) :
    s.peer.onBlock crypto x.2 ibd a =
      { s.peer with pc := .dropping x.1 (if header.isSome then .fill else .locate) } := by
  have hlow : ¬ (ibd = false ∧ x.2.header.height < latestCheckpointHeight) := by
    rintro ⟨rfl, hlt⟩
    rcases hibd with hibd | hibd
    · exact absurd hibd Bool.false_ne_true
    · omega
  unfold DownloadPeer.onBlock
  dsimp only
  rw [if_neg (by rw [h, hx]; simp), if_neg hlow, hheader]
  cases header with
  | none => simp [← hx]
  | some header => simp [hok rfl, ← hx]

/-- **A block arrives**, and the handler is to drop it from the queues.  It is
processed unless it is an orphan. -/
theorem Flow.receive_block (h : Flow s (x :: got) asked wanted [] asks bids) (ht : s.Tidy)
    (hidle : s.peer.pc = .idle) (hx : x.1 = x.2.id crypto) {ibd : Bool}
    (hibd : ibd = true ∨ latestCheckpointHeight ≤ x.2.header.height)
    (hok : (s.node.blockStore.getBlockHeader x.2.header.previous).isSome →
      (s.node.step crypto prune (.block x.2 now s.addr)).2 = .ok ())
    (hs : s.step crypto prune (.receive ibd now) = some s') :
    s'.Tidy ∧ s'.load < s.load ∧ s'.remote = s.remote ∧
      s'.continuationBlockID = s.continuationBlockID ∧
      Flow s' got asked wanted [] asks bids ∧
      if (s.node.blockStore.getBlockHeader x.2.header.previous).isSome then
        s'.node = (s.node.step crypto prune (.block x.2 now s.addr)).1 ∧
          s'.peer.pc = .dropping x.1 .fill
      else s'.node = s.node ∧ s'.peer.pc = .dropping x.1 .locate := by
  have hdoing := h.peer
  simp only [DownloadPeer.Doing, hidle] at hdoing
  obtain ⟨hin, hdown, -⟩ := hdoing
  have hpeek : s.peer.localInflightQueue.peek = some x.1 := by
    rw [BlockQueue.peek_eq, hin]
    rfl
  have hbids := h.bids
  rw [List.map_cons, List.cons_append] at hbids
  generalize hheader : (s.node.blockStore.getBlockHeader x.2.header.previous).map Prod.fst = header
  have hsome : (s.node.blockStore.getBlockHeader x.2.header.previous).isSome = header.isSome := by
    rw [← hheader, Option.isSome_map]
  rw [hsome] at hok ⊢
  have hlow : ¬ (ibd = false ∧ x.2.header.height < latestCheckpointHeight) := by
    rintro ⟨rfl, hlt⟩
    rcases hibd with hibd | hibd
    · exact absurd hibd Bool.false_ne_true
    · omega
  have hon : s.peer.onBlock crypto x.2 ibd
      ⟨.ok .unknown, .ok header, (s.node.step crypto prune (.block x.2 now s.addr)).2, .ok true,
        now⟩ =
      { s.peer with pc := .dropping x.1 (if header.isSome then .fill else .locate) } :=
    onBlock_peer hpeek hx hibd rfl hok
  have hk : s.peer.Kept s.globalInflightQueue (s.globalInflightQueue, some
      { s.peer with pc := .dropping x.1 (if header.isSome then .fill else .locate) }) :=
    hon ▸ ht.ok.kept_onBlock hidle crypto x.2 ibd _
  have heq : s' = { s with
      node := if header.isSome then (s.node.step crypto prune (.block x.2 now s.addr)).1 else s.node
      peer := { s.peer with pc := .dropping x.1 (if header.isSome then .fill else .locate) }
      bids := got.map (fun x => Bid.block x.1 (some x.2)) ++ bids } := by
    simp only [step, hidle, h.inv, hbids, onBlock, hheader, hon, Option.some.injEq] at hs
    rw [← hs]
    simp [hpeek, hx, hlow, h.inv.symm]
  subst heq
  refine ⟨?_, ?_, rfl, rfl, ⟨rfl, h.asks, h.inv, hin, hdown⟩, ?_⟩
  · exact ht.of_kept hk rfl rfl ht.hungUp ht.logged ht.ignored
  · simp only [load, DownloadPeer.load, hidle, hbids, List.length_cons]
    omega
  · cases header with
    | none => exact ⟨rfl, rfl⟩
    | some header => exact ⟨rfl, rfl⟩

/-- **A message with IDs arrives.** -/
theorem Flow.receive_inv {ids : List BlockID} {ibd : Bool}
    (h : Flow s [] [] [] [] asks (.invBlock ids :: bids)) (ht : s.Tidy) (hidle : s.peer.pc = .idle)
    (hs : s.step crypto prune (.receive ibd now) = some s') :
    s'.node = s.node ∧ s'.remote = s.remote ∧ s'.Tidy ∧
      s'.continuationBlockID = s.continuationBlockID ∧ s'.peer.pc = .idle ∧
      Flow s' [] [] [] (ids.zipIdx.map fun (id, i) => (id, (i : Int), (ids.length : Int)))
        asks bids := by
  have hbids : s.bids = .invBlock ids :: bids := h.bids
  simp only [step, hidle, h.inv, hbids, Option.some.injEq] at hs
  subst hs
  exact ⟨rfl, rfl, ⟨ht.ok, ht.owned, ht.hungUp, ht.logged, ht.ignored⟩, rfl, hidle, rfl, h.asks,
    rfl, h.peer⟩

/-- **The responder answers a request**, unless it has no more blocks. -/
theorem Flow.serve_findCommonAncestor {ids answer : List BlockID}
    (h : Flow s [] [] [] [] [.findCommonAncestor ids] []) (ht : s.Tidy)
    (hanswer : Peer.onFindCommonAncestors s.remote ids = some answer)
    (hs : s.step crypto prune .serve = some s') :
    s'.node = s.node ∧ s'.remote = s.remote ∧ s'.Tidy ∧ s'.peer.pc = s.peer.pc ∧
      match answer.getLast? with
      | none => Flow s' [] [] [] [] [] []
      | some last => s'.continuationBlockID = last ∧ Flow s' [] [] [] [] [] [.invBlock answer] := by
  have hasks : s.asks = [.findCommonAncestor ids] := h.asks
  have hbids : s.bids = [] := h.bids
  simp only [step, hasks, onFindCommonAncestors, hanswer, Option.some.injEq] at hs
  subst hs
  cases answer.getLast? with
  | none =>
    exact ⟨rfl, rfl, ⟨ht.ok, ht.owned, ht.hungUp, ht.logged, ht.ignored⟩, rfl, h.bids, rfl, h.inv,
      h.peer⟩
  | some last =>
    exact ⟨rfl, rfl, ⟨ht.ok, ht.owned, ht.hungUp, ht.logged, ht.ignored⟩, rfl, rfl,
      by simp [hbids], rfl, h.inv, h.peer⟩

/-- **An orphan is dropped.** -/
theorem Flow.goOn_dropping {id : BlockID} {after : AfterDrop}
    (h : Flow s got asked wanted inv asks bids) (ht : s.Tidy)
    (hpc : s.peer.pc = .dropping id after)
    (hs : s.step crypto prune (.goOn now) = some s') :
    Onward s s' ∧ s'.continuationBlockID = s.continuationBlockID ∧
      s'.peer.pc = .dropped id after ∧ Flow s' got asked wanted inv asks bids := by
  obtain ⟨peer, hrun, hruns, hdropped, hdoing⟩ := h.peer.run_dropping ht.ok hpc
    s.globalInflightQueue (s.answers crypto (s.peer.localDownloadQueue.peek.getD 0) none now)
  obtain rfl := Option.some.inj (hs.symm.trans (goOn_eq (by simp [hpc]) hrun))
  have hruns' : s.peer.Runs peer (Chain.ids []) := hruns
  have hdoing' : peer.Doing (got ++ (asked ++ [])).ids wanted.ids := by
    rw [List.append_nil]
    exact hdoing
  obtain ⟨hon, hcont, hflow⟩ := h.advance crypto ht hrun hruns' (fun hne => absurd rfl hne) hdoing'
  rw [List.append_nil] at hflow
  exact ⟨hon, hcont, hdropped, hflow⟩

/-- After an orphan the requester looks for a common ancestor again. -/
theorem Flow.goOn_locate {id : BlockID} {ids : List BlockID} (h : Flow s [] [] [] [] [] [])
    (ht : s.Tidy) (hpc : s.peer.pc = .dropped id .locate)
    (hids : Peer.sendFindCommonAncestor crypto s.node none = .ok ids)
    (hs : s.step crypto prune (.goOn now) = some s') :
    s'.node = s.node ∧ s'.remote = s.remote ∧ s'.Tidy ∧ s'.peer.pc = .filling ∧
      Flow s' [] [] [] [] [.findCommonAncestor ids] [] := by
  have hdoing := h.peer
  simp only [DownloadPeer.Doing, hpc] at hdoing
  have hasks : s.asks = [] := h.asks
  obtain ⟨a, ha, hlocated⟩ : ∃ a,
      s.answers crypto (s.peer.localDownloadQueue.peek.getD 0) none now = a ∧
        a.located = .ok true := ⟨_, rfl, by simp only [answers, hids]; rfl⟩
  obtain ⟨peer, hpeer, hrun⟩ : ∃ peer : DownloadPeer, peer = { s.peer with
        pc := .filling
        sent := s.peer.sent ++ [.findCommonAncestor none] } ∧
      s.peer.run s.globalInflightQueue a =
        ((s.globalInflightQueue.remove id s.peer.addr).1, some peer) :=
    ⟨_, rfl, by simp [DownloadPeer.run, hpc, DownloadPeer.resume,
      DownloadPeer.sendFindCommonAncestor, hlocated]⟩
  have hk : s.peer.Kept s.globalInflightQueue
      ((s.globalInflightQueue.remove id s.peer.addr).1, some peer) := hrun ▸ ht.ok.kept_run a
  have heq : s' = { s with
      globalInflightQueue := (s.globalInflightQueue.remove id s.peer.addr).1
      peer := peer
      asks := [.findCommonAncestor ids] } := by
    rw [← ha] at hrun
    rw [Option.some.inj (hs.symm.trans (goOn_eq (by simp [hpc]) hrun)),
      advance_eq _ (by rw [hpeer]) (by rw [hpeer])]
    simp [ask, hids, hasks]
  subst heq
  refine ⟨rfl, rfl, ?_, by rw [hpeer], h.bids, rfl, h.inv, ?_⟩
  · exact ht.of_kept hk rfl rfl (by rw [hpeer]; exact ht.hungUp) (by rw [hpeer]; exact ht.logged)
      (by rw [hpeer]; exact ht.ignored)
  · show peer.Doing _ _
    rw [hpeer]
    exact hdoing

end Steps

end Session

end Cruzbit

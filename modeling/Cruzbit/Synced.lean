/-
Cruzbit/Synced.lean

A download session comes to its end, and then the requester has the whole
main chain of the responder (`sync_completes`).

The requester knows the lowest `k` blocks of that chain.  A session passes
through the phases of `Phase`.  Each answer of the responder starts below `k`;
the blocks that follow are passed over as known or are downloaded in order, so
that each one finds its parent.  The tip that the responder sends at the end is
an orphan, and then there is another request, or it is the last block.

The steps of requester and responder may come in any order.  Every step goes down
in the lexicographic order of three numbers: the blocks that are neither
known nor on the way, a number for the phase, and the load of `SessionFlow.lean`.
-/
import Cruzbit.SessionFlow
import Cruzbit.SessionNodes

namespace Cruzbit

open Chain Lineage Transition Word

namespace Session

variable {crypto : Crypto} {prune : Bool} {target : Chain → Res BlockID} {B : Set Block}
  {T : Set Transaction} {n₀ : Processor} {s s' : Session} {d : Chain} {k : Nat}

/-- What holds throughout the session: the responder stays on its main chain,
of which the requester knows `k` blocks.  It learns no others. -/
structure Link (crypto : Crypto) (prune : Bool) (target : Chain → Res BlockID) (B : Set Block)
    (T : Set Transaction) (n₀ : Processor) (d : Chain) (s : Session) (k : Nat) : Prop where
  node : Run crypto prune (Call.Among B T) s.node
  offers : Offers crypto prune target B s.remote d
  knows : Knows s.node d k
  learned : ∀ id, s.node.ledger.Known id → n₀.ledger.Known id ∨ id ∈ d.ids
  pos : 0 < k
  le : k ≤ d.length
  tidy : s.Tidy

theorem Link.of_eq (h : Link crypto prune target B T n₀ d s k) (hnode : s'.node = s.node)
    (hremote : s'.remote = s.remote) (htidy : s'.Tidy) : Link crypto prune target B T n₀ d s' k :=
  ⟨hnode ▸ h.node, hremote ▸ h.offers, hnode ▸ h.knows, hnode ▸ h.learned, h.pos, h.le, htidy⟩

theorem Link.onward (h : Link crypto prune target B T n₀ d s k) (hon : Onward s s') :
    Link crypto prune target B T n₀ d s' k :=
  h.of_eq hon.node hon.remote hon.tidy

variable {n : Nat} {x : BlockID × Block} {now : Int} {source : String}

/-- Whether a block of the chain is unknown is a matter of its height. -/
theorem Link.unknown_iff (h : Link crypto prune target B T n₀ d s k)
    (hset : Setting crypto prune target B T) (hx : blockAt d n = some x) :
    s.node.ledger.getBranchType x.1 = .unknown ↔ k ≤ n := by
  obtain ⟨c, K, hs⟩ := hset.settled h.node
  rw [hs.describes.getBranchType_eq_unknown, ← hs.describes.known_iff, h.knows n x hx, not_lt]

/-- A request from the tip is answered from a block that the requester knows. -/
theorem Link.request (h : Link crypto prune target B T n₀ d s k)
    (hset : Setting crypto prune target B T) :
    ∃ ids a, Peer.sendFindCommonAncestor crypto s.node none = .ok ids ∧ a < k ∧
      Peer.onFindCommonAncestors s.remote ids =
        some (between d (a + 1) (a + 1 + maxBlocksPerInv)).ids := by
  obtain ⟨c, K, hs⟩ := hset.settled h.node
  obtain ⟨_, P, Q, K', hp⟩ := h.offers.placed
  have hstart : ∀ id ∈ (none : Option BlockID), id ∈ K := by simp
  obtain ⟨rest, hreq, -, hrest⟩ := hs.toPlaced.sendFindCommonAncestor_eq hstart
  obtain ⟨a, x, hx, hid, hans⟩ := hp.onFindCommonAncestors_eq rest
  refine ⟨_, a, hreq, (h.knows a x hx).mp ((hs.describes.known_iff _).mpr ?_), ?_⟩
  · rcases List.mem_append.mp hid with hid | hid
    · exact hrest x.1 hid
    · rw [List.mem_singleton.mp hid]
      exact hs.toPlaced.genesis_mem
  · rw [hans, between, Nat.add_sub_cancel_left]
    rfl

/-- A request from a block of the chain is answered with the blocks above it. -/
theorem Link.request_from (h : Link crypto prune target B T n₀ d s k)
    (hset : Setting crypto prune target B T) (hx : blockAt d (n + 1) = some x) (hn : n + 1 < k) :
    ∃ ids, Peer.sendFindCommonAncestor crypto s.node (some x.1) = .ok ids ∧
      Peer.onFindCommonAncestors s.remote ids =
        some (between d (n + 1 + 1) (n + 1 + 1 + maxBlocksPerInv)).ids := by
  obtain ⟨c, K, hs⟩ := hset.settled h.node
  obtain ⟨_, P, Q, K', hp⟩ := h.offers.placed
  obtain ⟨ids, hreq, hans⟩ := hs.toPlaced.answer_of_start hp hx
    ((hs.describes.known_iff _).mp ((h.knows _ x hx).mpr hn))
  refine ⟨ids, hreq, ?_⟩
  rw [hans, between, Nat.add_sub_cancel_left]
  rfl

/-- **The next block is accepted.** -/
theorem Link.accepts (h : Link crypto prune target B T n₀ d s k)
    (hset : Setting crypto prune target B T) (hx : blockAt d k = some x)
    (hlate : x.2.header.time ≤ int64 (now + maxFutureSeconds)) (source : String) :
    (s.node.step crypto prune (.block x.2 now source)).2 = .ok () ∧
      Run crypto prune (Call.Among B T) (s.node.step crypto prune (.block x.2 now source)).1 ∧
      Knows (s.node.step crypto prune (.block x.2 now source)).1 d (k + 1) ∧
      ∀ id, (s.node.step crypto prune (.block x.2 now source)).1.ledger.Known id →
        n₀.ledger.Known id ∨ id ∈ d.ids := by
  obtain ⟨c, hc, hlen, hB, -, hbelow⟩ := h.offers.split hx
  have hne : c ≠ [] := by
    rintro rfl
    exact h.pos.ne hlen
  have hxid : x = (x.2.id crypto, x.2) := Prod.ext (hc.id_eq x List.mem_cons_self) rfl
  have hmem : x.2 ∈ B := by
    obtain ⟨p, c, rfl⟩ := List.exists_cons_of_ne_nil hne
    exact (hB x List.mem_cons_self).resolve_left hc.ne_genesis
  have hknown : ∀ y ∈ c, s.node.ledger.Known y.1 := by
    intro y hy
    obtain ⟨m, hm, hat⟩ := hbelow y hy
    exact (h.knows m y hat).mpr hm
  have hc' := hc
  rw [hxid] at hc'
  obtain ⟨hok, hiff⟩ := hset.accepts h.node hmem hc' hne
    (fun y hy => hB y (List.mem_cons_of_mem _ hy)) hknown hlate source
  have hid : x.1 = x.2.id crypto := hc.id_eq x List.mem_cons_self
  refine ⟨hok, .call _ h.node hmem, fun n y hy => ?_, fun id hknown' => ?_⟩
  · rw [hiff, h.knows n y hy, Nat.lt_succ_iff_lt_or_eq, or_comm]
    refine or_congr_right ⟨fun hyid => h.offers.eq_of_blockAt hy hx (hyid.trans hid.symm), ?_⟩
    rintro rfl
    rw [Option.some.inj (hy.symm.trans hx)]
    exact hid
  · rcases (hiff id).mp hknown' with rfl | hold
    · exact .inr (hid ▸ List.mem_map_of_mem (mem_of_blockAt hx))
    · exact h.learned id hold

/-- The parent of a block of the chain is in storage just if it is known. -/
theorem Link.isSome_parent (h : Link crypto prune target B T n₀ d s k)
    (hset : Setting crypto prune target B T) (hx : blockAt d (n + 1) = some x) :
    (s.node.blockStore.getBlockHeader x.2.header.previous).isSome = true ↔ n < k := by
  obtain ⟨c, hc, hlen, hB, hhead, -⟩ := h.offers.split hx
  obtain ⟨p, c, rfl⟩ : ∃ p e, c = p :: e := List.exists_cons_of_ne_nil (by
    rintro rfl
    exact (Nat.succ_ne_zero n) hlen.symm)
  obtain ⟨hc', hfollows⟩ := hc.tail (by simp)
  have hp : blockAt d n = some p := (hhead.resolve_right (Nat.succ_ne_zero n)).symm
  rw [(hfollows.parent p rfl).1, BlockStorage.getBlockHeader, Option.isSome_map, ← h.knows n p hp]
  constructor
  · exact hset.known_of_stored h.node hc' fun y hy => hB y (List.mem_cons_of_mem _ hy)
  · intro hknown
    obtain ⟨c', K, hs⟩ := hset.settled h.node
    obtain ⟨e, he, -⟩ := hs.toPlaced.tree.stored ((hs.describes.known_iff _).mp hknown)
    rw [he]
    rfl

/-! ### The phases of a session -/

/-- What is left of the message with the blocks from `i` to `top`, from the height `j` on: each
ID comes with its index and the length of the message. -/
def invItems (d : Chain) (i j top : Nat) : List (BlockID × Int × Int) :=
  ((between d j top).ids.zipIdx (j - i)).map fun (id, n) => (id, (n : Int), ((top - i : Nat) : Int))

/-- The responder waits for the request for the last block below `top`. -/
def Continues (d : Chain) (s : Session) (top : Nat) : Prop :=
  ∀ x, blockAt d (top - 1) = some x → s.continuationBlockID = x.1

/-- What comes behind the blocks that have been sent: nothing as long as some are left, and then
the ID of the tip. -/
def Behind (d : Chain) (s : Session) (top : Nat) (left : Chain) (bids : List Bid) : Prop :=
  left ≠ [] ∧ bids = [] ∧ Continues d s top ∨
    left = [] ∧ s.continuationBlockID = 0 ∧
      ∃ t, blockAt d (d.length - 1) = some t ∧ bids = [.invBlock [t.1]]

theorem Behind.of_eq {top : Nat} {left : Chain} {bids : List Bid} (h : Behind d s top left bids)
    (hcont : s'.continuationBlockID = s.continuationBlockID) : Behind d s' top left bids := by
  unfold Behind Continues
  rw [hcont]
  exact h

/-- The blocks from `k` to `top` are downloaded.  If all have been sent, the ID of the tip is on
its way. -/
structure Loading (d : Chain) (s : Session) (k top : Nat) (got asked wanted rest : Chain)
    (inv : List (BlockID × Int × Int)) (bids : List Bid) : Prop where
  split : got ++ (asked ++ wanted ++ rest) = between d k top
  le : k ≤ top
  top_le : top ≤ d.length
  size : top ≤ k + maxBlocksPerInv
  items : inv.map Prod.fst = rest.ids
  length : ∀ i ∈ inv, i.2.2 ≤ maxBlocksPerInv
  flow : Flow s got asked wanted inv [] bids
  going : s.peer.pc.Going
  behind : Behind d s top (asked ++ wanted ++ rest) bids

/-- The phases, with a rank. -/
inductive Phase (d : Chain) (s : Session) (k : Nat) : Nat → Nat → Prop
  /-- A request is on the way, to be answered with the blocks above the height `a`. -/
  | asked {a : Nat} {ids : List BlockID} (ha : a < k)
      (hpc : s.peer.pc = .idle ∨ s.peer.pc = .filling)
      (hflow : Flow s [] [] [] [] [.findCommonAncestor ids] [])
      (hanswer : Peer.onFindCommonAncestors s.remote ids =
        some (between d (a + 1) (a + 1 + maxBlocksPerInv)).ids) :
      Phase d s k (d.length - k) (4 * (d.length - a) + 3)
  /-- The answer is on the way. -/
  | answered {a top : Nat} (ha : a < k) (htop : top = min d.length (a + 1 + maxBlocksPerInv))
      (hlt : a + 1 < top) (hpc : s.peer.pc = .idle ∨ s.peer.pc = .filling)
      (hflow : Flow s [] [] [] [] [] [.invBlock (between d (a + 1) top).ids])
      (hlast : Continues d s top) :
      Phase d s k (d.length - max k top)
        (if top ≤ k then 4 * (d.length - a) + 2 else 4 * d.length + 10)
  /-- The answer has been read up to the height `j`, with known blocks only. -/
  | reading {a j top : Nat} (htop : top = min d.length (a + 1 + maxBlocksPerInv))
      (hj : a + 1 ≤ j) (hlt : j < top) (hk : j ≤ k) (hpc : s.peer.pc = .idle)
      (hflow : Flow s [] [] [] (invItems d (a + 1) j top) [] []) (hlast : Continues d s top) :
      Phase d s k (d.length - max k top)
        (if top ≤ k then 4 * (d.length - a) + 1 else 4 * d.length + 9)
  /-- The blocks below `top` are downloaded. -/
  | loading {top : Nat} {got asked wanted rest : Chain} {inv : List (BlockID × Int × Int)}
      {bids : List Bid} (hloading : Loading d s k top got asked wanted rest inv bids) :
      Phase d s k (d.length - top) (4 * d.length + 8)
  /-- The ID of the tip is in hand. -/
  | prompted {t : BlockID × Block} (ht : blockAt d (d.length - 1) = some t)
      (hpc : s.peer.pc = .idle) (hflow : Flow s [] [] [] [(t.1, 0, 1)] [] [])
      (hlast : s.continuationBlockID = 0) :
      Phase d s k (d.length - k) (4 * d.length + 7)
  /-- The tip is downloaded. -/
  | fetching {t : BlockID × Block} {got asked wanted : Chain}
      (ht : blockAt d (d.length - 1) = some t) (hk : k < d.length)
      (hsplit : got ++ (asked ++ wanted) = [t]) (hflow : Flow s got asked wanted [] [] [])
      (hgoing : s.peer.pc.Going) (hlast : s.continuationBlockID = 0) :
      Phase d s k (d.length - k) (4 * d.length + 6)
  /-- The tip was an orphan. -/
  | orphaned {id : BlockID} (hk : k < d.length)
      (hpc : s.peer.pc = .dropping id .locate ∨ s.peer.pc = .dropped id .locate)
      (hflow : Flow s [] [] [] [] [] []) :
      Phase d s k (d.length - k) (4 * d.length + 5)
  /-- The requester knows the chain. -/
  | done (hk : k = d.length) (hflow : Flow s [] [] [] [] [] []) (hgoing : s.peer.pc.Going) :
      Phase d s k 0 0

variable (crypto prune target B T n₀) in
/-- The session is in a phase of lower rank, or of the same rank with a lower load. -/
def Lowers (d : Chain) (s s' : Session) (a b : Nat) : Prop :=
  ∃ k' a' b', Link crypto prune target B T n₀ d s' k' ∧ Phase d s' k' a' b' ∧
    (a' < a ∨ a' = a ∧ (b' < b ∨ b' = b ∧ s'.load < s.load))

theorem Link.lowers_same {a b : Nat} (h : Link crypto prune target B T n₀ d s k) (hon : Onward s s')
    (hphase : Phase d s' k a b) : Lowers crypto prune target B T n₀ d s s' a b :=
  ⟨k, a, b, h.onward hon, hphase, .inr ⟨rfl, .inr ⟨rfl, hon.load⟩⟩⟩

theorem Link.lowers {a b a' b' : Nat} (h : Link crypto prune target B T n₀ d s' k)
    (hphase : Phase d s' k a' b') (hlt : a' < a ∨ a' = a ∧ b' < b) :
    Lowers crypto prune target B T n₀ d s s' a b :=
  ⟨k, a', b', h, hphase, hlt.imp_right (And.imp_right .inl)⟩

theorem invItems_cons {i j top : Nat} (hx : blockAt d j = some x) (hij : i ≤ j) (hj : j < top) :
    invItems d i j top =
      (x.1, ((j - i : Nat) : Int), ((top - i : Nat) : Int)) :: invItems d i (j + 1) top := by
  rw [invItems, between_cons hx hj, Chain.ids, List.map_cons, List.zipIdx_cons, List.map_cons,
    show j - i + 1 = j + 1 - i by omega]
  rfl

theorem invItems_self {j top : Nat} (i : Nat) (h : top ≤ j) : invItems d i j top = [] := by
  rw [invItems, between_eq_nil h]
  rfl

theorem map_fst_invItems (i j top : Nat) :
    (invItems d i j top).map Prod.fst = (between d j top).ids := by
  rw [invItems, List.map_map]
  exact List.zipIdx_map_fst _ _

/-- The step that is possible says where the session is. -/
def Enabled (s : Session) : SessionEvent → Prop
  | .receive _ _ => s.peer.pc = .idle ∧ s.inv = [] ∧ s.bids ≠ []
  | .nextInv _ => s.peer.pc = .idle ∧ s.inv ≠ []
  | .goOn _ => s.peer.pc ≠ .idle
  | .serve => s.asks ≠ []

theorem enabled_of_step {l : SessionEvent} (hs : s.step crypto prune l = some s') :
    s.Enabled l := by
  cases l with
  | receive ibd now =>
    simp only [step] at hs
    split at hs
    · rename_i hpc hinv hbids
      exact ⟨hpc, hinv, by simp [hbids]⟩
    · rename_i hpc hinv hbids
      exact ⟨hpc, hinv, by simp [hbids]⟩
    · rename_i hpc hinv hbids
      exact ⟨hpc, hinv, by simp [hbids]⟩
    · exact absurd hs (by simp)
  | nextInv now =>
    simp only [step] at hs
    split at hs
    · rename_i hpc hinv
      exact ⟨hpc, by simp [hinv]⟩
    · exact absurd hs (by simp)
  | goOn now =>
    intro hpc
    simp [step, hpc] at hs
  | serve =>
    intro hasks
    simp [step, hasks] at hs

/-! ### One step -/

/-- There is nothing to request. -/
theorem Flow.goOn_filling {inv : List (BlockID × Int × Int)} {asks : List Ask} {bids : List Bid}
    (h : Flow s [] [] [] inv asks bids) (ht : s.Tidy) (hpc : s.peer.pc = .filling)
    (hs : s.step crypto prune (.goOn now) = some s') :
    Onward s s' ∧ s'.continuationBlockID = s.continuationBlockID ∧ s'.peer.pc = .idle ∧
      Flow s' [] [] [] inv asks bids := by
  obtain ⟨hon, hcont, -, asked, wanted, heq, hflow⟩ := h.goOn ht (by rw [hpc]; trivial)
    (by simp) List.nodup_nil (fun hne => absurd rfl hne) hs
  obtain ⟨rfl, rfl⟩ := List.append_eq_nil_iff.mp heq
  have hrun := h.peer.run_filling_nil hpc s.globalInflightQueue
    (s.answers crypto (s.peer.localDownloadQueue.peek.getD 0) none now)
  obtain rfl := Option.some.inj (hs.symm.trans (goOn_eq (by simp [hpc]) hrun))
  exact ⟨hon, hcont, rfl, hflow⟩

theorem Pc.going_of_idle_or_filling {pc : Pc} (h : pc = .idle ∨ pc = .filling) : pc.Going := by
  rcases h with rfl | rfl <;> trivial

variable {l : SessionEvent}

/-- **A request is on the way.** -/
theorem Link.step_asked (h : Link crypto prune target B T n₀ d s k) {a : Nat} {ids : List BlockID}
    (ha : a < k) (hpc : s.peer.pc = .idle ∨ s.peer.pc = .filling)
    (hflow : Flow s [] [] [] [] [.findCommonAncestor ids] [])
    (hanswer : Peer.onFindCommonAncestors s.remote ids =
      some (between d (a + 1) (a + 1 + maxBlocksPerInv)).ids)
    (hs : s.step crypto prune l = some s') :
    Lowers crypto prune target B T n₀ d s s' (d.length - k) (4 * (d.length - a) + 3) := by
  have henabled := enabled_of_step hs
  cases l with
  | receive ibd now => exact absurd hflow.bids henabled.2.2
  | nextInv now => exact absurd hflow.inv henabled.2
  | goOn now =>
    obtain ⟨hon, -, hidle, hflow'⟩ := hflow.goOn_filling h.tidy (hpc.resolve_left henabled) hs
    exact h.lowers_same hon (.asked ha (.inl hidle) hflow' (hon.remote ▸ hanswer))
  | serve =>
    obtain ⟨hnode, hremote, htidy, hpc', hnext⟩ :=
      hflow.serve_findCommonAncestor h.tidy hanswer hs
    rw [← hpc'] at hpc
    have h' := h.of_eq hnode hremote htidy
    have hmin : between d (a + 1) (min d.length (a + 1 + maxBlocksPerInv)) =
        between d (a + 1) (a + 1 + maxBlocksPerInv) := between_min
    generalize htop : min d.length (a + 1 + maxBlocksPerInv) = top at hmin
    rw [← hmin] at hnext
    have hle : top ≤ d.length := by omega
    by_cases hlt : a + 1 < top
    · -- the last ID is kept
      obtain ⟨x, hx⟩ : ∃ x, blockAt d (top - 1) = some x := exists_blockAt_of_lt (by omega)
      have hlast : (between d (a + 1) top).ids.getLast? = some x.1 := by
        rw [Chain.ids, List.getLast?_map, getLast_between hlt hle, hx]
        rfl
      rw [hlast] at hnext
      obtain ⟨hcont, hflow'⟩ := hnext
      refine h'.lowers (.answered ha htop.symm hlt hpc hflow' fun y hy => ?_)
        (by split_ifs <;> omega)
      rw [hcont, Option.some.inj (hy.symm.trans hx)]
    · -- there is nothing above
      rw [between_eq_nil (by omega)] at hnext
      have hk : k = d.length := by
        have := h.le
        have : maxBlocksPerInv = 500 := rfl
        omega
      exact h'.lowers (.done hk hnext (Pc.going_of_idle_or_filling hpc)) (by omega)

/-- **The answer is on the way.** -/
theorem Link.step_answered (h : Link crypto prune target B T n₀ d s k) {a top : Nat} (ha : a < k)
    (htop : top = min d.length (a + 1 + maxBlocksPerInv)) (hlt : a + 1 < top)
    (hpc : s.peer.pc = .idle ∨ s.peer.pc = .filling)
    (hflow : Flow s [] [] [] [] [] [.invBlock (between d (a + 1) top).ids])
    (hlast : Continues d s top) (hs : s.step crypto prune l = some s') :
    Lowers crypto prune target B T n₀ d s s' (d.length - max k top)
      (if top ≤ k then 4 * (d.length - a) + 2 else 4 * d.length + 10) := by
  have henabled := enabled_of_step hs
  cases l with
  | receive ibd now =>
    obtain ⟨hnode, hremote, htidy, hcont, hidle, hflow'⟩ := hflow.receive_inv h.tidy henabled.1 hs
    have hlen : (between d (a + 1) top).ids.length = top - (a + 1) := by
      rw [Chain.ids, List.length_map, length_between (by omega)]
    have hitems : invItems d (a + 1) (a + 1) top = (between d (a + 1) top).ids.zipIdx.map
        fun (id, i) => (id, (i : Int), ((top - (a + 1) : Nat) : Int)) := by
      rw [invItems, Nat.sub_self]
    rw [hlen, ← hitems] at hflow'
    exact (h.of_eq hnode hremote htidy).lowers (.reading htop le_rfl hlt ha hidle hflow'
      fun x hx => hcont.trans (hlast x hx)) (by split_ifs <;> omega)
  | nextInv now => exact absurd hflow.inv henabled.2
  | goOn now =>
    obtain ⟨hon, hcont, hidle, hflow'⟩ := hflow.goOn_filling h.tidy (hpc.resolve_left henabled) hs
    exact h.lowers_same hon (.answered ha htop hlt (.inl hidle) hflow' fun x hx =>
      hcont.trans (hlast x hx))
  | serve => exact absurd hflow.asks henabled

section Reading

variable {a j top : Nat}

/-- The next block of the answer is known. -/
theorem Link.reading_known (h : Link crypto prune target B T n₀ d s k)
    (hset : Setting crypto prune target B T)
    (htop : top = min d.length (a + 1 + maxBlocksPerInv)) (hj : a + 1 ≤ j) (hlt : j < top)
    (hknown : j < k) (hpc : s.peer.pc = .idle)
    (hflow : Flow s [] [] [] (invItems d (a + 1) j top) [] []) (hlast : Continues d s top)
    (hs : s.step crypto prune (.nextInv now) = some s') :
    Lowers crypto prune target B T n₀ d s s' (d.length - max k top)
      (if top ≤ k then 4 * (d.length - a) + 1 else 4 * d.length + 9) := by
  have hmax : maxBlocksPerInv = 500 := rfl
  have hkle := h.le
  have hlength : ((top - (a + 1) : Nat) : Int) ≤ maxBlocksPerInv := by omega
  obtain ⟨x, hx⟩ : ∃ x, blockAt d j = some x := exists_blockAt_of_lt (by omega)
  rw [invItems_cons hx hj hlt] at hflow
  have hbranch : s.node.ledger.getBranchType x.1 ≠ .unknown :=
    fun hunknown => not_le.mpr hknown ((h.unknown_iff hset hx).mp hunknown)
  by_cases hend : j + 1 = top
  · rw [invItems_self _ (by omega)] at hflow
    by_cases hone : top = a + 1 + 1
    · -- the only block, and the requester knows all
      obtain ⟨hon, -, hidle, hflow'⟩ := hflow.nextInv_known h.tidy hpc hlength hbranch
        (by omega) hs
      exact (h.onward hon).lowers (.done (by omega) hflow' (by rw [hidle]; trivial))
        (by split_ifs <;> omega)
    · -- the next request starts from the last block
      obtain ⟨n, rfl⟩ : ∃ n, j = n + 1 := ⟨j - 1, by omega⟩
      obtain ⟨ids, hids, hanswer⟩ := h.request_from hset hx hknown
      obtain ⟨hon, hidle, hflow'⟩ := hflow.nextInv_last h.tidy hpc hlength hbranch
        ⟨by omega, by omega⟩ hids hs
      exact (h.onward hon).lowers (.asked hknown (.inl hidle) hflow' (hon.remote ▸ hanswer))
        (by split_ifs <;> omega)
  · obtain ⟨hon, hcont, hidle, hflow'⟩ := hflow.nextInv_known h.tidy hpc hlength hbranch
      (by omega) hs
    exact h.lowers_same hon (.reading htop (by omega) (by omega) hknown hidle hflow'
      fun y hy => hcont.trans (hlast y hy))

/-- The first unknown block of the answer is the next one of the chain. -/
theorem Link.reading_unknown (h : Link crypto prune target B T n₀ d s k)
    (hset : Setting crypto prune target B T)
    (htop : top = min d.length (a + 1 + maxBlocksPerInv)) (hk : a + 1 ≤ k) (hlt : k < top)
    (hpc : s.peer.pc = .idle) (hflow : Flow s [] [] [] (invItems d (a + 1) k top) [] [])
    (hlast : Continues d s top) (hs : s.step crypto prune (.nextInv now) = some s') :
    Lowers crypto prune target B T n₀ d s s' (d.length - max k top)
      (if top ≤ k then 4 * (d.length - a) + 1 else 4 * d.length + 9) := by
  have hmax : maxBlocksPerInv = 500 := rfl
  have hlength : ((top - (a + 1) : Nat) : Int) ≤ maxBlocksPerInv := by omega
  obtain ⟨x, hx⟩ : ∃ x, blockAt d k = some x := exists_blockAt_of_lt (by omega)
  rw [invItems_cons hx hk hlt] at hflow
  obtain ⟨hon, hcont, hfilling, hflow'⟩ := hflow.nextInv_unknown h.tidy hpc hlength
    ((h.unknown_iff hset hx).mpr le_rfl) (by simp [Chain.ids]) (by decide) hs
  have hsplit : [] ++ ([] ++ ([] ++ [x]) ++ between d (k + 1) top) = between d k top := by
    rw [between_cons hx hlt]
    rfl
  refine (h.onward hon).lowers (.loading ⟨hsplit, hlt.le, by omega, by omega,
    map_fst_invItems _ _ _, ?_, hflow', by rw [hfilling]; trivial,
    .inl ⟨by simp, rfl, fun y hy => hcont.trans (hlast y hy)⟩⟩) ?_
  · intro i hi
    obtain ⟨-, -, rfl⟩ := List.mem_map.mp hi
    exact hlength
  · split_ifs <;> omega

/-- **The answer is read.** -/
theorem Link.step_reading (h : Link crypto prune target B T n₀ d s k)
    (hset : Setting crypto prune target B T)
    (htop : top = min d.length (a + 1 + maxBlocksPerInv)) (hj : a + 1 ≤ j) (hlt : j < top)
    (hk : j ≤ k) (hpc : s.peer.pc = .idle)
    (hflow : Flow s [] [] [] (invItems d (a + 1) j top) [] []) (hlast : Continues d s top)
    (hs : s.step crypto prune l = some s') :
    Lowers crypto prune target B T n₀ d s s' (d.length - max k top)
      (if top ≤ k then 4 * (d.length - a) + 1 else 4 * d.length + 9) := by
  have henabled := enabled_of_step hs
  obtain ⟨x, hx⟩ : ∃ x, blockAt d j = some x := exists_blockAt_of_lt (by omega)
  have hinv : s.inv ≠ [] := by
    rw [hflow.inv, invItems_cons hx hj hlt]
    exact List.cons_ne_nil _ _
  cases l with
  | receive ibd now => exact absurd henabled.2.1 hinv
  | goOn now => exact absurd hpc henabled
  | serve => exact absurd hflow.asks henabled
  | nextInv now =>
    rcases hk.lt_or_eq with hknown | rfl
    · exact h.reading_known hset htop hj hlt hknown hpc hflow hlast hs
    · exact h.reading_unknown hset htop hj hlt hpc hflow hlast hs

end Reading

/-- Of blocks with different IDs just the last one has the ID of the last. -/
theorem eq_nil_of_getLast {got rest : Chain} {z : BlockID × Block}
    (hnd : (Chain.ids (got ++ x :: rest)).Nodup)
    (hlast : List.getLast? (got ++ x :: rest) = some z) : x.1 = z.1 ↔ rest = [] := by
  constructor
  · intro hid
    by_contra hne
    rw [show got ++ x :: rest = (got ++ [x]) ++ rest by simp, List.getLast?_append_of_ne_nil _ hne]
      at hlast
    have hmem : z ∈ rest := List.mem_of_getLast? hlast
    have hx : x.1 ∉ rest.map Prod.fst := by
      rw [Chain.ids, List.map_append, List.nodup_append, List.map_cons] at hnd
      exact (List.nodup_cons.mp hnd.2.1).1
    exact hx (hid ▸ List.mem_map_of_mem hmem)
  · rintro rfl
    rw [List.getLast?_concat] at hlast
    rw [Option.some.inj hlast]

section Loading

variable {top : Nat} {got asked wanted rest : Chain} {inv : List (BlockID × Int × Int)}
  {bids : List Bid} {ibd : Bool}

theorem Loading.nodup (hl : Loading d s k top got asked wanted rest inv bids)
    (h : Link crypto prune target B T n₀ d s k) :
    (Chain.ids (got ++ (asked ++ wanted ++ rest))).Nodup :=
  hl.split ▸ nodup_between h.offers.nodup

/-- A block that is downloaded is one of the chain, above those that are known. -/
theorem Loading.exists_blockAt (hl : Loading d s k top got asked wanted rest inv bids)
    {y : BlockID × Block} (hy : y ∈ got ++ (asked ++ wanted ++ rest)) :
    ∃ n, k ≤ n ∧ blockAt d n = some y := by
  rw [hl.split] at hy
  obtain ⟨n, hn, -, hat⟩ := of_mem_between hy
  exact ⟨n, hn, hat⟩

theorem Loading.unknown (hl : Loading d s k top got asked wanted rest inv bids)
    (h : Link crypto prune target B T n₀ d s k) (hset : Setting crypto prune target B T)
    {y : BlockID × Block} (hy : y ∈ got ++ (asked ++ wanted ++ rest)) :
    s.node.ledger.getBranchType y.1 = .unknown := by
  obtain ⟨n, hn, hat⟩ := hl.exists_blockAt hy
  exact (h.unknown_iff hset hat).mpr hn

/-- The handler requests what is wanted. -/
theorem Link.loading_goOn (h : Link crypto prune target B T n₀ d s k)
    (hset : Setting crypto prune target B T)
    (hl : Loading d s k top got asked wanted rest inv bids)
    (hs : s.step crypto prune (.goOn now) = some s') :
    Lowers crypto prune target B T n₀ d s s' (d.length - top) (4 * d.length + 8) := by
  have hnd : (Chain.ids (got ++ asked ++ wanted)).Nodup := by
    refine List.Sublist.nodup (List.Sublist.map Prod.fst ?_) (hl.nodup h)
    rw [List.append_assoc got, ← List.append_assoc got _ rest]
    exact List.sublist_append_left _ _
  obtain ⟨hon, hcont, hgoing, asked', wanted', heq, hflow⟩ := hl.flow.goOn h.tidy hl.going
    (fun y hy => hl.unknown h hset (by simp [hy])) hnd (fun _ => rfl) hs
  exact h.lowers_same hon (.loading { hl with
    split := heq ▸ hl.split
    flow := hflow
    going := hgoing
    behind := heq ▸ hl.behind.of_eq hcont })

/-- The next ID of the message is that of a block which is then wanted. -/
theorem Link.loading_nextInv (h : Link crypto prune target B T n₀ d s k)
    (hset : Setting crypto prune target B T)
    (hl : Loading d s k top got asked wanted rest inv bids) (hidle : s.peer.pc = .idle)
    (hne : inv ≠ []) (hs : s.step crypto prune (.nextInv now) = some s') :
    Lowers crypto prune target B T n₀ d s s' (d.length - top) (4 * d.length + 8) := by
  obtain ⟨⟨id, index, length⟩, inv, rfl⟩ := List.exists_cons_of_ne_nil hne
  have hinv := hl.items
  obtain ⟨x, rest, rfl⟩ : ∃ x rest', rest = x :: rest' :=
    List.exists_cons_of_ne_nil fun hnil => by simp [hnil, Chain.ids] at hinv
  obtain ⟨rfl, hinv'⟩ : id = x.1 ∧ inv.map Prod.fst = Chain.ids rest := by
    simpa [Chain.ids] using hinv
  have hfresh : x.1 ∉ (got ++ asked ++ wanted).ids := by
    have hnd := hl.nodup h
    rw [← List.append_assoc, ← List.append_assoc, Chain.ids, List.map_append, List.nodup_append]
      at hnd
    intro hmem
    exact hnd.2.2 _ hmem _ (by simp) rfl
  have hroom : wanted.length < downloadQueueMax := by
    have hlen := congrArg List.length hl.split
    rw [length_between hl.top_le] at hlen
    simp only [List.length_append, List.length_cons] at hlen
    have hsize := hl.size
    have hmax : maxBlocksPerInv = 500 := rfl
    simp only [downloadQueueMax]
    omega
  obtain ⟨hon, hcont, hfilling, hflow⟩ := hl.flow.nextInv_unknown h.tidy hidle
    (hl.length _ List.mem_cons_self) (hl.unknown h hset (by simp)) hfresh hroom hs
  have heq : asked ++ wanted ++ x :: rest = asked ++ (wanted ++ [x]) ++ rest := by simp
  exact h.lowers_same hon (.loading { hl with
    split := heq ▸ hl.split
    items := hinv'
    length := fun i hi => hl.length i (List.mem_cons_of_mem _ hi)
    flow := hflow
    going := by rw [hfilling]; trivial
    behind := heq ▸ hl.behind.of_eq hcont })

/-- The responder waits for the request for just the last block. -/
theorem Loading.last_iff (hl : Loading d s k top got (x :: asked) wanted rest inv bids)
    (h : Link crypto prune target B T n₀ d s k) (hlast : Continues d s top) :
    x.1 = s.continuationBlockID ↔ asked ++ wanted ++ rest = [] := by
  have hsplit : got ++ x :: (asked ++ wanted ++ rest) = between d k top := by
    rw [← hl.split]
    simp
  have htop := hl.top_le
  have hlt : k < top := by
    by_contra hle
    rw [between_eq_nil (by omega)] at hsplit
    simp at hsplit
  obtain ⟨z, hz⟩ : ∃ z, blockAt d (top - 1) = some z := exists_blockAt_of_lt (by omega)
  rw [hlast z hz]
  exact eq_nil_of_getLast (hsplit ▸ nodup_between h.offers.nodup)
    (by rw [hsplit, getLast_between hlt htop, hz])

/-- A block is sent, and with the last one the ID of the tip. -/
theorem Link.loading_serve (h : Link crypto prune target B T n₀ d s k)
    (hl : Loading d s k top got asked wanted rest inv bids) (hne : asked ≠ [])
    (hs : s.step crypto prune .serve = some s') :
    Lowers crypto prune target B T n₀ d s s' (d.length - top) (4 * d.length + 8) := by
  obtain ⟨x, asked, rfl⟩ := List.exists_cons_of_ne_nil hne
  obtain ⟨-, rfl, hlast⟩ := hl.behind.resolve_right fun hnil => by simp at hnil
  obtain ⟨n, -, hx⟩ := hl.exists_blockAt (y := x) (by simp)
  obtain ⟨t, height, ht, htip⟩ := h.offers.chainTip
  obtain ⟨hon, hpc, hnext⟩ := hl.flow.serve h.tidy (h.offers.getBlock hx) htip hs
  have hiff := hl.last_iff h hlast
  have hsplit : (got ++ [x]) ++ (asked ++ wanted ++ rest) = between d k top := by
    rw [← hl.split]
    simp
  split_ifs at hnext with hend
  · obtain ⟨hcont, hflow⟩ := hnext
    exact h.lowers_same hon (.loading { hl with
      split := hsplit
      flow := hflow
      going := hpc ▸ hl.going
      behind := .inr ⟨hiff.mp hend, hcont, t, ht, rfl⟩ })
  · obtain ⟨hcont, hflow⟩ := hnext
    exact h.lowers_same hon (.loading { hl with
      split := hsplit
      flow := hflow
      going := hpc ▸ hl.going
      behind := .inl ⟨mt hiff.mpr hend, rfl, fun y hy => hcont.trans (hlast y hy)⟩ })

/-- With all blocks in hand the ID of the tip is next. -/
theorem Link.loading_receive_tip (h : Link crypto prune target B T n₀ d s k)
    (hl : Loading d s k top [] asked wanted [] [] bids) (hidle : s.peer.pc = .idle)
    (hne : s.bids ≠ []) (hs : s.step crypto prune (.receive ibd now) = some s') :
    Lowers crypto prune target B T n₀ d s s' (d.length - top) (4 * d.length + 8) := by
  obtain ⟨hnil, hcont, t, ht, rfl⟩ := hl.behind.resolve_left fun hleft =>
    hne (hl.flow.bids.trans hleft.2.1)
  obtain ⟨hnil, -⟩ := List.append_eq_nil_iff.mp hnil
  obtain ⟨rfl, rfl⟩ := List.append_eq_nil_iff.mp hnil
  have hkt : k = top := by
    have hlen := congrArg List.length hl.split
    rw [length_between hl.top_le] at hlen
    simp only [List.append_nil, List.length_nil] at hlen
    have := hl.le
    omega
  obtain ⟨hnode, hremote, htidy, hcont', hidle', hflow⟩ := hl.flow.receive_inv h.tidy hidle hs
  exact (h.of_eq hnode hremote htidy).lowers (.prompted ht hidle' hflow (hcont'.trans hcont))
    (by omega)

/-- The next block arrives and is accepted. -/
theorem Link.loading_receive_block (h : Link crypto prune target B T n₀ d s k)
    (hset : Setting crypto prune target B T)
    (hl : Loading d s k top (x :: got) asked wanted rest inv bids) (hidle : s.peer.pc = .idle)
    (hinv : s.inv = []) (htimely : s.Timely (.receive ibd now))
    (hs : s.step crypto prune (.receive ibd now) = some s') :
    Lowers crypto prune target B T n₀ d s s' (d.length - top) (4 * d.length + 8) := by
  obtain rfl : inv = [] := hl.flow.inv.symm.trans hinv
  obtain ⟨hx, hlt, hrest⟩ := of_between_eq_cons hl.split.symm
  obtain ⟨hlate, hibd⟩ := htimely x.1 x.2 (by rw [hl.flow.bids]; rfl)
  obtain ⟨hok, hrun, hknows, hlearned⟩ := h.accepts hset hx hlate s.addr
  have hsome : (s.node.blockStore.getBlockHeader x.2.header.previous).isSome = true := by
    obtain ⟨n, rfl⟩ : ∃ n, k = n + 1 := ⟨k - 1, by have := h.pos; omega⟩
    exact (h.isSome_parent hset hx).mpr (Nat.lt_succ_self n)
  obtain ⟨htidy, hload, hremote, hcont, hflow, hnext⟩ := hl.flow.receive_block h.tidy hidle
    (h.offers.ancestry.id_eq x (mem_of_blockAt hx)) hibd (fun _ => hok) hs
  rw [if_pos hsome] at hnext
  obtain ⟨hnode, hpc⟩ := hnext
  have htop := hl.top_le
  have hsize := hl.size
  refine ⟨k + 1, _, _, ⟨hnode ▸ hrun, hremote ▸ h.offers, hnode ▸ hknows, hnode ▸ hlearned,
    by omega, by omega, htidy⟩, .loading { hl with
      split := hrest
      le := hlt
      size := by omega
      flow := hflow
      going := by rw [hpc]; rfl
      behind := hl.behind.of_eq hcont }, .inr ⟨rfl, .inr ⟨rfl, hload⟩⟩⟩

/-- **The blocks are downloaded.** -/
theorem Link.step_loading (h : Link crypto prune target B T n₀ d s k)
    (hset : Setting crypto prune target B T)
    (hl : Loading d s k top got asked wanted rest inv bids) (htimely : s.Timely l)
    (hs : s.step crypto prune l = some s') :
    Lowers crypto prune target B T n₀ d s s' (d.length - top) (4 * d.length + 8) := by
  have henabled := enabled_of_step hs
  cases l with
  | goOn now => exact h.loading_goOn hset hl hs
  | nextInv now =>
    exact h.loading_nextInv hset hl henabled.1 (hl.flow.inv ▸ henabled.2) hs
  | serve =>
    refine h.loading_serve hl (fun hnil => henabled ?_) hs
    rw [hl.flow.asks, hnil]
    rfl
  | receive ibd now =>
    obtain ⟨hidle, hnone, hsome⟩ := henabled
    cases got with
    | nil =>
      obtain rfl : inv = [] := hl.flow.inv.symm.trans hnone
      obtain rfl : rest = [] := by simpa [Chain.ids] using hl.items.symm
      exact h.loading_receive_tip hl hidle hsome hs
    | cons x got => exact h.loading_receive_block hset hl hidle hnone htimely hs

end Loading

/-- **The ID of the tip is in hand.** -/
theorem Link.step_prompted (h : Link crypto prune target B T n₀ d s k)
    (hset : Setting crypto prune target B T) {t : BlockID × Block}
    (ht : blockAt d (d.length - 1) = some t) (hpc : s.peer.pc = .idle)
    (hflow : Flow s [] [] [] [(t.1, 0, 1)] [] []) (hlast : s.continuationBlockID = 0)
    (hs : s.step crypto prune l = some s') :
    Lowers crypto prune target B T n₀ d s s' (d.length - k) (4 * d.length + 7) := by
  have henabled := enabled_of_step hs
  have hle := h.le
  have hlen := blockAt_lt ht
  have hone : (1 : Int) ≤ maxBlocksPerInv := by decide
  cases l with
  | receive ibd now => exact absurd (hflow.inv.symm.trans henabled.2.1) (List.cons_ne_nil _ _)
  | goOn now => exact absurd hpc henabled
  | serve => exact absurd hflow.asks henabled
  | nextInv now =>
    by_cases hk : k < d.length
    · obtain ⟨hon, hcont, hfilling, hflow'⟩ := hflow.nextInv_unknown h.tidy hpc hone
        ((h.unknown_iff hset ht).mpr (by omega)) (by simp [Chain.ids]) (by decide) hs
      exact (h.onward hon).lowers (.fetching ht hk rfl hflow' (by rw [hfilling]; trivial)
        (hcont.trans hlast)) (by omega)
    · have hbranch : s.node.ledger.getBranchType t.1 ≠ .unknown := by
        intro hunknown
        have := (h.unknown_iff hset ht).mp hunknown
        omega
      obtain ⟨hon, -, hidle, hflow'⟩ := hflow.nextInv_known h.tidy hpc hone hbranch (by omega) hs
      exact (h.onward hon).lowers (.done (by omega) hflow' (by rw [hidle]; trivial)) (by omega)

section Fetching

variable {t : BlockID × Block} {got asked wanted : Chain} {ibd : Bool}

/-- The handler requests the tip. -/
theorem Link.fetching_goOn (h : Link crypto prune target B T n₀ d s k)
    (hset : Setting crypto prune target B T) (ht : blockAt d (d.length - 1) = some t)
    (hk : k < d.length) (hsplit : got ++ (asked ++ wanted) = [t])
    (hflow : Flow s got asked wanted [] [] []) (hgoing : s.peer.pc.Going)
    (hlast : s.continuationBlockID = 0) (hs : s.step crypto prune (.goOn now) = some s') :
    Lowers crypto prune target B T n₀ d s s' (d.length - k) (4 * d.length + 6) := by
  have hnew : ∀ y ∈ wanted, s.node.ledger.getBranchType y.1 = .unknown := by
    intro y hy
    have hmem : y ∈ [t] := hsplit ▸ (by simp [hy])
    rw [List.mem_singleton.mp hmem]
    exact (h.unknown_iff hset ht).mpr (by omega)
  have hnd : (got ++ asked ++ wanted).ids.Nodup := by
    rw [List.append_assoc, hsplit]
    exact List.nodup_singleton _
  obtain ⟨hon, hcont, hgoing', asked', wanted', heq, hflow'⟩ :=
    hflow.goOn h.tidy hgoing hnew hnd (fun _ => rfl) hs
  exact h.lowers_same hon (.fetching ht hk (heq ▸ hsplit) hflow' hgoing' (hcont.trans hlast))

/-- The tip is sent.  Its ID is not the one that the responder waits for, so nothing follows. -/
theorem Link.fetching_serve (h : Link crypto prune target B T n₀ d s k)
    (hset : Setting crypto prune target B T) (ht : blockAt d (d.length - 1) = some t)
    (hk : k < d.length) (hsplit : got ++ (asked ++ wanted) = [t])
    (hflow : Flow s got asked wanted [] [] []) (hgoing : s.peer.pc.Going)
    (hlast : s.continuationBlockID = 0) (hne : asked ≠ [])
    (hs : s.step crypto prune .serve = some s') :
    Lowers crypto prune target B T n₀ d s s' (d.length - k) (4 * d.length + 6) := by
  obtain ⟨x, asked, rfl⟩ := List.exists_cons_of_ne_nil hne
  obtain ⟨rfl, rfl, hnil⟩ : got = [] ∧ x = t ∧ asked ++ wanted = [] := by
    cases got with
    | nil => simpa using hsplit
    | cons y got => simp at hsplit
  obtain ⟨t, height, -, htip⟩ := h.offers.chainTip
  obtain ⟨hon, hpc, hnext⟩ := hflow.serve h.tidy (h.offers.getBlock ht) htip hs
  rw [if_neg (by rw [hlast]; exact h.offers.ne_null hset ht)] at hnext
  obtain ⟨hcont, hflow'⟩ := hnext
  exact h.lowers_same hon (.fetching ht hk (by rw [hnil]; rfl) hflow' (hpc ▸ hgoing)
    (hcont.trans hlast))

/-- The tip arrives.  It is the last block that was missing, or an orphan. -/
theorem Link.fetching_receive (h : Link crypto prune target B T n₀ d s k)
    (hset : Setting crypto prune target B T) (ht : blockAt d (d.length - 1) = some t)
    (hk : k < d.length) (hflow : Flow s [t] [] [] [] [] []) (hidle : s.peer.pc = .idle)
    (htimely : s.Timely (.receive ibd now))
    (hs : s.step crypto prune (.receive ibd now) = some s') :
    Lowers crypto prune target B T n₀ d s s' (d.length - k) (4 * d.length + 6) := by
  obtain ⟨hlate, hibd⟩ := htimely t.1 t.2 (by rw [hflow.bids]; rfl)
  obtain ⟨n, hn⟩ : ∃ n, d.length - 1 = n + 1 := ⟨d.length - 2, by have := h.pos; omega⟩
  rw [hn] at ht
  have hparent := h.isSome_parent hset ht
  have haccepts : n < k → k = n + 1 := fun _ => by omega
  obtain ⟨htidy, -, hremote, -, hflow', hnext⟩ := hflow.receive_block h.tidy hidle
    (h.offers.ancestry.id_eq t (mem_of_blockAt ht)) hibd
    (fun hsome => (h.accepts hset (haccepts (hparent.mp hsome) ▸ ht) hlate s.addr).1) hs
  split_ifs at hnext with hsome
  · have hkn := haccepts (hparent.mp hsome)
    obtain ⟨-, hrun, hknows, hlearned⟩ := h.accepts hset (hkn ▸ ht) hlate s.addr
    obtain ⟨hnode, hpc⟩ := hnext
    have h' : Link crypto prune target B T n₀ d s' (k + 1) :=
      ⟨hnode ▸ hrun, hremote ▸ h.offers, hnode ▸ hknows, hnode ▸ hlearned, by omega, by omega,
        htidy⟩
    exact h'.lowers (.done (by omega) hflow' (by rw [hpc]; rfl)) (by omega)
  · obtain ⟨hnode, hpc⟩ := hnext
    exact (h.of_eq hnode hremote htidy).lowers (.orphaned hk (.inl hpc) hflow') (by omega)

/-- **The tip is downloaded.** -/
theorem Link.step_fetching (h : Link crypto prune target B T n₀ d s k)
    (hset : Setting crypto prune target B T) (ht : blockAt d (d.length - 1) = some t)
    (hk : k < d.length) (hsplit : got ++ (asked ++ wanted) = [t])
    (hflow : Flow s got asked wanted [] [] []) (hgoing : s.peer.pc.Going)
    (hlast : s.continuationBlockID = 0) (htimely : s.Timely l)
    (hs : s.step crypto prune l = some s') :
    Lowers crypto prune target B T n₀ d s s' (d.length - k) (4 * d.length + 6) := by
  have henabled := enabled_of_step hs
  cases l with
  | nextInv now => exact absurd hflow.inv henabled.2
  | goOn now => exact h.fetching_goOn hset ht hk hsplit hflow hgoing hlast hs
  | serve =>
    refine h.fetching_serve hset ht hk hsplit hflow hgoing hlast (fun hnil => henabled ?_) hs
    rw [hflow.asks, hnil]
    rfl
  | receive ibd now =>
    obtain ⟨hidle, -, hsome⟩ := henabled
    obtain ⟨x, got, rfl⟩ : ∃ x got', got = x :: got' := by
      refine List.exists_cons_of_ne_nil ?_
      rintro rfl
      exact hsome hflow.bids
    obtain ⟨rfl, rfl, rfl, rfl⟩ : x = t ∧ got = [] ∧ asked = [] ∧ wanted = [] := by
      simpa using hsplit
    exact h.fetching_receive hset ht hk hflow hidle htimely hs

end Fetching

/-- **The tip was an orphan.** -/
theorem Link.step_orphaned (h : Link crypto prune target B T n₀ d s k)
    (hset : Setting crypto prune target B T) {id : BlockID} (hk : k < d.length)
    (hpc : s.peer.pc = .dropping id .locate ∨ s.peer.pc = .dropped id .locate)
    (hflow : Flow s [] [] [] [] [] []) (hs : s.step crypto prune l = some s') :
    Lowers crypto prune target B T n₀ d s s' (d.length - k) (4 * d.length + 5) := by
  have henabled := enabled_of_step hs
  cases l with
  | receive ibd now => exact absurd hflow.bids henabled.2.2
  | nextInv now => exact absurd hflow.inv henabled.2
  | serve => exact absurd hflow.asks henabled
  | goOn now =>
    rcases hpc with hpc | hpc
    · obtain ⟨hon, -, hpc', hflow'⟩ := hflow.goOn_dropping h.tidy hpc hs
      exact h.lowers_same hon (.orphaned hk (.inr hpc') hflow')
    · obtain ⟨ids, a, hids, ha, hanswer⟩ := h.request hset
      obtain ⟨hnode, hremote, htidy, hfilling, hflow'⟩ := hflow.goOn_locate h.tidy hpc hids hs
      exact (h.of_eq hnode hremote htidy).lowers
        (.asked ha (.inr hfilling) hflow' (hremote ▸ hanswer)) (by omega)

/-- **Nothing is left to download.** -/
theorem Link.step_done (h : Link crypto prune target B T n₀ d s k) (hk : k = d.length)
    (hflow : Flow s [] [] [] [] [] []) (hgoing : s.peer.pc.Going)
    (hs : s.step crypto prune l = some s') : Lowers crypto prune target B T n₀ d s s' 0 0 := by
  have henabled := enabled_of_step hs
  cases l with
  | receive ibd now => exact absurd hflow.bids henabled.2.2
  | nextInv now => exact absurd hflow.inv henabled.2
  | serve => exact absurd hflow.asks henabled
  | goOn now =>
    obtain ⟨hon, -, hgoing', asked, wanted, heq, hflow'⟩ := hflow.goOn h.tidy hgoing
      (by simp) List.nodup_nil (fun hne => absurd rfl hne) hs
    obtain ⟨rfl, rfl⟩ := List.append_eq_nil_iff.mp heq
    exact h.lowers_same hon (.done hk hflow' hgoing')

/-- **Every step goes down.** -/
theorem Phase.step {a b : Nat} (hphase : Phase d s k a b)
    (h : Link crypto prune target B T n₀ d s k) (hset : Setting crypto prune target B T)
    (htimely : s.Timely l) (hs : s.step crypto prune l = some s') :
    Lowers crypto prune target B T n₀ d s s' a b := by
  cases hphase with
  | asked ha hpc hflow hanswer => exact h.step_asked ha hpc hflow hanswer hs
  | answered ha htop hlt hpc hflow hlast => exact h.step_answered ha htop hlt hpc hflow hlast hs
  | reading htop hj hlt hk hpc hflow hlast =>
    exact h.step_reading hset htop hj hlt hk hpc hflow hlast hs
  | loading hloading => exact h.step_loading hset hloading htimely hs
  | prompted ht hpc hflow hlast => exact h.step_prompted hset ht hpc hflow hlast hs
  | fetching ht hk hsplit hflow hgoing hlast =>
    exact h.step_fetching hset ht hk hsplit hflow hgoing hlast htimely hs
  | orphaned hk hpc hflow => exact h.step_orphaned hset hk hpc hflow hs
  | done hk hflow hgoing => exact h.step_done hk hflow hgoing hs

/-! ### The end -/

/-- A step that is enabled is possible, as long as the peer is not closing. -/
theorem exists_step_of_enabled (crypto : Crypto) (prune : Bool) (hpc : s.peer.pc ≠ .closing)
    (h : s.Enabled l) : ∃ s', s.step crypto prune l = some s' := by
  cases l with
  | receive ibd now =>
    obtain ⟨hidle, hinv, hbids⟩ := h
    obtain ⟨bid, bids, hbids⟩ := List.exists_cons_of_ne_nil hbids
    cases bid with
    | invBlock ids => exact ⟨_, by simp only [step, hidle, hinv, hbids]; rfl⟩
    | block id block =>
      cases block with
      | none => exact ⟨_, by simp only [step, hidle, hinv, hbids]; rfl⟩
      | some block => exact ⟨_, by simp only [step, hidle, hinv, hbids]; rfl⟩
  | nextInv now =>
    obtain ⟨hidle, hinv⟩ := h
    obtain ⟨i, inv, hinv⟩ := List.exists_cons_of_ne_nil hinv
    exact ⟨_, by simp only [step, hidle, hinv]; rfl⟩
  | goOn now =>
    have hrun (a : Answers) : ∃ q peer, s.peer.run s.globalInflightQueue a = (q, some peer) := by
      unfold DownloadPeer.run
      repeat' split
      all_goals first
        | exact ⟨_, _, rfl⟩
        | exact absurd ‹_› hpc
    obtain ⟨q, peer, hrun⟩ :=
      hrun (s.answers crypto (s.peer.localDownloadQueue.peek.getD 0) none now)
    exact ⟨_, goOn_eq h hrun⟩
  | serve =>
    obtain ⟨ask, asks, hasks⟩ := List.exists_cons_of_ne_nil h
    cases ask with
    | getBlock id => exact ⟨_, by simp only [step, hasks]; rfl⟩
    | findCommonAncestor ids => exact ⟨_, by simp only [step, hasks]; rfl⟩

variable (crypto prune) in
/-- A step is possible. -/
def CanStep (s : Session) : Prop :=
  ∃ l, s.Timely l ∧ ∃ s', s.step crypto prune l = some s'

theorem CanStep.not_stuck (h : s.CanStep crypto prune) :
    ¬ Stuck (Session.step crypto prune) Timely s := by
  intro hstuck
  obtain ⟨l, htimely, s', hs⟩ := h
  rw [hstuck l htimely] at hs
  exact absurd hs (by simp)

/-- A handler that is running goes on. -/
theorem canStep_goOn (hpc : s.peer.pc ≠ .closing) (hne : s.peer.pc ≠ .idle) :
    s.CanStep crypto prune :=
  ⟨.goOn 0, trivial, exists_step_of_enabled crypto prune hpc hne⟩

/-- A request that is on the way is answered. -/
theorem canStep_serve (hgoing : s.peer.pc.Going) (hasks : s.asks ≠ []) : s.CanStep crypto prune :=
  ⟨.serve, trivial, exists_step_of_enabled crypto prune hgoing.ne_closing hasks⟩

/-- A message in hand is read. -/
theorem canStep_nextInv (hidle : s.peer.pc = .idle) (hinv : s.inv ≠ []) :
    s.CanStep crypto prune :=
  ⟨.nextInv 0, trivial, exists_step_of_enabled crypto prune (by simp [hidle]) ⟨hidle, hinv⟩⟩

/-- IDs that are on the way arrive. -/
theorem canStep_receive_inv (hidle : s.peer.pc = .idle) (hinv : s.inv = []) {ids : List BlockID}
    {bids : List Bid} (hbids : s.bids = .invBlock ids :: bids) : s.CanStep crypto prune := by
  refine ⟨.receive true 0, fun id block hhead => ?_, exists_step_of_enabled crypto prune
    (by simp [hidle]) ⟨hidle, hinv, by simp [hbids]⟩⟩
  rw [hbids] at hhead
  exact absurd hhead (by simp)

/-- A block of the chain that is on the way arrives, in time if the clock is right. -/
theorem Link.canStep_receive_block (h : Link crypto prune target B T n₀ d s k)
    (hidle : s.peer.pc = .idle) (hinv : s.inv = []) (hx : blockAt d n = some x) (hn : k ≤ n)
    {bids : List Bid} (hbids : s.bids = .block x.1 (some x.2) :: bids) :
    s.CanStep crypto prune := by
  refine ⟨.receive true x.2.header.time, fun id block hhead => ?_, exists_step_of_enabled crypto
    prune (by simp [hidle]) ⟨hidle, hinv, by simp [hbids]⟩⟩
  rw [hbids] at hhead
  cases hhead
  exact ⟨h.offers.le_maxFuture hx (lt_of_lt_of_le h.pos hn), .inl rfl⟩

/-- An idle requester that has requested nothing wants nothing. -/
theorem Flow.wanted_eq_nil {wanted : Chain} {inv : List (BlockID × Int × Int)} {asks : List Ask}
    {bids : List Bid} (h : Flow s [] [] wanted inv asks bids) (hidle : s.peer.pc = .idle) :
    wanted = [] := by
  have hdoing := h.peer
  simp only [DownloadPeer.Doing, hidle] at hdoing
  simpa [Chain.ids, inflightQueueMax] using hdoing.2.2

/-- The requester goes on, or an answer is due, or else all that was requested has been sent. -/
theorem Flow.canStep_or {got asked wanted : Chain} {inv : List (BlockID × Int × Int)}
    {bids : List Bid} (h : Flow s got asked wanted inv [] bids) (hgoing : s.peer.pc.Going) :
    s.CanStep crypto prune ∨ s.peer.pc = .idle ∧ inv = [] ∧ asked = [] := by
  by_cases hidle : s.peer.pc = .idle
  · by_cases hinv : s.inv = []
    · by_cases hasks : s.asks = []
      · refine .inr ⟨hidle, h.inv.symm.trans hinv, ?_⟩
        simpa [h.asks] using hasks
      · exact .inl (canStep_serve hgoing hasks)
    · exact .inl (canStep_nextInv hidle hinv)
  · exact .inl (canStep_goOn hgoing.ne_closing hidle)

theorem Link.canStep_loading (h : Link crypto prune target B T n₀ d s k) {top : Nat}
    {got asked wanted rest : Chain} {inv : List (BlockID × Int × Int)} {bids : List Bid}
    (hl : Loading d s k top got asked wanted rest inv bids) : s.CanStep crypto prune := by
  refine (hl.flow.canStep_or hl.going).elim id ?_
  rintro ⟨hidle, rfl, rfl⟩
  cases got with
  | cons x got =>
    obtain ⟨hx, -⟩ := of_between_eq_cons hl.split.symm
    exact h.canStep_receive_block hidle hl.flow.inv hx le_rfl hl.flow.bids
  | nil =>
    -- with nothing on the way nothing is left, so the ID of the tip is behind
    have hwanted := hl.flow.wanted_eq_nil hidle
    have hrest : rest = [] := by simpa [Chain.ids] using hl.items.symm
    obtain ⟨-, -, t, -, rfl⟩ := hl.behind.resolve_left fun hleft =>
      hleft.1 (by simp [hwanted, hrest])
    exact canStep_receive_inv hidle hl.flow.inv hl.flow.bids

theorem Link.canStep_fetching (h : Link crypto prune target B T n₀ d s k) {t : BlockID × Block}
    {got asked wanted : Chain} (ht : blockAt d (d.length - 1) = some t) (hk : k < d.length)
    (hsplit : got ++ (asked ++ wanted) = [t]) (hflow : Flow s got asked wanted [] [] [])
    (hgoing : s.peer.pc.Going) : s.CanStep crypto prune := by
  refine (hflow.canStep_or hgoing).elim id ?_
  rintro ⟨hidle, -, rfl⟩
  cases got with
  | cons x got =>
    obtain ⟨rfl, -⟩ : x = t ∧ _ := List.cons.inj hsplit
    exact h.canStep_receive_block hidle hflow.inv ht (by omega) hflow.bids
  | nil =>
    rw [hflow.wanted_eq_nil hidle] at hsplit
    exact absurd hsplit (by simp)

/-- In every phase but the last a step is possible. -/
theorem Phase.canStep {a b : Nat} (hphase : Phase d s k a b)
    (h : Link crypto prune target B T n₀ d s k) (hend : ¬ (k = d.length ∧ s.peer.pc = .idle)) :
    s.CanStep crypto prune := by
  cases hphase with
  | asked ha hpc hflow _ =>
    exact canStep_serve (Pc.going_of_idle_or_filling hpc) (by simp [hflow.asks])
  | answered ha htop hlt hpc hflow _ =>
    rcases hpc with hidle | hfilling
    · exact canStep_receive_inv hidle hflow.inv hflow.bids
    · exact canStep_goOn (by simp [hfilling]) (by simp [hfilling])
  | @reading a j top htop hj hlt hk hpc hflow _ =>
    obtain ⟨x, hx⟩ : ∃ x, blockAt d j = some x := exists_blockAt_of_lt (by omega)
    refine canStep_nextInv hpc ?_
    rw [hflow.inv, invItems_cons hx hj hlt]
    exact List.cons_ne_nil _ _
  | loading hloading => exact h.canStep_loading hloading
  | prompted ht hpc hflow _ => exact canStep_nextInv hpc (by simp [hflow.inv])
  | fetching ht hk hsplit hflow hgoing _ => exact h.canStep_fetching ht hk hsplit hflow hgoing
  | orphaned hk hpc hflow =>
    rcases hpc with hpc | hpc
    · exact canStep_goOn (by simp [hpc]) (by simp [hpc])
    · exact canStep_goOn (by simp [hpc]) (by simp [hpc])
  | done hk hflow hgoing =>
    exact canStep_goOn hgoing.ne_closing fun hidle => hend ⟨hk, hidle⟩

/-- **The session ends only when the requester knows the chain.** -/
theorem Phase.end_of_stuck {a b : Nat} (hphase : Phase d s k a b)
    (h : Link crypto prune target B T n₀ d s k)
    (hstuck : Stuck (Session.step crypto prune) Timely s) : k = d.length ∧ s.peer.pc = .idle := by
  by_contra hend
  exact (hphase.canStep h hend).not_stuck hstuck

/-- The session is in a phase of this rank. -/
def Ranked (crypto : Crypto) (prune : Bool) (target : Chain → Res BlockID) (B : Set Block)
    (T : Set Transaction) (n₀ : Processor) (d : Chain) (s : Session) (r : ℕ ×ₗ ℕ ×ₗ ℕ) : Prop :=
  ∃ k a b, Link crypto prune target B T n₀ d s k ∧ Phase d s k a b ∧
    r = toLex (a, toLex (b, s.load))

theorem descends (hset : Setting crypto prune target B T) :
    Descends (Session.step crypto prune) Timely (· < ·)
      (Ranked crypto prune target B T n₀ d) := by
  rintro s r l s' ⟨k, a, b, h, hphase, rfl⟩ htimely hs
  obtain ⟨k', a', b', h', hphase', hlt⟩ := hphase.step h hset htimely hs
  refine ⟨_, ⟨k', a', b', h', hphase', rfl⟩, ?_⟩
  simpa only [Prod.Lex.toLex_lt_toLex] using hlt

/-- A session that has just started. -/
theorem Start.ranked {remotePrune : Bool} (hset : Setting crypto prune target B T)
    (hset' : Setting crypto remotePrune target B T) (hgB : genesisBlock ∈ B)
    (h : Start crypto prune remotePrune B T s) :
    ∃ r, Ranked crypto prune target B T s.node s.remote.mainChain s r := by
  obtain ⟨hnode, hremote, heq⟩ := h
  have hoffers := hset'.offers hgB hremote prune
  obtain ⟨k, hpos, hle, hknows⟩ := hset.exists_knows hnode hoffers.ancestry hoffers.among
  have hpeer : s.peer = .new s.peer.addr := by
    rw [heq]
    rfl
  have htidy : s.Tidy := by
    refine ⟨hpeer ▸ .new _, fun id who hown => ?_, by rw [hpeer]; rfl, by rw [hpeer]; rfl,
      by rw [hpeer]; rfl⟩
    rw [heq] at hown
    obtain ⟨e, he, -⟩ := hown
    exact absurd he List.not_mem_nil
  have hlink : Link crypto prune target B T s.node s.remote.mainChain s k :=
    ⟨hnode, hoffers, hknows, fun id => .inl, hpos, hle, htidy⟩
  obtain ⟨ids, a, hids, ha, hanswer⟩ := hlink.request hset
  refine ⟨_, k, _, _, hlink, .asked ha (.inl ?_) ⟨?_, ?_, ?_, ?_⟩ hanswer, rfl⟩
  · rw [hpeer]
    rfl
  · rw [heq]
    rfl
  · rw [heq]
    show ask crypto s.node (.findCommonAncestor none) = _
    rw [ask, hids]
    rfl
  · rw [heq]
  · rw [hpeer]
    exact ⟨rfl, rfl, .inr rfl⟩

/-- A block has more work than those below it. -/
theorem work_lt_of_ancestry {c : Chain} (h : Ancestry crypto prune target (x :: c))
    (hnull : ∀ y ∈ x :: c, y.1 ≠ genesisBlock.header.previous) :
    ∀ y ∈ c, y.2.header.chainWork.toNat < x.2.header.chainWork.toNat := by
  induction c generalizing x with
  | nil => simp
  | cons p c ih =>
    obtain ⟨hc, hfollows⟩ := h.tail (by simp)
    have hlt := hfollows.work_lt rfl (hnull x List.mem_cons_self)
    exact List.forall_mem_cons.mpr ⟨hlt, fun y hy =>
      (ih hc (fun z hz => hnull z (List.mem_cons_of_mem _ hz)) y hy).trans hlt⟩

/-- A requester that knows the whole chain has it as its main chain, if its own had less work. -/
theorem Link.mainChain_eq (h : Link crypto prune target B T n₀ d s d.length)
    (hset : Setting crypto prune target B T) (hn₀ : Run crypto prune (Call.Among B T) n₀)
    (hless : ∀ t t', n₀.mainChain.head? = some t → d.head? = some t' →
      t.2.header.chainWork.toNat < t'.2.header.chainWork.toNat) : s.node.mainChain = d := by
  obtain ⟨c, K, hs⟩ := hset.settled h.node
  obtain ⟨c₀, K₀, hs₀⟩ := hset.settled hn₀
  rw [hs₀.toPlaced.mainChain_eq] at hless
  rw [hs.toPlaced.mainChain_eq]
  obtain ⟨t, c, rfl⟩ := List.exists_cons_of_ne_nil hs.admitted.ne_nil
  obtain ⟨t₀, c₀, rfl⟩ := List.exists_cons_of_ne_nil hs₀.admitted.ne_nil
  obtain ⟨t', e, rfl⟩ := List.exists_cons_of_ne_nil h.offers.ancestry.ne_nil
  have hknown : ∀ y ∈ t' :: e, s.node.ledger.Known y.1 := by
    intro y hy
    obtain ⟨n, hn⟩ := List.mem_iff_getElem?.mp (List.mem_reverse.mpr hy)
    exact (h.knows n y hn).mpr (blockAt_lt hn)
  have hst := hset.stored_known h.node h.offers.ancestry.id_eq h.offers.among hknown
  have htB : t.2 ∈ insert genesisBlock B ∧ t.1 = t.2.id crypto := by
    obtain ⟨storedAt, hget⟩ := hs.stored t List.mem_cons_self
    obtain ⟨hmem, hid⟩ := h.node.among_stored hget
    exact ⟨hmem, hid.symm⟩
  -- the tip of the requester is the tip of the chain: no other block has so much work
  have htip : t.1 = t'.1 := by
    by_contra hne
    obtain ⟨u, hu⟩ := hs.stored t List.mem_cons_self
    obtain ⟨v, hv⟩ := hst t' List.mem_cons_self
    have hK' := (hs.describes.known_iff _).mp (hknown t' List.mem_cons_self)
    have hle := (hs.best t rfl t'.1 hK' (Ne.symm hne)).work_le hu hv
    rcases h.learned t.1 ((hs.describes.known_iff _).mpr hs.tip_mem) with hold | hnew
    · have hst₀ : Stored n₀.blockStore [t] :=
        hset.stored_known hn₀ (by simpa using htB.2) (by simpa using htB.1) (by simpa using hold)
      have hle₀ : t.2.header.chainWork.toNat ≤ t₀.2.header.chainWork.toNat := by
        by_cases heq : t.1 = t₀.1
        · rw [hst₀.eq_of_fst_eq hs₀.stored List.mem_cons_self List.mem_cons_self heq]
        · obtain ⟨u₀, hu₀⟩ := hs₀.stored t₀ List.mem_cons_self
          obtain ⟨w, hw⟩ := hst₀ t List.mem_cons_self
          exact (hs₀.best t₀ rfl t.1 ((hs₀.describes.known_iff _).mp hold) heq).work_le hu₀ hw
      have := hless t₀ t' rfl rfl
      simp only at hle
      omega
    · obtain ⟨y, hy, hid⟩ := List.mem_map.mp hnew
      have heq : y = t := hst.eq_of_fst_eq hs.stored hy List.mem_cons_self hid
      subst heq
      have hmem : y ∈ e := (List.mem_cons.mp hy).resolve_left fun heq => hne (heq ▸ rfl)
      have hlt := work_lt_of_ancestry h.offers.ancestry (fun z hz => by
        rw [h.offers.ancestry.id_eq z hz]
        exact hset.nonnull _ (h.offers.among z hz)) y hmem
      simp only at hle
      omega
  obtain rfl : t = t' := hs.stored.eq_of_fst_eq hst List.mem_cons_self List.mem_cons_self htip
  rw [BlockLine.ext (hs.admitted.line hs.stored) (h.offers.ancestry.line hst)]

end Session

section Sync

open Session

variable {crypto : Crypto} {prune remotePrune : Bool} {target : Chain → Res BlockID}
  {B : Set Block} {T : Set Transaction} {s₀ : Session}

/-- **A download session completes.**  However the two nodes take their steps, the session finds
no error and comes to an end.  Then the requester has processed the whole main chain of the
responder, and this is its main chain now if it has more work than the one before. -/
theorem sync_completes (hset : Setting crypto prune target B T)
    (hset' : Setting crypto remotePrune target B T) (hgB : genesisBlock ∈ B)
    (hstart : Start crypto prune remotePrune B T s₀) :
    (∀ s, Reach (· = s₀) (Session.step crypto prune) Timely s →
      s.peer.hungUp = false ∧ s.peer.logged = []) ∧
    (∀ f : Nat → Session, f 0 = s₀ →
      ¬ ∀ n, ∃ l, (f n).Timely l ∧ (f n).step crypto prune l = some (f (n + 1))) ∧
    ∀ s, Reach (· = s₀) (Session.step crypto prune) Timely s →
      Stuck (Session.step crypto prune) Timely s →
      s.peer.pc = .idle ∧ (∀ x ∈ s₀.remote.mainChain, s.node.ledger.Known x.1) ∧
        ((∀ t t', s₀.node.mainChain.head? = some t → s₀.remote.mainChain.head? = some t' →
            t.2.header.chainWork.toNat < t'.2.header.chainWork.toNat) →
          s.node.mainChain = s₀.remote.mainChain) := by
  obtain ⟨r, hr⟩ := hstart.ranked hset hset' hgB
  have hdescends : Descends (Session.step crypto prune) Timely (· < ·)
      (Ranked crypto prune target B T s₀.node s₀.remote.mainChain) := descends hset
  refine ⟨fun s hreach => ?_, fun f hf => ?_, fun s hreach hstuck => ?_⟩
  · obtain ⟨-, k, a, b, hlink, -⟩ := hdescends.exists_rank hreach hr
    exact ⟨hlink.tidy.hungUp, hlink.tidy.logged⟩
  · rw [← hf] at hdescends hr
    exact hdescends.not_forever wellFounded_lt hr
  · obtain ⟨-, k, a, b, hlink, hphase, -⟩ := hdescends.exists_rank hreach hr
    obtain ⟨rfl, hidle⟩ := hphase.end_of_stuck hlink hstuck
    refine ⟨hidle, fun x hx => ?_, hlink.mainChain_eq hset hstart.1⟩
    obtain ⟨n, hn⟩ := List.mem_iff_getElem?.mp (List.mem_reverse.mpr hx)
    exact (hlink.knows n x hn).mpr (blockAt_lt hn)

end Sync

namespace Sample

/-- The first four blocks of the sample chain. -/
def early : Set Block := {b | ∃ k ≤ 3, b = (entry 0 k).2}

theorem genesis_mem_early : genesisBlock ∈ early := ⟨0, by omega, rfl⟩

theorem of_mem_deliverable_early {tx : Transaction} (h : tx ∈ deliverable early ∅) :
    tx = genesisCoinbase ∨ ∃ k, 1 ≤ k ∧ k ≤ 3 ∧ tx = coinbase 0 k := by
  rcases h with h | ⟨b, ⟨k, hk, rfl⟩, h⟩
  · exact absurd h (Set.notMem_empty _)
  cases k with
  | zero => exact .inl (List.mem_singleton.mp h)
  | succ k =>
    right
    have hnone : transfers 0 (k + 1) = [] := by
      rw [transfers, if_neg (by omega)]
    have hmem : tx ∈ coinbase 0 (k + 1) :: transfers 0 (k + 1) := h
    rw [hnone] at hmem
    exact ⟨k + 1, by omega, hk, List.mem_singleton.mp hmem⟩

theorem setting_early (prune : Bool) : Setting crypto prune ancestorTarget early ∅ where
  distinct := by
    rw [Set.insert_eq_of_mem genesis_mem_early]
    rintro _ ⟨i, hi, rfl⟩ _ ⟨j, hj, rfl⟩ hid
    rw [entry_id, entry_id] at hid
    have htime := time_bounds (n := i) (by omega)
    have htime' := time_bounds (n := j) (by omega)
    have hnat := ofNat_inj (by omega) (by omega) hid
    simp only [time] at hnat htime htime'
    obtain rfl : i = j := by omega
    rfl
  nonnull := by
    rw [Set.insert_eq_of_mem genesis_mem_early]
    rintro _ ⟨k, hk, rfl⟩
    rw [entry_id]
    exact entry_ne_null (by omega)
  collisionFree := by
    -- the transactions have different times
    have hnat {tx : Transaction} (h : tx ∈ deliverable early ∅) :
        0 ≤ tx.time ∧ tx.time < 2 ^ 31 ∧ ∀ tx' ∈ deliverable early ∅, tx'.time = tx.time →
          tx' = tx := by
      have htime (k : Nat) : (coinbase 0 k).time = 1561173156 + 600 * k := rfl
      have hg : genesisCoinbase.time = 1561173126 := rfl
      rcases of_mem_deliverable_early h with rfl | ⟨k, h₁, hk, rfl⟩
      · refine ⟨by omega, by omega, fun tx' h' heq => ?_⟩
        rcases of_mem_deliverable_early h' with rfl | ⟨j, h₁, hj, rfl⟩
        · rfl
        · have := htime j
          omega
      · have hk' := htime k
        refine ⟨by omega, by omega, fun tx' h' heq => ?_⟩
        rcases of_mem_deliverable_early h' with rfl | ⟨j, h₁, hj, rfl⟩
        · omega
        · have hj' := htime j
          obtain rfl : j = k := by omega
          rfl
    rintro _ ⟨tx, htx, rfl⟩ _ ⟨tx', htx', rfl⟩ hid
    obtain ⟨h₀, hmax, -⟩ := hnat htx
    obtain ⟨h₀', hmax', huniq⟩ := hnat htx'
    have hid' : tx.id crypto = tx'.id crypto := hid
    rw [transaction_id h₀, transaction_id h₀'] at hid'
    have := ofNat_inj (by omega) (by omega) hid'
    rw [huniq tx htx (by omega)]
  target := by
    intro s hs
    refine targetOf_ancestorTarget fun id e he => ?_
    obtain ⟨hmem, -⟩ := hs.among_stored he
    rw [Set.insert_eq_of_mem genesis_mem_early] at hmem
    obtain ⟨k, hk, heq⟩ := hmem
    rw [heq, entry_height]
    simp only [bitcoinCashRetargetAlgorithmHeight]
    omega

theorem run_early (prune : Bool) {n : Nat} (hn : n ≤ 3) :
    Run crypto prune (Call.Among early ∅) (state prune 0 n) ∧
      (state prune 0 n).mainChain = chain 0 n := by
  have hlow : ((chain 0 n).length : Int) ≤ bitcoinCashRetargetAlgorithmHeight + 1 := by
    rw [chain_length]
    simp only [bitcoinCashRetargetAlgorithmHeight]
    omega
  have hanc : Ancestry crypto prune ancestorTarget (chain 0 n) :=
    ancestry prune (by omega) (.inl rfl) (by decide)
  obtain ⟨hrun, hs, -⟩ := hanc.settled_deliver (A := Call.Among early ∅) checkBlock_genesis
    (chain_nodup (by omega))
    (fun x hx => by
      obtain ⟨k, hk, rfl⟩ := mem_chain.mp hx
      exact ⟨k, by omega, rfl⟩)
    hlow
    (by
      rintro b now source ⟨k, hk, rfl⟩
      rw [entry_id]
      exact entry_ne_null (by omega))
    (entry_id 0 0 ▸ entry_ne_null (by omega))
  exact ⟨hrun, hs.toPlaced.mainChain_eq⟩

/-- A node with two blocks connects to one with four that prunes. -/
def session : Session :=
  ⟨state false 0 1, .new, .new [], [],
    Session.ask crypto (state false 0 1) (.findCommonAncestor none), state true 0 3, 0, [], ""⟩

end Sample

theorem sync_completes_with_block_three :
    ∃ s, Reach (· = Sample.session) (Session.step Sample.crypto false) Session.Timely s ∧
      s.peer.hungUp = false ∧ s.node.mainChain = Sample.chain 0 3 := by
  have hset := Sample.setting_early false
  have hset' := Sample.setting_early true
  obtain ⟨hrun, hmain⟩ := Sample.run_early false (n := 1) (by omega)
  obtain ⟨hrun', hmain'⟩ := Sample.run_early true (n := 3) (by omega)
  have hstart : Session.Start Sample.crypto false true Sample.early ∅ Sample.session :=
    ⟨hrun, hrun', rfl⟩
  obtain ⟨hquiet, -, hend⟩ := sync_completes hset hset' Sample.genesis_mem_early hstart
  obtain ⟨r, hr⟩ := hstart.ranked hset hset' Sample.genesis_mem_early
  obtain ⟨s, hreach, hstuck⟩ := (Session.descends hset).exists_stuck wellFounded_lt hr
  refine ⟨s, hreach, (hquiet s hreach).1, ?_⟩
  rw [(hend s hreach hstuck).2.2 ?_]
  · exact hmain'
  · intro t t' ht ht'
    rw [show Sample.session.node.mainChain = _ from hmain, Sample.chain_head] at ht
    rw [show Sample.session.remote.mainChain = _ from hmain', Sample.chain_head] at ht'
    cases ht
    cases ht'
    rw [Sample.entry_chainWork, Sample.entry_chainWork]
    decide

end Cruzbit

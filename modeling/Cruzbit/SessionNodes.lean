/-
Cruzbit/SessionNodes.lean

The two nodes of a download session.

The responder's main chain has a valid ancestry, and its blocks are among those
that were delivered (`Offers`).  Of such a chain the requester knows a lower
part (`Setting.exists_knows`).  The next block is accepted (`Setting.accepts`), and a
block above it is an orphan: its parent is not in the requester's storage, since
a stored block with a valid ancestry is known (`Setting.known_of_stored`).
-/
import Cruzbit.CommonAncestor
import Cruzbit.Convergence
import Cruzbit.Notifications
import Cruzbit.Pruning
import Cruzbit.Retarget

namespace Cruzbit

open Chain Lineage Word

/-! ### Part of a chain, from below -/

namespace Chain

/-- The blocks from a height up to another, oldest first. -/
def between (d : Chain) (i j : Nat) : Chain := (d.reverse.drop i).take (j - i)

variable {d : Chain} {i j n : Nat} {x : BlockID × Block}

theorem blockAt_lt (h : blockAt d n = some x) : n < d.length := by
  obtain ⟨hn, -⟩ := List.getElem?_eq_some_iff.mp h
  rwa [List.length_reverse] at hn

theorem exists_blockAt_of_lt (h : n < d.length) : ∃ x, blockAt d n = some x :=
  ⟨_, List.getElem?_eq_getElem (by rwa [List.length_reverse])⟩

theorem mem_of_blockAt (h : blockAt d n = some x) : x ∈ d :=
  List.mem_reverse.mp (List.mem_of_getElem? h)

theorem length_between (h : j ≤ d.length) : (between d i j).length = j - i := by
  rw [between, List.length_take, List.length_drop, List.length_reverse]
  omega

theorem between_cons (hx : blockAt d i = some x) (h : i < j) :
    between d i j = x :: between d (i + 1) j := by
  obtain ⟨hi, rfl⟩ := List.getElem?_eq_some_iff.mp hx
  rw [between, List.drop_eq_getElem_cons hi, show j - i = j - (i + 1) + 1 by omega,
    List.take_succ_cons]
  rfl

theorem between_eq_nil (h : j ≤ i) : between d i j = [] := by
  rw [between, Nat.sub_eq_zero_of_le h, List.take_zero]

theorem of_between_eq_cons {l : Chain} (h : between d i j = x :: l) :
    blockAt d i = some x ∧ i < j ∧ l = between d (i + 1) j := by
  have hlt : i < j := by
    by_contra hle
    rw [between_eq_nil (by omega)] at h
    exact List.cons_ne_nil _ _ h.symm
  have hlen : i < d.length := by
    by_contra hle
    rw [between, List.drop_eq_nil_of_le (by rw [List.length_reverse]; omega), List.take_nil] at h
    exact List.cons_ne_nil _ _ h.symm
  obtain ⟨y, hy⟩ := exists_blockAt_of_lt hlen
  obtain ⟨rfl, rfl⟩ := List.cons.inj (h.symm.trans (between_cons hy hlt))
  exact ⟨hy, hlt, rfl⟩

theorem of_mem_between (h : x ∈ between d i j) : ∃ n, i ≤ n ∧ n < j ∧ blockAt d n = some x := by
  obtain ⟨m, hm⟩ := List.mem_iff_getElem?.mp h
  rw [between, List.getElem?_take] at hm
  split_ifs at hm with hlt
  · rw [List.getElem?_drop] at hm
    exact ⟨i + m, by omega, by omega, hm⟩

theorem nodup_between (h : d.ids.Nodup) : (between d i j).ids.Nodup := by
  have hsub : (between d i j).ids.Sublist (d.reverse.map Prod.fst) :=
    List.Sublist.map _ ((List.take_sublist _ _).trans (List.drop_sublist _ _))
  refine hsub.nodup ?_
  rw [List.map_reverse, List.nodup_reverse]
  exact h

theorem getLast_between (hi : i < j) (hj : j ≤ d.length) :
    (between d i j).getLast? = blockAt d (j - 1) := by
  rw [List.getLast?_eq_getElem?, length_between hj, between, List.getElem?_take_of_lt (by omega),
    List.getElem?_drop, show i + (j - i - 1) = j - 1 by omega]
  rfl

/-- A range beyond the tip is cut off. -/
theorem between_min : between d i (min d.length j) = between d i j := by
  rw [between, between, List.take_eq_take_iff, List.length_drop, List.length_reverse]
  omega

end Chain

/-! ### What a node knows of a valid chain -/

/-- Of the chain the node knows the lowest `k` blocks and no others. -/
def Knows (s : Processor) (d : Chain) (k : Nat) : Prop :=
  ∀ n x, blockAt d n = some x → (s.ledger.Known x.1 ↔ n < k)

section Node

variable {crypto : Crypto} {prune : Bool} {target : Chain → Res BlockID} {B : Set Block}
  {T : Set Transaction} {s : Processor} {c d : Chain} {x : BlockID × Block} {now : Int}
  {source : String} {b : Block}

theorem Ancestry.of_append (h : Ancestry crypto prune target (c ++ x :: d)) :
    Ancestry crypto prune target (x :: d) := by
  induction c with
  | nil => exact h
  | cons y c ih => exact ih (h.tail (by simp)).1

/-- **Pruning does not change which chains are valid.** -/
theorem Ancestry.of_prune {U : Set Transaction} {prune' : Bool} (hU : CollisionFree crypto U)
    (hg : genesisCoinbase ∈ U) (h : Ancestry crypto prune' target c) (hv : Valid crypto prune' c)
    (hmem : ∀ y ∈ c, ∀ tx ∈ y.2.transactions, tx ∈ U) (prune : Bool) :
    Ancestry crypto prune target c ∧ ∀ y ∈ c, InSeries U y.2 := by
  induction h with
  | genesis =>
    refine ⟨.genesis, fun y hy => ?_⟩
    rw [List.mem_singleton.mp hy]
    exact inSeries_genesis hg
  | @cons c x _ hx ih =>
    obtain ⟨hxmem, hcmem⟩ := List.forall_mem_cons.mp hmem
    obtain ⟨hc, hseries⟩ := ih hv.tail hcmem
    have hxseries : InSeries U x.2 := fun tx htx => ⟨hxmem tx htx, (hx.transactions tx htx).series⟩
    refine ⟨.cons hc ⟨hx.toProposed, ?_⟩, List.forall_mem_cons.mpr ⟨hxseries, hseries⟩⟩
    have hiff := connects_iff hU hv.tail hseries hv.head.height hxseries
    cases prune <;> cases prune'
    · exact hx.connects
    · exact hiff.mp hx.connects
    · exact hiff.mpr hx.connects
    · exact hx.connects

theorem Setting.known_genesis (h : Setting crypto prune target B T)
    (hrun : Run crypto prune (Call.Among B T) s) : s.ledger.Known (genesisBlock.id crypto) := by
  obtain ⟨c, K, hs⟩ := h.settled hrun
  exact (hs.describes.known_iff _).mpr hs.toPlaced.genesis_mem

/-- With a block its ancestors are known. -/
theorem Setting.ancestors_known (h : Setting crypto prune target B T)
    (hrun : Run crypto prune (Call.Among B T) s) (hc : Ancestry crypto prune target (x :: c))
    (hB : ∀ y ∈ x :: c, y.2 ∈ insert genesisBlock B) (hx : s.ledger.Known x.1) :
    ∀ y ∈ c, s.ledger.Known y.1 := by
  induction c generalizing x with
  | nil => simp
  | cons p c ih =>
    obtain ⟨hc', hfollows⟩ := hc.tail (by simp)
    obtain ⟨hxB, hcB⟩ := List.forall_mem_cons.mp hB
    obtain ⟨c', K, hs⟩ := h.settled hrun
    have hne : x.1 ≠ genesisBlock.id crypto := by
      intro heq
      exact hc.ne_genesis
        (h.distinct hxB (Set.mem_insert _ _) (hfollows.id_eq.symm.trans heq))
    obtain ⟨e, he, hprev⟩ := hs.toPlaced.parent_known ((hs.describes.known_iff _).mp hx) hne
    -- the node has the same block under that ID
    obtain ⟨hmem, hid⟩ := hrun.among_stored he
    have heq : e.block = x.2 := h.distinct hmem hxB (hid.trans hfollows.id_eq)
    rw [heq, (hfollows.parent p rfl).1] at hprev
    have hp := (hs.describes.known_iff _).mpr hprev
    exact List.forall_mem_cons.mpr ⟨hp, ih hc' hcB hp⟩

/-- **A block with a valid ancestry that is known is accepted.** -/
theorem Setting.accepts (h : Setting crypto prune target B T)
    (hrun : Run crypto prune (Call.Among B T) s) (hb : b ∈ B)
    (hc : Ancestry crypto prune target ((b.id crypto, b) :: c)) (hne : c ≠ [])
    (hB : ∀ y ∈ c, y.2 ∈ insert genesisBlock B) (hknown : ∀ y ∈ c, s.ledger.Known y.1)
    (hlate : b.header.time ≤ int64 (now + maxFutureSeconds)) (source : String) :
    (s.step crypto prune (.block b now source)).2 = .ok () ∧
      ∀ id, (s.step crypto prune (.block b now source)).1.ledger.Known id ↔
        id = b.id crypto ∨ s.ledger.Known id := by
  have hcall : (Call.block b now source).Among B T := hb
  have hlearns : (s.step crypto prune (.block b now source)).1.ledger.Known (b.id crypto) :=
    h.learns hrun hb hc hne hB hknown hlate
  obtain ⟨c', K, hs⟩ := h.settled hrun
  have hout := hs.processBlock_cases hrun source (h.vouches hcall)
  generalize (s.step crypto prune (.block b now source)).1 = s',
    (s.step crypto prune (.block b now source)).2 = r at hout hlearns ⊢
  have hiff := hs.describes.known_iff
  cases hout with
  | known hK =>
    refine ⟨rfl, fun id => ⟨Or.inr, ?_⟩⟩
    rintro (rfl | hid)
    · exact hlearns
    · exact hid
  | refused hnot _ => exact absurd ((hiff _).mp hlearns) hnot
  | judged hd _ _ hverdict =>
    cases hverdict with
    | side hs' _ =>
      refine ⟨rfl, fun id => ?_⟩
      rw [hs'.describes.known_iff, hiff, Set.mem_insert_iff]
    | moved hs' _ =>
      refine ⟨rfl, fun id => ?_⟩
      rw [hs'.describes.known_iff, hiff, Set.mem_insert_iff]
    | rejected _ _ _ hl =>
      rw [hl] at hlearns
      exact absurd ((hiff _).mp hlearns) hd.unknown

/-- **A stored block with a valid ancestry is known.**  Blocks that turned out not to connect
stay in storage, but they have none. -/
theorem Setting.known_of_stored (h : Setting crypto prune target B T)
    (hrun : Run crypto prune (Call.Among B T) s) (hc : Ancestry crypto prune target (x :: c))
    (hB : ∀ y ∈ x :: c, y.2 ∈ insert genesisBlock B)
    (hst : (s.blockStore[x.1]?).isSome = true) : s.ledger.Known x.1 := by
  induction hrun with
  | @genesis s now source hok =>
    have hrun : Run crypto prune (Call.Among B T) s := .genesis now source hok
    obtain ⟨-, hstore, -⟩ := settled_genesis (P := fun _ => True) (Q := fun _ => True) hok
    rw [hstore, BlockStorage.get_store] at hst
    split_ifs at hst with heq
    · exact heq ▸ h.known_genesis hrun
    · simp at hst
  | @call s call hrun hcall ih =>
    obtain ⟨c', K, hs⟩ := h.settled hrun
    by_cases hold : (s.blockStore[x.1]?).isSome = true
    · exact hs.step_known hrun (h.vouches hcall) (ih hold)
    cases call with
    | transaction tx =>
      rw [(hs.processTransaction_settled (h.vouches hcall)).2.2.1] at hst
      exact absurd hst hold
    | block b now source =>
      have hout := hs.processBlock_cases hrun source (h.vouches hcall)
      generalize hs' : (s.step crypto prune (.block b now source)).1 = s',
        (s.step crypto prune (.block b now source)).2 = r at hout hst ⊢
      cases hout with
      | known _ => exact absurd hst hold
      | refused _ _ => exact absurd hst hold
      | @judged d _ _ hd _ hstore _ =>
        rw [hstore, BlockStorage.get_store] at hst
        split_ifs at hst with heq
        swap
        · exact absurd hst hold
        -- the block has just been stored, so its parent is known
        obtain ⟨hxB, hcB⟩ := List.forall_mem_cons.mp hB
        obtain rfl : x.2 = b :=
          h.distinct hxB (Set.mem_insert_of_mem _ hcall)
            ((hc.id_eq x List.mem_cons_self).symm.trans heq.symm)
        cases c with
        | nil =>
          obtain rfl := hc.eq_genesis
          exact absurd hs.toPlaced.genesis_mem hd.unknown
        | cons p c =>
          obtain ⟨hc', hfollows⟩ := hc.tail (by simp)
          obtain ⟨q, hq, hprev, -⟩ := hd.parent
          have hp : s.ledger.Known p.1 := by
            rw [← (hfollows.parent p rfl).1, hprev]
            exact (hs.describes.known_iff _).mpr (hd.known q (List.mem_of_mem_head? hq))
          have hknown : ∀ y ∈ p :: c, s.ledger.Known y.1 :=
            List.forall_mem_cons.mpr ⟨hp, h.ancestors_known hrun hc' hcB hp⟩
          have hxid : x = (x.2.id crypto, x.2) := Prod.ext hfollows.id_eq rfl
          rw [hxid] at hc
          rw [hfollows.id_eq, ← hs']
          exact h.learns hrun hcall hc (by simp) hcB hknown
            (checkBlock_ok_iff.mp hd.checked).time_le

/-- **A node knows a lower part of a valid chain.** -/
theorem Setting.exists_knows (h : Setting crypto prune target B T)
    (hrun : Run crypto prune (Call.Among B T) s) (hd : Ancestry crypto prune target d)
    (hB : ∀ y ∈ d, y.2 ∈ insert genesisBlock B) : ∃ k, 0 < k ∧ k ≤ d.length ∧ Knows s d k := by
  induction hd with
  | genesis =>
    refine ⟨1, Nat.one_pos, le_rfl, fun n x hx => ?_⟩
    have hn := blockAt_lt hx
    obtain rfl : n = 0 := by
      rw [List.length_singleton] at hn
      omega
    obtain rfl : genesisEntry crypto = x := Option.some.inj hx
    exact iff_of_true (h.known_genesis hrun) Nat.one_pos
  | @cons c x hc hx ih =>
    obtain ⟨hxB, hcB⟩ := List.forall_mem_cons.mp hB
    by_cases hknown : s.ledger.Known x.1
    · have hall : ∀ y ∈ x :: c, s.ledger.Known y.1 :=
        List.forall_mem_cons.mpr ⟨hknown, h.ancestors_known hrun (.cons hc hx) hB hknown⟩
      exact ⟨(x :: c).length, by simp, le_rfl, fun n y hy =>
        iff_of_true (hall y (mem_of_blockAt hy)) (blockAt_lt hy)⟩
    · obtain ⟨k, hpos, hle, hk⟩ := ih hcB
      refine ⟨k, hpos, hle.trans (Nat.le_succ _), fun n y hy => ?_⟩
      rw [blockAt_cons] at hy
      split_ifs at hy with hn
      · obtain rfl := Option.some.inj hy
        exact iff_of_false hknown (by omega)
      · exact hk n y hy

end Node

/-! ### The two nodes -/

/-- The responder is on the main chain `d`, whose blocks are from `B`. -/
structure Offers (crypto : Crypto) (prune : Bool) (target : Chain → Res BlockID) (B : Set Block)
    (remote : Processor) (d : Chain) : Prop where
  ancestry : Ancestry crypto prune target d
  among : ∀ y ∈ d, y.2 ∈ insert genesisBlock B
  placed : ∃ remotePrune P Q K, Placed crypto remotePrune P Q remote d K

section Offers

variable {crypto : Crypto} {prune : Bool} {target : Chain → Res BlockID} {B : Set Block}
  {T : Set Transaction} {remote : Processor} {c d : Chain} {x : BlockID × Block} {n : Nat}

/-- What the responder is on is valid for the requester, whichever of them prunes. -/
theorem Setting.offers {remotePrune : Bool} (h : Setting crypto remotePrune target B T)
    (hgB : genesisBlock ∈ B) (hrun : Run crypto remotePrune (Call.Among B T) remote)
    (prune : Bool) : Offers crypto prune target B remote remote.mainChain := by
  obtain ⟨d, K, hs⟩ := h.settled hrun
  rw [hs.toPlaced.mainChain_eq]
  have hamong : ∀ y ∈ d, y.2 ∈ insert genesisBlock B := by
    intro y hy
    obtain ⟨storedAt, hget⟩ := hs.stored y hy
    exact (hrun.among_stored hget).1
  have hanc : Ancestry crypto remotePrune target d :=
    hs.admitted.ancestry (fun _ htx => htx.2) (fun _ hrun' => h.agrees hrun') hs.valid
  have hg : genesisCoinbase ∈ deliverable B T := .inr ⟨_, hgB, List.mem_singleton_self _⟩
  refine ⟨(hanc.of_prune h.collisionFree hg hs.valid (fun y hy tx htx => ?_) prune).1, hamong,
    remotePrune, _, _, K, hs.toPlaced⟩
  exact .inr ⟨y.2, (Set.insert_eq_of_mem hgB) ▸ hamong y hy, htx⟩

theorem Offers.nodup (h : Offers crypto prune target B remote d) : d.ids.Nodup := by
  obtain ⟨_, P, Q, K, hp⟩ := h.placed
  exact hp.valid.ids_nodup

theorem Offers.getBlock (h : Offers crypto prune target B remote d) (hx : blockAt d n = some x) :
    remote.blockStore.getBlock x.1 = .ok x.2 := by
  obtain ⟨_, P, Q, K, hp⟩ := h.placed
  obtain ⟨storedAt, hst⟩ := hp.stored x (mem_of_blockAt hx)
  rw [BlockStorage.getBlock, hst]

/-- The tip. -/
theorem Offers.chainTip (h : Offers crypto prune target B remote d) :
    ∃ t height, blockAt d (d.length - 1) = some t ∧
      remote.ledger.chainTip = some (t.1, height) := by
  obtain ⟨_, P, Q, K, hp⟩ := h.placed
  obtain ⟨t, e, rfl⟩ := List.exists_cons_of_ne_nil hp.admitted.ne_nil
  exact ⟨t, _, blockAt_length t e, hp.mainPath.tip⟩

theorem Offers.eq_of_blockAt (h : Offers crypto prune target B remote d) {m : Nat}
    {y : BlockID × Block} (hx : blockAt d n = some x) (hy : blockAt d m = some y)
    (hid : x.1 = y.1) : n = m := by
  obtain ⟨_, P, Q, K, hp⟩ := h.placed
  exact hp.eq_of_blockAt hx hy hid

theorem Offers.ne_null (h : Offers crypto prune target B remote d)
    (hset : Setting crypto prune target B T) (hx : blockAt d n = some x) : x.1 ≠ 0 := by
  rw [h.ancestry.id_eq x (mem_of_blockAt hx)]
  exact hset.nonnull _ (h.among x (mem_of_blockAt hx))

/-- A block of the chain and what is below it. -/
theorem Offers.split (h : Offers crypto prune target B remote d) (hx : blockAt d n = some x) :
    ∃ c, Ancestry crypto prune target (x :: c) ∧ c.length = n ∧
      (∀ y ∈ x :: c, y.2 ∈ insert genesisBlock B) ∧ (c.head? = blockAt d (n - 1) ∨ n = 0) ∧
      ∀ y ∈ c, ∃ m < n, blockAt d m = some y := by
  obtain ⟨e, c, rfl, hlen⟩ := exists_append_of_blockAt hx
  refine ⟨c, h.ancestry.of_append, hlen, fun y hy => h.among y (List.mem_append_right e hy), ?_, ?_⟩
  · cases c with
    | nil => exact .inr hlen.symm
    | cons p c =>
      left
      rw [show e ++ x :: p :: c = (e ++ [x]) ++ p :: c by simp,
        blockAt_append (by rw [hlen]; rw [List.length_cons] at hlen; omega), ← hlen]
      exact (blockAt_length p c).symm
  · intro y hy
    obtain ⟨m, hm⟩ := List.mem_iff_getElem?.mp (List.mem_reverse.mpr hy)
    have hlt : m < c.length := blockAt_lt hm
    refine ⟨m, hlen ▸ hlt, ?_⟩
    rw [show e ++ x :: c = (e ++ [x]) ++ c by simp, blockAt_append hlt]
    exact hm

/-- A block of the chain above genesis can be received at the time that it carries. -/
theorem Offers.le_maxFuture (h : Offers crypto prune target B remote d)
    (hx : blockAt d n = some x) (hn : 0 < n) :
    x.2.header.time ≤ int64 (x.2.header.time + maxFutureSeconds) := by
  obtain ⟨c, hc, hlen, -⟩ := h.split hx
  obtain ⟨-, hfollows⟩ := hc.tail (by
    rintro rfl
    exact hn.ne hlen)
  obtain ⟨now, hok⟩ := hfollows.checked
  exact Cruzbit.le_maxFuture hok

end Offers

end Cruzbit

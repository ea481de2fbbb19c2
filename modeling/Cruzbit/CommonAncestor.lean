/-
Cruzbit/CommonAncestor.lean

Finding out which blocks a peer has: the `find_common_ancestor` message, and the
`inv_block` message that answers it.

The requester lists blocks that it has, from its tip or from the last block of the
previous answer down to genesis, with growing gaps.  The responder takes the
first one that is on its main chain, and answers with the 500 blocks above it.

`sync_advances`: the answer goes on from a block that the requester has.  When
the responder's main chain has a block that the requester does not have, such a
block is in the answer, or the whole answer is known and the next request gets
an answer that starts higher.  This needs that no two headers of the nodes have
the same hash, so that the nodes agree on the ancestors of a block.
-/
import Cruzbit.BestChain
import Cruzbit.Download

namespace Cruzbit

open Chain

/-! ### The messages -/

/-- The loop of `sendFindCommonAncestor`, at a block and its height.  The step is `2 ^ k`; it is
doubled only while it is less than the height, which is at most the length of the chain. -/
def Ledger.locate (l : Ledger) (genesisID id : BlockID) (height : Int) (k : Nat)
    (ids : List BlockID) : List BlockID :=
  if id = genesisID then ids
  else
    let depth := height - 2 ^ k
    if 0 < depth then
      match l.getBlockIDForHeight depth with
      | none => ids ++ [id]
      | some next =>
        l.locate genesisID next depth (if ids.length + 1 > 10 then k + 1 else k) (ids ++ [id])
    else ids ++ [id]
termination_by height.toNat
decreasing_by
  have : (0 : Int) < 2 ^ k := by positivity
  omega

/-- GetBlockIDForHeight for the next heights, up to the tip. -/
def Ledger.idsFrom (l : Ledger) (height : Int) : Nat → List BlockID
  | 0 => []
  | n + 1 =>
    match l.getBlockIDForHeight height with
    | none => []
    | some nextID => nextID :: l.idsFrom (height + 1) n

namespace Peer

/-- The block IDs of the message that looks for a common ancestor with a peer. -/
def sendFindCommonAncestor (crypto : Crypto) (s : Processor) (startID : Option BlockID) :
    Res (List BlockID) :=
  let genesisID := genesisBlock.id crypto
  match startID with
  | none =>
    match s.ledger.chainTip with
    | none => .ok [genesisID]
    | some (id, height) => .ok (s.ledger.locate genesisID id height 0 [] ++ [genesisID])
  | some id =>
    match s.blockStore.getBlockHeader id with
    | none => .error (.noHeader id)
    | some (header, _) => .ok (s.ledger.locate genesisID id header.height 0 [] ++ [genesisID])

/-- Handle one ID of a find common ancestor message from a peer: the IDs for an inv_block
message, if the block is on the main branch. -/
def onFindCommonAncestor (s : Processor) (id : BlockID) : Option (List BlockID) :=
  match s.blockStore.getBlockHeader id with
  -- don't have it
  | none => none
  | some (header, _) =>
    if s.ledger.getBranchType id = .main then
      some (s.ledger.idsFrom (header.height + 1) maxBlocksPerInv)
    -- not on the main branch
    else none

/-- The reader loop tries the IDs in turn. -/
def onFindCommonAncestors (s : Processor) (ids : List BlockID) : Option (List BlockID) :=
  ids.findSome? (onFindCommonAncestor s)

end Peer

/-! ### The request -/

/-- The loop appends the block it starts from, unless that is genesis, and blocks of the main
chain. -/
theorem Ledger.locate_eq_append (l : Ledger) (genesisID id : BlockID) (height : Int) (k : Nat)
    (ids : List BlockID) : ∃ rest, l.locate genesisID id height k ids = ids ++ rest ∧
    (id ≠ genesisID → rest.head? = some id) ∧
    ∀ id' ∈ rest, id' = id ∨ ∃ height, l.getBlockIDForHeight height = some id' := by
  fun_induction Ledger.locate l genesisID id height k ids with
  | case1 height k ids =>
    exact ⟨[], (List.append_nil ids).symm, fun h => absurd rfl h, fun _ => nofun⟩
  | case2 id height k ids hne depth hdepth hnone =>
    exact ⟨[id], rfl, fun _ => rfl, fun id' h => .inl (List.mem_singleton.mp h)⟩
  | case3 id height k ids hne depth hdepth next hnext ih =>
    obtain ⟨rest, heq, -, hrest⟩ := ih
    refine ⟨id :: rest, ?_, fun _ => rfl, fun id' h => ?_⟩
    · refine heq.trans ?_
      rw [List.append_assoc]
      rfl
    obtain rfl | h := List.mem_cons.mp h
    · exact .inl rfl
    obtain rfl | hmain := hrest id' h
    · exact .inr ⟨depth, hnext⟩
    · exact .inr hmain
  | case4 id height k ids hne depth hdepth =>
    exact ⟨[id], rfl, fun _ => rfl, fun id' h => .inl (List.mem_singleton.mp h)⟩

section Nodes

variable {crypto : Crypto} {prune prune' : Bool} {P P' : Transaction → Prop}
  {Q Q' : Processor → Prop} {s s' : Processor} {c d : Chain} {K K' : Set BlockID}
  {x y : BlockID × Block} {n m : Nat} {id : BlockID} {startID : Option BlockID}

theorem Placed.getBlockIDForHeight_eq (h : Placed crypto prune P Q s c K) (n : Nat) :
    s.ledger.getBlockIDForHeight n = (blockAt c n).map Prod.fst := by
  obtain ⟨t, e, rfl⟩ := List.exists_cons_of_ne_nil h.admitted.ne_nil
  refine Option.ext fun id => (h.mainPath.indexes n id).trans ?_
  constructor
  · rintro ⟨m, hm, hat⟩
    obtain rfl : n = m := Int.ofNat_inj.mp hm
    exact hat
  · intro hat
    exact ⟨n, rfl, hat⟩

theorem Placed.exists_height (h : Placed crypto prune P Q s c K) {height : Int}
    (hid : s.ledger.getBlockIDForHeight height = some id) :
    ∃ (n : Nat) (x : BlockID × Block), height = n ∧ blockAt c n = some x ∧ x.1 = id := by
  obtain ⟨t, e, rfl⟩ := List.exists_cons_of_ne_nil h.admitted.ne_nil
  obtain ⟨n, hn, hat⟩ := (h.mainPath.indexes height id).mp hid
  obtain ⟨x, hx, rfl⟩ := Option.map_eq_some_iff.mp hat
  exact ⟨n, x, hn, hx, rfl⟩

theorem Placed.known_of_height (h : Placed crypto prune P Q s c K) {height : Int}
    (hid : s.ledger.getBlockIDForHeight height = some id) : id ∈ K := by
  obtain ⟨n, x, -, hx, rfl⟩ := h.exists_height hid
  exact h.describes.known _ (List.mem_map_of_mem (h.valid.blockAt_iff.mp hx).1)

theorem Placed.blockAt_zero (h : Placed crypto prune P Q s c K) :
    blockAt c 0 = some (genesisEntry crypto) := by
  rw [blockAt, ← List.head?_eq_getElem?, List.head?_reverse]
  exact h.onChain.genesis

theorem Placed.eq_of_blockAt (h : Placed crypto prune P Q s c K) (hx : blockAt c n = some x)
    (hy : blockAt c m = some y) (hid : x.1 = y.1) : n = m := by
  obtain ⟨hx, hheight⟩ := h.valid.blockAt_iff.mp hx
  obtain ⟨hy, hheight'⟩ := h.valid.blockAt_iff.mp hy
  obtain rfl : x = y := List.inj_on_of_nodup_map h.valid.ids_nodup hx hy hid
  exact Int.ofNat_inj.mp (hheight.symm.trans hheight')

/-- A request names blocks that the requester has, and genesis at the end.  It begins with the
block it is to start from. -/
theorem Placed.sendFindCommonAncestor_eq (h : Placed crypto prune P Q s c K)
    (hstart : ∀ id ∈ startID, id ∈ K) :
    ∃ rest, Peer.sendFindCommonAncestor crypto s startID =
        .ok (rest ++ [genesisBlock.id crypto]) ∧
      (∀ id ∈ startID, id ≠ genesisBlock.id crypto → rest.head? = some id) ∧
      ∀ id ∈ rest, id ∈ K := by
  have hloop : ∀ id height, id ∈ K → ∃ rest,
      s.ledger.locate (genesisBlock.id crypto) id height 0 [] = rest ∧
      (id ≠ genesisBlock.id crypto → rest.head? = some id) ∧ ∀ id' ∈ rest, id' ∈ K := by
    intro id height hid
    obtain ⟨rest, heq, hhead, hrest⟩ :=
      s.ledger.locate_eq_append (genesisBlock.id crypto) id height 0 []
    refine ⟨rest, heq, hhead, fun id' hid' => ?_⟩
    obtain rfl | ⟨height', hheight⟩ := hrest id' hid'
    · exact hid
    · exact h.known_of_height hheight
  unfold Peer.sendFindCommonAncestor
  cases startID with
  | none =>
    obtain ⟨t, e, rfl⟩ := List.exists_cons_of_ne_nil h.admitted.ne_nil
    obtain ⟨rest, heq, -, hrest⟩ := hloop t.1 e.length (h.describes.known _ List.mem_cons_self)
    refine ⟨rest, ?_, fun _ => nofun, hrest⟩
    simp only [h.mainPath.tip, heq]
  | some id =>
    obtain ⟨e, he, -⟩ := h.tree.stored (hstart id rfl)
    obtain ⟨rest, heq, hhead, hrest⟩ := hloop id e.block.header.height (hstart id rfl)
    refine ⟨rest, ?_, ?_, hrest⟩
    · simp only [BlockStorage.getBlockHeader, he, Option.map_some, heq]
    · rintro _ ⟨⟩
      exact hhead

/-! ### The answer -/

theorem Placed.idsFrom_eq (h : Placed crypto prune P Q s c K) (n m : Nat) :
    s.ledger.idsFrom n m = ((c.reverse.drop n).take m).map Prod.fst := by
  induction m generalizing n with
  | zero => rfl
  | succ m ih =>
    rw [Ledger.idsFrom, h.getBlockIDForHeight_eq n, blockAt]
    cases hat : c.reverse[n]? with
    | none =>
      rw [List.drop_eq_nil_of_le (List.getElem?_eq_none_iff.mp hat)]
      rfl
    | some x =>
      obtain ⟨hn, hx⟩ := List.getElem?_eq_some_iff.mp hat
      rw [List.drop_eq_getElem_cons hn, hx]
      show x.1 :: s.ledger.idsFrom ((n : Int) + 1) m = _
      have hcast : ((n : Int) + 1) = ((n + 1 : Nat) : Int) := by push_cast; rfl
      rw [hcast, ih]
      rfl

/-- The responder answers to a block of its main chain with the blocks above it. -/
theorem Placed.onFindCommonAncestor_of_blockAt (h : Placed crypto prune P Q s c K)
    (hx : blockAt c n = some x) : Peer.onFindCommonAncestor s x.1 =
      some (((c.reverse.drop (n + 1)).take maxBlocksPerInv).map Prod.fst) := by
  obtain ⟨hmem, hheight⟩ := h.valid.blockAt_iff.mp hx
  obtain ⟨storedAt, hst⟩ := h.stored x hmem
  have hmain := (h.describes.getBranchType_eq_main x.1).mpr (List.mem_map_of_mem hmem)
  have hcast : (n : Int) + 1 = ((n + 1 : Nat) : Int) := by push_cast; rfl
  rw [Peer.onFindCommonAncestor, BlockStorage.getBlockHeader, hst]
  simp only [Option.map_some, hmain, if_true]
  rw [hheight, hcast, h.idsFrom_eq]

/-- The responder answers to no other block. -/
theorem Placed.exists_blockAt (h : Placed crypto prune P Q s c K) {inv : List BlockID}
    (hinv : Peer.onFindCommonAncestor s id = some inv) :
    ∃ n x, blockAt c n = some x ∧ x.1 = id := by
  have hmain : s.ledger.getBranchType id = .main := by
    unfold Peer.onFindCommonAncestor at hinv
    split at hinv
    · exact absurd hinv nofun
    · split_ifs at hinv with hmain
      exact hmain
  obtain ⟨x, hx, rfl⟩ := List.mem_map.mp ((h.describes.getBranchType_eq_main id).mp hmain)
  have hnonneg := (h.valid.mem_wellFormed hx).height_nonneg
  exact ⟨x.2.header.height.toNat, x, h.valid.blockAt_iff.mpr ⟨hx, by omega⟩, rfl⟩

/-- A locator that ends with genesis is answered, from a block of the locator that is on the main
chain. -/
theorem Placed.onFindCommonAncestors_eq (h : Placed crypto prune P Q s c K) (rest : List BlockID) :
    ∃ n x, blockAt c n = some x ∧ x.1 ∈ rest ++ [genesisBlock.id crypto] ∧
      Peer.onFindCommonAncestors s (rest ++ [genesisBlock.id crypto]) =
        some (((c.reverse.drop (n + 1)).take maxBlocksPerInv).map Prod.fst) := by
  have hsome : (Peer.onFindCommonAncestors s (rest ++ [genesisBlock.id crypto])).isSome := by
    refine List.findSome?_isSome_iff.mpr ⟨genesisBlock.id crypto, by simp, ?_⟩
    rw [show genesisBlock.id crypto = (genesisEntry crypto).1 from rfl,
      h.onFindCommonAncestor_of_blockAt h.blockAt_zero]
    rfl
  obtain ⟨inv, hinv⟩ := Option.isSome_iff_exists.mp hsome
  obtain ⟨id, hid, hinv'⟩ := List.exists_of_findSome?_eq_some hinv
  obtain ⟨n, x, hx, rfl⟩ := h.exists_blockAt hinv'
  rw [h.onFindCommonAncestor_of_blockAt hx] at hinv'
  exact ⟨n, x, hx, hid, hinv.trans hinv'.symm⟩

/-! ### Blocks that both nodes have -/

/-- The headers of the blocks in storage. -/
def Processor.headers (s : Processor) : Set BlockHeader :=
  {header | ∃ (id : BlockID) (e : StoredBlock), s.blockStore[id]? = some e ∧
    e.block.header = header}

theorem Placed.previous_eq (h : Placed crypto prune P Q s c K) (hy : blockAt c n = some y)
    (hx : blockAt c (n + 1) = some x) : x.2.header.previous = y.1 := by
  have hchain : c.reverse.IsChain fun y x => x.2.header.previous = y.1 :=
    List.isChain_reverse.mpr h.onChain.linked
  obtain ⟨hn, rfl⟩ := List.getElem?_eq_some_iff.mp hy
  obtain ⟨hn', rfl⟩ := List.getElem?_eq_some_iff.mp hx
  exact List.isChain_iff_getElem.mp hchain n hn'

/-- If the requester has a block of the responder's main chain then it has the blocks below. -/
theorem Placed.known_below (h : Placed crypto prune P Q s c K)
    (h' : Placed crypto prune' P' Q' s' d K')
    (hinj : Set.InjOn (BlockHeader.id crypto) (s.headers ∪ s'.headers)) (hle : m ≤ n)
    (hx : blockAt d n = some x) (hK : x.1 ∈ K) (hy : blockAt d m = some y) : y.1 ∈ K := by
  induction n, hle using Nat.le_induction generalizing x with
  | base =>
    rw [Option.some.inj (hy.symm.trans hx)]
    exact hK
  | succ n hle ih =>
    obtain ⟨hn, -⟩ := List.getElem?_eq_some_iff.mp hx
    obtain ⟨z, hz⟩ : ∃ z, blockAt d n = some z :=
      ⟨_, List.getElem?_eq_getElem (Nat.lt_of_succ_lt hn)⟩
    refine ih hz ?_
    rw [← h'.previous_eq hz hx]
    obtain ⟨hmem, hheight⟩ := h'.valid.blockAt_iff.mp hx
    -- both nodes have the same header under the block's ID
    obtain ⟨e, he, hid⟩ := h.tree.stored hK
    obtain ⟨storedAt, hst⟩ := h'.stored x hmem
    have hid' : x.1 = x.2.id crypto := h'.admitted.id_eq x hmem
    have hheader : e.block.header = x.2.header :=
      hinj (.inl ⟨_, e, he, rfl⟩) (.inr ⟨_, _, hst, rfl⟩) (hid.trans hid')
    have hne : x.1 ≠ genesisBlock.id crypto :=
      fun hg => Nat.succ_ne_zero n (h'.eq_of_blockAt hx h'.blockAt_zero hg)
    obtain ⟨e', he', hprev⟩ := h.parent_known hK hne
    obtain rfl : e = e' := Option.some.inj (he.symm.trans he')
    rw [← hheader]
    exact hprev

/-! ### Progress -/

/-- The blocks are consecutive on the node's main chain, from the height on. -/
def Consecutive (s : Processor) (height : Int) (inv : List BlockID) : Prop :=
  ∀ (i : Nat) (id : BlockID), inv[i]? = some id →
    s.ledger.getBlockIDForHeight (height + i) = some id

theorem Placed.consecutive (h : Placed crypto prune P Q s c K) (n m : Nat) :
    Consecutive s n (((c.reverse.drop n).take m).map Prod.fst) := by
  intro i id hi
  rw [List.getElem?_map, List.getElem?_take] at hi
  split_ifs at hi
  · rw [List.getElem?_drop] at hi
    rw [← Int.natCast_add, h.getBlockIDForHeight_eq]
    exact hi
  · exact absurd hi nofun

/-- The request that starts from a block of the responder's main chain above genesis is
answered with the blocks above it. -/
theorem Placed.answer_of_start (h : Placed crypto prune P Q s c K)
    (h' : Placed crypto prune' P' Q' s' d K') (hx : blockAt d (n + 1) = some x) (hK : x.1 ∈ K) :
    ∃ ids, Peer.sendFindCommonAncestor crypto s (some x.1) = .ok ids ∧
      Peer.onFindCommonAncestors s' ids =
        some (((d.reverse.drop (n + 2)).take maxBlocksPerInv).map Prod.fst) := by
  have hne : x.1 ≠ genesisBlock.id crypto :=
    fun hg => Nat.succ_ne_zero n (h'.eq_of_blockAt hx h'.blockAt_zero hg)
  have hstart : ∀ id ∈ some x.1, id ∈ K := by
    rintro _ ⟨⟩
    exact hK
  obtain ⟨rest, hreq, hhead, -⟩ := h.sendFindCommonAncestor_eq hstart
  obtain ⟨rest', rfl⟩ := List.head?_eq_some_iff.mp (hhead x.1 rfl hne)
  refine ⟨_, hreq, ?_⟩
  rw [Peer.onFindCommonAncestors, List.cons_append, List.findSome?_cons,
    h'.onFindCommonAncestor_of_blockAt hx]

theorem mem_answer {k : Nat} (hy : blockAt d m = some y) (hle : n ≤ m) (hlt : m < n + k) :
    y.1 ∈ ((d.reverse.drop n).take k).map Prod.fst := by
  refine List.mem_map_of_mem (List.mem_iff_getElem?.mpr ⟨m - n, ?_⟩)
  rw [List.getElem?_take_of_lt (by omega), List.getElem?_drop, Nat.add_sub_cancel' hle]
  exact hy

/-- An answer with known blocks only, while there is an unknown block, has the maximal length. -/
theorem Placed.known_answer (h : Placed crypto prune P Q s c K)
    (h' : Placed crypto prune' P' Q' s' d K')
    (hinj : Set.InjOn (BlockHeader.id crypto) (s.headers ∪ s'.headers))
    (hx : blockAt d n = some x) (hK : x.1 ∈ K) (hy : blockAt d m = some y) (hnew : y.1 ∉ K)
    (hknown : ∀ id ∈ ((d.reverse.drop (n + 1)).take maxBlocksPerInv).map Prod.fst, id ∈ K) :
    n + maxBlocksPerInv < m := by
  by_contra hle
  by_cases hbelow : m ≤ n
  · exact hnew (h.known_below h' hinj hbelow hx hK hy)
  · exact hnew (hknown y.1 (mem_answer hy (by omega) (by omega)))

/-- The request that starts from the last block of such an answer is answered with the blocks
that follow. -/
theorem Placed.follow_up (h : Placed crypto prune P Q s c K)
    (h' : Placed crypto prune' P' Q' s' d K') (hy : blockAt d m = some y)
    (hlt : n + maxBlocksPerInv < m)
    (hknown : ∀ id ∈ ((d.reverse.drop (n + 1)).take maxBlocksPerInv).map Prod.fst, id ∈ K) :
    1 < (((d.reverse.drop (n + 1)).take maxBlocksPerInv).map Prod.fst).length ∧
    ∃ last ids inv height,
      (((d.reverse.drop (n + 1)).take maxBlocksPerInv).map Prod.fst).getLast? = some last ∧
      Peer.sendFindCommonAncestor crypto s (some last) = .ok ids ∧
      Peer.onFindCommonAncestors s' ids = some inv ∧ inv ≠ [] ∧
      Consecutive s' height inv ∧ ((n + 1 : Nat) : Int) < height := by
  obtain ⟨hm, -⟩ := List.getElem?_eq_some_iff.mp hy
  have hlen : ((d.reverse.drop (n + 1)).take maxBlocksPerInv).length = maxBlocksPerInv := by
    rw [List.length_take, List.length_drop]
    omega
  obtain ⟨z, hz⟩ : ∃ z, blockAt d (n + 499 + 1) = some z :=
    ⟨_, List.getElem?_eq_getElem (lt_trans hlt hm)⟩
  have hlast : (((d.reverse.drop (n + 1)).take maxBlocksPerInv).map Prod.fst).getLast? =
      some z.1 := by
    rw [List.getLast?_eq_getElem?, List.length_map, hlen, List.getElem?_map,
      List.getElem?_take_of_lt (by decide), List.getElem?_drop]
    rw [show n + 1 + (maxBlocksPerInv - 1) = n + 499 + 1 by simp only [maxBlocksPerInv]]
    exact congrArg _ hz
  obtain ⟨ids, hreq, hans⟩ := h.answer_of_start h' hz (hknown _ (List.mem_of_getLast? hlast))
  refine ⟨?_, z.1, ids, _, _, hlast, hreq, hans, ?_, h'.consecutive _ _, ?_⟩
  · rw [List.length_map, hlen]
    decide
  · -- the block that is not known comes after the answer
    refine List.ne_nil_of_length_pos ?_
    rw [List.length_map, List.length_take, List.length_drop]
    simp only [maxBlocksPerInv] at hlt ⊢
    omega
  · omega

end Nodes

section Reachable

variable {crypto : Crypto} {prune prune' : Bool} {s s' : Processor} {startID : Option BlockID}

/-- **Synchronisation advances and yields no orphans.**  A request from the tip or from a block
that the requester has processed is answered with consecutive blocks of the responder's main
chain, the first of which has a parent that the requester has processed.  If the responder's
main chain has a block that the requester has not processed, then so has the answer, or it has
more than one block, and the request from its last block is answered with blocks that start
higher. -/
theorem sync_advances (h : Reachable crypto prune s) (h' : Reachable crypto prune' s')
    (hstart : ∀ id ∈ startID, s.ledger.Known id) :
    ∃ ids inv height, Peer.sendFindCommonAncestor crypto s startID = .ok ids ∧
      Peer.onFindCommonAncestors s' ids = some inv ∧ Consecutive s' height inv ∧
      (∀ id ∈ inv.head?, ∃ e, s'.blockStore[id]? = some e ∧
        s.ledger.Known e.block.header.previous) ∧
      (Set.InjOn (BlockHeader.id crypto) (s.headers ∪ s'.headers) →
        (∃ height' id, s'.ledger.getBlockIDForHeight height' = some id ∧ ¬ s.ledger.Known id) →
        (∃ id ∈ inv, ¬ s.ledger.Known id) ∨
        1 < inv.length ∧ ∃ last ids' inv' height', inv.getLast? = some last ∧
          Peer.sendFindCommonAncestor crypto s (some last) = .ok ids' ∧
          Peer.onFindCommonAncestors s' ids' = some inv' ∧ inv' ≠ [] ∧
          Consecutive s' height' inv' ∧ height < height') := by
  obtain ⟨c, K, hs⟩ := h.settled
  obtain ⟨d, K', hs'⟩ := h'.settled
  have hknown := hs.describes.known_iff
  simp only [hknown] at hstart ⊢
  have hp := hs.toPlaced
  have hp' := hs'.toPlaced
  obtain ⟨rest, hreq, -, hrest⟩ := hp.sendFindCommonAncestor_eq hstart
  obtain ⟨n, x, hx, hid, hans⟩ := hp'.onFindCommonAncestors_eq rest
  have hK : x.1 ∈ K := by
    obtain hid | hid := List.mem_append.mp hid
    · exact hrest x.1 hid
    · rw [List.mem_singleton.mp hid]
      exact hp.genesis_mem
  have hcons := hp'.consecutive (n + 1) maxBlocksPerInv
  refine ⟨_, _, _, hreq, hans, hcons, ?_, ?_⟩
  · intro id hid
    rw [List.head?_eq_getElem?] at hid
    have hfirst := hcons 0 id hid
    rw [Nat.cast_zero, add_zero, hp'.getBlockIDForHeight_eq] at hfirst
    obtain ⟨y, hy, rfl⟩ := Option.map_eq_some_iff.mp hfirst
    obtain ⟨storedAt, hst⟩ := hp'.stored y (hp'.valid.blockAt_iff.mp hy).1
    refine ⟨_, hst, ?_⟩
    rw [hp'.previous_eq hx hy]
    exact hK
  · rintro hinj ⟨height, id, hheight, hnew⟩
    by_cases hall : ∀ id ∈ ((d.reverse.drop (n + 1)).take maxBlocksPerInv).map Prod.fst, id ∈ K
    · right
      obtain ⟨m, y, -, hy, rfl⟩ := hp'.exists_height hheight
      have hlt := hp.known_answer hp' hinj hx hK hy hnew hall
      exact hp.follow_up hp' hy hlt hall
    · left
      push Not at hall
      exact hall

end Reachable

namespace Sample

/-- The blocks of the sample chain have different hashes. -/
theorem headers_injOn (prune prune' : Bool) {n m : Nat} (hn : n ≤ 100) (hm : m ≤ 100) :
    Set.InjOn (BlockHeader.id crypto)
      ((state prune 0 n).headers ∪ (state prune' 0 m).headers) := by
  have hmem : ∀ {prune n} {header : BlockHeader}, n ≤ 100 → header ∈ (state prune 0 n).headers →
      ∃ k ≤ 100, header = (entry 0 k).2.header := by
    rintro prune n _ hn ⟨id, e, he, rfl⟩
    have hrun := (settled prune hn (.inl rfl) (by decide)).1
    obtain ⟨⟨k, hk, heq⟩, -⟩ := hrun.stored (R := fun b => ∃ k ≤ 100, b = (entry 0 k).2)
      (by
        rintro b now source ⟨k, hk, hcall⟩ -
        exact ⟨k, hk, by injection hcall⟩)
      ⟨0, by omega, rfl⟩ he
    exact ⟨k, hk, by rw [heq]⟩
  intro a ha b hb hid
  obtain ⟨i, hi, rfl⟩ := ha.elim (hmem hn) (hmem hm)
  obtain ⟨j, hj, rfl⟩ := hb.elim (hmem hn) (hmem hm)
  have hid' : (entry 0 i).2.id crypto = (entry 0 j).2.id crypto := hid
  rw [entry_id, entry_id] at hid'
  have htime := time_bounds (n := i) (by omega)
  have htime' := time_bounds (n := j) (by omega)
  have hnat := ofNat_inj (by omega) (by omega) hid'
  simp only [time] at hnat htime htime'
  obtain rfl : i = j := by omega
  rfl

end Sample

/-- A node with two blocks learns from a node with four. -/
theorem sync_advances_to_block_three : ∃ ids inv,
    Peer.sendFindCommonAncestor Sample.crypto (Sample.state false 0 1) none = .ok ids ∧
    Peer.onFindCommonAncestors (Sample.state true 0 3) ids = some inv ∧
    ((∃ id ∈ inv, ¬ (Sample.state false 0 1).ledger.Known id) ∨ 1 < inv.length) := by
  have hs := (Sample.settled false (n := 1) (by omega) (.inl rfl) (by decide)).2
  have hs' := (Sample.settled true (n := 3) (by omega) (.inl rfl) (by decide)).2
  have htip : ∀ id ∈ (none : Option BlockID), (Sample.state false 0 1).ledger.Known id :=
    fun _ => nofun
  obtain ⟨ids, inv, height, hreq, hans, -, -, hnew⟩ :=
    sync_advances (Sample.reachable false (n := 1) (by omega) (.inl rfl) (by decide))
      (Sample.reachable true (n := 3) (by omega) (.inl rfl) (by decide)) htip
  have hinj := Sample.headers_injOn false true (n := 1) (m := 3) (by omega) (by omega)
  refine ⟨ids, inv, hreq, hans, (hnew hinj ?_).imp_right And.left⟩
  refine ⟨3, (Sample.entry 0 3).1, ?_, ?_⟩
  · exact hs'.getBlockIDForHeight_eq 3
  · rw [hs.describes.known_iff]
    have hnodup : (Sample.chain 0 3).ids.Nodup := Sample.chain_nodup (by omega)
    exact fun hmem => (List.nodup_cons.mp hnodup).1 (List.mem_cons_of_mem _ hmem)

end Cruzbit

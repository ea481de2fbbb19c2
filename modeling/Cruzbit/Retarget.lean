/-
Cruzbit/Retarget.lean

The target of a block and its ancestors.

The original target computation walks back along `Previous`.  The revised one
looks the first block of its window up in the height index, and the height
index describes the main chain, which need not be the chain the parent is
on.  So the required target can depend on a block that is no ancestor, and
the lookup can even find nothing.

`Maintained.target_iff` says exactly when it depends on the ancestors alone:
the main chain has, 144 below the parent, the parent's own ancestor, and the
work since then is not too small to count.  The states considered are those
in which known blocks are linked down to genesis and the height index lists
one of the branches (`Maintained`); every state of a run is one
(`Placed.maintained`).
-/
import Cruzbit.BestChain

namespace Cruzbit

open Chain Lineage

/-- Known blocks are linked by `Previous` down to genesis, and the height index
describes one main branch. -/
structure Maintained (crypto : Crypto) (blockStore : BlockStorage) (ledger : Ledger) : Prop where
  linked : ∀ id, ledger.Known id → ∃ b c, BlockLine crypto blockStore ((id, b) :: c) ∧
    Stored blockStore ((id, b) :: c) ∧ ∀ y ∈ c, ledger.Known y.1
  main : ∃ c : Chain, BlockLine crypto blockStore c ∧ Stored blockStore c ∧ ledger.Indexes c ∧
    ∀ id, ledger.getBranchType id = .main ↔ id ∈ c.ids

/-- `computeTarget` does not panic and returns the target obtained from the
header reached by following `Previous` 144 times, over a window with some
work in it. -/
def TargetFromAncestor (blockStore : BlockStorage) (ledger : Ledger) (prevHeader : BlockHeader) :
    Prop :=
  ∃ firstHeader target,
    walkHeaders blockStore retargetSmaWindow.toNat prevHeader = .ok firstHeader ∧
    0 < windowWork prevHeader firstHeader ∧ windowTarget prevHeader firstHeader = .ok target ∧
    computeTarget prevHeader blockStore ledger = .ok target

section Maintained

variable {crypto : Crypto} {prune : Bool} {P : Transaction → Prop} {Q : Processor → Prop}
  {s : Processor} {c d : Chain} {K : Set BlockID} {x y : BlockID × Block}
  {blockStore blockStore' : BlockStorage} {ledger : Ledger}

theorem Placed.maintained (h : Placed crypto prune P Q s c K) :
    Maintained crypto s.blockStore s.ledger := by
  obtain ⟨t, c, rfl⟩ := List.exists_cons_of_ne_nil h.admitted.ne_nil
  constructor
  · intro id hid
    obtain ⟨b, d, hadm, hst, hd⟩ := h.tree id ((h.describes.known_iff id).mp hid)
    exact ⟨b, d, hadm.line hst, hst, fun y hy => (h.describes.known_iff y.1).mpr (hd y hy)⟩
  · exact ⟨t :: c, h.admitted.line h.stored, h.stored, h.mainPath.indexes,
      h.describes.getBranchType_eq_main⟩

/-! ### The window -/

/-- With some work in the window there is a target. -/
theorem windowTarget_ok {prevHeader firstHeader : BlockHeader}
    (h : 0 < windowWork prevHeader firstHeader) :
    ∃ target, windowTarget prevHeader firstHeader = .ok target := by
  have hdiv : (2 ^ 256 : Int) / windowWork prevHeader firstHeader ≤ 2 ^ 256 :=
    Int.ediv_le_self _ (by norm_num)
  have hdiv₀ : 0 ≤ (2 ^ 256 : Int) / windowWork prevHeader firstHeader :=
    Int.ediv_nonneg (by norm_num) h.le
  simp only [windowTarget, failIf, if_neg h.ne', bind, Except.bind, setBigInt]
  generalize (2 ^ 256 : Int) / windowWork prevHeader firstHeader = q at hdiv hdiv₀
  split_ifs with hbig hover hover
  · exact absurd hover (by simp [initialTarget])
  · exact ⟨_, rfl⟩
  · exact absurd hover (by omega)
  · exact ⟨_, rfl⟩

theorem windowTarget_eq_ok {prevHeader firstHeader : BlockHeader} {target : BlockID}
    (h : windowTarget prevHeader firstHeader = .ok target) :
    target.toNat =
      (min (2 ^ 256 / windowWork prevHeader firstHeader - 1) (initialTarget : Int)).natAbs := by
  simp only [windowTarget, Res.bind_eq_ok, Res.exists_unit] at h
  rw [setBigInt_eq_ok h.2]
  congr 1
  split_ifs with hbig <;> omega

theorem windowWork_of_work_eq {prevHeader firstHeader : BlockHeader}
    (h : firstHeader.chainWork = prevHeader.chainWork) : windowWork prevHeader firstHeader = 0 := by
  simp [windowWork, h]

/-- The revised computation, once the first block is looked up. -/
theorem computeTarget_of_lookup {prevHeader : BlockHeader} {firstID : BlockID} {e : StoredBlock}
    (hheight : bitcoinCashRetargetAlgorithmHeight ≤ prevHeader.height)
    (hid : ledger.getBlockIDForHeight (prevHeader.height - retargetSmaWindow) = some firstID)
    (he : blockStore[firstID]? = some e) :
    computeTarget prevHeader blockStore ledger = windowTarget prevHeader e.block.header := by
  simp [computeTarget, hheight, computeTargetBitcoinCash, hid, BlockStorage.derefHeader,
    BlockStorage.getBlockHeader, he, bind, Except.bind]

/-! ### A block that is no ancestor -/

/-- The stored block with another chain work. -/
def StoredBlock.setChainWork (e : StoredBlock) (work : BlockID) : StoredBlock :=
  { e with block := { e.block with header := { e.block.header with chainWork := work } } }

/-- The entry of a line after the block `id` got another chain work. -/
def setChainWorkAt (id work : BlockID) (x : BlockID × Block) : BlockID × Block :=
  if x.1 = id then (x.1, { x.2 with header := { x.2.header with chainWork := work } }) else x

section SetChainWork

variable {id work : BlockID} {e : StoredBlock}

theorem setChainWorkAt_header (id work : BlockID) (x : BlockID × Block) :
    (setChainWorkAt id work x).1 = x.1 ∧
      (setChainWorkAt id work x).2.header.previous = x.2.header.previous ∧
      (setChainWorkAt id work x).2.header.height = x.2.header.height := by
  unfold setChainWorkAt
  split_ifs <;> exact ⟨rfl, rfl, rfl⟩

theorem stored_setChainWork (he : blockStore[id]? = some e) {storedAt : Int}
    (hx : blockStore[x.1]? = some ⟨x.2, storedAt⟩) :
    (blockStore.insert id (e.setChainWork work))[(setChainWorkAt id work x).1]? =
      some ⟨(setChainWorkAt id work x).2, storedAt⟩ := by
  rw [(setChainWorkAt_header id work x).1, Table.get_insert]
  unfold setChainWorkAt
  by_cases hid : x.1 = id
  · rw [if_pos hid.symm, if_pos hid]
    obtain rfl : e = ⟨x.2, storedAt⟩ := Option.some.inj (he.symm.trans (hid ▸ hx))
    rfl
  · rw [if_neg (Ne.symm hid), if_neg hid, hx]

variable (work) in
/-- The links of a line do not depend on chain work. -/
theorem BlockLine.setChainWork (h : BlockLine crypto blockStore c) (hst : Stored blockStore c)
    (he : blockStore[id]? = some e) (hne : id ≠ genesisBlock.id crypto) :
    BlockLine crypto (blockStore.insert id (e.setChainWork work))
        (c.map (setChainWorkAt id work)) ∧
      Stored (blockStore.insert id (e.setChainWork work)) (c.map (setChainWorkAt id work)) := by
  have hstored : Stored (blockStore.insert id (e.setChainWork work))
      (c.map (setChainWorkAt id work)) := by
    intro y hy
    obtain ⟨x, hx, rfl⟩ := List.mem_map.mp hy
    obtain ⟨storedAt, hget⟩ := hst x hx
    exact ⟨storedAt, stored_setChainWork he hget⟩
  refine ⟨⟨?_, ?_⟩, hstored⟩
  · rw [List.isChain_map]
    refine h.chain.imp fun x y hxy => ?_
    obtain ⟨hx₁, hx₂, hx₃⟩ := setChainWorkAt_header id work x
    obtain ⟨hy₁, hy₂, hy₃⟩ := setChainWorkAt_header id work y
    obtain ⟨storedAt, hget⟩ := hxy.stored
    exact ⟨by rw [hx₂, hy₁, hxy.previous], by rw [hx₃, hy₃, hxy.height],
      by rw [hy₃]; exact hxy.height_nonneg, storedAt, stored_setChainWork he hget⟩
  · rw [List.getLast?_map, h.last, Option.map_some, setChainWorkAt, if_neg]
    exact Ne.symm hne

theorem ids_setChainWorkAt (c : Chain) : ids (c.map (setChainWorkAt id work)) = ids c := by
  rw [ids, ids, List.map_map]
  exact List.map_congr_left fun x _ => (setChainWorkAt_header id work x).1

/-- Changing the chain work of a block keeps a state maintained. -/
theorem Maintained.setChainWork (h : Maintained crypto blockStore ledger)
    (he : blockStore[id]? = some e) (hne : id ≠ genesisBlock.id crypto) (work : BlockID) :
    Maintained crypto (blockStore.insert id (e.setChainWork work)) ledger := by
  constructor
  · intro id' hid'
    obtain ⟨b, c, hline, hst, hc⟩ := h.linked id' hid'
    obtain ⟨hline', hst'⟩ := BlockLine.setChainWork work hline hst he hne
    have hhead : setChainWorkAt id work (id', b) = (id', (setChainWorkAt id work (id', b)).2) :=
      Prod.ext (setChainWorkAt_header id work (id', b)).1 rfl
    rw [List.map_cons, hhead] at hline' hst'
    refine ⟨_, _, hline', hst', fun y hy => ?_⟩
    obtain ⟨x, hx, rfl⟩ := List.mem_map.mp hy
    rw [(setChainWorkAt_header id work x).1]
    exact hc x hx
  · obtain ⟨c, hline, hst, hindex, hmain⟩ := h.main
    obtain ⟨hline', hst'⟩ := BlockLine.setChainWork work hline hst he hne
    refine ⟨_, hline', hst', fun height id' => ?_, fun id' => ?_⟩
    · have hblock (n : Nat) : (blockAt (c.map (setChainWorkAt id work)) n).map Prod.fst =
          (blockAt c n).map Prod.fst := by
        rw [blockAt, blockAt, ← List.map_reverse, List.getElem?_map, Option.map_map]
        exact congrArg (fun f => Option.map f c.reverse[n]?)
          (funext fun x => (setChainWorkAt_header id work x).1)
      simp only [hblock]
      exact hindex height id'
    · rw [hmain, ids_setChainWorkAt]

end SetChainWork

/-! ### When the target depends on the ancestors alone -/

theorem exists_append_of_blockAt {n : Nat} (h : blockAt c n = some x) :
    ∃ d e, c = d ++ x :: e ∧ e.length = n := by
  obtain ⟨hn, hx⟩ := List.getElem?_eq_some_iff.mp h
  refine ⟨(c.reverse.drop (n + 1)).reverse, (c.reverse.take n).reverse, ?_, ?_⟩
  · have hsplit : c.reverse = c.reverse.take n ++ x :: c.reverse.drop (n + 1) := by
      rw [← hx, ← List.drop_eq_getElem_cons hn, List.take_append_drop]
    have := congrArg List.reverse hsplit
    rwa [List.reverse_reverse, List.reverse_append, List.reverse_cons, List.append_assoc,
      List.singleton_append] at this
  · simp only [List.length_reverse, List.length_take] at hn ⊢
    omega

theorem exists_append_of_lt {n : Nat} (h : n < c.length) :
    ∃ (d : Chain) (y : BlockID × Block) (e : Chain), d.length = n ∧ c = d ++ y :: e :=
  ⟨c.take n, _, _, List.length_take_of_le h.le,
    (List.take_append_drop n c).symm.trans (by rw [List.drop_eq_getElem_cons h])⟩

/-- The block that the height index gives is stored and has that height. -/
theorem Maintained.lookup (h : Maintained crypto blockStore ledger) {height : Int} {id : BlockID}
    (hid : ledger.getBlockIDForHeight height = some id) :
    ∃ e, blockStore[id]? = some e ∧ e.block.header.height = height := by
  obtain ⟨c, hline, hst, hindex, -⟩ := h.main
  obtain ⟨n, rfl, hblock⟩ := (hindex height id).mp hid
  obtain ⟨x, hx, rfl⟩ := Option.map_eq_some_iff.mp hblock
  obtain ⟨d, e, rfl, hlen⟩ := exists_append_of_blockAt hx
  obtain ⟨storedAt, hget⟩ := hst x (by simp)
  exact ⟨_, hget, by rw [BlockLine.height_of_append hline, hlen]⟩

theorem Maintained.genesis_height (h : Maintained crypto blockStore ledger) {e : StoredBlock}
    (he : blockStore[genesisBlock.id crypto]? = some e) : e.block.header.height = 0 := by
  obtain ⟨c, hline, hst, -, -⟩ := h.main
  obtain ⟨storedAt, hget⟩ := hst _ (List.mem_of_getLast? hline.last)
  obtain rfl : e = _ := Option.some.inj (he.symm.trans hget)
  rfl

/-- A line has one block at each height. -/
theorem BlockLine.eq_of_height (h : BlockLine crypto blockStore c) (hx : x ∈ c) (hy : y ∈ c)
    (heq : x.2.header.height = y.2.header.height) : x = y := by
  obtain ⟨d, e, hc⟩ := List.append_of_mem hx
  obtain ⟨d', e', hc'⟩ := List.append_of_mem hy
  have hlen : e.length = e'.length := by
    have h₁ : x.2.header.height = e.length := BlockLine.height_of_append (hc ▸ h)
    have h₂ : y.2.header.height = e'.length := BlockLine.height_of_append (hc' ▸ h)
    omega
  have htail := List.append_inj_right' (hc.symm.trans hc') (by simp [hlen])
  exact (List.cons.inj htail).1

theorem Maintained.target_iff (h : Maintained crypto blockStore ledger)
    (hline : BlockLine crypto blockStore (x :: c)) (hst : Stored blockStore (x :: c))
    (hheight : bitcoinCashRetargetAlgorithmHeight ≤ x.2.header.height) :
    (∀ blockStore', Maintained crypto blockStore' ledger → Stored blockStore' (x :: c) →
      TargetFromAncestor blockStore' ledger x.2.header) ↔
    ∃ first, (c.drop (retargetSmaWindow.toNat - 1)).head? = some first ∧
      ledger.getBlockIDForHeight (x.2.header.height - retargetSmaWindow) = some first.1 ∧
      0 < windowWork x.2.header first.2.header := by
  -- the ancestor 144 below
  have hlen : x.2.header.height = c.length := BlockLine.height_eq hline
  have hwindow : retargetSmaWindow.toNat - 1 < c.length := by
    simp only [bitcoinCashRetargetAlgorithmHeight, retargetSmaWindow] at hheight ⊢
    omega
  obtain ⟨d, a, below, hd, hsplit⟩ := exists_append_of_lt hwindow
  have hhead : (c.drop (retargetSmaWindow.toNat - 1)).head? = some a := by
    rw [hsplit, ← hd, List.drop_left]
    rfl
  have hwalk : ∀ blockStore', Stored blockStore' (x :: c) →
      walkHeaders blockStore' retargetSmaWindow.toNat x.2.header = .ok a.2.header := by
    intro blockStore' hst'
    have hline' := BlockLine.of_stored hline hst'
    rw [hsplit] at hline'
    have := walkHeaders_eq (d := x :: d) hline' rfl
    rwa [List.length_cons, hd] at this
  have ha : a ∈ x :: c := by simp [hsplit]
  constructor
  · intro hall
    obtain ⟨firstHeader, target, hfirst, hwork, hwt, htarget⟩ := hall blockStore h hst
    obtain rfl : a.2.header = firstHeader :=
      Except.ok.inj ((hwalk blockStore hst).symm.trans hfirst)
    refine ⟨a, hhead, ?_, hwork⟩
    cases hid : ledger.getBlockIDForHeight (x.2.header.height - retargetSmaWindow) with
    | none => simp [computeTarget, hheight, computeTargetBitcoinCash, hid] at htarget
    | some firstID =>
      by_contra hne
      obtain ⟨e, he, heh⟩ := h.lookup hid
      have hgen : firstID ≠ genesisBlock.id crypto := by
        rintro rfl
        rw [h.genesis_height he] at heh
        simp only [bitcoinCashRetargetAlgorithmHeight, retargetSmaWindow] at hheight heh
        omega
      -- the block is no ancestor of `x`, so its chain work may be anything
      have hforeign : ∀ y ∈ x :: c, firstID ≠ y.1 := by
        rintro y hy rfl
        obtain ⟨storedAt, hget⟩ := hst y hy
        obtain rfl : e = ⟨y.2, storedAt⟩ := Option.some.inj (he.symm.trans hget)
        have hha : a.2.header.height = x.2.header.height - retargetSmaWindow := by
          have hlen' := congrArg List.length hsplit
          have hbelow : a.2.header.height = below.length :=
            BlockLine.height_of_append (d := x :: d) (by rw [hsplit] at hline; exact hline)
          simp only [List.length_append, List.length_cons, hd] at hlen'
          simp only [retargetSmaWindow] at hlen' ⊢
          omega
        obtain rfl : y = a := BlockLine.eq_of_height hline hy ha (heh.trans hha.symm)
        exact hne rfl
      have h' := h.setChainWork he hgen x.2.header.chainWork
      have hst' : Stored (blockStore.insert firstID (e.setChainWork x.2.header.chainWork))
          (x :: c) := by
        intro y hy
        obtain ⟨storedAt, hget⟩ := hst y hy
        exact ⟨storedAt, by rw [Table.get_insert, if_neg (hforeign y hy), hget]⟩
      have hself : (blockStore.insert firstID (e.setChainWork x.2.header.chainWork))[firstID]? =
          some (e.setChainWork x.2.header.chainWork) := by
        rw [Table.get_insert, if_pos rfl]
      obtain ⟨-, target', -, -, -, htarget'⟩ := hall _ h' hst'
      have hzero : windowWork x.2.header (e.setChainWork x.2.header.chainWork).block.header = 0 :=
        windowWork_of_work_eq rfl
      rw [computeTarget_of_lookup hheight hid hself, windowTarget, hzero] at htarget'
      simp [failIf, bind, Except.bind] at htarget'
  · rintro ⟨first, hfirst, hid, hwork⟩ blockStore' h' hst'
    obtain rfl : a = first := Option.some.inj (hhead.symm.trans hfirst)
    obtain ⟨target, htarget⟩ := windowTarget_ok hwork
    obtain ⟨storedAt, hget⟩ := hst' a ha
    exact ⟨a.2.header, target, hwalk blockStore' hst', hwork, htarget,
      (computeTarget_of_lookup hheight hid hget).trans htarget⟩

end Maintained

end Cruzbit

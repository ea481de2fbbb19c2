/-
Cruzbit/DeepFork.lean

A fork that is deeper than the window of the revised target computation.

`target_of_ancestors_iff` says exactly when the required target depends on the
ancestors alone: the main chain has, 144 below the parent, the parent's own
ancestor, and the work since then is not too small to count.  On the pinned
chain both branches part at height 28716 and reach height 28861, so the block
144 below the tip of the side branch is not on the main chain.  The run that
delivers them is a fork on which the node requires a target that the ancestors
do not give (`DeepFork.target_of_foreign_block`).
-/
import Cruzbit.Checkpoints

namespace Cruzbit

open Chain Lineage Word

namespace DeepFork

open Pinned

/-- Both branches reach the height of the revised algorithm. -/
@[irreducible] def height : Nat := 28861

theorem height_eq : height = 28861 := by rw [height]

/-! ### The run -/

/-- The main branch is complete, and the side branch has `k` blocks of its own. -/
def state (prune : Bool) : Nat → Processor
  | 0 => Pinned.state prune height
  | k + 1 => ((state prune k).step crypto prune (entry true (28716 + k + 1)).2.call).1

/-- The blocks known by then. -/
def known (k : Nat) : Set BlockID :=
  {id | id ∈ (chain false height).ids} ∪ {id | id ∈ (chain true (28716 + k)).ids}

/-- The main branch is the main chain, and both branches are stored. -/
structure Forked (prune : Bool) (k : Nat) (s : Processor) : Prop where
  run : Run crypto prune Delivers s
  settled : Settled crypto prune (fun _ => True) (Run crypto prune Delivers) s
    (chain false height) (known k)
  tip : s.blockStore[(entry false height).1]? =
    some ⟨(entry false height).2, (entry false height).2.header.time⟩
  side : Stored s.blockStore (chain true (28716 + k))

variable {prune : Bool} {k : Nat} {s : Processor}

theorem entry_shared {n : Nat} (hn : n ≤ 28716) : entry true n = entry false n := by
  cases n with
  | zero => rfl
  | succ n =>
    show ((block true (n + 1)).id crypto, block true (n + 1)) = _
    rw [block_shared true hn]
    rfl

theorem entry_mem {n : Nat} (side : Bool) (hn : n ≤ height) : entry side n ∈ chain side height :=
  mem_chain.mpr ⟨n, hn, rfl⟩

theorem shared_mem {x : BlockID × Block} (hx : x ∈ chain true 28716) : x ∈ chain false height := by
  have hheight := height_eq
  obtain ⟨n, hn, rfl⟩ := mem_chain.mp hx
  exact mem_chain.mpr ⟨n, by omega, (entry_shared hn).symm⟩

theorem forked_zero (prune : Bool) : Forked prune 0 (state prune 0) := by
  have hheight := height_eq
  obtain ⟨hrun, hs, htimes⟩ := Pinned.settled prune hheight.le
  have hK : known 0 = {id | id ∈ (chain false height).ids} := by
    refine Set.union_eq_left.mpr fun id hid => ?_
    obtain ⟨x, hx, rfl⟩ := List.mem_map.mp hid
    exact List.mem_map_of_mem (shared_mem hx)
  refine ⟨hrun, hK ▸ hs, htimes _ (entry_mem false le_rfl), fun x hx => ?_⟩
  exact ⟨_, htimes x (shared_mem hx)⟩

/-- A block of the side branch is new when it is delivered. -/
theorem not_known (hk : k < 145) : (entry true (28716 + k + 1)).1 ∉ known k := by
  have hheight := height_eq
  rintro (hmem | hmem)
  all_goals
    obtain ⟨x, hx, hid⟩ := List.mem_map.mp hmem
    obtain ⟨n, hn, rfl⟩ := mem_chain.mp hx
    rw [entry_fst _ (by omega), entry_fst _ (by omega)] at hid
    have := blockID_inj (by omega) (by omega) hid
    simp only [Bool.false_eq_true, or_false, or_true, and_true] at this
    omega

theorem entry_work (side : Bool) {n : Nat} (hn : n ≤ 28861) :
    (entry side n).2.header.chainWork.toNat = 0x100010001 * (n + 1) := by
  rw [entry_chainWork, BitVec.toNat_ofNat, Nat.mod_eq_of_lt (by omega)]

/-- It never has more work than the tip, and it comes later. -/
theorem not_better (hk : k < 145) :
    (entry true (28716 + k + 1)).2.header.compare crypto (entry false height).2.header
      (entry true (28716 + k + 1)).2.header.time (entry false height).2.header.time = false := by
  have hheight := height_eq
  rw [← Bool.not_eq_true, compare_iff, entry_work true (by omega), entry_work false (by omega),
    entry_time, entry_time]
  have hlate : k = 144 → time false height < time true (28716 + k + 1) := by
    rintro rfl
    rw [hheight]
    decide
  omega

theorem Forked.passes (h : Forked prune k s) (hk : k < 145) :
    Passes crypto (fun _ => True) (Run crypto prune Delivers) s (known k)
      (entry true (28716 + k + 1)).2 (entry true (28716 + k + 1)).2.header.time
      (chain true (28716 + k)) := by
  have hanc : Ancestry crypto prune ancestorTarget (chain true (28716 + k)) :=
    ancestry prune true (by omega)
  have hfollows := follows (show 28716 + k + 1 ≤ 28861 by omega) hanc
  obtain ⟨now, hok⟩ := hfollows.checked
  have horphan := h.run.orphan (fun _ _ _ hcall => hcall.ne_null) genesis_ne_null
  refine h.settled.passes_of_target horphan (fun p hp => ?_) hanc hfollows.toProposed h.side
    (fun y hy => ?_) (not_known hk) (le_maxFuture hok)
  · have hline := hanc.line h.side
    have hst := h.side
    rw [chain_eq_cons] at hp hline hst ⊢
    obtain rfl : entry true (28716 + k) = p := Option.some.inj hp
    refine computeTarget_eq_ancestorTarget _ hline hst ?_
    rw [entry_height]
    simp only [bitcoinCashRetargetAlgorithmHeight]
    omega
  · exact Or.inr (List.mem_map_of_mem hy)

/-- **One more block on the side branch.** -/
theorem Forked.step (h : Forked prune k s) (hk : k < 145) :
    Forked prune (k + 1) (s.step crypto prune (entry true (28716 + k + 1)).2.call).1 := by
  have hpass := h.passes hk
  have hvalid : Valid crypto prune (entry true (28716 + k + 1) :: chain true (28716 + k)) := by
    rw [← chain_succ]
    exact (ancestry prune true (by omega)).valid (chain_nodup true (by omega))
  obtain ⟨c, hc⟩ : ∃ c, chain false height = entry false height :: c :=
    ⟨_, chain_eq_cons false height⟩
  have hs := h.settled
  rw [hc] at hs
  obtain ⟨hs', -⟩ := hs.puts_aside h.run "" (vouches_true _) hpass hvalid h.tip (not_better hk)
  have hstore := (hs.judged h.run "" (vouches_true _) hpass).1
  have hK : known (k + 1) = insert (entry true (28716 + k + 1)).1 (known k) := by
    have hids : (chain true (28716 + k + 1)).ids =
        (entry true (28716 + k + 1)).1 :: (chain true (28716 + k)).ids := by
      rw [chain_succ]
      rfl
    ext id
    show _ ∨ id ∈ (chain true (28716 + k + 1)).ids ↔ _ ∨ _ ∨ _
    rw [hids, List.mem_cons]
    exact or_left_comm
  have hkeep (id : BlockID) (hid : id ∈ known k) :
      (s.step crypto prune (entry true (28716 + k + 1)).2.call).1.blockStore[id]? =
        s.blockStore[id]? := by
    refine (congrArg (·[id]?) hstore).trans ((BlockStorage.get_store _ _ _ _ _).trans (if_neg ?_))
    rintro rfl
    exact not_known hk hid
  refine ⟨h.run.call _ ⟨true, 28716 + k + 1, by omega, rfl⟩, ?_, ?_, ?_⟩
  · rw [hc, hK]
    exact hs'
  · rw [hkeep _ (Or.inl (List.mem_map_of_mem (entry_mem false le_rfl)))]
    exact h.tip
  · show Stored _ (chain true (28716 + k + 1))
    rw [chain_succ]
    refine List.forall_mem_cons.mpr ⟨⟨_, (congrArg (·[_]?) hstore).trans
      ((BlockStorage.get_store _ _ _ _ _).trans (if_pos rfl))⟩, fun y hy => ?_⟩
    rw [hkeep _ (Or.inr (List.mem_map_of_mem hy))]
    exact h.side y hy

theorem forked (prune : Bool) (hk : k ≤ 145) : Forked prune k (state prune k) := by
  induction k with
  | zero => exact forked_zero prune
  | succ k ih => exact (ih (by omega)).step hk

/-! ### The targets -/

theorem Forked.maintained (h : Forked prune k s) : Maintained crypto s.blockStore s.ledger :=
  h.settled.toPlaced.maintained

/-- Both branches are stored in full. -/
theorem Forked.stored (h : Forked prune 145 s) (side : Bool) :
    Stored s.blockStore (chain side height) := by
  cases side with
  | false => exact h.settled.stored
  | true =>
    rw [height_eq]
    exact h.side

theorem Forked.line (h : Forked prune 145 s) (side : Bool) :
    BlockLine crypto s.blockStore (chain side height) :=
  (ancestry prune side height_eq.le).line (h.stored side)

theorem Forked.known (h : Forked prune 145 s) (side : Bool) {x : BlockID × Block}
    (hx : x ∈ chain side height) : s.ledger.Known x.1 := by
  refine (h.settled.describes.known_iff x.1).mpr ?_
  cases side with
  | false => exact Or.inl (List.mem_map_of_mem hx)
  | true =>
    rw [height_eq] at hx
    exact Or.inr (List.mem_map_of_mem hx)

/-- The height index lists the main branch. -/
theorem Forked.getBlockIDForHeight_eq (h : Forked prune k s) {n : Nat} (hn : n ≤ height) :
    s.ledger.getBlockIDForHeight n = some (entry false n).1 := by
  obtain ⟨c, hc⟩ : ∃ c, chain false height = entry false height :: c :=
    ⟨_, chain_eq_cons false height⟩
  have hs := h.settled
  rw [hc] at hs
  refine (hs.mainPath.indexes n _).mpr ⟨n, rfl, ?_⟩
  rw [← hc, blockAt_chain hn]
  rfl

theorem past_switch (side : Bool) :
    bitcoinCashRetargetAlgorithmHeight ≤ (entry side height).2.header.height := by
  rw [entry_height, height_eq]
  decide

/-- The window of the next block begins 144 below. -/
theorem window_height (side : Bool) :
    (entry side height).2.header.height - retargetSmaWindow = (height - 144 : Nat) := by
  have hheight := height_eq
  rw [entry_height, retargetSmaWindow]
  omega

/-- **The target required after a branch is computed from the main branch.** -/
theorem Forked.computeTarget_eq (h : Forked prune 145 s) (side : Bool) :
    computeTarget (entry side height).2.header s.blockStore s.ledger =
      windowTarget (entry side height).2.header (entry false (height - 144)).2.header := by
  obtain ⟨storedAt, hget⟩ := h.stored false _ (entry_mem false (Nat.sub_le height 144))
  have hid := h.getBlockIDForHeight_eq (Nat.sub_le height 144)
  rw [← window_height side] at hid
  rw [computeTarget_of_lookup (past_switch side) hid hget]

/-- The work in a window that ends with one branch and begins on another. -/
theorem windowWork_eq {side side' : Bool} {span : Int}
    (hspan : time side height - time side' (height - 144) = span) (hlo : 43200 ≤ span)
    (hhi : span ≤ 172800) :
    windowWork (entry side height).2.header (entry side' (height - 144)).2.header =
      0x100010001 * 144 * 600 / span := by
  have hheight := height_eq
  have hwork : ((0x100010001 * (height + 1) : Nat) : Int) -
      (0x100010001 * (height - 144 + 1) : Nat) = 0x100010001 * 144 := by omega
  have hbounds : ¬ span > 2 * retargetSmaWindow * targetSpacing ∧
      ¬ span < retargetSmaWindow / 2 * targetSpacing := by
    simp only [retargetSmaWindow, targetSpacing]
    omega
  rw [windowWork, windowTimespan, entry_work side (by omega), entry_work side' (by omega),
    entry_time, entry_time, hspan, hwork, if_neg hbounds.1, if_neg hbounds.2]
  rfl

end DeepFork

/-! ### When the target depends on the ancestors alone -/

/-- **When the required target depends on the ancestors alone.**  A known block
`x` has a line of ancestors `c`.  Whatever else is in storage, `computeTarget`
returns the target of the block 144 below `x` on this line, if and only if the
height index lists that block at its height and there is work in the window. -/
theorem target_of_ancestors_iff {crypto : Crypto} {blockStore : BlockStorage} {ledger : Ledger}
    {x : BlockID × Block} (h : Maintained crypto blockStore ledger)
    (hx : ledger.Known x.1) {storedAt : Int} (hget : blockStore[x.1]? = some ⟨x.2, storedAt⟩)
    (hheight : bitcoinCashRetargetAlgorithmHeight ≤ x.2.header.height) :
    ∃ c, BlockLine crypto blockStore (x :: c) ∧
      ((∀ blockStore', Maintained crypto blockStore' ledger → Stored blockStore' (x :: c) →
        TargetFromAncestor blockStore' ledger x.2.header) ↔
      ∃ first, (c.drop (retargetSmaWindow.toNat - 1)).head? = some first ∧
        ledger.getBlockIDForHeight (x.2.header.height - retargetSmaWindow) = some first.1 ∧
        0 < windowWork x.2.header first.2.header) := by
  obtain ⟨b, c, hline, hst, -⟩ := h.linked x.1 hx
  obtain ⟨t, ht⟩ := hst _ List.mem_cons_self
  obtain rfl : x.2 = b := congrArg StoredBlock.block (Option.some.inj (hget.symm.trans ht))
  exact ⟨c, hline, h.target_iff hline hst hheight⟩

namespace DeepFork

open Pinned

/-- **A foreign first block**: the target required after the side branch is not
the one its ancestors give. -/
theorem target_of_foreign_block :
    Reachable crypto false (state false 145) ∧
      Maintained crypto (state false 145).blockStore (state false 145).ledger ∧
      (state false 145).ledger.Known (entry true height).1 ∧
      (∃ storedAt, (state false 145).blockStore[(entry true height).1]? =
        some ⟨(entry true height).2, storedAt⟩) ∧
      bitcoinCashRetargetAlgorithmHeight ≤ (entry true height).2.header.height ∧
      ¬ TargetFromAncestor (state false 145).blockStore (state false 145).ledger
        (entry true height).2.header := by
  have hf := forked false (le_refl 145)
  generalize state false 145 = s at hf ⊢
  have hheight := height_eq
  have hmem := entry_mem true (le_refl height)
  refine ⟨hf.run.mono fun _ _ => trivial, hf.maintained, hf.known true hmem,
    hf.stored true _ hmem, past_switch true, ?_⟩
  rintro ⟨firstHeader, target, hwalk, -, hwindow, htarget⟩
  have hown : walkHeaders s.blockStore 144 (entry true height).2.header =
      .ok (entry true (height - 144)).2.header := walkHeaders_chain (hf.line true) (by omega)
  obtain rfl := Except.ok.inj (hown.symm.trans hwalk)
  rw [hf.computeTarget_eq] at htarget
  -- the block of the side branch came later, so the same work took less time
  have hspan : time true height - time true (height - 144) = 57744 := by
    rw [hheight]
    decide
  have hspan' : time true height - time false (height - 144) = 57845 := by
    rw [hheight]
    decide
  have hside := windowTarget_eq_ok hwindow
  have hmain := windowTarget_eq_ok htarget
  rw [windowWork_eq hspan (by omega) (by omega)] at hside
  rw [windowWork_eq hspan' (by omega) (by omega)] at hmain
  exact absurd (hside.symm.trans hmain) (by decide)

/-- On the main branch the condition holds, and the target is that of the
ancestors. -/
theorem target_of_main_branch :
    TargetFromAncestor (state false 145).blockStore (state false 145).ledger
      (entry false height).2.header := by
  have hf := forked false (le_refl 145)
  generalize state false 145 = s at hf ⊢
  have hlen := height_eq
  have hmem := entry_mem false (le_refl height)
  obtain ⟨storedAt, hget⟩ := hf.stored false _ hmem
  obtain ⟨c, hline, hiff⟩ :=
    target_of_ancestors_iff hf.maintained (hf.known false hmem) hget (past_switch false)
  obtain ⟨d, hd⟩ : ∃ d, chain false height = entry false height :: d :=
    ⟨_, chain_eq_cons false height⟩
  obtain rfl : d = c := BlockLine.ext (hd ▸ hf.line false) hline
  refine hiff.mpr ⟨entry false (height - 144), ?_, ?_, ?_⟩ s.blockStore hf.maintained
    (hd ▸ hf.stored false)
  · have hfirst := chain_getElem? false (show 144 ≤ height by omega)
    rw [hd, List.getElem?_cons_succ] at hfirst
    rwa [List.head?_drop]
  · rw [window_height]
    exact hf.getBlockIDForHeight_eq (Nat.sub_le height 144)
  · have hspan : time false height - time false (height - 144) = 43200 := by
      rw [hlen]
      decide
    rw [windowWork_eq hspan le_rfl (by omega)]
    decide

end DeepFork

end Cruzbit

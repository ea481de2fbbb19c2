/-
Cruzbit/Difficulty.lean

Bounds on targets.

Before the switch of algorithms a target changes at multiples of 2016 only,
by a factor of at most four (`computeTargetBitcoin_bounds`).  Up to the switch
this happens fourteen times, so no target falls below the initial one divided
by `4 ^ 14`, chain work is the exact sum of the work of all blocks, and it
grows with every block (`retarget_before_switch`).

After the switch the work required per block is the work of the last 144
blocks over the time they took, and that time is clamped to a factor of two
around the time they should take.  Turning work into a target and back loses
nothing while the work is below `2 ^ 128` (`div_div_of_sq_le`), so the factor
of two carries over to the work of the new target (`damped_retarget`).
-/
import Cruzbit.DeepFork

namespace Cruzbit

open Chain Lineage

/-! ### The original algorithm -/

section Bitcoin

variable {crypto : Crypto} {prune : Bool} {P : Transaction → Prop} {Q : Processor → Prop}
  {s : Processor} {c : Chain} {K : Set BlockID} {x : BlockID × Block}
  {blockStore : BlockStorage} {prevHeader : BlockHeader} {target : BlockID}

theorem clamp_bounds {lo hi : Int} (h : lo ≤ hi) (x : Int) :
    lo ≤ clamp lo hi x ∧ clamp lo hi x ≤ hi := by
  unfold clamp
  split_ifs <;> omega

/-- One retargeting moves the target by a factor of at most four. -/
theorem retarget_bounds {oldTarget timespan : Int} (h₀ : 0 ≤ oldTarget)
    (hlo : retargetTime / 4 ≤ timespan) (hhi : timespan ≤ retargetTime * 4) :
    oldTarget / 4 ≤ oldTarget * timespan / retargetTime ∧
      oldTarget * timespan / retargetTime ≤ 4 * oldTarget := by
  have hpos : (0 : Int) < retargetTime := by decide
  constructor
  · calc oldTarget / 4 = oldTarget * (retargetTime / 4) / retargetTime := by
          simp only [retargetTime]
          omega
      _ ≤ oldTarget * timespan / retargetTime :=
          Int.ediv_le_ediv hpos (mul_le_mul_of_nonneg_left hlo h₀)
  · calc oldTarget * timespan / retargetTime ≤ oldTarget * (retargetTime * 4) / retargetTime :=
          Int.ediv_le_ediv hpos (mul_le_mul_of_nonneg_left hhi h₀)
      _ = 4 * oldTarget := by
          simp only [retargetTime]
          omega

/-- **One step of the original algorithm.** -/
theorem computeTargetBitcoin_bounds (hprev : prevHeader.target.toNat ≤ initialTarget)
    (h : computeTargetBitcoin prevHeader blockStore = .ok target) :
    ((prevHeader.height + 1).tmod retargetInterval ≠ 0 → target = prevHeader.target) ∧
      prevHeader.target.toNat / 4 ≤ target.toNat ∧ target.toNat ≤ 4 * prevHeader.target.toNat ∧
      target.toNat ≤ initialTarget := by
  unfold computeTargetBitcoin at h
  by_cases hinterval : (prevHeader.height + 1).tmod retargetInterval ≠ 0
  · rw [if_pos hinterval] at h
    obtain rfl := Except.ok.inj h
    exact ⟨fun _ => rfl, by omega, by omega, hprev⟩
  · rw [if_neg hinterval] at h
    obtain ⟨firstHeader, -, htarget⟩ := Res.bind_eq_ok.mp h
    obtain ⟨hlo, hhi⟩ := clamp_bounds (show retargetTime / 4 ≤ retargetTime * 4 by decide)
      (prevHeader.time - firstHeader.time)
    obtain ⟨hquarter, hfour⟩ := retarget_bounds (Int.natCast_nonneg prevHeader.target.toNat) hlo hhi
    have hnat := setBigInt_eq_ok htarget
    refine ⟨fun h => absurd h hinterval, ?_⟩
    split_ifs at hnat with hbig <;> omega

theorem Admitted.height_eq (h : Admitted crypto P Q (x :: c)) : x.2.header.height = c.length := by
  generalize hd : x :: c = d at h
  induction h generalizing x c with
  | genesis =>
    obtain ⟨rfl, rfl⟩ := List.cons.inj hd
    rfl
  | @cons d y s hadm _ hy ih =>
    obtain ⟨rfl, rfl⟩ := List.cons.inj hd
    obtain ⟨p, e, rfl⟩ := List.exists_cons_of_ne_nil hadm.ne_nil
    rw [(hy.parent p rfl).2.1, ih rfl, List.length_cons]
    push_cast
    rfl

/-- The step that led to an admitted block, while the original algorithm was in
use. -/
theorem Admitted.computeTargetBitcoin_eq {p : BlockID × Block}
    (h : Admitted crypto P Q (x :: p :: c)) (hst : Stored blockStore (p :: c))
    (hheight : x.2.header.height ≤ bitcoinCashRetargetAlgorithmHeight) (ledger : Ledger) :
    computeTarget p.2.header blockStore ledger = .ok x.2.header.target ∧
      computeTargetBitcoin p.2.header blockStore = .ok x.2.header.target := by
  cases h with
  | cons s₀ hadm _ hx =>
    obtain ⟨-, hnext, hchecks⟩ := hx.parent p rfl
    have hlow : ¬ p.2.header.height ≥ bitcoinCashRetargetAlgorithmHeight := by omega
    have htarget := (acceptBlockChecks_ok_iff.mp hchecks).1
    rw [computeTarget, if_neg hlow,
      computeTargetBitcoin_congr (hadm.line hx.stored) (hadm.line hst)] at htarget
    exact ⟨by rw [computeTarget, if_neg hlow, htarget], htarget⟩

/-- **Up to the switch** the target is at most the initial one and at least what
is left of it after a division by four at each multiple of the interval. -/
theorem Admitted.target_bounds (h : Admitted crypto P Q (x :: c))
    (hst : Stored blockStore (x :: c))
    (hheight : x.2.header.height ≤ bitcoinCashRetargetAlgorithmHeight) :
    initialTarget / 4 ^ (c.length / retargetInterval.toNat) ≤ x.2.header.target.toNat ∧
      x.2.header.target.toNat ≤ initialTarget := by
  induction c generalizing x with
  | nil =>
    obtain rfl : x = genesisEntry crypto := by simpa using h.getLast
    show initialTarget / 4 ^ (0 / retargetInterval.toNat) ≤ genesisBlock.header.target.toNat ∧
      genesisBlock.header.target.toNat ≤ initialTarget
    decide
  | cons p c ih =>
    have hst' : Stored blockStore (p :: c) := fun y hy => hst y (List.mem_cons_of_mem _ hy)
    have hp := (h.tail (by simp)).height_eq
    have hx := h.height_eq
    rw [List.length_cons, Nat.cast_succ] at hx
    obtain ⟨hlo, hhi⟩ := ih (h.tail (by simp)) hst' (by omega)
    obtain ⟨hsame, hquarter, -, hmax⟩ :=
      computeTargetBitcoin_bounds hhi (h.computeTargetBitcoin_eq hst' hheight Ledger.empty).2
    refine ⟨?_, hmax⟩
    rw [Int.tmod_eq_emod_of_nonneg (by omega), hp] at hsame
    simp only [retargetInterval, Int.reduceToNat, List.length_cons] at hlo hsame ⊢
    by_cases hinterval : (c.length + 1) % 2016 = 0
    · -- one more division by four
      have hdiv : (c.length + 1) / 2016 = c.length / 2016 + 1 := by omega
      calc initialTarget / 4 ^ ((c.length + 1) / 2016)
          = initialTarget / 4 ^ (c.length / 2016) / 4 := by
            rw [hdiv, pow_succ, Nat.div_div_eq_div_mul]
        _ ≤ p.2.header.target.toNat / 4 := Nat.div_le_div_right hlo
        _ ≤ x.2.header.target.toNat := hquarter
    · have hdiv : (c.length + 1) / 2016 = c.length / 2016 := by omega
      rw [hsame (by omega), hdiv]
      exact hlo

/-- At most fourteen divisions by four. -/
theorem Admitted.target_ge (h : Admitted crypto P Q (x :: c)) (hst : Stored blockStore (x :: c))
    (hheight : x.2.header.height ≤ bitcoinCashRetargetAlgorithmHeight) :
    initialTarget / 4 ^ 14 ≤ x.2.header.target.toNat := by
  have hlen := h.height_eq
  have hexp : c.length / retargetInterval.toNat ≤ 14 := by
    simp only [bitcoinCashRetargetAlgorithmHeight, retargetInterval, Int.reduceToNat] at hheight ⊢
    omega
  calc initialTarget / 4 ^ 14 ≤ initialTarget / 4 ^ (c.length / retargetInterval.toNat) :=
        Nat.div_le_div_left (Nat.pow_le_pow_right (by decide) hexp) (by positivity)
    _ ≤ x.2.header.target.toNat := (h.target_bounds hst hheight).1

/-- **Chain work** is the sum of the work of all blocks of the line. -/
theorem Admitted.chainWork_eq (h : Admitted crypto P Q (x :: c)) :
    x.2.header.chainWork.toNat =
      ((x :: c).map fun y => computeBlockWork y.2.header.target).sum := by
  induction c generalizing x with
  | nil =>
    obtain rfl : x = genesisEntry crypto := by simpa using h.getLast
    show genesisBlock.header.chainWork.toNat = computeBlockWork genesisBlock.header.target + 0
    decide
  | cons p c ih =>
    rw [List.map_cons, List.sum_cons, ← ih (h.tail (by simp))]
    cases h with
    | cons s₀ hadm _ hx => rw [hx.chainWork rfl, add_comm]

/-- The number of blocks `computeTargetBitcoin` goes back from the parent. -/
def blocksToGoBack (prevHeader : BlockHeader) : Nat :=
  if prevHeader.height + 1 = retargetInterval then retargetInterval.toNat - 1
  else retargetInterval.toNat

/-- How a block's target and work follow from its parent, with the ancestors
`c`.  At a multiple of the interval all headers that are visited are those
of stored ancestors. -/
structure Retargets (s : Processor) (c : Chain) (prevHeader header : BlockHeader) : Prop where
  required : computeTarget prevHeader s.blockStore s.ledger = .ok header.target
  visited : header.height % retargetInterval = 0 → ∀ n ≤ blocksToGoBack prevHeader,
    ∃ y ∈ c, walkHeaders s.blockStore n prevHeader = .ok y.2.header
  unchanged : header.height % retargetInterval ≠ 0 → header.target = prevHeader.target
  quarter : prevHeader.target.toNat / 4 ≤ header.target.toNat
  fourfold : header.target.toNat ≤ 4 * prevHeader.target.toNat
  work_lt : prevHeader.chainWork.toNat < header.chainWork.toNat

theorem Admitted.retargets {p : BlockID × Block} (h : Admitted crypto P Q (x :: p :: c))
    (hst : Stored s.blockStore (x :: p :: c))
    (hheight : x.2.header.height ≤ bitcoinCashRetargetAlgorithmHeight) :
    Retargets s (p :: c) p.2.header x.2.header := by
  have hp := h.tail (by simp)
  have hst' : Stored s.blockStore (p :: c) := fun y hy => hst y (List.mem_cons_of_mem _ hy)
  have hpheight := hp.height_eq
  have hxheight := h.height_eq
  rw [List.length_cons, Nat.cast_succ] at hxheight
  obtain ⟨-, hmax⟩ := hp.target_bounds hst' (by omega)
  obtain ⟨htarget, hbitcoin⟩ := h.computeTargetBitcoin_eq hst' hheight s.ledger
  obtain ⟨hsame, hquarter, hfour, -⟩ := computeTargetBitcoin_bounds hmax hbitcoin
  rw [Int.tmod_eq_emod_of_nonneg (by omega), hpheight, ← hxheight] at hsame
  refine ⟨htarget, fun hinterval n hn => ?_, hsame, hquarter, hfour, ?_⟩
  · have hlen : n < (p :: c).length := by
      rw [List.length_cons]
      unfold blocksToGoBack at hn
      split_ifs at hn with hfirst <;>
        simp only [retargetInterval, Int.reduceToNat] at hn hinterval hfirst <;> omega
    exact ⟨_, List.getElem_mem hlen, (hp.line hst').walkHeaders_getElem hlen⟩
  · have hpos : 0 < x.2.header.target.toNat :=
      lt_of_lt_of_le (by decide) (h.target_ge hst hheight)
    cases h with
    | cons s₀ hadm _ hx =>
      rw [hx.chainWork rfl]
      exact Nat.lt_add_of_pos_right (computeBlockWork_pos hpos)

/-- **Retargeting before the switch** of algorithms, on every branch. -/
theorem retarget_before_switch (h : Reachable crypto prune s) {id : BlockID} {e : StoredBlock}
    (hid : s.ledger.Known id) (he : s.blockStore[id]? = some e)
    (hheight : e.block.header.height ≤ bitcoinCashRetargetAlgorithmHeight) :
    ∃ c, PreviousPath crypto s.blockStore ((id, e.block) :: c) ∧
      (∀ p ∈ c.head?, Retargets s c p.2.header e.block.header) ∧
      initialTarget / 4 ^ 14 ≤ e.block.header.target.toNat ∧
      e.block.header.target.toNat ≤ initialTarget ∧
      e.block.header.chainWork.toNat = (((id, e.block) :: c).map fun y =>
        2 ^ 256 / (y.2.header.target.toNat + 1)).sum := by
  obtain ⟨_, K, hs⟩ := h.settled
  obtain ⟨c, hadm, hst, -⟩ := hs.tree.line ((hs.describes.known_iff id).mp hid) he
  refine ⟨c, hadm.previousPath hst, ?_, hadm.target_ge hst hheight,
    (hadm.target_bounds hst hheight).2, ?_⟩
  · intro p hp
    obtain ⟨c, rfl⟩ : ∃ d, c = p :: d := ⟨c.tail, (List.cons_head?_tail hp).symm⟩
    exact hadm.retargets hst hheight
  · rw [hadm.chainWork_eq]
    congr 1
    refine List.map_congr_left fun y hy => ?_
    -- no ancestor has the target zero
    obtain ⟨pre, post, hsplit⟩ := List.append_of_mem hy
    have hpos : 0 < y.2.header.target.toNat := by
      have hy' : Admitted crypto _ _ (y :: post) := Admitted.suffix (d := pre) (hsplit ▸ hadm)
      refine lt_of_lt_of_le (by decide) (hy'.target_ge (fun z hz => hst z ?_) ?_)
      · exact hsplit ▸ List.mem_append_right _ hz
      · have hlen := congrArg List.length hsplit
        have hheight' := hadm.height_eq
        simp only [List.length_cons, List.length_append] at hlen hheight'
        rw [hy'.height_eq]
        omega
    rw [computeBlockWork, if_neg (by omega)]

end Bitcoin

/-- On the deep fork: the block that ends the second interval, and the tip of
the side branch. -/
theorem retarget_of_deep_fork :
    (∃ c, PreviousPath Pinned.crypto (DeepFork.state false 145).blockStore
        (Pinned.entry false 4032 :: c) ∧
      (∀ p ∈ c.head?, Retargets (DeepFork.state false 145) c p.2.header
        (Pinned.entry false 4032).2.header)) ∧
    ∃ c, PreviousPath Pinned.crypto (DeepFork.state false 145).blockStore
        (Pinned.entry true DeepFork.height :: c) ∧
      (∀ p ∈ c.head?, Retargets (DeepFork.state false 145) c p.2.header
        (Pinned.entry true DeepFork.height).2.header) ∧
      (Pinned.entry true DeepFork.height).2.header.chainWork.toNat =
        ((Pinned.entry true DeepFork.height :: c).map fun y =>
          2 ^ 256 / (y.2.header.target.toNat + 1)).sum := by
  have hf := DeepFork.forked false (le_refl 145)
  generalize DeepFork.state false 145 = s at hf ⊢
  have hreach : Reachable Pinned.crypto false s := hf.run.mono fun _ _ => trivial
  have hlen := DeepFork.height_eq
  constructor
  · have hmem := DeepFork.entry_mem false (show 4032 ≤ DeepFork.height by omega)
    obtain ⟨storedAt, hget⟩ := hf.stored false _ hmem
    obtain ⟨c, hpath, hretargets, -⟩ :=
      retarget_before_switch hreach (hf.known false hmem) hget (by rw [Pinned.entry_height]; decide)
    exact ⟨c, hpath, hretargets⟩
  · have hmem := DeepFork.entry_mem true (le_refl DeepFork.height)
    obtain ⟨storedAt, hget⟩ := hf.stored true _ hmem
    obtain ⟨c, hpath, hretargets, -, -, hwork⟩ := retarget_before_switch hreach
      (hf.known true hmem) hget (by rw [Pinned.entry_height, hlen]; decide)
    exact ⟨c, hpath, hretargets, hwork⟩

/-! ### The revised algorithm -/

section BitcoinCash

variable {crypto : Crypto} {prune : Bool} {P : Transaction → Prop} {Q : Processor → Prop}
  {s : Processor} {c d : Chain} {K : Set BlockID} {x y : BlockID × Block}
  {blockStore : BlockStorage} {ledger : Ledger} {prevHeader firstHeader : BlockHeader}
  {target : BlockID}

/-- Dividing twice gives the divisor back if its square is not above the number. -/
theorem div_div_of_sq_le {n w : Nat} (hw : 0 < w) (hsq : w * w ≤ n) : n / (n / w) = w := by
  have hq : w ≤ n / w := (Nat.le_div_iff_mul_le hw).mpr hsq
  have hmod : n % w < w := Nat.mod_lt n hw
  have hsplit : w * (n / w) + n % w = n := Nat.div_add_mod n w
  refine Nat.div_eq_of_lt_le ?_ ?_
  · exact Nat.mul_div_le n w
  · calc n = w * (n / w) + n % w := hsplit.symm
      _ < w * (n / w) + n / w := by omega
      _ = (w + 1) * (n / w) := by ring

/-- The time of the window is clamped around the time it should take. -/
theorem windowTimespan_bounds (prevHeader firstHeader : BlockHeader) :
    72 * targetSpacing ≤ windowTimespan prevHeader firstHeader ∧
      windowTimespan prevHeader firstHeader ≤ 288 * targetSpacing := by
  unfold windowTimespan
  simp only [retargetSmaWindow, targetSpacing]
  split_ifs <;> omega

/-- **The work per block required after a window** with the work `D` in it. -/
theorem windowWork_bounds {D : Nat}
    (hD : prevHeader.chainWork.toNat = firstHeader.chainWork.toNat + D) :
    (D / 288 : Nat) ≤ windowWork prevHeader firstHeader ∧
      windowWork prevHeader firstHeader ≤ (D / 72 : Nat) := by
  obtain ⟨hlo, hhi⟩ := windowTimespan_bounds prevHeader firstHeader
  have hdiff : (prevHeader.chainWork.toNat : Int) - firstHeader.chainWork.toNat = D := by omega
  rw [windowWork, hdiff]
  generalize windowTimespan prevHeader firstHeader = timespan at hlo hhi
  simp only [targetSpacing] at hlo hhi ⊢
  have hD₀ : (0 : Int) ≤ D := Int.natCast_nonneg D
  push_cast
  constructor
  · refine (Int.le_ediv_iff_mul_le (by omega)).mpr ?_
    have hfloor : (D : Int) / 288 * 288 ≤ D := Int.ediv_mul_le _ (by norm_num)
    have hq : 0 ≤ (D : Int) / 288 := Int.ediv_nonneg hD₀ (by norm_num)
    nlinarith
  · refine (Int.le_ediv_iff_mul_le (by norm_num)).mpr ?_
    have hfloor := Int.ediv_mul_le ((D : Int) * 600) (show timespan ≠ 0 by omega)
    have hq : 0 ≤ (D : Int) * 600 / timespan := Int.ediv_nonneg (by omega) (by omega)
    nlinarith

/-- The work of the target that stands for the work `w` is `w` again, unless the
target is clamped. -/
theorem windowTarget_work {w : Nat} (hw : windowWork prevHeader firstHeader = w) (hpos : 0 < w)
    (hlt : w < 2 ^ 128) :
    ∃ target, windowTarget prevHeader firstHeader = .ok target ∧ 0 < target.toNat ∧
      target.toNat ≤ initialTarget ∧
      (computeBlockWork target = w ∨
        w ≤ computeBlockWork target ∧ target = BitVec.ofNat 256 initialTarget) := by
  obtain ⟨target, htarget⟩ := windowTarget_ok (hw ▸ Int.natCast_pos.mpr hpos)
  have hnat := windowTarget_eq_ok htarget
  have hsq : w * w ≤ 2 ^ 256 :=
    calc w * w ≤ 2 ^ 128 * 2 ^ 128 := Nat.mul_le_mul hlt.le hlt.le
      _ = 2 ^ 256 := by norm_num
  have hq : 2 ^ 128 ≤ 2 ^ 256 / w := by
    rw [Nat.le_div_iff_mul_le hpos]
    calc 2 ^ 128 * w ≤ 2 ^ 128 * 2 ^ 128 := Nat.mul_le_mul_left _ hlt.le
      _ = 2 ^ 256 := by norm_num
  have hmul : w * (2 ^ 256 / w) ≤ 2 ^ 256 := Nat.mul_div_le _ _
  have hback := div_div_of_sq_le hpos hsq
  have hcast : (2 ^ 256 : Int) / (w : Int) = ((2 ^ 256 / w : Nat) : Int) := by push_cast; rfl
  rw [hw, hcast] at hnat
  generalize 2 ^ 256 / w = q at hq hmul hback hnat
  refine ⟨target, htarget, ?_⟩
  rcases le_or_gt (q - 1) initialTarget with hle | hgt
  · have htoNat : target.toNat = q - 1 := by omega
    refine ⟨by omega, by omega, Or.inl ?_⟩
    rw [computeBlockWork, if_neg (by omega), htoNat, Nat.sub_add_cancel (by omega), hback]
  · -- clamped at the lowest difficulty
    have htoNat : target.toNat = initialTarget := by omega
    have hinit : 0 < initialTarget := by decide
    refine ⟨by omega, by omega, Or.inr ⟨?_, BitVec.eq_of_toNat_eq ?_⟩⟩
    · rw [computeBlockWork, if_neg (by omega), htoNat, Nat.le_div_iff_mul_le (by omega)]
      calc w * (initialTarget + 1) ≤ w * q := Nat.mul_le_mul_left w (by omega)
        _ ≤ 2 ^ 256 := hmul
    · rw [htoNat]
      decide

/-- Each block of the line has the chain work of the one below it and its own. -/
def Accumulates (c : Chain) : Prop :=
  c.IsChain fun y p =>
    computeChainWork y.2.header.target p.2.header.chainWork = .ok y.2.header.chainWork

/-- The work of the blocks of a line. -/
def Chain.work (c : Chain) : Nat := (c.map fun y => computeBlockWork y.2.header.target).sum

/-- The node accumulates chain work on every line it admits. -/
theorem Admitted.accumulates (h : Admitted crypto P Q c) : Accumulates c := by
  induction h with
  | genesis => exact List.isChain_singleton _
  | @cons d y s hadm _ hy ih =>
    obtain ⟨p, e, rfl⟩ := List.exists_cons_of_ne_nil hadm.ne_nil
    exact ih.cons_cons (acceptBlockChecks_ok_iff.mp (hy.parent p rfl).2.2).2.1

/-- The chain work gained over the blocks above `y`. -/
theorem Accumulates.chainWork_eq (h : Accumulates (x :: c ++ [y])) :
    x.2.header.chainWork.toNat = y.2.header.chainWork.toNat + Chain.work (x :: c) := by
  induction c generalizing x with
  | nil =>
    have hxy := computeChainWork_eq_ok (List.isChain_cons_cons.mp h).1
    simpa [Chain.work] using hxy
  | cons z c ih =>
    obtain ⟨hxz, hrest⟩ := List.isChain_cons_cons.mp h
    have hz := ih hrest
    rw [computeChainWork_eq_ok hxz, hz]
    simp only [Chain.work, List.map_cons, List.sum_cons]
    omega

/-- No block has less work than one of the initial target. -/
theorem computeBlockWork_initialTarget_le (hpos : 0 < target.toNat)
    (hle : target.toNat ≤ initialTarget) :
    computeBlockWork (BitVec.ofNat 256 initialTarget) ≤ computeBlockWork target := by
  have hinit : (BitVec.ofNat 256 initialTarget).toNat = initialTarget := by decide
  rw [computeBlockWork, computeBlockWork, if_neg (by omega), if_neg (by omega), hinit]
  exact Nat.div_le_div_left (by omega) (by omega)

theorem Chain.work_ge
    (h : ∀ y ∈ c, 0 < y.2.header.target.toNat ∧ y.2.header.target.toNat ≤ initialTarget) :
    c.length * computeBlockWork (BitVec.ofNat 256 initialTarget) ≤ c.work := by
  have hle := List.card_nsmul_le_sum (c.map fun y => computeBlockWork y.2.header.target)
    (computeBlockWork (BitVec.ofNat 256 initialTarget)) (by
      intro w hw
      obtain ⟨y, hy, rfl⟩ := List.mem_map.mp hw
      exact computeBlockWork_initialTarget_le (h y hy).1 (h y hy).2)
  rwa [List.length_map, smul_eq_mul] at hle

/-- A block of the main chain has it as its line. -/
theorem Maintained.getBlockIDForHeight_eq (h : Maintained crypto blockStore ledger)
    (hmain : ledger.getBranchType x.1 = .main)
    (hline : BlockLine crypto blockStore (x :: c)) (hst : Stored blockStore (x :: c))
    (hsplit : x :: c = d ++ y :: e) :
    ledger.getBlockIDForHeight e.length = some y.1 := by
  obtain ⟨m, hmline, hmst, hindex, hmem⟩ := h.main
  obtain ⟨x', hx', hid⟩ := List.mem_map.mp ((hmem x.1).mp hmain)
  obtain rfl : x' = x := hmst.eq_of_fst_eq hst hx' List.mem_cons_self hid
  obtain ⟨pre, post, rfl⟩ := List.append_of_mem hx'
  obtain rfl : post = c := BlockLine.ext (Line.suffix hmline) hline
  refine (hindex _ _).mpr ⟨e.length, rfl, ?_⟩
  rw [hsplit, ← List.append_assoc, blockAt_append (by simp), blockAt_length]
  rfl

/-- **Damped retargeting** on the main chain.  `x` is a block of the main chain,
`c` its ancestors, and `D` the work of the last 144 blocks. -/
theorem damped_retarget (h : Maintained crypto blockStore ledger)
    (hmain : ledger.getBranchType x.1 = .main)
    (hline : BlockLine crypto blockStore (x :: c)) (hst : Stored blockStore (x :: c))
    (hheight : bitcoinCashRetargetAlgorithmHeight ≤ x.2.header.height)
    (hwork : Accumulates ((x :: c).take 145))
    (htargets : ∀ y ∈ (x :: c).take 144,
      0 < y.2.header.target.toNat ∧ y.2.header.target.toNat ≤ initialTarget)
    {D : Nat} (hD : D = Chain.work ((x :: c).take 144)) (hlt : D < 2 ^ 128) :
    ∃ firstID firstHeader target,
      ledger.getBlockIDForHeight (x.2.header.height - retargetSmaWindow) = some firstID ∧
      blockStore.derefHeader firstID = .ok firstHeader ∧
      x.2.header.chainWork.toNat = firstHeader.chainWork.toNat + D ∧
      0 < windowTimespan x.2.header firstHeader ∧ 0 < windowWork x.2.header firstHeader ∧
      computeTargetBitcoinCash x.2.header blockStore ledger = .ok target ∧
      0 < target.toNat ∧ target.toNat ≤ initialTarget ∧
      D / 288 ≤ computeBlockWork target ∧
      computeBlockWork target ≤
        max (D / 72) (computeBlockWork (BitVec.ofNat 256 initialTarget)) := by
  have hlen : x.2.header.height = c.length := BlockLine.height_eq hline
  have hwindow : 143 < c.length := by
    simp only [bitcoinCashRetargetAlgorithmHeight] at hheight
    omega
  -- the window and the block below it
  obtain ⟨w, y, e, hw, hsplit⟩ := exists_append_of_lt hwindow
  have htake : (x :: c).take 144 = x :: w := by
    rw [hsplit, ← List.cons_append, List.take_left' (by simp [hw])]
  have htake' : (x :: c).take 145 = x :: w ++ [y] := by
    rw [hsplit, ← List.cons_append, List.take_append, List.take_of_length_le (by simp [hw])]
    simp [hw]
  rw [htake] at htargets hD
  rw [htake'] at hwork
  have hid := h.getBlockIDForHeight_eq hmain hline hst (d := x :: w)
    (by rw [hsplit, List.cons_append])
  have hheight' : x.2.header.height - retargetSmaWindow = e.length := by
    have := congrArg List.length hsplit
    simp only [List.length_append, List.length_cons] at this
    simp only [retargetSmaWindow]
    omega
  obtain ⟨storedAt, hget⟩ := hst y (by simp [hsplit])
  have hderef : blockStore.derefHeader y.1 = .ok y.2.header := by
    simp [BlockStorage.derefHeader, BlockStorage.getBlockHeader, hget]
  -- the work in the window
  have hgain := hwork.chainWork_eq
  rw [← hD] at hgain
  obtain ⟨hlo, hhi⟩ := windowWork_bounds hgain
  have hmin := Chain.work_ge htargets
  rw [← hD, List.length_cons, hw] at hmin
  obtain ⟨work, hcast⟩ := Int.eq_ofNat_of_zero_le (le_trans (Int.natCast_nonneg _) hlo)
  rw [hcast] at hlo hhi
  have hwork₀ : 0 < work := by
    have hinit : 2 ≤ computeBlockWork (BitVec.ofNat 256 initialTarget) := by decide
    have hD₀ : 144 * 2 ≤ D := le_trans (Nat.mul_le_mul_left 144 hinit) hmin
    omega
  obtain ⟨target, htarget, hpos, hle, hnew⟩ := windowTarget_work hcast hwork₀ (by omega)
  have hbitcoin : computeTargetBitcoinCash x.2.header blockStore ledger = .ok target := by
    simp only [computeTargetBitcoinCash, hheight', hid, hderef, bind, Except.bind]
    exact htarget
  have hspan := (windowTimespan_bounds x.2.header y.2.header).1
  refine ⟨y.1, y.2.header, target, hheight' ▸ hid, hderef, hgain,
    lt_of_lt_of_le (by decide) hspan, by omega, hbitcoin, hpos, hle, ?_⟩
  rcases hnew with heq | ⟨hge, rfl⟩
  · rw [heq]
    exact ⟨by omega, le_max_of_le_left (by omega)⟩
  · exact ⟨by omega, le_max_right _ _⟩

end BitcoinCash

namespace DeepFork

open Pinned

theorem accumulates {n : Nat} (hn : n ≤ 28861) : Accumulates (chain false n) := by
  induction n with
  | zero => exact List.isChain_singleton _
  | succ n ih =>
    have hbelow := ih (by omega)
    rw [chain_eq_cons] at hbelow
    rw [chain_succ, chain_eq_cons]
    refine hbelow.cons_cons ?_
    rw [entry_target, entry_chainWork, entry_chainWork]
    exact Sample.computeChainWork_eq (by omega)

theorem targets {c : Chain} (h : ∀ y ∈ c, y ∈ chain false height) :
    ∀ y ∈ c, y.2.header.target = genesisBlock.header.target := by
  intro y hy
  obtain ⟨n, -, rfl⟩ := mem_chain.mp (h y hy)
  exact entry_target false n

/-- With a block every five minutes the work per block may double. -/
theorem damped_retarget_of_main_branch :
    ∃ target, computeTargetBitcoinCash (entry false height).2.header
        (state false 145).blockStore (state false 145).ledger = .ok target ∧
      0x100010001 / 2 ≤ computeBlockWork target ∧ computeBlockWork target ≤ 2 * 0x100010001 := by
  have hf := forked false (le_refl 145)
  generalize state false 145 = s at hf ⊢
  have hlen := height_eq
  have hmem := entry_mem false (le_refl height)
  have hmain : s.ledger.getBranchType (entry false height).1 = .main :=
    (hf.settled.describes.getBranchType_eq_main _).mpr (List.mem_map_of_mem hmem)
  have htargets := targets (c := (chain false height).take 144) fun y => List.mem_of_mem_take
  have hD : Chain.work ((chain false height).take 144) = 144 * 0x100010001 := by
    rw [Chain.work, List.sum_eq_card_nsmul _ 0x100010001]
    · rw [List.length_map, List.length_take_of_le (by rw [chain_length]; omega), smul_eq_mul]
    · intro w hw
      obtain ⟨y, hy, rfl⟩ := List.mem_map.mp hw
      rw [htargets y hy]
      decide +kernel
  have hacc := accumulates hlen.le
  have hline := hf.line false
  have hst := hf.stored false
  rw [chain_eq_cons] at hD hacc hline hst htargets
  obtain ⟨_, _, target, -, -, -, -, -, htarget, -, -, hlo, hhi⟩ := damped_retarget hf.maintained
    hmain hline hst (past_switch false) (List.IsChain.take hacc 145)
    (fun y hy => by rw [htargets y hy]; decide) hD.symm (by norm_num)
  exact ⟨target, htarget, hlo, hhi.trans (by decide +kernel)⟩

end DeepFork

end Cruzbit

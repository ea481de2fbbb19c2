/-
Cruzbit/Lineage.lean

Lines of descent.  Nodes have at most one parent, a parent is one level lower
than its child, and all lines end in one root of level zero.  A line is
listed from its newest node down to the root.

A line is determined by its newest node (`Line.ext`), no node occurs twice on
it (`Line.nodup`), and two lines part at one fork point: above it they have
no node in common, from it on they are the same (`exists_fork`,
`fork_unique`).
-/
import Mathlib

namespace Lineage

variable {α : Type} (parent : α → α → Prop) (root : α)

/-- The nodes from the newest down to the root. -/
structure Line (c : List α) : Prop where
  chain : c.IsChain parent
  last : c.getLast? = some root

variable {parent root} {level : α → Nat} {c d : List α} {x y : α}

theorem Line.ne_nil (h : Line parent root c) : c ≠ [] := by
  rintro rfl
  exact absurd h.last (by simp)

theorem Line.tail (h : Line parent root (x :: c)) (hc : c ≠ []) : Line parent root c := by
  obtain ⟨y, c, rfl⟩ := List.exists_cons_of_ne_nil hc
  exact ⟨(List.isChain_cons_cons.mp h.chain).2, List.getLast?_cons_cons ▸ h.last⟩

theorem Line.parent_head (h : Line parent root (x :: y :: c)) : parent x y :=
  (List.isChain_cons_cons.mp h.chain).1

theorem Line.cons (h : Line parent root (y :: c)) (hx : parent x y) :
    Line parent root (x :: y :: c) :=
  ⟨List.isChain_cons_cons.mpr ⟨hx, h.chain⟩, by rw [List.getLast?_cons_cons]; exact h.last⟩

theorem Line.suffix (h : Line parent root (d ++ x :: c)) : Line parent root (x :: c) := by
  induction d with
  | nil => exact h
  | cons y d ih => exact ih (h.tail (by simp))

/-! ### Forks -/

/-- The lists share a part from some node `f` on, and nothing above it. -/
def Forks (c d : List α) : Prop :=
  ∃ cs ds f common, c = cs ++ f :: common ∧ d = ds ++ f :: common ∧ ∀ x ∈ cs, x ∉ ds

theorem Forks.symm (h : Forks c d) : Forks d c := by
  obtain ⟨cs, ds, f, common, hc, hd, hdisj⟩ := h
  exact ⟨ds, cs, f, common, hd, hc, fun x hx hx' => hdisj x hx' hx⟩

/-- A fork point that is above another one would be on both segments above that. -/
theorem fork_le {cs cs' ds ds' e e' : List α} {f f' : α} (hc : cs ++ f :: e = cs' ++ f' :: e')
    (hd : ds ++ f :: e = ds' ++ f' :: e') (hdisj : ∀ y ∈ cs', y ∉ ds') {r : List α}
    (hr : cs' = cs ++ r) : cs = cs' ∧ ds = ds' := by
  subst hr
  rw [List.append_assoc] at hc
  have htail := List.append_cancel_left hc
  cases r with
  | nil =>
    rw [List.nil_append] at htail
    exact ⟨(List.append_nil cs).symm, List.append_cancel_right (htail ▸ hd)⟩
  | cons y r =>
    rw [List.cons_append] at htail
    obtain ⟨rfl, rfl⟩ := List.cons.inj htail
    rw [← List.cons_append, ← List.append_assoc] at hd
    obtain rfl := List.append_cancel_right hd
    exact absurd (by simp) (hdisj f (by simp))

/-- **Two lines part at one point only.** -/
theorem fork_unique {cs cs' ds ds' e e' : List α} {f f' : α} (hc : cs ++ f :: e = cs' ++ f' :: e')
    (hd : ds ++ f :: e = ds' ++ f' :: e') (hdisj : ∀ y ∈ cs, y ∉ ds)
    (hdisj' : ∀ y ∈ cs', y ∉ ds') : cs = cs' ∧ ds = ds' := by
  rcases List.append_eq_append_iff.mp hc with ⟨r, hr, -⟩ | ⟨r, hr, -⟩
  · exact fork_le hc hd hdisj' hr
  · obtain ⟨h, h'⟩ := fork_le hc.symm hd.symm hdisj hr
    exact ⟨h.symm, h'.symm⟩

theorem Forks.cons (h : Forks c d) (hx : x ∉ d) : Forks (x :: c) d := by
  obtain ⟨cs, ds, f, common, rfl, rfl, hdisj⟩ := h
  refine ⟨x :: cs, ds, f, common, rfl, rfl, fun z hz hz' => ?_⟩
  rcases List.mem_cons.mp hz with rfl | hz
  · exact hx (List.mem_append_left _ hz')
  · exact hdisj z hz hz'

/-! ### Levels -/

section Levels

variable (hroot : level root = 0) (hlevel : ∀ x y, parent x y → level x = level y + 1)

include hroot hlevel

/-- The level of a node counts the nodes below it. -/
theorem Line.level_eq (h : Line parent root (x :: c)) : level x = c.length := by
  induction c generalizing x with
  | nil =>
    have := h.last
    rw [List.getLast?_singleton, Option.some.injEq] at this
    rw [this, hroot, List.length_nil]
  | cons y c ih =>
    rw [hlevel x y h.parent_head, ih (h.tail (by simp)), List.length_cons]

theorem Line.level_lt (h : Line parent root (x :: c)) : ∀ y ∈ c, level y < level x := by
  intro y hy
  obtain ⟨a, b, rfl⟩ := List.append_of_mem hy
  rw [h.level_eq hroot hlevel, (h.suffix (d := x :: a)).level_eq hroot hlevel]
  simp
  omega

/-- No node occurs twice. -/
theorem Line.nodup (h : Line parent root c) : c.Nodup := by
  induction c with
  | nil => exact List.nodup_nil
  | cons x c ih =>
    refine List.nodup_cons.mpr ⟨fun hx => lt_irrefl _ (h.level_lt hroot hlevel x hx), ?_⟩
    rcases eq_or_ne c [] with rfl | hc
    · exact List.nodup_nil
    · exact ih (h.tail hc)

variable (hparent : ∀ x y z, parent x y → parent x z → y = z)

include hparent

/-- **A line is determined by its newest node.** -/
theorem Line.ext (h : Line parent root (x :: c)) (h' : Line parent root (x :: d)) : c = d := by
  induction c generalizing x d with
  | nil =>
    have hlen := (h.level_eq hroot hlevel).symm.trans (h'.level_eq hroot hlevel)
    exact (List.eq_nil_of_length_eq_zero hlen.symm).symm
  | cons y c ih =>
    have hlen := (h.level_eq hroot hlevel).symm.trans (h'.level_eq hroot hlevel)
    obtain ⟨z, d, rfl⟩ : ∃ z e, d = z :: e := by
      cases d with
      | nil => simp at hlen
      | cons z e => exact ⟨z, e, rfl⟩
    obtain rfl := hparent x y z h.parent_head h'.parent_head
    rw [ih (h.tail (by simp)) (h'.tail (by simp))]

/-- **Two lines part at a fork point.** -/
theorem exists_fork (hc : Line parent root c) (hd : Line parent root d) : Forks c d := by
  -- step down the longer line, or both if they are equally long
  induction hn : c.length + d.length using Nat.strong_induction_on generalizing c d with
  | _ n ih =>
    obtain ⟨x, c, rfl⟩ := List.exists_cons_of_ne_nil hc.ne_nil
    obtain ⟨y, d, rfl⟩ := List.exists_cons_of_ne_nil hd.ne_nil
    by_cases hxy : x = y
    · subst hxy
      obtain rfl := hc.ext hroot hlevel hparent hd
      exact ⟨[], [], x, c, rfl, rfl, by simp⟩
    have hx := hc.level_eq hroot hlevel
    have hy := hd.level_eq hroot hlevel
    have hx_notMem : level y ≤ level x → x ∉ d := fun hle hmem => by
      have := hd.level_lt hroot hlevel x hmem
      omega
    have hy_notMem : level x ≤ level y → y ∉ c := fun hle hmem => by
      have := hc.level_lt hroot hlevel y hmem
      omega
    simp only [List.length_cons] at hn
    rcases lt_trichotomy c.length d.length with hlt | heq | hlt
    · have hd' : d ≠ [] := List.ne_nil_of_length_pos (by omega)
      refine (Forks.cons (ih _ ?_ (hd.tail hd') hc rfl) ?_).symm
      · simp only [List.length_cons]
        omega
      · exact List.not_mem_cons_of_ne_of_not_mem (Ne.symm hxy) (hy_notMem (by omega))
    · rcases eq_or_ne c [] with rfl | hc'
      · -- both lines are down to the root
        obtain rfl : d = [] := List.eq_nil_of_length_eq_zero heq.symm
        have h₁ := hc.last
        have h₂ := hd.last
        simp only [List.getLast?_singleton, Option.some.injEq] at h₁ h₂
        exact absurd (h₁.trans h₂.symm) hxy
      · have hd' : d ≠ [] := by
          rintro rfl
          exact hc' (List.eq_nil_of_length_eq_zero heq)
        have hfork : Forks (x :: c) d :=
          (ih _ (by omega) (hc.tail hc') (hd.tail hd') rfl).cons (hx_notMem (by omega))
        have hy' : y ∉ x :: c :=
          List.not_mem_cons_of_ne_of_not_mem (Ne.symm hxy) (hy_notMem (by omega))
        exact (hfork.symm.cons hy').symm
    · have hc' : c ≠ [] := List.ne_nil_of_length_pos (by omega)
      refine Forks.cons (ih _ ?_ (hc.tail hc') hd rfl) ?_
      · simp only [List.length_cons]
        omega
      · exact List.not_mem_cons_of_ne_of_not_mem hxy (hx_notMem (by omega))

end Levels

end Lineage

/-
Cruzbit/Median.lean

Medians of windows.  The median of a list is the entry in the middle of the
sorted list, the upper one if there are two.  It is at least `m` exactly when
at most half of the entries lie below `m` (`le_median_iff`), so it does not
drop when entries above it come in and old ones go out, as long as the window
does not shrink (`median_le_cons`).
-/
import Mathlib

namespace Median

variable {α : Type} [LinearOrder α] {l : List α} {m a : α}

/-- An entry of a sorted list is at least `m` iff its position is not below the
number of entries that are less. -/
theorem le_getElem_iff (h : l.Pairwise (· ≤ ·)) {k : Nat} (hk : k < l.length) :
    m ≤ l[k] ↔ l.countP (· < m) ≤ k := by
  induction l generalizing k with
  | nil => exact absurd hk (Nat.not_lt_zero k)
  | cons a l ih =>
    obtain ⟨ha, hl⟩ := List.pairwise_cons.mp h
    by_cases hlt : a < m
    · rw [List.countP_cons_of_pos (by simpa using hlt)]
      cases k with
      | zero => simpa using hlt
      | succ k =>
        rw [List.getElem_cons_succ, ih hl (by simpa using hk)]
        omega
    · -- nothing that follows is less
      have hnone : l.countP (· < m) = 0 := by
        rw [List.countP_eq_zero]
        intro b hb
        simpa using (not_lt.mp hlt).trans (ha b hb)
      rw [List.countP_cons_of_neg (by simpa using hlt), hnone]
      refine ⟨fun _ => Nat.zero_le k, fun _ => ?_⟩
      rcases List.mem_cons.mp (List.getElem_mem hk) with heq | hmem
      · rw [heq]
        exact not_lt.mp hlt
      · exact (not_lt.mp hlt).trans (ha _ hmem)

variable [Inhabited α]

/-- The upper median. -/
def median (l : List α) : α := (l.insertionSort (· ≤ ·)).getD (l.length / 2) default

theorem le_median_iff (h : l ≠ []) : m ≤ median l ↔ l.countP (· < m) ≤ l.length / 2 := by
  have hperm := List.perm_insertionSort (· ≤ ·) l
  have hk : l.length / 2 < (l.insertionSort (· ≤ ·)).length := by
    rw [hperm.length_eq]
    exact Nat.div_lt_self (List.length_pos_iff.mpr h) one_lt_two
  rw [median, List.getD_eq_getElem _ _ hk, le_getElem_iff (List.pairwise_insertionSort _ l) hk,
    hperm.countP_eq]

/-- **A window that takes in an entry above its median.**  It may lose its last
entry for it. -/
theorem median_le_cons {l' : List α} (h : l ≠ []) (ha : median l < a) (hl : l' <+: l)
    (hlen : l.length ≤ l'.length + 1) : median l ≤ median (a :: l') := by
  rw [le_median_iff (by simp), List.countP_cons_of_neg (by simpa using ha.le), List.length_cons]
  have hold := (le_median_iff h).mp (le_refl (median l))
  have hpart : l'.countP (· < median l) ≤ l.countP (· < median l) := hl.sublist.countP_le
  omega

end Median

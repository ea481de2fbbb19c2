/-
Cruzbit/ByteOrder.lean

Byte strings in lexicographic order, the order in which a key-value store
lists its keys.

Fields of a fixed width compare one after the other (`append_lt_append`), and
numbers written big-endian compare as numbers (`bigEndian_lt_bigEndian`).
What lies between two keys with a common prefix has that prefix
(`exists_append_of_between`), so tables and owners that differ in a prefix
of a fixed width never interleave.
-/
import Cruzbit.Word

namespace ByteOrder

open Word

variable {u v a b k : List UInt8}

/-- Strings with a first field of the same width compare by that field first. -/
theorem append_lt_append (h : u.length = v.length) :
    u ++ a < v ++ b ↔ u < v ∨ u = v ∧ a < b := by
  induction u generalizing v with
  | nil =>
    obtain rfl : v = [] := List.length_eq_zero_iff.mp h.symm
    simp
  | cons x u ih =>
    cases v with
    | nil => simp at h
    | cons y v =>
      rw [List.cons_append, List.cons_append, List.cons_lt_cons_iff, List.cons_lt_cons_iff,
        ih (Nat.succ_injective h), List.cons.injEq]
      tauto

theorem append_lt_append_left (u : List UInt8) : u ++ a < u ++ b ↔ a < b := by
  rw [append_lt_append rfl]
  simp

theorem bigEndian_injOn {n x y : Nat} (hx : x < 256 ^ n) (hy : y < 256 ^ n) :
    bigEndian n x = bigEndian n y ↔ x = y := by
  refine ⟨fun h => ?_, fun h => h ▸ rfl⟩
  have hmod := bigEndian_inj h
  rwa [Nat.mod_eq_of_lt hx, Nat.mod_eq_of_lt hy] at hmod

/-- **Numbers written big-endian compare as numbers.** -/
theorem bigEndian_lt_bigEndian {n x y : Nat} (hx : x < 256 ^ n) (hy : y < 256 ^ n) :
    bigEndian n x < bigEndian n y ↔ x < y := by
  induction n generalizing x y with
  | zero =>
    rw [pow_zero, Nat.lt_one_iff] at hx hy
    rw [hx, hy]
    simp [bigEndian]
  | succ n ih =>
    rw [pow_succ] at hx hy
    have hx' : x / 256 < 256 ^ n := Nat.div_lt_of_lt_mul (by omega)
    have hy' : y / 256 < 256 ^ n := Nat.div_lt_of_lt_mul (by omega)
    have hbyte : [UInt8.ofNat (x % 256)] < [UInt8.ofNat (y % 256)] ↔ x % 256 < y % 256 := by
      rw [List.cons_lt_cons_iff, UInt8.lt_iff_toNat_lt]
      simp
    rw [bigEndian, bigEndian, append_lt_append (by simp), ih hx' hy', bigEndian_injOn hx' hy', hbyte]
    omega

/-- What lies between two strings with a common prefix has that prefix. -/
theorem exists_append_of_between (hk : u.length ≤ k.length) (hlo : u ++ a ≤ k) (hhi : k < u ++ b) :
    ∃ w, k = u ++ w := by
  have hlen : (k.take u.length).length = u.length := List.length_take_of_le hk
  rw [← List.take_append_drop u.length k] at hlo hhi
  rw [← List.not_lt, append_lt_append hlen] at hlo
  rw [append_lt_append hlen] at hhi
  rcases hhi with hlt | ⟨heq, -⟩
  · exact absurd (Or.inl hlt) hlo
  · exact ⟨k.drop u.length, by conv_lhs => rw [← List.take_append_drop u.length k, heq]⟩

end ByteOrder

/-
Cruzbit/Word.lean

Machine words as integers.  A signed word is an `Int`; an operation on words
is the exact operation followed by `int64` (or `int32`), the two's complement
wrap.  The one fact the proofs use is that the wrap is the identity on
results that fit (`int64_of_fits`), so a bound on the exact result is all it
takes to forget the wrap.

Fixed-width numbers also have a big-endian byte form (`bigEndian`), which
determines the number up to the width (`bigEndian_inj`, `ofBigEndian_bigEndian`).
-/
import Mathlib

namespace Word

/-! ### Signed words -/

/-- Wrap an exact result to a signed 64-bit word. -/
def int64 (x : Int) : Int := Int.bmod x (2 ^ 64)

/-- Wrap an exact result to a signed 32-bit word. -/
def int32 (x : Int) : Int := Int.bmod x (2 ^ 32)

/-- The exact result `x` is representable as a signed 64-bit word. -/
def Fits64 (x : Int) : Prop := -2 ^ 63 ≤ x ∧ x < 2 ^ 63

instance (x : Int) : Decidable (Fits64 x) := by
  unfold Fits64; infer_instance

theorem int64_of_fits {x : Int} (h : Fits64 x) : int64 x = x := by
  obtain ⟨h₁, h₂⟩ := h
  refine Int.bmod_eq_of_le ?_ ?_ <;> norm_num <;> omega

theorem int32_of_fits {x : Int} (h₁ : 0 ≤ x) (h₂ : x < 2 ^ 31) : int32 x = x := by
  refine Int.bmod_eq_of_le ?_ ?_ <;> norm_num <;> omega

/-- A chain of wrapped additions is the wrap of the exact sum. -/
theorem int64_add_int64 (x y : Int) : int64 (int64 x + y) = int64 (x + y) := by
  simp only [int64, Int.bmod_add_bmod]

theorem int32_add_int32 (x y : Int) : int32 (int32 x + y) = int32 (x + y) := by
  simp only [int32, Int.bmod_add_bmod]

theorem int64_sub_int64 (x y : Int) : int64 (int64 x - int64 y) = int64 (x - y) := by
  simp only [int64, Int.bmod_sub_bmod, Int.sub_bmod_bmod]

/-- A loop of wrapped additions computes the wrap of the exact sum. -/
theorem foldl_int64 {α : Type} (f : α → Int) (xs : List α) (a : Int) :
    xs.foldl (fun sum x => int64 (sum + f x)) (int64 a) = int64 (a + (xs.map f).sum) := by
  induction xs generalizing a with
  | nil => simp
  | cons x xs ih =>
    rw [List.foldl_cons, int64_add_int64, ih, List.map_cons, List.sum_cons]
    congr 1
    ring

/-! ### Big-endian bytes -/

/-- The low `n` bytes of `x`, most significant first. -/
def bigEndian : Nat → Nat → List UInt8
  | 0, _ => []
  | n + 1, x => bigEndian n (x / 256) ++ [UInt8.ofNat (x % 256)]

@[simp] theorem bigEndian_length (n x : Nat) : (bigEndian n x).length = n := by
  induction n generalizing x with
  | zero => rfl
  | succ n ih => simp [bigEndian, ih]

/-- Two numbers with the same `n` low bytes agree modulo `256 ^ n`. -/
theorem bigEndian_inj {n x y : Nat} (h : bigEndian n x = bigEndian n y) :
    x % 256 ^ n = y % 256 ^ n := by
  induction n generalizing x y with
  | zero => simp [Nat.mod_one]
  | succ n ih =>
    simp only [bigEndian] at h
    obtain ⟨hhi, hlo⟩ := List.append_inj h (by simp)
    have hlo' : x % 256 = y % 256 := by
      have := congrArg UInt8.toNat (List.cons.inj hlo).1
      simpa using this
    rw [Nat.pow_succ, Nat.mul_comm, Nat.mod_mul, Nat.mod_mul, hlo', ih hhi]

theorem bigEndian_head (n x : Nat) :
    (bigEndian (n + 1) x).head? = some (UInt8.ofNat (x / 256 ^ n % 256)) := by
  induction n generalizing x with
  | zero => simp [bigEndian]
  | succ n ih =>
    rw [bigEndian, List.head?_append, ih, Option.some_or, Nat.div_div_eq_div_mul,
      ← Nat.pow_succ']

/-- The number with the given bytes, most significant first. -/
def ofBigEndian (bytes : List UInt8) : Nat := bytes.foldl (fun x b => x * 256 + b.toNat) 0

theorem ofBigEndian_bigEndian (n x : Nat) : ofBigEndian (bigEndian n x) = x % 256 ^ n := by
  induction n generalizing x with
  | zero => simp [bigEndian, ofBigEndian, Nat.mod_one]
  | succ n ih =>
    have hbyte : (UInt8.ofNat (x % 256)).toNat = x % 256 := by simp
    have hlast : ofBigEndian (bigEndian n (x / 256) ++ [UInt8.ofNat (x % 256)]) =
        ofBigEndian (bigEndian n (x / 256)) * 256 + x % 256 := by
      rw [ofBigEndian, List.foldl_append, List.foldl_cons, List.foldl_nil, hbyte]
      rfl
    rw [bigEndian, hlast, ih, Nat.pow_succ, Nat.mul_comm (256 ^ n), Nat.mod_mul]
    ring

/-- The unsigned image of a signed word of `8 * n` bits. -/
def unsigned (n : Nat) (x : Int) : Nat := (x % (256 ^ n : Int)).toNat

theorem unsigned_lt (n : Nat) (x : Int) : unsigned n x < 256 ^ n := by
  have hpos : (0 : Int) < 256 ^ n := by positivity
  have hlt := Int.emod_lt_of_pos x hpos
  have hnonneg := Int.emod_nonneg x hpos.ne'
  rw [unsigned, Int.toNat_lt hnonneg]
  exact_mod_cast hlt

theorem unsigned_of_nonneg {n : Nat} {x : Int} (h₀ : 0 ≤ x) (h : x < 256 ^ n) :
    unsigned n x = x.toNat := by
  rw [unsigned, Int.emod_eq_of_lt h₀ h]

end Word

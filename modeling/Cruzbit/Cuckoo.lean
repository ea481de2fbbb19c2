/-
Cruzbit/Cuckoo.lean

The cuckoo filter by which a wallet tells its peer what it is interested in
(`vendor/github.com/seiflotfy/cuckoofilter`).

A key is remembered by a fingerprint of one byte in one of two buckets.  Each
of the two is computed from the other and the fingerprint (`getAltIndex`), so
a fingerprint can be moved out of a full bucket although its key is no longer
known.  That works both ways only if the number of buckets is a power of two
(`getAltIndex_getAltIndex`), which `NewFilter` sees to.

The invariant of the moves is about one fingerprint in hand: all others are in
one of their two buckets (`reinsert_moves`).  An insertion that gives up drops
the one in hand, and it is the only one that is lost.
-/
import Mathlib

namespace Cruzbit

namespace Cuckoo

def maxCuckooCount : Nat := 500

def nullFp : UInt8 := 0

def bucketSize : Nat := 4

/-! ### Buckets -/

abbrev Bucket := Vector UInt8 bucketSize

namespace Bucket

/-- The first slot that holds the fingerprint. -/
def getFingerprintIndex (b : Bucket) (fp : UInt8) : Option (Fin bucketSize) :=
  (List.finRange bucketSize).find? fun j => b.get j = fp

/-- Put the fingerprint into the first empty slot, if there is one. -/
def insert (b : Bucket) (fp : UInt8) : Option Bucket :=
  (b.getFingerprintIndex nullFp).map fun j : Fin bucketSize => b.set j.val fp

/-- The number of slots in use. -/
def used (b : Bucket) : Nat := b.countP fun fp => fp ≠ nullFp

variable {b b' : Bucket} {fp fp' : UInt8} {j : Fin bucketSize}

theorem isSome_getFingerprintIndex :
    (b.getFingerprintIndex fp).isSome = true ↔ fp ∈ b := by
  rw [getFingerprintIndex, List.find?_isSome, Vector.mem_iff_getElem]
  constructor
  · rintro ⟨j, -, hj⟩
    exact ⟨j.val, j.isLt, of_decide_eq_true hj⟩
  · rintro ⟨j, hj, heq⟩
    exact ⟨⟨j, hj⟩, List.mem_finRange _, decide_eq_true heq⟩

theorem mem_or_of_set (h : fp' ∈ b) : fp' ∈ b.set j.val fp ∨ fp' = b.get j := by
  obtain ⟨k, hk, rfl⟩ := Vector.mem_iff_getElem.mp h
  by_cases hjk : j.val = k
  · right
    subst hjk
    rfl
  · exact Or.inl (Vector.mem_iff_getElem.mpr ⟨k, hk, by rw [Vector.getElem_set, if_neg hjk]⟩)

theorem used_set (hfp : fp ≠ nullFp) :
    used (b.set j.val fp) = (b.used - if b.get j ≠ nullFp then 1 else 0) + 1 := by
  have hget : b[j.val] = b.get j := rfl
  rw [used, used, Vector.countP_set, hget]
  simp [hfp]

/-- A bucket that has room. -/
theorem insert_eq_some (h : b.insert fp = some b') (hfp : fp ≠ nullFp) :
    fp ∈ b' ∧ (∀ fp' ∈ b, fp' ≠ nullFp → fp' ∈ b') ∧ b'.used = b.used + 1 := by
  obtain ⟨j, hj, rfl⟩ := Option.map_eq_some_iff.mp h
  have hempty : b.get j = nullFp := by
    have := List.find?_some (p := fun j => decide (b.get j = nullFp)) hj
    exact of_decide_eq_true this
  refine ⟨Vector.mem_set _, fun fp' hmem hne => ?_, ?_⟩
  · exact (mem_or_of_set hmem).resolve_right fun heq => hne (heq.trans hempty)
  · rw [used_set hfp, if_neg (not_not.mpr hempty), Nat.sub_zero]

/-- A bucket that is full. -/
theorem insert_eq_none (h : b.insert fp = none) (j : Fin bucketSize) : b.get j ≠ nullFp := by
  have hfull := List.find?_eq_none.mp (Option.map_eq_none_iff.mp h) j (List.mem_finRange j)
  exact fun heq => hfull (decide_eq_true heq)

end Bucket

/-! ### The filter -/

/-- A filter with `n` buckets. -/
@[ext]
structure Filter (n : Nat) where
  buckets : Vector Bucket n
  count : Nat
  deriving DecidableEq, Repr

/-- `getNextPow2` on 64-bit words. -/
def getNextPow2 (n : UInt64) : UInt64 :=
  let n := n - 1
  let n := n ||| n >>> 1
  let n := n ||| n >>> 2
  let n := n ||| n >>> 4
  let n := n ||| n >>> 8
  let n := n ||| n >>> 16
  let n := n ||| n >>> 32
  n + 1

/-- The number of buckets of a new filter. -/
def numBuckets (capacity : UInt64) : Nat :=
  let capacity := (getNextPow2 capacity).toNat / bucketSize
  if capacity = 0 then 1 else capacity

/-- NewFilter returns a new filter with a given capacity. -/
def newFilter (capacity : UInt64) : Filter (numBuckets capacity) :=
  ⟨Vector.replicate _ (Vector.replicate _ nullFp), 0⟩

/-- What the random source returns during an insertion. -/
structure Draw where
  /-- Whether the second bucket is chosen. -/
  second : Bool
  /-- The slots that give up their fingerprint, one after the other. -/
  slots : Vector (Fin bucketSize) maxCuckooCount

section Hashing

-- MetroHash, with a seed
variable (hash64 : List UInt8 → UInt64 → UInt64)

def getFingerprint (data : List UInt8) : UInt8 :=
  UInt8.ofNat ((hash64 data 1335).toNat % 255 + 1)

variable {n : Nat} [NeZero n]

def getAltIndex (fp : UInt8) (i : Fin n) : Fin n :=
  Fin.ofNat n (i.val ^^^ (hash64 [fp] 1337).toNat)

/-- The two bucket indices and the fingerprint to be used. -/
def getIndicesAndFingerprint (n : Nat) [NeZero n] (data : List UInt8) : Fin n × Fin n × UInt8 :=
  let f := getFingerprint hash64 data
  let i1 := Fin.ofNat n (hash64 data 1337).toNat
  (i1, getAltIndex hash64 f i1, f)

namespace Filter

/-- Lookup returns true if data is in the filter. -/
def lookup (f : Filter n) (data : List UInt8) : Bool :=
  let (i1, i2, fp) := getIndicesAndFingerprint hash64 n data
  ((f.buckets.get i1).getFingerprintIndex fp).isSome ||
    ((f.buckets.get i2).getFingerprintIndex fp).isSome

omit [NeZero n] in
/-- Put a fingerprint into a bucket, if there is room. -/
def insertAt (f : Filter n) (fp : UInt8) (i : Fin n) : Option (Filter n) :=
  ((f.buckets.get i).insert fp).map fun b => ⟨f.buckets.set i b, f.count + 1⟩

/-- Make room by moving other fingerprints to their alternate location. -/
def reinsert : List (Fin bucketSize) → Filter n → UInt8 → Fin n → Filter n × Bool
  | [], f, _, _ => (f, false)
  | j :: slots, f, fp, i =>
    let oldfp := fp
    let fp := (f.buckets.get i).get j
    let f := { f with buckets := f.buckets.set i ((f.buckets.get i).set j oldfp) }
    -- look in the alternate location for that random element
    let i := getAltIndex hash64 fp i
    match f.insertAt fp i with
    | some f => (f, true)
    | none => reinsert slots f fp i

/-- Insert inserts data into the filter and returns true upon success. -/
def insert (draw : Draw) (f : Filter n) (data : List UInt8) : Filter n × Bool :=
  let (i1, i2, fp) := getIndicesAndFingerprint hash64 n data
  match f.insertAt fp i1 with
  | some f => (f, true)
  | none =>
    match f.insertAt fp i2 with
    | some f => (f, true)
    | none => f.reinsert hash64 draw.slots.toList fp (if draw.second then i2 else i1)

end Filter

end Hashing

/-- Encode returns a byte slice representing a filter. -/
def Filter.encode {n : Nat} (f : Filter n) : List UInt8 :=
  f.buckets.toList.flatMap fun b => b.toList

/-- `n` buckets read from bytes; a slot is in use if its byte is not zero. -/
def Filter.ofBytes (n : Nat) (bytes : List UInt8) : Filter n :=
  ⟨Vector.ofFn fun i => Vector.ofFn fun j => bytes.getD (i.val * bucketSize + j.val) nullFp,
    bytes.countP fun fp => fp ≠ nullFp⟩

/-- Decode returns a filter from a byte slice, or the length that it refuses. -/
def decode (bytes : List UInt8) : Except Nat ((n : Nat) × Filter n) :=
  if bytes.length % bucketSize ≠ 0 then .error bytes.length
  else .ok ⟨bytes.length / bucketSize, Filter.ofBytes _ bytes⟩

/-! ### The number of buckets -/

/-- Bit `i` is set once all shifts below `2 * s` are merged in, if it was set
after all shifts below `s`. -/
theorem testBit_or_shiftRight {m m' s : Nat}
    (h : ∀ i, m'.testBit i = true ↔ ∃ j < s, m.testBit (i + j) = true) (i : Nat) :
    (m' ||| m' >>> s).testBit i = true ↔ ∃ j < 2 * s, m.testBit (i + j) = true := by
  rw [Nat.testBit_or, Nat.testBit_shiftRight, Bool.or_eq_true, h, h]
  constructor
  · rintro (⟨j, hj, hbit⟩ | ⟨j, hj, hbit⟩)
    · exact ⟨j, by omega, hbit⟩
    · exact ⟨s + j, by omega, by rwa [show i + (s + j) = s + i + j by omega]⟩
  · rintro ⟨j, hj, hbit⟩
    by_cases hlow : j < s
    · exact Or.inl ⟨j, hlow, hbit⟩
    · exact Or.inr ⟨j - s, by omega, by rwa [show s + i + (j - s) = i + j by omega]⟩

/-- The result is the first power of two that the word does not reach, or it
overflows. -/
theorem getNextPow2_toNat (n : UInt64) :
    (getNextPow2 n).toNat = 2 ^ (n - 1).toNat.size % 2 ^ 64 := by
  obtain ⟨m, hm⟩ : ∃ m, m = (n - 1).toNat := ⟨_, rfl⟩
  have hm64 : m < 2 ^ 64 := hm ▸ (n - 1).toNat_lt
  have h0 : ∀ i, m.testBit i = true ↔ ∃ j < 1, m.testBit (i + j) = true := by simp
  have hall := testBit_or_shiftRight (testBit_or_shiftRight (testBit_or_shiftRight
    (testBit_or_shiftRight (testBit_or_shiftRight (testBit_or_shiftRight h0)))))
  generalize hsmear : _ ||| _ >>> (2 * (2 * (2 * (2 * (2 * 1))))) = smear at hall
  have hones : smear = 2 ^ m.size - 1 := by
    refine Nat.eq_of_testBit_eq fun i => ?_
    rw [Nat.testBit_two_pow_sub_one, Bool.eq_iff_iff, hall, decide_eq_true_eq, Nat.lt_size]
    constructor
    · rintro ⟨j, -, hbit⟩
      exact (Nat.pow_le_pow_right (by norm_num) (by omega)).trans (Nat.ge_two_pow_of_testBit hbit)
    · intro hle
      obtain ⟨k, hk, hbit⟩ := Nat.exists_ge_and_testBit_of_ge_two_pow hle
      have hk64 : k < 64 := by
        by_contra hge
        have := Nat.ge_two_pow_of_testBit hbit
        have := Nat.pow_le_pow_right (n := 2) (by norm_num) (not_lt.mp hge)
        omega
      exact ⟨k - i, by omega, by rwa [show i + (k - i) = k by omega]⟩
  have hword : (getNextPow2 n).toNat = (smear + 1) % 2 ^ 64 := by
    rw [← hsmear, hm]
    simp only [getNextPow2, UInt64.toNat_add, UInt64.toNat_or, UInt64.toNat_shiftRight]
    rfl
  rw [hword, hones, ← hm, Nat.sub_add_cancel Nat.one_le_two_pow]

/-- **A new filter** has a power of two buckets. -/
theorem numBuckets_eq_two_pow (capacity : UInt64) : ∃ k, numBuckets capacity = 2 ^ k := by
  have hpow := getNextPow2_toNat capacity
  have hsize : (capacity - 1).toNat.size ≤ 64 := Nat.size_le.mpr (capacity - 1).toNat_lt
  generalize (capacity - 1).toNat.size = k at hpow hsize
  simp only [numBuckets]
  split_ifs with hzero
  · exact ⟨0, rfl⟩
  · rw [hpow] at hzero ⊢
    rcases hsize.eq_or_lt with rfl | hlt
    · exact absurd (by norm_num [bucketSize]) hzero
    · rw [Nat.mod_eq_of_lt (Nat.pow_lt_pow_right (by norm_num) hlt)] at hzero ⊢
      refine ⟨k - 2, ?_⟩
      have hk : 2 ≤ k := by
        by_contra hlow
        have : k = 0 ∨ k = 1 := by omega
        rcases this with rfl | rfl <;> exact hzero (by norm_num [bucketSize])
      rw [bucketSize, show (4 : Nat) = 2 ^ 2 from rfl, Nat.pow_div hk (by norm_num)]

instance (capacity : UInt64) : NeZero (numBuckets capacity) := by
  obtain ⟨k, hk⟩ := numBuckets_eq_two_pow capacity
  exact ⟨by rw [hk]; exact (Nat.two_pow_pos k).ne'⟩

/-! ### Moving fingerprints -/

section Moves

variable {hash64 : List UInt8 → UInt64 → UInt64} {n : Nat} {f f' : Filter n} {fp fp' : UInt8}
  {i i' : Fin n}

theorem getFingerprint_ne_nullFp (data : List UInt8) : getFingerprint hash64 data ≠ nullFp := by
  intro h
  have := congrArg UInt8.toNat h
  rw [getFingerprint, UInt8.toNat_ofNat'] at this
  have hsmall : (hash64 data 1335).toNat % 255 + 1 < 2 ^ 8 := by omega
  rw [Nat.mod_eq_of_lt hsmall] at this
  exact absurd this (Nat.succ_ne_zero _)

/-- **The alternate of the alternate** is the bucket itself. -/
theorem getAltIndex_getAltIndex [NeZero n] (hn : ∃ k, n = 2 ^ k) (fp : UInt8) (i : Fin n) :
    getAltIndex hash64 fp (getAltIndex hash64 fp i) = i := by
  obtain ⟨k, rfl⟩ := hn
  apply Fin.ext
  show ((i.val ^^^ (hash64 [fp] 1337).toNat) % 2 ^ k ^^^ (hash64 [fp] 1337).toNat) % 2 ^ k = i.val
  rw [Nat.xor_mod_two_pow, Nat.mod_mod, ← Nat.xor_mod_two_pow, Nat.xor_assoc, Nat.xor_self,
    Nat.xor_zero, Nat.mod_eq_of_lt i.isLt]

namespace Filter

/-- The number of slots in use. -/
def used (f : Filter n) : Nat := ∑ i, (f.buckets.get i).used

/-- The fingerprint is in one of its two buckets. -/
def Present (hash64 : List UInt8 → UInt64 → UInt64) [NeZero n] (f : Filter n) (fp : UInt8)
    (i : Fin n) : Prop :=
  fp ∈ f.buckets.get i ∨ fp ∈ f.buckets.get (getAltIndex hash64 fp i)

theorem get_set (buckets : Vector Bucket n) (i i' : Fin n) (b : Bucket) :
    (buckets.set i b).get i' = if i' = i then b else buckets.get i' := by
  show (buckets.set i b)[i'.val] = _
  rw [Vector.getElem_set]
  by_cases h : i' = i
  · rw [if_pos (congrArg Fin.val h.symm), if_pos h]
  · rw [if_neg fun heq => h (Fin.ext heq.symm), if_neg h]
    rfl

theorem used_set (f : Filter n) (count : Nat) (i : Fin n) (b : Bucket) :
    used ⟨f.buckets.set i b, count⟩ + (f.buckets.get i).used = f.used + b.used := by
  have hsum (g : Fin n → Nat) : ∑ i', g i' = g i + ∑ i' ∈ Finset.univ.erase i, g i' :=
    (Finset.add_sum_erase _ g (Finset.mem_univ i)).symm
  simp only [used]
  rw [hsum, hsum fun i' => (f.buckets.get i').used, get_set, if_pos rfl,
    Finset.sum_congr rfl fun i' hi' => by rw [get_set, if_neg (Finset.ne_of_mem_erase hi')]]
  omega

theorem insertAt_eq_some (h : f.insertAt fp i = some f') (hfp : fp ≠ nullFp) :
    fp ∈ f'.buckets.get i ∧
      (∀ fp' i', fp' ≠ nullFp → fp' ∈ f.buckets.get i' → fp' ∈ f'.buckets.get i') ∧
      f'.count = f.count + 1 ∧ f'.used = f.used + 1 := by
  obtain ⟨b, hb, rfl⟩ := Option.map_eq_some_iff.mp h
  obtain ⟨hmem, hkeeps, hused⟩ := Bucket.insert_eq_some hb hfp
  refine ⟨by rwa [get_set, if_pos rfl], fun fp' i' hne hold => ?_, rfl, ?_⟩
  · rw [get_set]
    split_ifs with heq
    · exact hkeeps fp' (heq ▸ hold) hne
    · exact hold
  · have := f.used_set (f.count + 1) i b
    omega

theorem insertAt_eq_none (h : f.insertAt fp i = none) (j : Fin bucketSize) :
    (f.buckets.get i).get j ≠ nullFp :=
  Bucket.insert_eq_none (Option.map_eq_none_iff.mp h) j

variable [NeZero n]

theorem lookup_iff (data : List UInt8) :
    f.lookup hash64 data = true ↔ f.Present hash64 (getFingerprint hash64 data)
      (getIndicesAndFingerprint hash64 n data).1 := by
  rw [lookup, Bool.or_eq_true, Bucket.isSome_getFingerprintIndex, Bucket.isSome_getFingerprintIndex]
  rfl

/-- The fingerprint is the one in hand, on its way to one of its buckets. -/
def InHand (hash64 : List UInt8 → UInt64 → UInt64) (hand : Option (UInt8 × Fin n)) (fp : UInt8)
    (i : Fin n) : Prop :=
  ∃ i₀, hand = some (fp, i₀) ∧ (i = i₀ ∨ i = getAltIndex hash64 fp i₀)

/-- From one filter to the other, with at most one fingerprint in hand before
and after, every fingerprint stays in one of its buckets or in hand, and only
the one put away changes the number of slots in use. -/
structure Moves (hash64 : List UInt8 → UInt64 → UInt64) (f : Filter n)
    (hand : Option (UInt8 × Fin n)) (f' : Filter n) (hand' : Option (UInt8 × Fin n)) : Prop where
  keeps : ∀ fp i, fp ≠ nullFp → f.Present hash64 fp i ∨ InHand hash64 hand fp i →
    f'.Present hash64 fp i ∨ InHand hash64 hand' fp i
  count : f'.count = f.count + if hand'.isSome then 0 else 1
  used : f'.used = f.used + if hand'.isSome then 0 else 1

theorem present_getAltIndex (hn : ∃ k, n = 2 ^ k) (fp : UInt8) (i : Fin n) :
    f.Present hash64 fp (getAltIndex hash64 fp i) ↔ f.Present hash64 fp i := by
  rw [Present, Present, getAltIndex_getAltIndex hn, or_comm]

/-- The fingerprint in hand goes into one of its buckets that has room. -/
theorem moves_insertAt (hn : ∃ k, n = 2 ^ k) (hfp : fp ≠ nullFp)
    (h : f.insertAt fp i = some f') : Moves hash64 f (some (fp, i)) f' none := by
  obtain ⟨hmem, hkeeps, hcount, hused⟩ := insertAt_eq_some h hfp
  refine ⟨fun fp' i' hne hold => Or.inl ?_, hcount, hused⟩
  rcases hold with hold | ⟨i₀, heq, hi⟩
  · exact hold.imp (hkeeps fp' i' hne) (hkeeps fp' _ hne)
  · obtain ⟨rfl, rfl⟩ := Prod.mk.inj (Option.some.inj heq)
    have hpresent : f'.Present hash64 fp i := Or.inl hmem
    rcases hi with rfl | rfl
    · exact hpresent
    · exact (present_getAltIndex hn fp i).mpr hpresent

/-- The fingerprint in hand takes the slot of another one, which is in hand then. -/
theorem kick (hash64 : List UInt8 → UInt64 → UInt64) (hn : ∃ k, n = 2 ^ k) (hfp : fp ≠ nullFp)
    {j : Fin bucketSize} (hold : (f.buckets.get i).get j ≠ nullFp) :
    Moves hash64 f (some (fp, i))
      { f with buckets := f.buckets.set i ((f.buckets.get i).set j fp) }
      (some ((f.buckets.get i).get j, getAltIndex hash64 ((f.buckets.get i).get j) i)) := by
  obtain ⟨b, hb⟩ : ∃ b, b = f.buckets.get i := ⟨_, rfl⟩
  obtain ⟨f', hf'⟩ : ∃ f' : Filter n, f' = { f with buckets := f.buckets.set i (b.set j fp) } :=
    ⟨_, rfl⟩
  rw [← hb] at hold ⊢
  rw [← hf']
  have hget (i' : Fin n) : f'.buckets.get i' = if i' = i then b.set j fp else f.buckets.get i' := by
    rw [hf', get_set]
  -- what was in a bucket is there still, unless it is what the slot held
  have hstays {fp' : UInt8} {i' : Fin n} (hmem : fp' ∈ f.buckets.get i') :
      fp' ∈ f'.buckets.get i' ∨ fp' = b.get j ∧ i' = i := by
    rw [hget]
    split_ifs with heq
    · subst heq
      exact (Bucket.mem_or_of_set (hb ▸ hmem)).imp id fun h => ⟨h, rfl⟩
    · exact Or.inl hmem
  have hput : f'.Present hash64 fp i := by
    left
    rw [hget, if_pos rfl]
    exact Vector.mem_set _
  refine ⟨fun fp' i' _ h => ?_, by rw [hf']; rfl, ?_⟩
  · rcases h with (hmem | hmem) | ⟨i₀, heq, hi⟩
    · rcases hstays hmem with h | ⟨rfl, rfl⟩
      · exact Or.inl (Or.inl h)
      · exact Or.inr ⟨_, rfl, Or.inr (getAltIndex_getAltIndex hn _ _).symm⟩
    · rcases hstays hmem with h | ⟨rfl, hi⟩
      · exact Or.inl (Or.inr h)
      · exact Or.inr ⟨_, rfl, Or.inl (by rw [← hi, getAltIndex_getAltIndex hn])⟩
    · obtain ⟨rfl, rfl⟩ := Prod.mk.inj (Option.some.inj heq)
      rcases hi with rfl | rfl
      · exact Or.inl hput
      · exact Or.inl ((present_getAltIndex hn fp i).mpr hput)
  · have hset := f.used_set f.count i (b.set j fp)
    rw [Bucket.used_set hfp, if_pos hold, ← hb] at hset
    have hpos : 0 < b.used :=
      Vector.countP_pos_iff.mpr ⟨b.get j, Vector.mem_iff_getElem.mpr ⟨j.val, j.isLt, rfl⟩, by
        simpa using hold⟩
    rw [hf']
    show used ⟨f.buckets.set i (b.set j fp), f.count⟩ = f.used + 0
    omega

theorem Moves.trans {f₁ f₂ f₃ : Filter n} {hand : Option (UInt8 × Fin n)} {x : UInt8 × Fin n}
    {hand' : Option (UInt8 × Fin n)} (h : Moves hash64 f₁ hand f₂ (some x))
    (h' : Moves hash64 f₂ (some x) f₃ hand') : Moves hash64 f₁ hand f₃ hand' where
  keeps fp i hne hold := h'.keeps fp i hne (h.keeps fp i hne hold)
  count := by rw [h'.count, h.count]; rfl
  used := by rw [h'.used, h.used]; rfl

/-- **The moves** of an insertion into a full bucket.  It fails with a
fingerprint in hand. -/
theorem reinsert_moves (hash64 : List UInt8 → UInt64 → UInt64) (hn : ∃ k, n = 2 ^ k)
    (slots : List (Fin bucketSize)) (hfp : fp ≠ nullFp)
    (hfull : ∀ j, (f.buckets.get i).get j ≠ nullFp) :
    ∃ hand, Moves hash64 f (some (fp, i)) (f.reinsert hash64 slots fp i).1 hand ∧
      ((f.reinsert hash64 slots fp i).2 = true ↔ hand = none) := by
  induction slots generalizing f fp i with
  | nil => exact ⟨some (fp, i), ⟨fun _ _ _ h => h, rfl, rfl⟩, by simp [reinsert]⟩
  | cons j slots ih =>
    have hkick := kick hash64 hn hfp (hfull j)
    rw [reinsert]
    split
    · next f' hinsert => exact ⟨none, hkick.trans (moves_insertAt hn (hfull j) hinsert), by simp⟩
    · next hinsert =>
      obtain ⟨hand, hmoves, hok⟩ := ih (hfull j) (insertAt_eq_none hinsert)
      exact ⟨hand, hkick.trans hmoves, hok⟩

/-- **An insertion** keeps every fingerprint in one of its buckets if it
succeeds, and drops exactly one if it fails. -/
theorem insert_moves (hash64 : List UInt8 → UInt64 → UInt64) (hn : ∃ k, n = 2 ^ k) (draw : Draw)
    (f : Filter n) (data : List UInt8) :
    ∃ hand, Moves hash64 f
        (some (getFingerprint hash64 data, (getIndicesAndFingerprint hash64 n data).1))
        (f.insert hash64 draw data).1 hand ∧
      ((f.insert hash64 draw data).2 = true ↔ hand = none) := by
  obtain ⟨fp, hfp⟩ : ∃ fp, fp = getFingerprint hash64 data := ⟨_, rfl⟩
  obtain ⟨i, hi⟩ : ∃ i, i = (getIndicesAndFingerprint hash64 n data).1 := ⟨_, rfl⟩
  have hne : fp ≠ nullFp := hfp ▸ getFingerprint_ne_nullFp data
  -- in hand for the second bucket is in hand for the first
  have hswap {f' : Filter n} {hand : Option (UInt8 × Fin n)}
      (h : Moves hash64 f (some (fp, getAltIndex hash64 fp i)) f' hand) :
      Moves hash64 f (some (fp, i)) f' hand := by
    refine ⟨fun fp' i' hne' hold => h.keeps fp' i' hne' (hold.imp id ?_), h.count, h.used⟩
    rintro ⟨i₀, heq, hi₀⟩
    obtain ⟨rfl, rfl⟩ := Prod.mk.inj (Option.some.inj heq)
    refine ⟨_, rfl, ?_⟩
    rw [getAltIndex_getAltIndex hn]
    exact hi₀.symm
  rw [← hfp, ← hi, insert,
    show getIndicesAndFingerprint hash64 n data = (i, getAltIndex hash64 fp i, fp) by
      rw [hi, hfp]; rfl]
  dsimp only
  split
  · next f' h₁ => exact ⟨none, moves_insertAt hn hne h₁, by simp⟩
  · next h₁ =>
    split
    · next f' h₂ => exact ⟨none, hswap (moves_insertAt hn hne h₂), by simp⟩
    · next h₂ =>
      cases draw.second with
      | true =>
        obtain ⟨hand, hmoves, hok⟩ := reinsert_moves hash64 hn draw.slots.toList hne
          (insertAt_eq_none h₂)
        exact ⟨hand, hswap hmoves, hok⟩
      | false => exact reinsert_moves hash64 hn draw.slots.toList hne (insertAt_eq_none h₁)

/-- The count is the number of slots in use, also after an insertion that fails. -/
theorem insert_count (hash64 : List UInt8 → UInt64 → UInt64) (hn : ∃ k, n = 2 ^ k) (draw : Draw)
    (data : List UInt8) (h : f.count = f.used) :
    (f.insert hash64 draw data).1.count = (f.insert hash64 draw data).1.used := by
  obtain ⟨hand, hmoves, -⟩ := insert_moves hash64 hn draw f data
  rw [hmoves.count, hmoves.used, h]

/-- Inserting keys one after the other, until one insertion fails. -/
def insertAll (hash64 : List UInt8 → UInt64 → UInt64) :
    Filter n → List (Draw × List UInt8) → Filter n × Bool
  | f, [] => (f, true)
  | f, (draw, data) :: rest =>
    match f.insert hash64 draw data with
    | (f, false) => (f, false)
    | (f, true) => insertAll hash64 f rest

theorem insert_lookup (hn : ∃ k, n = 2 ^ k) {draw : Draw} {data : List UInt8}
    (hok : (f.insert hash64 draw data).2 = true) {data' : List UInt8}
    (h : f.lookup hash64 data' = true ∨ data' = data) :
    (f.insert hash64 draw data).1.lookup hash64 data' = true := by
  obtain ⟨hand, hmoves, hnone⟩ := insert_moves hash64 hn draw f data
  obtain rfl := hnone.mp hok
  have hhand (heq : data' = data) : InHand hash64
      (some (getFingerprint hash64 data, (getIndicesAndFingerprint hash64 n data).1))
      (getFingerprint hash64 data') (getIndicesAndFingerprint hash64 n data').1 := by
    subst heq
    exact ⟨_, rfl, Or.inl rfl⟩
  have hkept := hmoves.keeps _ _ (getFingerprint_ne_nullFp data')
    (h.imp (lookup_iff data').mp hhand)
  exact (lookup_iff data').mpr (hkept.resolve_right fun ⟨_, heq, _⟩ => absurd heq (by simp))

theorem insertAll_lookup (hn : ∃ k, n = 2 ^ k) {keys : List (Draw × List UInt8)}
    (hok : (f.insertAll hash64 keys).2 = true) {data : List UInt8}
    (h : f.lookup hash64 data = true ∨ data ∈ keys.map Prod.snd) :
    (f.insertAll hash64 keys).1.lookup hash64 data = true := by
  induction keys generalizing f with
  | nil => exact h.resolve_right List.not_mem_nil
  | cons key keys ih =>
    obtain ⟨draw, data'⟩ := key
    have hlookup (hok : (f.insert hash64 draw data').2 = true)
        (h : f.lookup hash64 data = true ∨ data = data') :
        (f.insert hash64 draw data').1.lookup hash64 data = true := insert_lookup hn hok h
    rw [insertAll] at hok ⊢
    generalize f.insert hash64 draw data' = r at hok hlookup ⊢
    obtain ⟨f₁, _ | _⟩ := r
    · exact absurd hok Bool.noConfusion
    · refine ih hok ?_
      rw [List.map_cons, List.mem_cons, ← or_assoc] at h
      exact h.imp_left fun h => hlookup rfl h

/-- The count is the number of slots in use, whatever is inserted. -/
theorem insertAll_count (hash64 : List UInt8 → UInt64 → UInt64) (hn : ∃ k, n = 2 ^ k)
    (keys : List (Draw × List UInt8)) (h : f.count = f.used) :
    (f.insertAll hash64 keys).1.count = (f.insertAll hash64 keys).1.used := by
  induction keys generalizing f with
  | nil => exact h
  | cons key keys ih =>
    obtain ⟨draw, data⟩ := key
    have hcount := insert_count hash64 hn draw data h
    rw [insertAll]
    generalize f.insert hash64 draw data = r at hcount ⊢
    obtain ⟨f₁, _ | _⟩ := r
    · exact hcount
    · exact ih hcount

end Filter

end Moves

/-! ### Over the wire -/

section Wire

variable {n : Nat} {f : Filter n}

theorem encode_length (f : Filter n) : f.encode.length = n * bucketSize := by
  rw [Filter.encode, List.length_flatMap,
    List.map_congr_left (g := fun _ => bucketSize) fun b _ => Vector.length_toList,
    List.map_const', List.sum_replicate, Vector.length_toList, smul_eq_mul]

/-- The slots one after the other. -/
theorem encode_getElem (f : Filter n) (i : Fin n) (j : Fin bucketSize) :
    f.encode[i.val * bucketSize + j.val]? = some ((f.buckets.get i).get j) := by
  have hgeneral : ∀ (bs : List Bucket) (i : Nat) (b : Bucket), bs[i]? = some b →
      (bs.flatMap fun b => b.toList)[i * bucketSize + j.val]? = some (b.get j) := by
    intro bs
    induction bs with
    | nil => intro i b h; simp at h
    | cons b₀ bs ih =>
      intro i b h
      rw [List.flatMap_cons]
      cases i with
      | zero =>
        obtain rfl : b₀ = b := by simpa using h
        rw [List.getElem?_append_left (by simp)]
        simp [Vector.get_eq_getElem]
      | succ i =>
        rw [List.getElem?_append_right (by rw [Vector.length_toList, Nat.succ_mul]; omega),
          Vector.length_toList,
          show (i + 1) * bucketSize + j.val - bucketSize = i * bucketSize + j.val by
            rw [Nat.succ_mul]; omega]
        exact ih i b (by simpa using h)
  refine hgeneral _ i.val _ ?_
  rw [Vector.getElem?_toList]
  exact Vector.getElem?_eq_getElem i.isLt

theorem encode_countP (f : Filter n) : (f.encode.countP fun fp => fp ≠ nullFp) = f.used := by
  have hlist : f.buckets.toList.map (fun b => b.toList.countP fun fp => fp ≠ nullFp) =
      List.ofFn fun i => (f.buckets.get i).used := by
    refine List.ext_getElem (by simp) fun i h₁ h₂ => ?_
    simp [Bucket.used, Vector.get_eq_getElem]
  rw [Filter.encode, List.countP_flatMap, Filter.used, ← List.sum_ofFn, ← hlist]
  rfl

/-- **Decoding undoes encoding.** -/
theorem decode_encode (h : f.count = f.used) : decode f.encode = .ok ⟨n, f⟩ := by
  have hsize : f.encode.length / bucketSize = n := by
    rw [encode_length, Nat.mul_div_cancel _ (by decide)]
  rw [decode, if_neg (by rw [encode_length, Nat.mul_mod_left]; simp), hsize]
  congr 2
  refine Filter.ext (Vector.ext fun i hi => Vector.ext fun j hj => ?_) ?_
  · have hslot := encode_getElem f ⟨i, hi⟩ ⟨j, hj⟩
    simp only [Filter.ofBytes, Vector.getElem_ofFn, List.getD_eq_getElem?_getD]
    rw [hslot]
    rfl
  · rw [h, ← encode_countP]
    rfl

end Wire

/-! ### Whole runs -/

section Run

variable {hash64 : List UInt8 → UInt64 → UInt64} {n : Nat} [NeZero n] {f : Filter n}

theorem newFilter_get (capacity : UInt64) (i : Fin (numBuckets capacity)) :
    (newFilter capacity).buckets.get i = Vector.replicate _ nullFp := by
  simp [newFilter, Vector.get_eq_getElem]

theorem newFilter_used (capacity : UInt64) : (newFilter capacity).used = 0 := by
  refine Finset.sum_eq_zero fun i _ => ?_
  rw [newFilter_get, Bucket.used, Vector.countP_replicate]
  simp

/-- A new filter matches nothing. -/
theorem newFilter_lookup (capacity : UInt64) (data : List UInt8) :
    (newFilter capacity).lookup hash64 data = false := by
  rw [← Bool.not_eq_true, Filter.lookup_iff]
  rintro (hmem | hmem)
  all_goals
    rw [newFilter_get, Vector.mem_replicate] at hmem
    exact getFingerprint_ne_nullFp data hmem.2

/-- A new filter has room. -/
theorem newFilter_insert (capacity : UInt64) (draw : Draw) (data : List UInt8) :
    ((newFilter capacity).insert hash64 draw data).2 = true := by
  have hroom (fp : UInt8) (i : Fin (numBuckets capacity)) :
      ∃ f, (newFilter capacity).insertAt fp i = some f := by
    cases h : (newFilter capacity).insertAt fp i with
    | some f => exact ⟨f, rfl⟩
    | none =>
      refine absurd ?_ (Filter.insertAt_eq_none h ⟨0, by decide⟩)
      rw [newFilter_get]
      exact Vector.getElem_replicate _
  obtain ⟨f, hf⟩ := hroom (getFingerprint hash64 data)
    (getIndicesAndFingerprint hash64 (numBuckets capacity) data).1
  have hfirst : (newFilter capacity).insertAt
      (getIndicesAndFingerprint hash64 (numBuckets capacity) data).2.2
      (getIndicesAndFingerprint hash64 (numBuckets capacity) data).1 = some f := hf
  simp only [Filter.insert, hfirst]

/-- What a failed insertion loses: nothing but what has the fingerprint and the
buckets of the one in hand. -/
theorem Filter.insert_loses (hn : ∃ k, n = 2 ^ k) {draw : Draw} {data : List UInt8}
    (hfail : (f.insert hash64 draw data).2 = false) :
    ∃ fp i, ∀ data', f.lookup hash64 data' = true ∨ data' = data →
      (f.insert hash64 draw data).1.lookup hash64 data' = true ∨
        getFingerprint hash64 data' = fp ∧
          ((getIndicesAndFingerprint hash64 n data').1 = i ∨
            (getIndicesAndFingerprint hash64 n data').1 = getAltIndex hash64 fp i) := by
  obtain ⟨hand, hmoves, hnone⟩ := insert_moves hash64 hn draw f data
  obtain ⟨⟨fp, i⟩, rfl⟩ : ∃ x, hand = some x := by
    rw [← Option.isSome_iff_exists, Option.isSome_iff_ne_none]
    intro heq
    rw [hnone.mpr heq] at hfail
    exact absurd hfail (by simp)
  refine ⟨fp, i, fun data' h => ?_⟩
  rw [lookup_iff]
  refine (hmoves.keeps _ _ (getFingerprint_ne_nullFp data') (h.imp (lookup_iff data').mp ?_)).imp
    id ?_
  · rintro rfl
    exact ⟨_, rfl, Or.inl rfl⟩
  · rintro ⟨i₀, heq, hi⟩
    obtain ⟨rfl, rfl⟩ := Prod.mk.inj (Option.some.inj heq)
    exact ⟨rfl, hi⟩

/-- **No false negatives.**  However the random source decides, a new filter
matches every key inserted as long as all insertions succeed, also when it is
sent to the other side.  The first insertion that fails drops one fingerprint:
keys with another fingerprint or other buckets still match. -/
theorem insertAll_no_false_negatives (hash64 : List UInt8 → UInt64 → UInt64) (capacity : UInt64)
    {keys : List (Draw × List UInt8)} {f : Filter (numBuckets capacity)}
    (hok : (newFilter capacity).insertAll hash64 keys = (f, true)) :
    (∀ data ∈ keys.map Prod.snd, f.lookup hash64 data = true) ∧
    decode f.encode = .ok ⟨numBuckets capacity, f⟩ ∧
    ∀ draw data, (f.insert hash64 draw data).2 = false →
      ∃ fp i, ∀ data' ∈ data :: keys.map Prod.snd,
        (f.insert hash64 draw data).1.lookup hash64 data' = true ∨
          getFingerprint hash64 data' = fp ∧
            ((getIndicesAndFingerprint hash64 (numBuckets capacity) data').1 = i ∨
              (getIndicesAndFingerprint hash64 (numBuckets capacity) data').1 =
                getAltIndex hash64 fp i) := by
  have hn := numBuckets_eq_two_pow capacity
  have hmatch : ∀ data ∈ keys.map Prod.snd, f.lookup hash64 data = true := by
    intro data hdata
    have := Filter.insertAll_lookup hn (congrArg Prod.snd hok) (Or.inr hdata)
    rwa [hok] at this
  have hcount : f.count = f.used := by
    have hnew : (newFilter capacity).count = (newFilter capacity).used :=
      (newFilter_used capacity).symm
    have := Filter.insertAll_count hash64 hn keys hnew
    rwa [hok] at this
  refine ⟨hmatch, decode_encode hcount, fun draw data hfail => ?_⟩
  obtain ⟨fp, i, hkept⟩ := Filter.insert_loses hn hfail
  refine ⟨fp, i, fun data' hdata' => hkept data' ?_⟩
  rcases List.mem_cons.mp hdata' with rfl | hdata'
  · exact Or.inr rfl
  · exact Or.inl (hmatch data' hdata')

end Run

namespace Sample

/-- A poor hash. -/
def hash64 (data : List UInt8) (seed : UInt64) : UInt64 :=
  data.foldl (fun sum x => sum * 31 + x.toUInt64) seed

def draw : Draw := ⟨true, Vector.replicate _ ⟨2, by decide⟩⟩

/-- Four keys that fill a bucket, and one for which one of them has to move. -/
def keys : List (Draw × List UInt8) :=
  [[0, 1], [0, 3], [0, 5], [0, 7], [0, 225]].map fun data => (draw, data)

end Sample

/-- All keys match, also the one that was moved to the second bucket. -/
theorem no_false_negatives_of_five_keys :
    ∃ f, (newFilter 8).insertAll Sample.hash64 Sample.keys = (f, true) ∧
      f.encode = [32, 34, 1, 38, 36, 0, 0, 0] ∧
      ∀ data ∈ Sample.keys.map Prod.snd, f.lookup Sample.hash64 data = true := by
  have hok : ((newFilter 8).insertAll Sample.hash64 Sample.keys).2 = true := by decide +kernel
  exact ⟨_, Prod.ext rfl hok, by decide +kernel,
    (insertAll_no_false_negatives Sample.hash64 8 (Prod.ext rfl hok)).1⟩

end Cuckoo

end Cruzbit

/-
Cruzbit/Encoding.lean

Text encodings as byte strings: decimal integers, standard base64, and JSON
strings with the escapes of an HTML-safe encoder.

Each encoder comes with what is needed to read a field back out of a longer
text: a decimal number and a base64 string are determined by their bytes
(`decimal_injective`, `base64_injective`), and neither contains the byte that
follows it in an object (`comma_notMem_decimal`, `quote_notMem_base64`), so
`split_first` cuts the text there.  The body of a JSON string may contain an
escaped quote.  It is read one character at a time (`readRune`), and
determined by its bytes if the text is well-formed UTF-8 (`escape_inj`).
-/
import Cruzbit.Word

namespace Encoding

/-! ### Literal text -/

/-- The bytes of an ASCII text. -/
def ascii (s : String) : List UInt8 := s.toList.map fun c => UInt8.ofNat c.toNat

/-- A text splits in one way at the first occurrence of a byte. -/
theorem split_first {x x' z z' : List UInt8} {b : UInt8} (hx : b ∉ x) (hx' : b ∉ x')
    (h : x ++ b :: z = x' ++ b :: z') : x = x' ∧ z = z' := by
  induction x generalizing x' with
  | nil =>
    cases x' with
    | nil => exact ⟨rfl, (List.cons.inj h).2⟩
    | cons c x' => exact absurd ((List.cons.inj h).1 ▸ List.mem_cons_self) hx'
  | cons a x ih =>
    cases x' with
    | nil => exact absurd ((List.cons.inj h).1 ▸ List.mem_cons_self) hx
    | cons c x' =>
      obtain ⟨hac, htl⟩ := List.cons.inj h
      obtain ⟨hxx, hzz⟩ := ih (fun hm => hx (List.mem_cons_of_mem _ hm))
        (fun hm => hx' (List.mem_cons_of_mem _ hm)) htl
      exact ⟨by rw [hac, hxx], hzz⟩

/-- A text splits in one way at the last occurrence of a byte. -/
theorem split_last {x x' z z' : List UInt8} {b : UInt8} (hz : b ∉ z) (hz' : b ∉ z')
    (h : x ++ b :: z = x' ++ b :: z') : x = x' ∧ z = z' := by
  have hrev : z.reverse ++ b :: x.reverse = z'.reverse ++ b :: x'.reverse := by
    simpa using congrArg List.reverse h
  obtain ⟨h₁, h₂⟩ := split_first (by simpa using hz) (by simpa using hz') hrev
  exact ⟨List.reverse_injective h₂, List.reverse_injective h₁⟩

/-! ### Decimal integers -/

/-- The decimal digits of a natural number. -/
def digits (n : Nat) : List UInt8 := (Nat.toDigits 10 n).map fun c => UInt8.ofNat c.toNat

/-- A signed integer in decimal. -/
def decimal (x : Int) : List UInt8 :=
  if x < 0 then 45 :: digits x.natAbs else digits x.natAbs

/-- A digit character is a byte between `0` and `9`. -/
theorem isDigit_toNat {c : Char} (h : c.isDigit = true) : 48 ≤ c.toNat ∧ c.toNat ≤ 57 := by
  simpa [Char.isDigit, UInt32.le_iff_toNat_le] using h

theorem mem_digits {n : Nat} {b : UInt8} (h : b ∈ digits n) : 48 ≤ b.toNat ∧ b.toNat ≤ 57 := by
  obtain ⟨c, hc, rfl⟩ := List.mem_map.mp h
  obtain ⟨h₁, h₂⟩ := isDigit_toNat (Nat.isDigit_of_mem_toDigits (by decide) (by decide) hc)
  simp only [UInt8.toNat_ofNat']
  omega

/-- The digit characters can be read back from their bytes. -/
theorem map_digits (n : Nat) :
    (digits n).map (fun b => Char.ofNat b.toNat) = Nat.toDigits 10 n := by
  rw [digits, List.map_map]
  refine (List.map_congr_left fun c hc => ?_).trans (List.map_id _)
  obtain ⟨-, h₂⟩ := isDigit_toNat (Nat.isDigit_of_mem_toDigits (by decide) (by decide) hc)
  have hb : (UInt8.ofNat c.toNat).toNat = c.toNat := by
    rw [UInt8.toNat_ofNat']; omega
  simp only [Function.comp_apply, hb, Char.ofNat_toNat, id]

theorem digits_injective : Function.Injective digits := by
  intro m n h
  have hchars : Nat.toDigits 10 m = Nat.toDigits 10 n := by
    rw [← map_digits m, ← map_digits n, h]
  calc m = Nat.ofDigitChars 10 (Nat.toDigits 10 m) 0 := Nat.ofDigitChars_ten_toDigits.symm
    _ = Nat.ofDigitChars 10 (Nat.toDigits 10 n) 0 := by rw [hchars]
    _ = n := Nat.ofDigitChars_ten_toDigits

/-- The bytes of a decimal number are digits and the minus sign. -/
theorem mem_decimal {x : Int} {b : UInt8} (h : b ∈ decimal x) :
    b.toNat = 45 ∨ (48 ≤ b.toNat ∧ b.toNat ≤ 57) := by
  unfold decimal at h
  split_ifs at h
  · rcases List.mem_cons.mp h with rfl | h
    · exact Or.inl rfl
    · exact Or.inr (mem_digits h)
  · exact Or.inr (mem_digits h)

theorem decimal_length_le {x : Int} {k : Nat} (hk : 0 < k) (h₀ : 0 ≤ x) (h : x < 10 ^ k) :
    (decimal x).length ≤ k := by
  rw [decimal, if_neg (by omega), digits, List.length_map]
  exact Nat.toDigits_length 10 x.natAbs k hk (by zify; rwa [abs_of_nonneg h₀])

theorem comma_notMem_decimal (x : Int) : (44 : UInt8) ∉ decimal x := by
  intro h
  have := mem_decimal h
  simp at this

theorem colon_notMem_decimal (x : Int) : (58 : UInt8) ∉ decimal x := by
  intro h
  have := mem_decimal h
  simp at this

theorem minus_notMem_digits (n : Nat) : (45 : UInt8) ∉ digits n := by
  intro h
  have := mem_digits h
  simp at this

/-- A decimal number is determined by its bytes. -/
theorem decimal_injective : Function.Injective decimal := by
  intro x y h
  unfold decimal at h
  split_ifs at h with hx hy hy
  · have := digits_injective (List.cons.inj h).2
    omega
  · exact absurd (h ▸ List.mem_cons_self) (minus_notMem_digits _)
  · exact absurd (h.symm ▸ List.mem_cons_self) (minus_notMem_digits _)
  · have := digits_injective h
    omega

/-- The number written in digits up to the first comma. -/
def readNumber (l : List UInt8) : Nat :=
  Nat.ofDigitChars 10 ((l.takeWhile (· ≠ 44)).map fun b => Char.ofNat b.toNat) 0

/-- A number is read back from its decimal form. -/
theorem readNumber_decimal {x : Int} (hx : 0 ≤ x) (l : List UInt8) :
    readNumber (decimal x ++ 44 :: l) = x.natAbs := by
  have hcomma : ∀ b ∈ decimal x, decide (b ≠ 44) = true := by
    intro b hb
    rw [decide_eq_true_eq]
    rintro rfl
    exact comma_notMem_decimal x hb
  rw [readNumber, List.takeWhile_append_of_pos hcomma, List.takeWhile_cons_of_neg (by simp),
    List.append_nil, decimal, if_neg (not_lt.mpr hx), map_digits, Nat.ofDigitChars_ten_toDigits]

/-! ### Base64 -/

/-- The standard base64 alphabet. -/
def alphabet : List UInt8 :=
  ascii "ABCDEFGHIJKLMNOPQRSTUVWXYZabcdefghijklmnopqrstuvwxyz0123456789+/"

/-- The base64 character of a six-bit value. -/
def sextet (n : Nat) : UInt8 := alphabet.getD n 0

/-- Standard base64 with padding. -/
def base64 : List UInt8 → List UInt8
  | [] => []
  | [a] => [sextet (a.toNat / 4), sextet (a.toNat % 4 * 16), 61, 61]
  | [a, b] =>
    [sextet (a.toNat / 4), sextet (a.toNat % 4 * 16 + b.toNat / 16), sextet (b.toNat % 16 * 4), 61]
  | a :: b :: c :: rest =>
    sextet (a.toNat / 4) :: sextet (a.toNat % 4 * 16 + b.toNat / 16) ::
      sextet (b.toNat % 16 * 4 + c.toNat / 64) :: sextet (c.toNat % 64) :: base64 rest

theorem alphabet_nodup : alphabet.Nodup := by decide +kernel

theorem alphabet_length : alphabet.length = 64 := by decide +kernel

theorem sextet_mem {n : Nat} (h : n < 64) : sextet n ∈ alphabet := by
  have hlen : n < alphabet.length := by
    rw [alphabet_length]
    exact h
  rw [sextet, List.getD_eq_getElem _ _ hlen]
  exact List.getElem_mem hlen

theorem sextet_inj {m n : Nat} (hm : m < 64) (hn : n < 64) (h : sextet m = sextet n) : m = n := by
  have hlen := alphabet_length
  have hm' : m < alphabet.length := by omega
  have hn' : n < alphabet.length := by omega
  rw [sextet, sextet, List.getD_eq_getElem _ _ hm', List.getD_eq_getElem _ _ hn'] at h
  exact (alphabet_nodup.getElem_inj_iff).mp h

theorem sextet_ne_pad {n : Nat} (h : n < 64) : sextet n ≠ 61 := by
  intro he
  exact absurd (he ▸ sextet_mem h) (by decide +kernel)

/-- Base64 text never contains the quote that closes it. -/
theorem quote_notMem_base64 (l : List UInt8) : (34 : UInt8) ∉ base64 l := by
  have hs : ∀ {n}, n < 64 → (34 : UInt8) ≠ sextet n := by
    intro n hn he
    exact absurd (he ▸ sextet_mem hn) (by decide +kernel)
  induction l using base64.induct with
  | case1 => simp [base64]
  | case2 a =>
    have ha := a.toNat_lt
    simp only [base64, List.mem_cons, List.not_mem_nil, or_false, not_or]
    exact ⟨hs (by omega), hs (by omega), by decide, by decide⟩
  | case3 a b =>
    have ha := a.toNat_lt
    have hb := b.toNat_lt
    simp only [base64, List.mem_cons, List.not_mem_nil, or_false, not_or]
    exact ⟨hs (by omega), hs (by omega), hs (by omega), by decide⟩
  | case4 a b c rest ih =>
    have ha := a.toNat_lt
    have hb := b.toNat_lt
    have hc := c.toNat_lt
    simp only [base64, List.mem_cons, not_or]
    exact ⟨hs (by omega), hs (by omega), hs (by omega), hs (by omega), ih⟩

/-- **A base64 text determines the bytes it encodes.**  The induction follows
the three-byte groups; a group with padding never matches a full one. -/
theorem base64_injective : Function.Injective base64 := by
  intro x
  have eq_of {a b : UInt8} (h : a.toNat = b.toNat) : a = b := UInt8.toNat_inj.mp h
  induction x using base64.induct with
  | case1 =>
    intro y h
    rcases y with - | ⟨a', - | ⟨b', - | ⟨c', rest'⟩⟩⟩ <;> simp [base64] at h ⊢
  | case2 a =>
    intro y h
    have ha := a.toNat_lt
    rcases y with - | ⟨a', - | ⟨b', - | ⟨c', rest'⟩⟩⟩
    · simp [base64] at h
    · have ha' := a'.toNat_lt
      simp only [base64, List.cons.injEq] at h
      obtain ⟨h₁, h₂, -⟩ := h
      have e₁ := sextet_inj (by omega) (by omega) h₁
      have e₂ := sextet_inj (by omega) (by omega) h₂
      rw [eq_of (a := a) (b := a') (by omega)]
    · have hb' := b'.toNat_lt
      simp only [base64, List.cons.injEq] at h
      exact absurd h.2.2.1.symm (sextet_ne_pad (by omega))
    · have hb' := b'.toNat_lt
      have hc' := c'.toNat_lt
      simp only [base64, List.cons.injEq] at h
      exact absurd h.2.2.1.symm (sextet_ne_pad (by omega))
  | case3 a b =>
    intro y h
    have ha := a.toNat_lt
    have hb := b.toNat_lt
    rcases y with - | ⟨a', - | ⟨b', - | ⟨c', rest'⟩⟩⟩
    · simp [base64] at h
    · simp only [base64, List.cons.injEq] at h
      exact absurd h.2.2.1 (sextet_ne_pad (by omega))
    · have ha' := a'.toNat_lt
      have hb' := b'.toNat_lt
      simp only [base64, List.cons.injEq] at h
      obtain ⟨h₁, h₂, h₃, -⟩ := h
      have e₁ := sextet_inj (by omega) (by omega) h₁
      have e₂ := sextet_inj (by omega) (by omega) h₂
      have e₃ := sextet_inj (by omega) (by omega) h₃
      rw [eq_of (a := a) (b := a') (by omega), eq_of (a := b) (b := b') (by omega)]
    · have hc' := c'.toNat_lt
      simp only [base64, List.cons.injEq] at h
      exact absurd h.2.2.2.1.symm (sextet_ne_pad (by omega))
  | case4 a b c rest ih =>
    intro y h
    have ha := a.toNat_lt
    have hb := b.toNat_lt
    have hc := c.toNat_lt
    rcases y with - | ⟨a', - | ⟨b', - | ⟨c', rest'⟩⟩⟩
    · simp [base64] at h
    · simp only [base64, List.cons.injEq] at h
      exact absurd h.2.2.1 (sextet_ne_pad (by omega))
    · simp only [base64, List.cons.injEq] at h
      exact absurd h.2.2.2.1 (sextet_ne_pad (by omega))
    · have ha' := a'.toNat_lt
      have hb' := b'.toNat_lt
      have hc' := c'.toNat_lt
      simp only [base64, List.cons.injEq] at h
      obtain ⟨h₁, h₂, h₃, h₄, hrest⟩ := h
      have e₁ := sextet_inj (by omega) (by omega) h₁
      have e₂ := sextet_inj (by omega) (by omega) h₂
      have e₃ := sextet_inj (by omega) (by omega) h₃
      have e₄ := sextet_inj (by omega) (by omega) h₄
      rw [eq_of (a := a) (b := a') (by omega), eq_of (a := b) (b := b') (by omega),
        eq_of (a := c) (b := c') (by omega), ih hrest]

/-! ### UTF-8 and JSON strings -/

/-- A continuation byte in the given range. -/
def inRange (lo hi b : UInt8) : Bool := lo ≤ b && b ≤ hi

/-- The length of the UTF-8 sequence at the head of a text; `0` if it is not
well formed.  Overlong forms and surrogates are not. -/
def runeSize : List UInt8 → Nat
  | [] => 0
  | b :: bs =>
    if b < 0x80 then 1
    else match bs with
    | b₁ :: bs =>
      if inRange 0xC2 0xDF b then (if inRange 0x80 0xBF b₁ then 2 else 0)
      else match bs with
      | b₂ :: bs =>
        if inRange 0xE0 0xEF b then
          if inRange (if b = 0xE0 then 0xA0 else 0x80) (if b = 0xED then 0x9F else 0xBF) b₁ &&
            inRange 0x80 0xBF b₂ then 3 else 0
        else match bs with
        | b₃ :: _ =>
          if inRange 0xF0 0xF4 b &&
            inRange (if b = 0xF0 then 0x90 else 0x80) (if b = 0xF4 then 0x8F else 0xBF) b₁ &&
            inRange 0x80 0xBF b₂ && inRange 0x80 0xBF b₃ then 4 else 0
        | [] => 0
      | [] => 0
    | [] => 0

/-- Well-formed UTF-8; the first argument counts the continuation bytes of
the sequence in progress. -/
def validUTF8 : Nat → List UInt8 → Bool
  | _, [] => true
  | n + 1, _ :: bs => validUTF8 n bs
  | 0, b :: bs =>
    match runeSize (b :: bs) with
    | 0 => false
    | n + 1 => validUTF8 n bs

/-- A hexadecimal digit. -/
def hexDigit (n : Nat) : UInt8 := (ascii "0123456789abcdef").getD n 0

/-- The JSON form of one ASCII byte.  Quotes, backslashes, control characters
and the characters special to HTML are escaped. -/
def escapeByte (b : UInt8) : List UInt8 :=
  if b = 34 ∨ b = 92 then [92, b]
  else if b = 10 then ascii "\\n"
  else if b = 13 then ascii "\\r"
  else if b = 9 then ascii "\\t"
  else if b < 0x20 ∨ b = 60 ∨ b = 62 ∨ b = 38 then
    ascii "\\u00" ++ [hexDigit (b.toNat / 16), hexDigit (b.toNat % 16)]
  else [b]

/-- The body of a JSON string.  `copy` continuation bytes are copied and
`drop` are skipped; a byte that is not UTF-8 becomes `\ufffd`, and the two
line separators are escaped. -/
def escape : Nat → Nat → List UInt8 → List UInt8
  | _, _, [] => []
  | 0, d + 1, _ :: bs => escape 0 d bs
  | n + 1, d, b :: bs => b :: escape n d bs
  | 0, 0, b :: bs =>
    if b < 0x80 then escapeByte b ++ escape 0 0 bs
    else match runeSize (b :: bs) with
    | 0 => ascii "\\ufffd" ++ escape 0 0 bs
    | n + 1 =>
      if (b :: bs).take 3 = [0xE2, 0x80, 0xA8] then ascii "\\u2028" ++ escape 0 2 bs
      else if (b :: bs).take 3 = [0xE2, 0x80, 0xA9] then ascii "\\u2029" ++ escape 0 2 bs
      else b :: escape n 0 bs

/-- A quoted JSON string. -/
def jsonString (s : List UInt8) : List UInt8 := 34 :: escape 0 0 s ++ [34]

example : jsonString (ascii "a<\"b\"") = ascii "\"a\\u003c\\\"b\\\"\"" := by decide

/-! ### Reading a JSON string back -/

/-- The value of a hexadecimal digit. -/
def hexValue (b : UInt8) : Nat := if b < 58 then b.toNat - 48 else b.toNat - 87

/-- The length of a UTF-8 sequence of more than one byte, told from its first
byte. -/
def leadSize (b : UInt8) : Nat := if b < 0xE0 then 2 else if b < 0xF0 then 3 else 4

/-- Read an escape after its backslash. -/
def readEscape : List UInt8 → List UInt8 × List UInt8
  | 117 :: h₁ :: _ :: h₃ :: h₄ :: l =>
    if h₁ = 48 then ([UInt8.ofNat (16 * hexValue h₃ + hexValue h₄)], l)
    else ([0xE2, 0x80, if h₄ = 56 then 0xA8 else 0xA9], l)
  | b :: l => ([if b = 110 then 10 else if b = 114 then 13 else if b = 116 then 9 else b], l)
  | [] => ([], [])

/-- Read one character of the body of a JSON string: its bytes and the rest of
the text. -/
def readRune : List UInt8 → List UInt8 × List UInt8
  | [] => ([], [])
  | b :: l =>
    if b = 92 then readEscape l
    else if b < 0x80 then ([b], l)
    else (b :: l.take (leadSize b - 1), l.drop (leadSize b - 1))

theorem hexValue_hexDigit {n : Nat} (h : n < 16) : hexValue (hexDigit n) = n := by
  interval_cases n <;> decide

theorem readRune_escapeByte {b : UInt8} (h : b < 0x80) (l : List UInt8) :
    readRune (escapeByte b ++ l) = ([b], l) := by
  unfold escapeByte
  split_ifs with h₁ h₂ h₃ h₄ h₅
  · rcases h₁ with rfl | rfl <;> rfl
  · rw [h₂]
    rfl
  · rw [h₃]
    rfl
  · rw [h₄]
    rfl
  · have hlt : b.toNat < 128 := h
    have hb : UInt8.ofNat (16 * hexValue (hexDigit (b.toNat / 16)) +
        hexValue (hexDigit (b.toNat % 16))) = b := by
      rw [hexValue_hexDigit (by omega), hexValue_hexDigit (by omega), Nat.div_add_mod,
        UInt8.ofNat_toNat]
    show ([UInt8.ofNat _], l) = ([b], l)
    rw [hb]
  · rw [not_or] at h₁
    simp [readRune, h₁.2, h]

theorem escapeByte_head {b : UInt8} : (escapeByte b).head? ≠ some 34 := by
  unfold escapeByte
  split_ifs with h₁
  · simp
  · decide
  · decide
  · decide
  · simp [ascii]
  · rw [not_or] at h₁
    simpa using h₁.1

/-- The first byte of a well-formed sequence of more than one byte tells its
length. -/
theorem runeSize_lead {b : UInt8} {bs : List UInt8} {n : Nat} (hb : ¬ b < 0x80)
    (h : runeSize (b :: bs) = n + 1) : n = leadSize b - 1 ∧ n ≤ bs.length := by
  have range {lo hi : UInt8} (hr : inRange lo hi b = true) :
      lo.toNat ≤ b.toNat ∧ b.toNat ≤ hi.toNat := by
    simpa [inRange, UInt8.le_iff_toNat_le] using hr
  have size {p : Prop} [Decidable p] {k : Nat} (hk : (if p then k else 0) = n + 1) :
      p ∧ k = n + 1 := by
    split_ifs at hk with hp
    exact ⟨hp, hk⟩
  have hlead : leadSize b = if b.toNat < 224 then 2 else if b.toNat < 240 then 3 else 4 := rfl
  rw [hlead]
  -- by the range of the first byte, as long as there are enough bytes
  cases bs with
  | nil => simp [runeSize, hb] at h
  | cons b₁ bs =>
    by_cases h₂ : inRange 0xC2 0xDF b = true
    · simp only [runeSize, if_neg hb, if_pos h₂] at h
      have hn := (size h).2
      have hr : 194 ≤ b.toNat ∧ b.toNat ≤ 223 := range h₂
      rw [if_pos (by omega), List.length_cons]
      omega
    · cases bs with
      | nil => simp [runeSize, hb, h₂] at h
      | cons b₂ bs =>
        by_cases h₃ : inRange 0xE0 0xEF b = true
        · simp only [runeSize, if_neg hb, if_neg h₂, if_pos h₃] at h
          have hn := (size h).2
          have hr : 224 ≤ b.toNat ∧ b.toNat ≤ 239 := range h₃
          rw [if_neg (by omega), if_pos (by omega), List.length_cons, List.length_cons]
          omega
        · cases bs with
          | nil => simp [runeSize, hb, h₂, h₃] at h
          | cons b₃ bs =>
            simp only [runeSize, if_neg hb, if_neg h₂, if_neg h₃] at h
            obtain ⟨hp, hn⟩ := size h
            simp only [Bool.and_eq_true] at hp
            have hr : 240 ≤ b.toNat ∧ b.toNat ≤ 244 := range hp.1.1.1
            rw [if_neg (by omega), if_neg (by omega)]
            simp only [List.length_cons]
            omega

/-- Copying a sequence. -/
theorem escape_copy {n : Nat} {bs : List UInt8} (h : n ≤ bs.length) :
    escape n 0 bs = bs.take n ++ escape 0 0 (bs.drop n) := by
  induction n generalizing bs with
  | zero => rfl
  | succ n ih =>
    obtain ⟨b, bs, rfl⟩ := List.exists_cons_of_length_pos (by omega : 0 < bs.length)
    rw [escape, ih (by simpa using h)]
    rfl

theorem validUTF8_drop {n : Nat} {bs : List UInt8} (h : validUTF8 n bs = true) :
    validUTF8 0 (bs.drop n) = true := by
  induction n generalizing bs with
  | zero => exact h
  | succ n ih =>
    cases bs with
    | nil => rfl
    | cons b bs => exact ih h

theorem take_three {b x y z : UInt8} {bs : List UInt8} (h : (b :: bs).take 3 = [x, y, z]) :
    b = x ∧ ∃ l, bs = y :: z :: l := by
  rcases bs with - | ⟨b₁, - | ⟨b₂, bs⟩⟩
  · simp at h
  · simp at h
  · simp only [List.take_succ_cons, List.take_zero, List.cons.injEq, and_true] at h
    obtain ⟨rfl, rfl, rfl⟩ := h
    exact ⟨rfl, bs, rfl⟩

/-- **One character** of a well-formed text is escaped to bytes from which it
is read back, and which do not begin with the closing quote. -/
theorem escape_rune {b : UInt8} {bs : List UInt8} (h : validUTF8 0 (b :: bs) = true) :
    ∃ n w, escape 0 0 (b :: bs) = w ++ escape 0 0 (bs.drop n) ∧
      validUTF8 0 (bs.drop n) = true ∧ w ≠ [] ∧ w.head? ≠ some 34 ∧
      ∀ l, readRune (w ++ l) = (b :: bs.take n, l) := by
  by_cases hb : b < 0x80
  · refine ⟨0, escapeByte b, by rw [escape, if_pos hb, List.drop_zero], ?_, ?_, escapeByte_head,
      fun l => readRune_escapeByte hb l⟩
    · simpa [validUTF8, runeSize, hb] using h
    · unfold escapeByte
      split_ifs <;> simp [ascii]
  · cases hsize : runeSize (b :: bs) with
    | zero => simp [validUTF8, hsize] at h
    | succ n =>
      obtain ⟨hlead, hlen⟩ := runeSize_lead hb hsize
      have hvalid : validUTF8 0 (bs.drop n) = true := by
        refine validUTF8_drop ?_
        simpa only [validUTF8, hsize] using h
      simp only [escape, if_neg hb, hsize]
      split_ifs with h₁ h₂
      · obtain ⟨rfl, bs, rfl⟩ := take_three h₁
        obtain rfl : n = 2 := hlead
        exact ⟨2, ascii "\\u2028", rfl, hvalid, by decide, by decide, fun l => rfl⟩
      · obtain ⟨rfl, bs, rfl⟩ := take_three h₂
        obtain rfl : n = 2 := hlead
        exact ⟨2, ascii "\\u2029", rfl, hvalid, by decide, by decide, fun l => rfl⟩
      · refine ⟨n, b :: bs.take n, by rw [escape_copy hlen]; rfl, hvalid, by simp, ?_, fun l => ?_⟩
        · rintro heq
          rw [List.head?_cons, Option.some.injEq] at heq
          rw [heq] at hb
          exact hb (by decide)
        · have h92 : b ≠ 92 := by
            rintro rfl
            exact hb (by decide)
          rw [List.cons_append, readRune, if_neg h92, if_neg hb, ← hlead]
          rw [List.take_left' (by simp [hlen]), List.drop_left' (by simp [hlen])]

/-- **A JSON string determines the well-formed text it encodes.** -/
theorem escape_inj {s s' z z' : List UInt8} (hs : validUTF8 0 s = true)
    (hs' : validUTF8 0 s' = true) (h : escape 0 0 s ++ 34 :: z = escape 0 0 s' ++ 34 :: z') :
    s = s' ∧ z = z' := by
  -- by induction on the number of bytes left; both texts lose one character
  induction hlen : s.length using Nat.strong_induction_on generalizing s s' with
  | _ k ih =>
    have first {b : UInt8} {bs z z' : List UInt8} (hv : validUTF8 0 (b :: bs) = true) :
        34 :: z ≠ escape 0 0 (b :: bs) ++ z' := by
      obtain ⟨n, w, hw, -, hne, hhead, -⟩ := escape_rune hv
      obtain ⟨a, w, rfl⟩ := List.exists_cons_of_ne_nil hne
      rw [hw]
      rintro heq
      exact hhead (congrArg some (List.cons.inj heq).1.symm)
    cases s with
    | nil =>
      cases s' with
      | nil => exact ⟨rfl, (List.cons.inj h).2⟩
      | cons b' bs' => exact absurd h (first hs')
    | cons b bs =>
      cases s' with
      | nil => exact absurd h.symm (first hs)
      | cons b' bs' =>
        obtain ⟨n, w, hw, hv, -, -, hread⟩ := escape_rune hs
        obtain ⟨n', w', hw', hv', -, -, hread'⟩ := escape_rune hs'
        rw [hw, hw', List.append_assoc, List.append_assoc] at h
        have hrune := congrArg readRune h
        rw [hread, hread', Prod.mk.injEq] at hrune
        obtain ⟨hchar, hrest⟩ := hrune
        simp only [List.length_cons] at hlen
        obtain ⟨htail, hz⟩ := ih (bs.drop n).length (by rw [List.length_drop]; omega) hv hv' hrest rfl
        refine ⟨?_, hz⟩
        rw [← List.take_append_drop n bs, ← List.cons_append, hchar, htail, List.cons_append,
          List.take_append_drop]

/-- Two hexadecimal digits a byte determine the bytes. -/
theorem hex_injective : Function.Injective fun bs : List UInt8 =>
    bs.flatMap fun b => [hexDigit (b.toNat / 16), hexDigit (b.toNat % 16)] := by
  have digit {m n : Nat} (hm : m < 16) (hn : n < 16) (h : hexDigit m = hexDigit n) : m = n := by
    rw [← hexValue_hexDigit hm, ← hexValue_hexDigit hn, h]
  intro bs
  induction bs with
  | nil =>
    rintro (- | ⟨b', bs'⟩) h
    · rfl
    · simp at h
  | cons b bs ih =>
    rintro (- | ⟨b', bs'⟩) h
    · simp at h
    · simp only [List.flatMap_cons, List.cons_append, List.nil_append, List.cons.injEq] at h
      obtain ⟨hhigh, hlow, hrest⟩ := h
      have hb := b.toNat_lt
      have hb' := b'.toNat_lt
      have h₁ := digit (by omega) (by omega) hhigh
      have h₂ := digit (by omega) (by omega) hlow
      rw [UInt8.toNat_inj.mp (show b.toNat = b'.toNat by omega), ih hrest]

end Encoding

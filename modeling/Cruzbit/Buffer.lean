/-
Cruzbit/Buffer.lean

A buffer of fixed length that is written front to back, or patched in place.

A write that does not fit fails (`put`), where a program would have to move
to a larger buffer.  `overlay a x` is the buffer `x` after `a` has been written
over its start.  Writing goes on at the end of `a` (`write_overlay`), and a part
that already stands there need not be written again (`overlay_keep`).  So a
patched buffer and a rewritten one are the same if every part left alone has
neither changed nor moved.
-/
import Mathlib.Data.List.Basic
import Mathlib.Tactic.Linarith

namespace Buffer

variable {α : Type}

/-- Write `xs` at the offset; the buffer does not grow. -/
def put (buffer : List α) (offset : Int) (xs : List α) : Option (List α) :=
  if 0 ≤ offset ∧ offset + xs.length ≤ buffer.length then
    some (buffer.take offset.toNat ++ xs ++ buffer.drop (offset.toNat + xs.length))
  else none

/-- Write at the cursor and move it behind what was written. -/
def write (cursor : List α × Int) (xs : List α) : Option (List α × Int) := do
  let buffer ← put cursor.1 cursor.2 xs
  some (buffer, cursor.2 + xs.length)

/-- Write one part after the other. -/
def writeAll (cursor : List α × Int) (parts : List (List α)) : Option (List α × Int) :=
  parts.foldlM write cursor

/-- The buffer `x` after `a` has been written over its start. -/
def overlay (a x : List α) : List α := a ++ x.drop a.length

variable {a b x xs : List α}

theorem prefix_overlay (a x : List α) : a <+: overlay a x := List.prefix_append _ _

theorem overlay_length (h : a.length ≤ x.length) : (overlay a x).length = x.length := by
  rw [overlay, List.length_append, List.length_drop]
  omega

/-- Writing goes on behind what has been written. -/
theorem put_overlay (h : (a ++ xs).length ≤ x.length) :
    put (overlay a x) a.length xs = some (overlay (a ++ xs) x) := by
  rw [List.length_append] at h
  have hlen : (overlay a x).length = x.length := overlay_length (by omega)
  rw [put, if_pos ⟨by omega, by rw [hlen]; omega⟩, Int.toNat_natCast]
  simp only [overlay, List.take_left', List.drop_append, List.drop_drop, List.length_append]
  simp

theorem write_overlay (h : (a ++ xs).length ≤ x.length) :
    write (overlay a x, (a.length : Int)) xs =
      some (overlay (a ++ xs) x, ((a ++ xs).length : Int)) := by
  simp only [write, put_overlay h, List.length_append]
  rfl

theorem writeAll_overlay {parts : List (List α)} (h : (a ++ parts.flatten).length ≤ x.length) :
    writeAll (overlay a x, (a.length : Int)) parts =
      some (overlay (a ++ parts.flatten) x, ((a ++ parts.flatten).length : Int)) := by
  induction parts generalizing a with
  | nil => simp [writeAll]
  | cons p parts ih =>
    rw [List.flatten_cons, ← List.append_assoc] at h ⊢
    have hp : (a ++ p).length ≤ x.length := by
      rw [List.length_append] at h
      omega
    rw [writeAll, List.foldlM_cons, write_overlay hp]
    exact ih h

/-- What already stands behind the part written need not be written again. -/
theorem overlay_keep (hx : b ++ xs <+: x) (hlen : a.length = b.length) :
    overlay a x = overlay (a ++ xs) x := by
  obtain ⟨z, rfl⟩ := hx
  have hold : (b ++ xs ++ z).drop a.length = xs ++ z := by
    rw [hlen, List.append_assoc, List.drop_left]
  have hnew : (b ++ xs ++ z).drop (a ++ xs).length = z := by
    rw [List.length_append, hlen, ← List.length_append, List.drop_left]
  rw [overlay, overlay, hold, hnew, List.append_assoc]

/-- A buffer that begins with a text is that text written over itself. -/
theorem overlay_of_begins (h : a <+: x) : overlay a x = x :=
  (overlay_keep (a := []) (b := []) h rfl).symm

end Buffer

/-
Cruzbit/BlockQueue.lean

The queue of blocks to download of `block_queue.go`.

An entry names the peer that is responsible for the download.  Another peer
can take the entry over when it has been there for more than two minutes, and
only the peer that is responsible removes it.  No block is in the queue twice,
which is part of the type.
-/
import Cruzbit.Basic

namespace Cruzbit

/-- If a block has been in the queue for more than 2 minutes it can be re-added
with a new peer responsible for its download.  In nanoseconds. -/
def maxQueueWait : Int := 2 * 60 * 1000000000

structure BlockQueueEntry where
  id : BlockID
  who : List UInt8
  when : Int
  deriving DecidableEq, Repr

/-- A queue of blocks to download. -/
structure BlockQueue where
  entries : List BlockQueueEntry
  nodup : (entries.map BlockQueueEntry.id).Nodup

namespace BlockQueue

def new : BlockQueue := ⟨[], List.nodup_nil⟩

def find (q : BlockQueue) (id : BlockID) : Option BlockQueueEntry :=
  q.entries.find? fun e => e.id = id

theorem find_eq_none {q : BlockQueue} {id : BlockID} :
    q.find id = none ↔ id ∉ q.entries.map BlockQueueEntry.id := by
  simp [find]

/-- The block is left in its position, with a new owner. -/
def reassign (q : BlockQueue) (id : BlockID) (who : List UInt8) (now : Int) : BlockQueue where
  entries := q.entries.map fun e => if e.id = id then { e with who := who, when := now } else e
  nodup := by
    rw [List.map_map]
    convert q.nodup using 1
    refine List.map_congr_left fun e _ => ?_
    rw [Function.comp_apply]
    split_ifs <;> rfl

/-- A new block comes to the back of the queue. -/
def pushBack (q : BlockQueue) {id : BlockID} (h : q.find id = none) (who : List UInt8)
    (now : Int) : BlockQueue where
  entries := q.entries ++ [⟨id, who, now⟩]
  nodup := by
    rw [List.map_append]
    exact List.nodup_append_comm.mp (List.nodup_cons.mpr ⟨find_eq_none.mp h, q.nodup⟩)

/-- Add adds the block ID to the back of the queue and records the address of the
peer who pushed it if it didn't exist in the queue.  If it did exist and
maxQueueWait has elapsed, the block is left in its position but the peer
responsible for download is updated. -/
def add (q : BlockQueue) (id : BlockID) (who : List UInt8) (now : Int) : BlockQueue × Bool :=
  match h : q.find id with
  | some e =>
    if now - e.when < maxQueueWait then
      -- it's still pending download
      (q, false)
    else
      -- it's expired; signal that it can be tried again
      (q.reassign id who now, true)
  | none => (q.pushBack h who now, true)

/-- Remove removes the block ID from the queue only if the requester is who is
currently responsible for its download. -/
def remove (q : BlockQueue) (id : BlockID) (who : List UInt8) : BlockQueue × Bool :=
  match q.find id with
  | some e =>
    if e.who = who then
      (⟨q.entries.filter fun e => e.id ≠ id, q.nodup.sublist (List.filter_sublist.map _)⟩, true)
    else (q, false)
  | none => (q, false)

/-- Exists returns true if the block ID exists in the queue. -/
def «exists» (q : BlockQueue) (id : BlockID) : Bool := (q.find id).isSome

/-- Peek returns the ID of the block at the front of the queue. -/
def peek (q : BlockQueue) : Option BlockID := q.entries.head?.map BlockQueueEntry.id

def len (q : BlockQueue) : Nat := q.entries.length

/-! ### What the queue holds -/

/-- The peer is responsible for the block. -/
def Owns (q : BlockQueue) (id : BlockID) (who : List UInt8) : Prop :=
  ∃ e ∈ q.entries, e.id = id ∧ e.who = who

variable {q : BlockQueue} {id id' : BlockID} {who who' : List UInt8} {now : Int}

theorem find_eq_some {e : BlockQueueEntry} :
    q.find id = some e ↔ e ∈ q.entries ∧ e.id = id := by
  have hid : ∀ {id e}, q.find id = some e → e ∈ q.entries ∧ e.id = id := by
    intro id e h
    unfold find at h
    exact ⟨List.mem_of_find?_eq_some h, by simpa using List.find?_some h⟩
  refine ⟨hid, ?_⟩
  rintro ⟨hmem, rfl⟩
  cases hf : q.find e.id with
  | none => exact absurd (List.mem_map_of_mem hmem) (find_eq_none.mp hf)
  | some e' =>
    -- a block has one entry
    obtain ⟨hmem', hid'⟩ := hid hf
    rw [List.inj_on_of_nodup_map q.nodup hmem' hmem hid']

theorem owns_iff_find : q.Owns id who ↔ ∃ e, q.find id = some e ∧ e.who = who := by
  simp only [Owns, find_eq_some, and_assoc]

theorem exists_iff : q.exists id = true ↔ ∃ who, q.Owns id who := by
  simp only [«exists», Option.isSome_iff_exists, owns_iff_find]
  exact ⟨fun ⟨e, he⟩ => ⟨_, e, he, rfl⟩, fun ⟨_, e, he, _⟩ => ⟨e, he⟩⟩

theorem not_owns_new : ¬ new.Owns id who := by
  rintro ⟨e, he, -⟩
  exact List.not_mem_nil he

theorem owns_reassign (h : q.exists id = true) : (q.reassign id who now).Owns id' who' ↔
    id' = id ∧ who' = who ∨ id' ≠ id ∧ q.Owns id' who' := by
  simp only [Owns, reassign, List.mem_map]
  constructor
  · rintro ⟨_, ⟨e, he, rfl⟩, hid, hwho⟩
    split_ifs at hid hwho with hcase
    · exact .inl ⟨hid.symm.trans hcase, hwho.symm⟩
    · exact .inr ⟨hid ▸ hcase, e, he, hid, hwho⟩
  · rintro (⟨rfl, rfl⟩ | ⟨hne, e, he, rfl, rfl⟩)
    · obtain ⟨_, e, he, rfl, -⟩ := exists_iff.mp h
      exact ⟨_, ⟨e, he, rfl⟩, by rw [if_pos rfl], by rw [if_pos rfl]⟩
    · exact ⟨_, ⟨e, he, rfl⟩, by rw [if_neg hne], by rw [if_neg hne]⟩

theorem owns_pushBack (h : q.find id = none) : (q.pushBack h who now).Owns id' who' ↔
    id' = id ∧ who' = who ∨ id' ≠ id ∧ q.Owns id' who' := by
  have hold : q.Owns id' who' → id' ≠ id := by
    rintro ⟨e, he, rfl, -⟩ rfl
    exact find_eq_none.mp h (List.mem_map_of_mem he)
  rw [and_iff_right_of_imp hold]
  simp only [Owns, pushBack, List.mem_append, List.mem_singleton]
  constructor
  · rintro ⟨e, he | rfl, hid, hwho⟩
    · exact .inr ⟨e, he, hid, hwho⟩
    · exact .inl ⟨hid.symm, hwho.symm⟩
  · rintro (⟨rfl, rfl⟩ | ⟨e, he, hid, hwho⟩)
    · exact ⟨_, .inr rfl, rfl, rfl⟩
    · exact ⟨e, .inl he, hid, hwho⟩

/-- What `Add` can do: refuse the block, hand its entry over, or queue it. -/
theorem add_cases (q : BlockQueue) (id : BlockID) (who : List UInt8) (now : Int) :
    (q.exists id = true ∧ q.add id who now = (q, false)) ∨
    (q.exists id = true ∧ q.add id who now = (q.reassign id who now, true)) ∨
    ∃ h : q.find id = none, q.add id who now = (q.pushBack h who now, true) := by
  unfold add
  split
  next e he =>
    have hex : q.exists id = true := by rw [«exists», he]; rfl
    split_ifs with hw
    · exact .inl ⟨hex, rfl⟩
    · exact .inr (.inl ⟨hex, rfl⟩)
  next he => exact .inr (.inr ⟨he, rfl⟩)

/-- A block that can be added belongs to the peer that adds it, and nothing else changes. -/
theorem owns_add (h : (q.add id who now).2 = true) :
    (q.add id who now).1.Owns id' who' ↔ id' = id ∧ who' = who ∨ id' ≠ id ∧ q.Owns id' who' := by
  obtain ⟨-, hadd⟩ | ⟨hex, hadd⟩ | ⟨hf, hadd⟩ := q.add_cases id who now <;> rw [hadd] at h ⊢
  · exact absurd h Bool.false_ne_true
  · exact owns_reassign hex
  · exact owns_pushBack hf

theorem add_of_false (h : (q.add id who now).2 = false) : (q.add id who now).1 = q := by
  obtain ⟨-, hadd⟩ | ⟨-, hadd⟩ | ⟨_, hadd⟩ := q.add_cases id who now <;> rw [hadd] at h ⊢
  all_goals exact absurd h.symm Bool.false_ne_true

/-- A block that is not in the queue can be added. -/
theorem add_new (h : q.exists id = false) :
    (q.add id who now).2 = true ∧ (q.add id who now).1.len = q.len + 1 := by
  obtain ⟨hex, -⟩ | ⟨hex, -⟩ | ⟨_, hadd⟩ := q.add_cases id who now
  · exact absurd (h.symm.trans hex) Bool.false_ne_true
  · exact absurd (h.symm.trans hex) Bool.false_ne_true
  · rw [hadd]
    exact ⟨rfl, List.length_append⟩

/-- Only the owner's entry is removed. -/
theorem owns_remove : (q.remove id who).1.Owns id' who' ↔
    q.Owns id' who' ∧ ¬ (id' = id ∧ who' = who) := by
  unfold remove
  split
  next e he =>
    split_ifs with hwho
    · -- all of the block's entries are this one
      have hown : q.Owns id' who' → (id' = id ∧ who' = who ↔ id' = id) := by
        intro hown
        refine and_iff_left_of_imp ?_
        rintro rfl
        obtain ⟨e', he', rfl⟩ := owns_iff_find.mp hown
        rw [← hwho, Option.some.inj (he'.symm.trans he)]
      rw [and_congr_right fun h => not_congr (hown h)]
      simp only [Owns, List.mem_filter, decide_eq_true_eq]
      constructor
      · rintro ⟨e', ⟨he', hne⟩, rfl, hw⟩
        exact ⟨⟨e', he', rfl, hw⟩, hne⟩
      · rintro ⟨⟨e', he', rfl, hw⟩, hne⟩
        exact ⟨e', ⟨he', hne⟩, rfl, hw⟩
    · refine (and_iff_left_of_imp ?_).symm
      rintro hown ⟨rfl, rfl⟩
      obtain ⟨e', he', rfl⟩ := owns_iff_find.mp hown
      exact hwho (by rw [Option.some.inj (he'.symm.trans he)])
  next he =>
    refine (and_iff_left_of_imp ?_).symm
    rintro hown ⟨rfl, rfl⟩
    obtain ⟨e', he', -⟩ := owns_iff_find.mp hown
    exact Option.some_ne_none e' (he'.symm.trans he)

theorem len_remove_le : (q.remove id who).1.len ≤ q.len := by
  unfold remove
  split
  · split_ifs
    · exact List.length_filter_le _ _
    · exact le_rfl
  · exact le_rfl

theorem exists_of_peek (h : q.peek = some id) : q.exists id = true := by
  obtain ⟨e, he, rfl⟩ := Option.map_eq_some_iff.mp h
  exact exists_iff.mpr ⟨e.who, e, List.mem_of_head? he, rfl, rfl⟩

theorem not_owns_of_peek (h : q.peek = none) : ¬ q.Owns id who := by
  rintro ⟨e, he, -⟩
  rw [List.head?_eq_none_iff.mp (Option.map_eq_none_iff.mp h)] at he
  exact List.not_mem_nil he

/-! ### Queues of one peer -/

/-- A peer's own queues record no address. -/
def Local (q : BlockQueue) : Prop := ∀ e ∈ q.entries, e.who = []

theorem Local.exists_iff (h : q.Local) : q.exists id = true ↔ q.Owns id [] := by
  rw [BlockQueue.exists_iff]
  refine ⟨?_, fun hown => ⟨[], hown⟩⟩
  rintro ⟨who, e, he, rfl, rfl⟩
  exact ⟨e, he, rfl, h e he⟩

theorem local_of_owns (h : ∀ id who, q.Owns id who → who = []) : q.Local :=
  fun e he => h e.id e.who ⟨e, he, rfl, rfl⟩

theorem Local.owner (h : q.Local) (hown : q.Owns id who) : who = [] := by
  obtain ⟨e, he, -, rfl⟩ := hown
  exact h e he

theorem local_new : new.Local := fun _ he => absurd he List.not_mem_nil

theorem Local.add (h : q.Local) (hex : q.exists id = false) (now : Int) :
    (q.add id [] now).1.Local := by
  refine local_of_owns fun id' who hown => ?_
  obtain ⟨-, rfl⟩ | ⟨-, hown⟩ := (owns_add (add_new hex).1).mp hown
  · rfl
  · exact h.owner hown

theorem Local.exists_add (h : q.Local) (hex : q.exists id = false) :
    (q.add id [] now).1.exists id' = true ↔ id' = id ∨ q.exists id' = true := by
  rw [(h.add hex now).exists_iff, owns_add (add_new hex).1, h.exists_iff]
  tauto

theorem Local.remove (h : q.Local) (id : BlockID) : (q.remove id []).1.Local :=
  local_of_owns fun _ _ hown => h.owner (owns_remove.mp hown).1

theorem Local.exists_remove (h : q.Local) :
    (q.remove id []).1.exists id' = true ↔ q.exists id' = true ∧ id' ≠ id := by
  rw [(h.remove id).exists_iff, owns_remove, h.exists_iff, and_iff_left rfl]

end BlockQueue

end Cruzbit

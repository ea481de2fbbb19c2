/-
Cruzbit/KeyValue.lean

Typed tables in one store of byte strings.

A layout says how a table lies in the store: the first byte of its keys, the
bytes of a key and of a value, and which keys and values can be told from
their bytes.  `Layout.Holds` says that the store has the entries of the table,
and no others under that first byte.  A write to the table is a write to the
store (`Holds.set`), and the tables with other first bytes do not notice
(`Holds.set_other`).
-/
import Cruzbit.Table

namespace KeyValue

/-- A store of byte strings. -/
abbrev Store := Table (List UInt8) (List UInt8)

/-- How a table is laid out. -/
structure Layout (K V : Type) where
  /-- The first byte of the keys. -/
  tag : UInt8
  body : K → List UInt8
  value : V → List UInt8
  decode : List UInt8 → V
  /-- The keys that can be told from their bytes. -/
  keys : Set K
  /-- The values that can be told from their bytes. -/
  values : Set V
  body_injOn : Set.InjOn body keys
  decode_value : ∀ v ∈ values, decode (value v) = v

namespace Layout

variable {K V : Type} [Ord K] [Std.TransOrd K] [Std.LawfulEqOrd K] [DecidableEq K]
  {f : Layout K V} {db : Store} {t : Table K V} {k : K}

/-- The bytes of a key. -/
def key (f : Layout K V) (k : K) : List UInt8 := f.tag :: f.body k

/-- The store has the entries of the table. -/
structure Holds (f : Layout K V) (db : Store) (t : Table K V) : Prop where
  domain : ∀ k v, t[k]? = some v → k ∈ f.keys ∧ v ∈ f.values
  get : ∀ k ∈ f.keys, db[f.key k]? = (t[k]?).map f.value
  only : ∀ rest v, db[f.tag :: rest]? = some v → ∃ k ∈ f.keys, f.body k = rest

omit [Std.LawfulEqOrd K] [DecidableEq K] in
theorem holds_empty (f : Layout K V) : f.Holds ∅ (∅ : Table K V) := by
  refine ⟨fun k v h => ?_, fun k _ => ?_, fun rest v h => ?_⟩
  · simp at h
  · simp
  · simp at h

omit [Ord K] [Std.TransOrd K] [Std.LawfulEqOrd K] [DecidableEq K] in
theorem key_inj {k' : K} (hk : k ∈ f.keys) (hk' : k' ∈ f.keys) : f.key k = f.key k' ↔ k = k' := by
  constructor
  · intro heq
    exact f.body_injOn hk hk' (List.cons.inj heq).2
  · rintro rfl
    rfl

/-- **A write to the table.** -/
theorem Holds.set (h : f.Holds db t) (hk : k ∈ f.keys) {o : Option V}
    (ho : ∀ v ∈ o, v ∈ f.values) :
    f.Holds (Table.set db (f.key k) (o.map f.value)) (t.set k o) := by
  refine ⟨fun k' v hget => ?_, fun k' hk' => ?_, fun rest v hget => ?_⟩
  · rw [Table.get_set] at hget
    split_ifs at hget with heq
    · exact ⟨heq ▸ hk, ho v hget⟩
    · exact h.domain k' v hget
  · rw [Table.get_set, Table.get_set]
    simp only [key_inj hk hk']
    split_ifs with heq
    · rfl
    · exact h.get k' hk'
  · rw [Table.get_set] at hget
    split_ifs at hget with heq
    · exact ⟨k, hk, (List.cons.inj heq).2⟩
    · exact h.only rest v hget

omit [Std.LawfulEqOrd K] [DecidableEq K] in
/-- **A write to another table.** -/
theorem Holds.set_other (h : f.Holds db t) {bytes : List UInt8} {tag : UInt8}
    (hhead : bytes.head? = some tag) (hne : tag ≠ f.tag) (o : Option (List UInt8)) :
    f.Holds (Table.set db bytes o) t := by
  have hget (rest : List UInt8) :
      (Table.set db bytes o)[f.tag :: rest]? = db[f.tag :: rest]? := by
    rw [Table.get_set, if_neg]
    rintro rfl
    exact hne (Option.some.inj hhead).symm
  refine ⟨h.domain, fun k hk => ?_, fun rest v hv => ?_⟩
  · rw [key, hget]
    exact h.get k hk
  · rw [hget] at hv
    exact h.only rest v hv

omit [Std.LawfulEqOrd K] [DecidableEq K] in
/-- What is read is what was written. -/
theorem Holds.decode_get (h : f.Holds db t) (hk : k ∈ f.keys) :
    (db[f.key k]?).map f.decode = t[k]? := by
  rw [h.get k hk, Option.map_map]
  cases hget : t[k]? with
  | none => rfl
  | some v => exact congrArg some (f.decode_value v (h.domain k v hget).2)

omit [Std.LawfulEqOrd K] [DecidableEq K] in
/-- The keys in the store with the first byte of the table are those of its entries. -/
theorem Holds.contains_iff (h : f.Holds db t) {rest : List UInt8} :
    db.contains (f.tag :: rest) = true ↔ ∃ k, t.contains k = true ∧ f.body k = rest := by
  simp only [Table.contains_iff]
  constructor
  · rintro ⟨v, hv⟩
    obtain ⟨k, hk, rfl⟩ := h.only rest v hv
    have hget := h.get k hk
    rw [key, hv] at hget
    obtain ⟨w, hw, -⟩ := Option.map_eq_some_iff.mp hget.symm
    exact ⟨k, ⟨w, hw⟩, rfl⟩
  · rintro ⟨k, ⟨v, hv⟩, rfl⟩
    have hget := h.get k (h.domain k v hv).1
    rw [hv] at hget
    exact ⟨_, hget⟩

end Layout

/-! ### The order of a batch -/

/-- Writes to different keys may be made in any order. -/
theorem write_perm {K V : Type} [Ord K] [Std.TransOrd K] [Std.LawfulEqOrd K] [DecidableEq K]
    {ops ops' : List (K × Option V)} (h : ops.Perm ops') (hnd : (ops.map Prod.fst).Nodup)
    (t : Table K V) : t.write ops = t.write ops' := by
  have hcomm : ∀ a ∈ ops, ∀ b ∈ ops, ∀ t : Table K V,
      (t.set a.1 a.2).set b.1 b.2 = (t.set b.1 b.2).set a.1 a.2 := by
    intro a ha b hb t
    by_cases hab : a.1 = b.1
    · rw [List.inj_on_of_nodup_map hnd ha hb hab]
    · refine Std.ExtTreeMap.ext_getElem? fun {k} => ?_
      simp only [Table.get_set]
      split_ifs with hbk hak
      · exact absurd (hak.trans hbk.symm) hab
      · rfl
      · rfl
      · rfl
  exact h.foldl_eq' hcomm t

end KeyValue

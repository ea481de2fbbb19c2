/-
Cruzbit/Table.lean

Finite tables and batches of writes.  A table is an ordered map with one
entry per key (`Std.ExtTreeMap`), so two tables with the same lookups are
equal and its entries are listed in key order.  A batch is a list of
operations `(k, some v)` (put) and `(k, none)` (delete), applied in order.

Nothing here depends on the order of a batch beyond the last operation on
each key, and the proofs that use batches never need that either: it is
enough to know that a key is not mentioned (`get_write_of_notMem`) or that
all operations on it agree (`get_write_of_mem`).

`Holds t es` says the table has exactly the entries `es`.  A table that holds
the entries of the newest `n` items of a growing list can be kept by putting
the entries of a new item and deleting those of the item that falls out
(`holds_push`), and the step can be taken back (`holds_pop`).

`Indexes f t ix` says that `ix` is an index of the table by the places `f` gives
to its entries, which can be kept entry by entry (`Indexes.set`).
-/
import Cruzbit.Word

/-- A finite table: at most one value per key, listed in key order. -/
abbrev Table (K V : Type) [Ord K] := Std.ExtTreeMap K V compare

namespace Table

/-! ### Entries -/

section Entries

variable {K V α : Type}

/-- The operations that put the given entries. -/
def puts (es : List (K × V)) : List (K × Option V) := es.map fun e => (e.1, some e.2)

/-- The operations that delete the keys of the given entries. -/
def deletes (es : List (K × V)) : List (K × Option V) := es.map fun e => (e.1, none)

/-- No key has two values among the entries. -/
def Functional (es : List (K × V)) : Prop := ∀ k v v', (k, v) ∈ es → (k, v') ∈ es → v = v'

/-- The two lists of entries have no key in common. -/
def Disjoint (es es' : List (K × V)) : Prop := ∀ k v v', (k, v) ∈ es → (k, v') ∉ es'

theorem Disjoint.symm {es es' : List (K × V)} (h : Disjoint es es') : Disjoint es' es :=
  fun k v v' hv hv' => h k v' v hv' hv

theorem mem_puts {es : List (K × V)} {k : K} {o : Option V} :
    (k, o) ∈ puts es ↔ ∃ v, o = some v ∧ (k, v) ∈ es := by
  simp only [puts, List.mem_map, Prod.mk.injEq]
  constructor
  · rintro ⟨e, he, rfl, rfl⟩
    exact ⟨e.2, rfl, he⟩
  · rintro ⟨v, rfl, he⟩
    exact ⟨(k, v), he, rfl, rfl⟩

theorem mem_deletes {es : List (K × V)} {k : K} {o : Option V} :
    (k, o) ∈ deletes es ↔ o = none ∧ ∃ v, (k, v) ∈ es := by
  simp only [deletes, List.mem_map, Prod.mk.injEq]
  constructor
  · rintro ⟨e, he, rfl, rfl⟩
    exact ⟨rfl, e.2, he⟩
  · rintro ⟨rfl, v, he⟩
    exact ⟨(k, v), he, rfl, rfl⟩

/-- Items whose entries are pairwise disjoint. -/
def Apart (E : α → List (K × V)) (c : List α) : Prop := c.Pairwise fun a b => Disjoint (E a) (E b)

/-- Two parts of a list of items that are apart have no key in common. -/
theorem Apart.disjoint {E : α → List (K × V)} {c d : List α} (h : Apart E (c ++ d)) :
    Disjoint (c.flatMap E) (d.flatMap E) := by
  intro k v v' hv hv'
  obtain ⟨a, ha, hav⟩ := List.mem_flatMap.mp hv
  obtain ⟨b, hb, hbv⟩ := List.mem_flatMap.mp hv'
  exact (List.pairwise_append.mp h).2.2 a ha b hb k v v' hav hbv

/-! ### Sliding windows -/

/-- The newest `n` items of a list that grows at its head, or all of it. -/
def window (bounded : Bool) (n : Nat) (c : List α) : List α := if bounded then c.take n else c

/-- The item that leaves the window when another one is added. -/
def leaving (bounded : Bool) (n : Nat) (c : List α) : Option α :=
  if bounded then (c.drop (n - 1)).head? else none

variable {bounded : Bool} {n : Nat}

theorem mem_of_mem_window {c : List α} {x : α} (h : x ∈ window bounded n c) : x ∈ c := by
  unfold window at h
  split_ifs at h
  · exact List.mem_of_mem_take h
  · exact h

/-- Adding an item keeps the window but for what leaves. -/
theorem exists_window_cons (bounded : Bool) (hn : 0 < n) (x : α) (c : List α) :
    ∃ staying, window bounded n (x :: c) = x :: staying ∧
      window bounded n c = staying ++ (leaving bounded n c).toList := by
  cases bounded with
  | false => exact ⟨c, by simp [window, leaving]⟩
  | true =>
    obtain ⟨m, rfl⟩ := Nat.exists_eq_succ_of_ne_zero hn.ne'
    exact ⟨c.take m, rfl, by simp [window, leaving, List.take_add_one]⟩

/-- If every item is related to the window below it, the window is pairwise
related. -/
theorem pairwise_window {R : α → α → Prop} {c : List α}
    (h : ∀ x d, x :: d <:+ c → ∀ y ∈ window bounded n d, R x y) : (window bounded n c).Pairwise R := by
  induction c with
  | nil => simp [window]
  | cons x c ih =>
    have htail := ih fun y d hd => h y d (hd.trans (List.suffix_cons x c))
    have hhead := h x c (List.suffix_refl _)
    rcases Nat.eq_zero_or_pos n with rfl | hn
    · cases bounded with
      | true => simp [window]
      | false => exact List.pairwise_cons.mpr ⟨hhead, htail⟩
    · obtain ⟨staying, hw', hw⟩ := exists_window_cons bounded hn x c
      rw [hw] at htail hhead
      rw [hw']
      exact List.pairwise_cons.mpr ⟨fun y hy => hhead y (List.mem_append_left _ hy),
        (List.pairwise_append.mp htail).1⟩

end Entries

/-! ### Single operations -/

section Operations

variable {K V : Type} [Ord K] [Std.TransOrd K] [Std.LawfulEqOrd K] [DecidableEq K]

theorem get_insert (t : Table K V) (k k' : K) (v : V) :
    (t.insert k v)[k']? = if k = k' then some v else t[k']? := by
  rw [Std.ExtTreeMap.getElem?_insert]
  simp only [Std.LawfulEqCmp.compare_eq_iff_eq]

theorem get_erase (t : Table K V) (k k' : K) :
    (t.erase k)[k']? = if k = k' then none else t[k']? := by
  rw [Std.ExtTreeMap.getElem?_erase]
  simp only [Std.LawfulEqCmp.compare_eq_iff_eq]

omit [Std.LawfulEqOrd K] [DecidableEq K] in
theorem contains_iff (t : Table K V) (k : K) : t.contains k = true ↔ ∃ v, t[k]? = some v := by
  rw [Std.ExtTreeMap.contains_eq_isSome_getElem?, Option.isSome_iff_exists]

/-- One operation of a batch: put a value, or delete the key. -/
def set (t : Table K V) (k : K) : Option V → Table K V
  | some v => t.insert k v
  | none => t.erase k

theorem get_set (t : Table K V) (k k' : K) (o : Option V) :
    (t.set k o)[k']? = if k = k' then o else t[k']? := by
  cases o with
  | none => exact get_erase t k k'
  | some v => exact get_insert t k k' v

/-! ### Batches -/

/-- Apply a batch of operations in order. -/
def write (t : Table K V) (ops : List (K × Option V)) : Table K V :=
  ops.foldl (fun t op => t.set op.1 op.2) t

omit [Std.LawfulEqOrd K] [DecidableEq K] in
@[simp] theorem write_nil (t : Table K V) : t.write [] = t := rfl

omit [Std.LawfulEqOrd K] [DecidableEq K] in
@[simp] theorem write_cons (t : Table K V) (op : K × Option V) (ops : List (K × Option V)) :
    t.write (op :: ops) = (t.set op.1 op.2).write ops := rfl

omit [Std.LawfulEqOrd K] [DecidableEq K] in
theorem write_append (t : Table K V) (ops ops' : List (K × Option V)) :
    t.write (ops ++ ops') = (t.write ops).write ops' := by
  simp [write]

/-- A batch leaves the keys it does not mention alone. -/
theorem get_write_of_notMem {t : Table K V} {ops : List (K × Option V)} {k : K}
    (h : ∀ o, (k, o) ∉ ops) : (t.write ops)[k]? = t[k]? := by
  induction ops generalizing t with
  | nil => rfl
  | cons op ops ih =>
    have hne : op.1 ≠ k := by
      rintro rfl
      exact h op.2 List.mem_cons_self
    rw [write_cons, ih (fun o ho => h o (List.mem_cons_of_mem _ ho)), get_set, if_neg hne]

/-- Where all operations of a batch on a key agree, the key ends with that
operation's outcome. -/
theorem get_write_of_mem {t : Table K V} {ops : List (K × Option V)} {k : K} {o : Option V}
    (h : (k, o) ∈ ops) (hu : ∀ o', (k, o') ∈ ops → o' = o) : (t.write ops)[k]? = o := by
  induction ops generalizing t with
  | nil => simp at h
  | cons op ops ih =>
    rw [write_cons]
    by_cases hk : (k, o) ∈ ops
    · exact ih hk fun o' ho' => hu o' (List.mem_cons_of_mem _ ho')
    · -- the head is the only operation on `k`
      have hop : op = (k, o) := by
        rcases List.mem_cons.mp h with h | h
        · exact h.symm
        · exact absurd h hk
      have hrest : ∀ o', (k, o') ∉ ops := by
        intro o' ho'
        have := hu o' (List.mem_cons_of_mem _ ho')
        exact hk (this ▸ ho')
      rw [get_write_of_notMem hrest, hop, get_set, if_pos rfl]

/-! ### Tables with given entries -/

/-- The table has exactly these entries. -/
def Holds (t : Table K V) (es : List (K × V)) : Prop := ∀ k v, t[k]? = some v ↔ (k, v) ∈ es

omit [Std.LawfulEqOrd K] [DecidableEq K] in
theorem holds_nil : Holds (∅ : Table K V) [] := by
  intro k v
  simp

omit [Std.LawfulEqOrd K] [DecidableEq K] in
theorem Holds.congr {t : Table K V} {es es' : List (K × V)} (h : Holds t es)
    (hes : ∀ e, e ∈ es ↔ e ∈ es') : Holds t es' :=
  fun k v => (h k v).trans (hes (k, v))

omit [Std.LawfulEqOrd K] [DecidableEq K] in
theorem Holds.contains_iff {t : Table K V} {es : List (K × V)} (h : Holds t es) (k : K) :
    t.contains k = true ↔ ∃ v, (k, v) ∈ es := by
  rw [Table.contains_iff]
  exact exists_congr fun v => h k v

omit [DecidableEq K] in
/-- Tables with the same entries are equal. -/
theorem Holds.unique {t t' : Table K V} {es : List (K × V)} (h : Holds t es) (h' : Holds t' es) :
    t = t' := by
  refine Std.ExtTreeMap.ext_getElem? fun {k} => Option.ext fun v => ?_
  rw [h k v, h' k v]

theorem Holds.put {t : Table K V} {es : List (K × V)} (es' : List (K × V)) (h : Holds t es)
    (hf : Functional es') (hd : Disjoint es' es) : Holds (t.write (puts es')) (es' ++ es) := by
  intro k v
  rw [List.mem_append]
  by_cases hk : ∃ w, (k, w) ∈ es'
  · obtain ⟨w, hw⟩ := hk
    rw [get_write_of_mem (o := some w) (mem_puts.mpr ⟨w, rfl, hw⟩)]
    · constructor
      · rintro ⟨⟩
        exact Or.inl hw
      · rintro (hv | hv)
        · rw [hf k w v hw hv]
        · exact absurd hv (hd k w v hw)
    · intro o' ho'
      obtain ⟨v', rfl, hv'⟩ := mem_puts.mp ho'
      rw [hf k v' w hv' hw]
  · rw [get_write_of_notMem, h k v]
    · exact ⟨Or.inr, fun hv => hv.resolve_left fun hv => hk ⟨v, hv⟩⟩
    · intro o ho
      obtain ⟨v', -, hv'⟩ := mem_puts.mp ho
      exact hk ⟨v', hv'⟩

theorem Holds.delete {t : Table K V} {es : List (K × V)} (es' : List (K × V))
    (h : Holds t (es' ++ es)) (hd : Disjoint es' es) : Holds (t.write (deletes es')) es := by
  intro k v
  by_cases hk : ∃ w, (k, w) ∈ es'
  · have hnone : (t.write (deletes es'))[k]? = none :=
      get_write_of_mem (mem_deletes.mpr ⟨rfl, hk⟩) fun o' ho' => (mem_deletes.mp ho').1
    obtain ⟨w, hw⟩ := hk
    rw [hnone]
    exact ⟨fun hv => absurd hv (by simp), fun hv => absurd hv (hd k w v hw)⟩
  · rw [get_write_of_notMem, h k v, List.mem_append]
    · exact ⟨fun hv => hv.resolve_left fun hv => hk ⟨v, hv⟩, Or.inr⟩
    · intro o ho
      exact hk (mem_deletes.mp ho).2

section Window

variable {α : Type} {E : α → List (K × V)} {bounded : Bool} {n : Nat} {t : Table K V} {x : α}
  {c : List α}

/-- **Adding an item**: put its entries, delete those of the item that leaves. -/
theorem holds_push (hn : 0 < n) (h : Holds t ((window bounded n c).flatMap E))
    (hf : Functional (E x)) (hp : Apart E (x :: window bounded n c)) :
    Holds (t.write (puts (E x) ++ deletes ((leaving bounded n c).toList.flatMap E)))
      ((window bounded n (x :: c)).flatMap E) := by
  obtain ⟨staying, hw', hw⟩ := exists_window_cons bounded hn x c
  have hx : Disjoint (E x) ((window bounded n c).flatMap E) := by
    simpa only [List.flatMap_singleton] using
      Apart.disjoint (c := [x]) (d := window bounded n c) hp
  rw [hw] at hp h hx
  have hleave : Disjoint ((leaving bounded n c).toList.flatMap E) ((x :: staying).flatMap E) :=
    (Apart.disjoint (c := x :: staying) hp).symm
  rw [write_append, hw']
  refine Holds.delete _ (Holds.congr (h.put _ hf hx) fun e => ?_) hleave
  simp only [List.flatMap_append, List.flatMap_cons, List.mem_append]
  tauto

/-- **Taking an item back**: delete its entries, in any order, and put those of
the item that returns. -/
theorem holds_pop (hn : 0 < n) {es : List (K × V)} (hes : ∀ e, e ∈ es ↔ e ∈ E x)
    (h : Holds t ((window bounded n (x :: c)).flatMap E))
    (hf : ∀ y ∈ leaving bounded n c, Functional (E y))
    (hp : Apart E (x :: window bounded n c)) :
    Holds (t.write (deletes es ++ puts ((leaving bounded n c).toList.flatMap E)))
      ((window bounded n c).flatMap E) := by
  obtain ⟨staying, hw', hw⟩ := exists_window_cons bounded hn x c
  rw [hw] at hp ⊢
  have h' : Holds t (es ++ staying.flatMap E) := by
    refine Holds.congr (hw' ▸ h) fun e => ?_
    rw [List.flatMap_cons, List.mem_append, List.mem_append, hes]
  have hx : Disjoint es (staying.flatMap E) := by
    have hp' : Apart E ([x] ++ staying) := List.Pairwise.sublist (by simp) hp
    intro k v v' hv
    exact hp'.disjoint k v v' (by simpa using (hes (k, v)).mp hv)
  have hreturn : Disjoint ((leaving bounded n c).toList.flatMap E) (staying.flatMap E) :=
    (Apart.disjoint (List.pairwise_cons.mp hp).2).symm
  have hfl : Functional ((leaving bounded n c).toList.flatMap E) := by
    cases hl : leaving bounded n c with
    | none => intro k v v' hv; simp at hv
    | some y => simpa using hf y hl
  rw [write_append]
  refine Holds.congr ((Holds.delete _ h' hx).put _ hfl hreturn) fun e => ?_
  simp only [List.flatMap_append, List.mem_append]
  tauto

end Window

/-! ### Listing -/

omit [DecidableEq K] in
theorem mem_toList (t : Table K V) (k : K) (v : V) : (k, v) ∈ t.toList ↔ t[k]? = some v :=
  Std.ExtTreeMap.mem_toList_iff_getElem?_eq_some

omit [DecidableEq K] in
/-- No key is listed twice. -/
theorem nodup_keys (t : Table K V) : (t.toList.map Prod.fst).Nodup := by
  have h := Std.ExtTreeMap.distinct_keys_toList (t := t)
  rw [List.nodup_iff_pairwise_ne, List.pairwise_map]
  refine h.imp fun {a b} hab heq => hab ?_
  rw [heq]
  exact Std.ReflCmp.compare_self

/-- How many keys have the property. -/
def countKeys (p : K → Bool) (t : Table K V) : Nat := t.toList.countP fun e => p e.1

omit [DecidableEq K] in
theorem nodup_toList (t : Table K V) : t.toList.Nodup := List.Nodup.of_map _ (nodup_keys t)

theorem toList_insert_perm {t : Table K V} {k : K} (v : V) (h : t[k]? = none) :
    (t.insert k v).toList.Perm ((k, v) :: t.toList) := by
  have hnew : (k, v) ∉ t.toList := by
    rw [mem_toList, h]
    exact nofun
  rw [List.perm_ext_iff_of_nodup (nodup_toList _) (List.nodup_cons.mpr ⟨hnew, nodup_toList t⟩)]
  rintro ⟨k', v'⟩
  rw [mem_toList, get_insert, List.mem_cons, mem_toList, Prod.mk.injEq]
  split_ifs with hk
  · subst hk
    simp [h, eq_comm]
  · simp [Ne.symm hk]

theorem toList_erase_perm {t : Table K V} {k : K} {v : V} (h : t[k]? = some v) :
    t.toList.Perm ((k, v) :: (t.erase k).toList) := by
  have hgone : (k, v) ∉ (t.erase k).toList := by
    rw [mem_toList, get_erase, if_pos rfl]
    exact nofun
  rw [List.perm_ext_iff_of_nodup (nodup_toList _) (List.nodup_cons.mpr ⟨hgone, nodup_toList _⟩)]
  rintro ⟨k', v'⟩
  rw [mem_toList, List.mem_cons, mem_toList, get_erase, Prod.mk.injEq]
  split_ifs with hk
  · subst hk
    simp [h, eq_comm]
  · simp [Ne.symm hk]

theorem countKeys_insert {p : K → Bool} {t : Table K V} {k : K} (v : V) (h : t[k]? = none) :
    countKeys p (t.insert k v) = countKeys p t + if p k then 1 else 0 := by
  rw [countKeys, (toList_insert_perm v h).countP_eq, List.countP_cons]
  rfl

theorem countKeys_erase {p : K → Bool} {t : Table K V} {k : K} {v : V} (h : t[k]? = some v) :
    countKeys p t = countKeys p (t.erase k) + if p k then 1 else 0 := by
  rw [countKeys, (toList_erase_perm h).countP_eq, List.countP_cons]
  rfl

end Operations

/-! ### Indices -/

section Index

variable {K V I : Type} [Ord K] [Std.TransOrd K] [Std.LawfulEqOrd K] [DecidableEq K]
  [Ord I] [Std.TransOrd I] [Std.LawfulEqOrd I] [DecidableEq I]
  {f : K → V → Option I} {t : Table K V} {ix ix' : Table I Unit} {k : K} {new : Option V}

/-- The index has exactly the places that `f` gives to the entries of the table. -/
def Indexes (f : K → V → Option I) (t : Table K V) (ix : Table I Unit) : Prop :=
  ∀ i, ix.contains i = true ↔ ∃ k v, t[k]? = some v ∧ f k v = some i

omit [Std.LawfulEqOrd K] [DecidableEq K] [Std.LawfulEqOrd I] [DecidableEq I] in
theorem indexes_empty : Indexes f (∅ : Table K V) (∅ : Table I Unit) := by
  intro i
  simp

omit [Std.LawfulEqOrd I] [DecidableEq I] in
/-- **An entry changes**: its old place goes from the index and its new one is
added. -/
theorem Indexes.set (h : Indexes f t ix)
    (hf : ∀ {k v k' v' i}, f k v = some i → f k' v' = some i → k = k')
    (hix : ∀ i, ix'.contains i = true ↔
      new.bind (f k) = some i ∨ ix.contains i = true ∧ (t[k]?).bind (f k) ≠ some i) :
    Indexes f (t.set k new) ix' := by
  intro i
  rw [hix i, h i]
  simp only [get_set]
  constructor
  · rintro (hnew | ⟨⟨k', v, hget, hplace⟩, hold⟩)
    · obtain ⟨v, hv, hplace⟩ := Option.bind_eq_some_iff.mp hnew
      exact ⟨k, v, by rw [if_pos rfl, hv], hplace⟩
    · have hne : k ≠ k' := by
        rintro rfl
        exact hold (by rw [hget, Option.bind_some, hplace])
      exact ⟨k', v, by rw [if_neg hne, hget], hplace⟩
  · rintro ⟨k', v, hget, hplace⟩
    split_ifs at hget with heq
    · subst heq
      exact Or.inl (by rw [hget, Option.bind_some, hplace])
    · refine Or.inr ⟨⟨k', v, hget, hplace⟩, fun hold => ?_⟩
      obtain ⟨v', -, hplace'⟩ := Option.bind_eq_some_iff.mp hold
      exact heq (hf hplace' hplace)

omit [Std.LawfulEqOrd K] [DecidableEq K] [Std.LawfulEqOrd I] [DecidableEq I] in
/-- An entry that keeps its place leaves the index as it is. -/
theorem Indexes.contains_iff_or (h : Indexes f t ix) {v : V} (hget : t[k]? = some v) (i : I) :
    ix.contains i = true ↔ f k v = some i ∨ ix.contains i = true ∧ f k v ≠ some i := by
  by_cases hplace : f k v = some i
  · exact iff_of_true ((h i).mpr ⟨k, v, hget, hplace⟩) (Or.inl hplace)
  · simp [hplace]

theorem contains_set (ix : Table I Unit) (i j : I) (o : Option Unit) :
    (ix.set i o).contains j = true ↔ if i = j then o.isSome = true else ix.contains j = true := by
  rw [Std.ExtTreeMap.contains_eq_isSome_getElem?, Std.ExtTreeMap.contains_eq_isSome_getElem?,
    get_set]
  split_ifs <;> rfl

end Index

end Table

/-
Cruzbit/Fork.lean

The fork walk of `acceptBlockContinue`.  Stored blocks form lines of descent
to genesis (`BlockLine`).  For the lines of the tip and of the new block's
parent, `findFork` returns the two segments above their fork point: the
blocks to disconnect from the tip down, and the blocks to connect from the
fork point up (`findFork_eq`).  In particular the walk ends, no header on the
way is missing, and comparing headers instead of IDs makes no difference.
-/
import Cruzbit.Lineage
import Cruzbit.History
import Cruzbit.Processor

namespace Cruzbit

open Chain Lineage

/-- `y` is the stored parent of `x`. -/
structure ParentOf (blockStore : BlockStorage) (x y : BlockID × Block) : Prop where
  previous : x.2.header.previous = y.1
  height : x.2.header.height = y.2.header.height + 1
  height_nonneg : 0 ≤ y.2.header.height
  stored : ∃ storedAt, blockStore[y.1]? = some ⟨y.2, storedAt⟩

/-- Blocks linked by `Previous` down to genesis. -/
abbrev BlockLine (crypto : Crypto) (blockStore : BlockStorage) (c : Chain) : Prop :=
  Line (ParentOf blockStore) (genesisEntry crypto) c

/-- The level of a block in its line. -/
def level (x : BlockID × Block) : Nat := x.2.header.height.toNat

section Lines

variable {crypto : Crypto} {blockStore blockStore' : BlockStorage} {c d : Chain}
  {x y : BlockID × Block}

theorem level_genesis : level (genesisEntry crypto) = 0 := rfl

theorem ParentOf.level (h : ParentOf blockStore x y) : level x = level y + 1 := by
  have h₁ := h.height
  have h₂ := h.height_nonneg
  unfold Cruzbit.level
  omega

theorem ParentOf.unique {z : BlockID × Block} (h : ParentOf blockStore x y)
    (h' : ParentOf blockStore x z) : y = z := by
  have hid : y.1 = z.1 := h.previous.symm.trans h'.previous
  obtain ⟨t, ht⟩ := h.stored
  obtain ⟨t', ht'⟩ := h'.stored
  rw [hid, ht', Option.some.injEq, StoredBlock.mk.injEq] at ht
  exact Prod.ext hid ht.1.symm

theorem ParentOf.derefHeader (h : ParentOf blockStore x y) :
    blockStore.derefHeader y.1 = .ok y.2.header := by
  obtain ⟨t, ht⟩ := h.stored
  simp [BlockStorage.derefHeader, BlockStorage.getBlockHeader, ht]

/-- The height of a block counts the blocks below it. -/
theorem BlockLine.height_eq (h : BlockLine crypto blockStore (x :: c)) :
    x.2.header.height = c.length := by
  have hlevel := Line.level_eq level_genesis (fun _ _ => ParentOf.level) h
  have hnonneg : 0 ≤ x.2.header.height := by
    cases c with
    | nil =>
      obtain rfl : x = genesisEntry crypto := by simpa using h.last
      exact le_refl 0
    | cons y c =>
      have hparent := h.parent_head
      have hy := hparent.height_nonneg
      rw [hparent.height]
      omega
  unfold level at hlevel
  omega

theorem BlockLine.height_of_append (h : BlockLine crypto blockStore (d ++ x :: c)) :
    x.2.header.height = c.length :=
  BlockLine.height_eq (Line.suffix h)

theorem BlockLine.ext (h : BlockLine crypto blockStore (x :: c))
    (h' : BlockLine crypto blockStore (x :: d)) : c = d :=
  Line.ext level_genesis (fun _ _ => ParentOf.level) (fun _ _ _ => ParentOf.unique) h h'

theorem BlockLine.forks (h : BlockLine crypto blockStore c) (h' : BlockLine crypto blockStore d) :
    Forks c d :=
  exists_fork level_genesis (fun _ _ => ParentOf.level) (fun _ _ _ => ParentOf.unique) h h'

/-- A line is a line in every storage that holds it. -/
theorem BlockLine.of_stored (h : BlockLine crypto blockStore c) (hst : Stored blockStore' c) :
    BlockLine crypto blockStore' c := by
  induction c with
  | nil => exact absurd rfl h.ne_nil
  | cons x c ih =>
    rcases eq_or_ne c [] with rfl | hc
    · exact ⟨List.isChain_singleton _, h.last⟩
    · obtain ⟨p, c, rfl⟩ := List.exists_cons_of_ne_nil hc
      have hparent := h.parent_head
      exact (ih (h.tail hc) fun y hy => hst y (List.mem_cons_of_mem _ hy)).cons
        ⟨hparent.previous, hparent.height, hparent.height_nonneg, hst p (by simp)⟩

/-- No block of a stored line is filed under two IDs. -/
theorem Stored.eq_of_fst_eq (hc : Stored blockStore c) (hd : Stored blockStore d) (hx : x ∈ c)
    (hy : y ∈ d) (hid : x.1 = y.1) : x = y := by
  obtain ⟨t, ht⟩ := hc x hx
  obtain ⟨t', ht'⟩ := hd y hy
  rw [hid, ht', Option.some.injEq, StoredBlock.mk.injEq] at ht
  exact Prod.ext hid ht.1.symm

/-- The IDs of a line in storage are distinct. -/
theorem BlockLine.ids_nodup (h : BlockLine crypto blockStore c) (hst : Stored blockStore c) :
    c.ids.Nodup := by
  have hnd := Line.nodup level_genesis (fun _ _ => ParentOf.level) h
  exact (List.nodup_map_iff_inj_on hnd).mpr fun x hx y hy => hst.eq_of_fst_eq hst hx hy

/-! ### Walking -/

theorem exists_head_append (d : Chain) (y : BlockID × Block) (c : Chain) :
    ∃ x e, d ++ y :: c = x :: e := by
  cases d with
  | nil => exact ⟨y, c, rfl⟩
  | cons x d => exact ⟨x, d ++ y :: c, rfl⟩

/-- Following `Previous` along a line. -/
theorem walkHeaders_eq (h : BlockLine crypto blockStore (d ++ y :: c))
    (hx : (d ++ y :: c).head? = some x) :
    walkHeaders blockStore d.length x.2.header = .ok y.2.header := by
  induction d generalizing x with
  | nil =>
    obtain rfl : y = x := Option.some.inj hx
    rfl
  | cons z d ih =>
    obtain rfl : z = x := Option.some.inj hx
    obtain ⟨w, e, hw⟩ := exists_head_append d y c
    have hparent : ParentOf blockStore z w := by
      have h' := h
      rw [List.cons_append, hw] at h'
      exact h'.parent_head
    have hrest := ih (Line.tail h (by simp)) (show (d ++ y :: c).head? = some w by rw [hw]; rfl)
    simp only [List.length_cons, walkHeaders, hparent.previous, hparent.derefHeader, bind,
      Except.bind, hrest]

theorem BlockLine.walkHeaders_getElem (h : BlockLine crypto blockStore (x :: c)) {n : Nat}
    (hn : n < (x :: c).length) :
    walkHeaders blockStore n x.2.header = .ok (x :: c)[n].2.header := by
  have hsplit := (List.take_append_drop n (x :: c)).symm
  rw [List.drop_eq_getElem_cons hn] at hsplit
  rw [hsplit] at h
  have hwalk := walkHeaders_eq h (x := x) (by rw [← hsplit]; rfl)
  rwa [List.length_take_of_le hn.le] at hwalk

/-- Walking back a line passes the blocks above the height. -/
theorem walkToHeight_eq {pre post : Chain} {minHeight : Int} {fuel : Nat}
    (h : BlockLine crypto blockStore (pre ++ y :: post)) (hx : (pre ++ y :: post).head? = some x)
    (hpre : ∀ z ∈ pre, z.2.header.height > minHeight) (hy : y.2.header.height ≤ minHeight)
    (hfuel : pre.length < fuel) :
    walkToHeight blockStore minHeight fuel x.1 x.2.header = .ok (pre.ids, y.1, y.2.header) := by
  induction pre generalizing x fuel with
  | nil =>
    obtain ⟨n, rfl⟩ := Nat.exists_eq_add_of_lt hfuel
    obtain rfl : y = x := Option.some.inj hx
    simp [walkToHeight, not_lt.mpr hy, ids]
  | cons z pre ih =>
    obtain ⟨n, rfl⟩ : ∃ n, fuel = n + 1 := ⟨fuel - 1, by omega⟩
    obtain rfl : z = x := Option.some.inj hx
    obtain ⟨w, e, hw⟩ := exists_head_append pre y post
    have hparent : ParentOf blockStore z w := by
      have h' := h
      rw [List.cons_append, hw] at h'
      exact h'.parent_head
    have hrest : walkToHeight blockStore minHeight n w.1 w.2.header =
        .ok (Chain.ids pre, y.1, y.2.header) :=
      ih (Line.tail h (by simp)) (by rw [hw]; rfl)
        (fun v hv => hpre v (List.mem_cons_of_mem _ hv)) (by simpa using hfuel)
    simp only [walkToHeight, if_pos (hpre z List.mem_cons_self), hparent.derefHeader,
      hparent.previous, bind, Except.bind, hrest]
    rfl

/-- Scanning two lines of the same length reaches the block they share. -/
theorem scanToAncestor_eq {as bs common : Chain} {f : BlockID × Block} {fuel : Nat}
    (ha : BlockLine crypto blockStore (as ++ f :: common))
    (hb : BlockLine crypto blockStore (bs ++ f :: common))
    (hx : (as ++ f :: common).head? = some x) (hy : (bs ++ f :: common).head? = some y)
    (hlen : as.length = bs.length) (hne : ∀ a ∈ as, ∀ b ∈ bs, b.2.header ≠ a.2.header)
    (hfuel : as.length < fuel) :
    scanToAncestor blockStore fuel x.1 x.2.header y.1 y.2.header = .ok (as.ids, bs.ids) := by
  induction as generalizing bs x y fuel with
  | nil =>
    obtain rfl : bs = [] := List.eq_nil_of_length_eq_zero hlen.symm
    obtain ⟨n, rfl⟩ := Nat.exists_eq_add_of_lt hfuel
    obtain rfl : f = x := Option.some.inj hx
    obtain rfl : f = y := Option.some.inj hy
    simp [scanToAncestor, ids]
  | cons a as ih =>
    obtain ⟨b, bs, rfl⟩ : ∃ b e, bs = b :: e := by
      cases bs with
      | nil => simp at hlen
      | cons b e => exact ⟨b, e, rfl⟩
    obtain ⟨n, rfl⟩ : ∃ n, fuel = n + 1 := ⟨fuel - 1, by omega⟩
    obtain rfl : a = x := Option.some.inj hx
    obtain rfl : b = y := Option.some.inj hy
    obtain ⟨w, e, hw⟩ := exists_head_append as f common
    obtain ⟨w', e', hw'⟩ := exists_head_append bs f common
    have hpa : ParentOf blockStore a w := by
      have h' := ha
      rw [List.cons_append, hw] at h'
      exact h'.parent_head
    have hpb : ParentOf blockStore b w' := by
      have h' := hb
      rw [List.cons_append, hw'] at h'
      exact h'.parent_head
    have hrest : scanToAncestor blockStore n w.1 w.2.header w'.1 w'.2.header =
        .ok (Chain.ids as, Chain.ids bs) :=
      ih (Line.tail ha (by simp)) (Line.tail hb (by simp)) (by rw [hw]; rfl) (by rw [hw']; rfl)
        (by simpa using hlen)
        (fun a' ha' b' hb' => hne a' (List.mem_cons_of_mem _ ha') b' (List.mem_cons_of_mem _ hb'))
        (by simpa using hfuel)
    simp only [scanToAncestor, if_pos (hne a List.mem_cons_self b List.mem_cons_self),
      hpa.derefHeader, hpb.derefHeader, hpa.previous, hpb.previous, bind, Except.bind, hrest]
    rfl

/-- Walking a line down to `n` blocks above the fork point. -/
theorem walkToHeight_fork {cs common : Chain} {f : BlockID × Block} {n fuel : Nat}
    (h : BlockLine crypto blockStore (cs ++ f :: common))
    (hx : (cs ++ f :: common).head? = some x) (hn : n ≤ cs.length) (hfuel : cs.length < fuel) :
    ∃ y, (cs.drop (cs.length - n) ++ f :: common).head? = some y ∧
      walkToHeight blockStore (n + common.length : Nat) fuel x.1 x.2.header =
        .ok (Chain.ids (cs.take (cs.length - n)), y.1, y.2.header) := by
  obtain ⟨y, e, hy⟩ := exists_head_append (cs.drop (cs.length - n)) f common
  have hsplit : cs ++ f :: common = cs.take (cs.length - n) ++ y :: e := by
    rw [← hy, ← List.append_assoc, List.take_append_drop]
  have hlen : e.length = n + common.length := by
    have := congrArg List.length hy
    simp only [List.length_append, List.length_drop, List.length_cons] at this
    omega
  refine ⟨y, by rw [hy]; rfl, ?_⟩
  rw [hsplit] at h hx
  refine walkToHeight_eq h hx (fun z hz => ?_) ?_ ?_
  · obtain ⟨a, b, hab⟩ := List.append_of_mem hz
    rw [hab, List.append_assoc, List.cons_append] at h
    rw [BlockLine.height_of_append h]
    simp
    omega
  · rw [BlockLine.height_of_append h]
    omega
  · rw [List.length_take]
    omega

/-- Storage holds at least as many blocks as a chain in it is long. -/
theorem Stored.length_le (h : Stored blockStore c) (hnd : c.ids.Nodup) :
    c.length ≤ blockStore.size := by
  have hsub : c.ids ⊆ blockStore.toList.map Prod.fst := by
    intro id hid
    obtain ⟨x, hx, rfl⟩ := List.mem_map.mp hid
    obtain ⟨t, ht⟩ := h x hx
    exact List.mem_map.mpr ⟨(x.1, ⟨x.2, t⟩), (Table.mem_toList _ _ _).mpr ht, rfl⟩
  have hle := (List.subperm_of_subset hnd hsub).length_le
  rwa [ids, List.length_map, List.length_map, Std.ExtTreeMap.length_toList] at hle

/-- **The fork walk** finds the segments above the fork point. -/
theorem findFork_eq {cs ds common : Chain} {f tip prev : BlockID × Block}
    (hc : BlockLine crypto blockStore (cs ++ f :: common))
    (hd : BlockLine crypto blockStore (ds ++ f :: common))
    (htip : (cs ++ f :: common).head? = some tip) (hprev : (ds ++ f :: common).head? = some prev)
    (hne : ∀ a ∈ cs, ∀ b ∈ ds, b.2.header ≠ a.2.header)
    (hcs : cs.length ≤ blockStore.size) (hds : ds.length ≤ blockStore.size) :
    findFork blockStore tip.1 tip.2.header prev.1 prev.2.header = .ok (cs.ids, ds.ids.reverse) := by
  have height {es : Chain} {x : BlockID × Block}
      (hl : BlockLine crypto blockStore (es ++ f :: common))
      (hx : (es ++ f :: common).head? = some x) :
      x.2.header.height = (es.length + common.length : Nat) := by
    obtain ⟨y, e, hy⟩ := exists_head_append es f common
    rw [hy] at hl hx
    obtain rfl : y = x := Option.some.inj hx
    rw [BlockLine.height_eq hl]
    have := congrArg List.length hy
    simp only [List.length_append, List.length_cons] at this
    omega
  have hmin : min tip.2.header.height prev.2.header.height =
      (min cs.length ds.length + common.length : Nat) := by
    rw [height hc htip, height hd hprev]
    omega
  obtain ⟨y, hy, hwalk⟩ := walkToHeight_fork (n := min cs.length ds.length) hc htip
    (by omega) (Nat.lt_succ_of_le hcs)
  obtain ⟨y', hy', hwalk'⟩ := walkToHeight_fork (n := min cs.length ds.length) hd hprev
    (by omega) (Nat.lt_succ_of_le hds)
  have rest {es : Chain} (m : Nat) (hl : BlockLine crypto blockStore (es ++ f :: common)) :
      BlockLine crypto blockStore (es.drop m ++ f :: common) := by
    obtain ⟨z, e, hz⟩ := exists_head_append (es.drop m) f common
    rw [← List.take_append_drop m es, List.append_assoc, hz] at hl
    rw [hz]
    exact Line.suffix hl
  have hscan : scanToAncestor blockStore (blockStore.size + 1) y.1 y.2.header y'.1 y'.2.header = _ :=
    scanToAncestor_eq (rest (cs.length - min cs.length ds.length) hc)
      (rest (ds.length - min cs.length ds.length) hd) hy hy' (by simp; omega)
      (fun a ha b hb => hne a (List.mem_of_mem_drop ha) b (List.mem_of_mem_drop hb))
      (by simp; omega)
  simp only [findFork, hmin, hwalk, hwalk', hscan, bind, Except.bind, pure, Except.pure]
  simp only [ids, ← List.map_append, List.take_append_drop]

end Lines

end Cruzbit

/-
Cruzbit/MedianTime.lean

The median time never goes back.  `acceptBlock` requires a block's time to be
strictly above the median of the last eleven blocks.  So the median of the
window that ends with the new block is at least the old one, whether the
window slides or still grows (`Admitted.medianTime_le`), and a block's time is
above the median at every proper ancestor (`median_time_never_goes_back`).

The window of the first blocks ends at genesis because no block is stored
under the ID that genesis names as its parent.  That ID is all zero, so this
is an assumption about the hash of the delivered headers.
-/
import Cruzbit.Ancestry
import Cruzbit.Median

namespace Cruzbit

open Chain Lineage Median

section MedianTime

variable {crypto : Crypto} {prune : Bool} {P : Transaction → Prop} {Q : Processor → Prop}
  {A : Call → Prop} {s : Processor} {c d : Chain} {x : BlockID × Block}
  {blockStore : BlockStorage}

/-! ### Along a line -/

theorem medianTime_eq (c : Chain) :
    c.medianTime = median ((c.take numBlocksForMedianTimestamp).map fun y => y.2.header.time) :=
  rfl

/-- A later block with a time above the median does not lower it. -/
theorem medianTime_le_cons (hc : c ≠ []) (hx : c.medianTime < x.2.header.time) :
    c.medianTime ≤ medianTime (x :: c) := by
  have hpos : 0 < numBlocksForMedianTimestamp := by decide
  rw [medianTime_eq] at hx ⊢
  rw [medianTime_eq, ← Nat.succ_pred_eq_of_pos hpos, List.take_succ_cons, List.map_cons]
  refine median_le_cons ?_ hx ?_ ?_
  · simpa using hc
  · exact (List.take_prefix_take_left (Nat.le_succ _)).map _
  · simp only [List.length_map, List.length_take]
    omega

/-- No stored block has the ID that stands for the missing parent of genesis. -/
def NoOrphan (s : Processor) : Prop := s.blockStore[genesisBlock.header.previous]? = none

/-- An admitted block is later than the median of its ancestors. -/
theorem Admitted.medianTime_lt (h : Admitted crypto P Q (x :: c)) (hc : c ≠ [])
    (hQ : ∀ s, Q s → NoOrphan s) : c.medianTime < x.2.header.time := by
  cases h with
  | genesis => exact absurd rfl hc
  | cons s₀ hadm hs₀ hx =>
    obtain ⟨p, c, rfl⟩ := List.exists_cons_of_ne_nil hc
    have htime := (acceptBlockChecks_ok_iff.mp (hx.parent p rfl).2.2).2.2.1
    rwa [computeMedianTimestamp_eq (hadm.line hx.stored) rfl (hQ s₀ hs₀)] at htime

/-- **The median time of an admitted line never goes back.** -/
theorem Admitted.medianTime_le (h : Admitted crypto P Q (d ++ x :: c))
    (hQ : ∀ s, Q s → NoOrphan s) : medianTime (x :: c) ≤ medianTime (d ++ x :: c) := by
  induction d with
  | nil => exact le_refl _
  | cons y d ih =>
    have hlt := h.medianTime_lt (by simp) hQ
    exact (ih (h.tail (by simp))).trans (medianTime_le_cons (by simp) hlt)

/-! ### In storage -/

/-- The headers reached by following `Previous` are those of the line: the walk
does not go on below genesis. -/
theorem BlockLine.walkHeaders_mem (h : BlockLine crypto blockStore (x :: c))
    (horphan : blockStore[genesisBlock.header.previous]? = none) {n : Nat} {a : BlockHeader}
    (hw : walkHeaders blockStore n x.2.header = .ok a) :
    ∃ d y e, x :: c = d ++ y :: e ∧ d.length = n ∧ y.2.header = a := by
  induction n generalizing x c with
  | zero => exact ⟨[], x, c, rfl, rfl, Except.ok.inj hw⟩
  | succ n ih =>
    rcases eq_or_ne c [] with rfl | hne
    · obtain rfl : x = genesisEntry crypto := by simpa using h.last
      simp [walkHeaders, genesisEntry, BlockStorage.derefHeader, BlockStorage.getBlockHeader,
        horphan, bind, Except.bind] at hw
    · obtain ⟨p, c, rfl⟩ := List.exists_cons_of_ne_nil hne
      have hparent := h.parent_head
      simp only [walkHeaders, hparent.previous, hparent.derefHeader, bind, Except.bind] at hw
      obtain ⟨d, y, e, hsplit, hlen, hy⟩ := ih (h.tail hne) hw
      exact ⟨x :: d, y, e, by rw [hsplit, List.cons_append], by rw [List.length_cons, hlen], hy⟩

/-- The delivered block does not hash to the null ID. -/
def Call.NonNull (crypto : Crypto) : Call → Prop
  | .block b _ _ => b.id crypto ≠ genesisBlock.header.previous
  | .transaction _ => True

/-- **The median time never goes back.**  If no block hashes to the null ID, the
median at a known block is at least the one at its parent, and its time is
above the median at every header reached by following `Previous` from it. -/
theorem median_time_never_goes_back (h : Run crypto prune (Call.NonNull crypto) s)
    (hg : genesisBlock.id crypto ≠ genesisBlock.header.previous) {id : BlockID} {e : StoredBlock}
    (hid : s.ledger.Known id) (he : s.blockStore[id]? = some e)
    (hne : id ≠ genesisBlock.id crypto) :
    (∃ p, s.blockStore[e.block.header.previous]? = some p ∧
      computeMedianTimestamp p.block.header s.blockStore ≤
        computeMedianTimestamp e.block.header s.blockStore) ∧
    ∀ n a, 0 < n → walkHeaders s.blockStore n e.block.header = .ok a →
      computeMedianTimestamp a s.blockStore < e.block.header.time := by
  have horphan {s : Processor} (h : Run crypto prune (Call.NonNull crypto) s) : NoOrphan s :=
    h.orphan (fun _ _ _ hb => hb) hg
  obtain ⟨c, K, hs⟩ := h.settled fun call _ => vouches_true call
  obtain ⟨d, hadm, hst, -⟩ := hs.tree.line ((hs.describes.known_iff id).mp hid) he
  have hline := hadm.line hst
  have hd : d ≠ [] := by
    rintro rfl
    have hlast : (id, e.block) = genesisEntry crypto := by simpa using hline.last
    exact hne (congrArg Prod.fst hlast)
  have hlt := hadm.medianTime_lt hd fun s hs => horphan hs
  have hmedian := computeMedianTimestamp_eq hline rfl (horphan h)
  constructor
  · obtain ⟨p, d, rfl⟩ := List.exists_cons_of_ne_nil hd
    have hparent := hline.parent_head
    obtain ⟨t, ht⟩ := hparent.stored
    refine ⟨⟨p.2, t⟩, hparent.previous ▸ ht, ?_⟩
    rw [computeMedianTimestamp_eq (hline.tail (by simp)) rfl (horphan h), hmedian]
    exact medianTime_le_cons hd hlt
  · intro n a hn hwalk
    obtain ⟨pre, y, post, hsplit, hlen, rfl⟩ := hline.walkHeaders_mem (horphan h) hwalk
    obtain ⟨z, pre, rfl⟩ := List.exists_cons_of_length_pos (hlen ▸ hn)
    obtain rfl : d = pre ++ y :: post := (List.cons.inj hsplit).2
    have hyline : BlockLine crypto s.blockStore (y :: post) :=
      Line.suffix (d := (id, e.block) :: pre) hline
    rw [computeMedianTimestamp_eq hyline rfl (horphan h)]
    exact lt_of_le_of_lt ((hadm.tail hd).medianTime_le fun s hs => horphan hs) hlt

end MedianTime

theorem median_time_of_two_blocks :
    ∃ e, (Sample.state false 0 2).blockStore[(Sample.entry 0 2).1]? = some e ∧
      ∃ p, (Sample.state false 0 2).blockStore[e.block.header.previous]? = some p ∧
        computeMedianTimestamp p.block.header (Sample.state false 0 2).blockStore ≤
          computeMedianTimestamp e.block.header (Sample.state false 0 2).blockStore := by
  have hrun : Run Sample.crypto false (Call.NonNull Sample.crypto) (Sample.state false 0 2) := by
    refine (Sample.settled false (by decide) (Or.inl rfl) (by decide)).1.mono ?_
    rintro call ⟨n, hn, rfl⟩
    show (Sample.entry 0 n).2.id Sample.crypto ≠ genesisBlock.header.previous
    rw [Sample.entry_id]
    exact Sample.entry_ne_null hn
  have hg : genesisBlock.id Sample.crypto ≠ genesisBlock.header.previous :=
    Sample.entry_id 0 0 ▸ Sample.entry_ne_null (by decide)
  obtain ⟨hmain, storedAt, hget⟩ := Sample.state_block false (n := 2) (by decide) (Or.inl rfl)
    (by decide) (le_refl 2)
  have hne : (Sample.entry 0 2).1 ≠ genesisBlock.id Sample.crypto := by
    rw [Sample.entry_fst, show genesisBlock = (Sample.entry 0 0).2 from rfl, Sample.entry_id]
    decide
  exact ⟨_, hget, (median_time_never_goes_back hrun hg (Or.inl hmain) hget hne).1⟩

end Cruzbit

/-
Cruzbit/BlockTree.lean

The known blocks form a tree: each was admitted on a line of known blocks
down to genesis, and that line lies in storage (`Tree`).  The main chain is
one line of the tree.

`Placed.acceptBlockContinue_cases` is the reorganisation as a whole.  For a
block that beats the tip the processor disconnects the main chain down to
the fork point and connects the block's own line up from there, and it ends
on the new block exactly when that line is a valid chain.  Otherwise it
stops, with an error, on some block of the line.
-/
import Cruzbit.Admission

namespace Cruzbit

open Chain Lineage Word

/-- Every known block was admitted on a stored line of known blocks. -/
def Tree (crypto : Crypto) (P : Transaction → Prop) (Q : Processor → Prop)
    (blockStore : BlockStorage) (K : Set BlockID) : Prop :=
  ∀ id ∈ K, ∃ b d, Admitted crypto P Q ((id, b) :: d) ∧ Stored blockStore ((id, b) :: d) ∧
    ∀ y ∈ d, y.1 ∈ K

/-- The processor is on the main chain `c` of the tree of known blocks `K`. -/
structure Placed (crypto : Crypto) (prune : Bool) (P : Transaction → Prop) (Q : Processor → Prop)
    (s : Processor) (c : Chain) (K : Set BlockID) : Prop extends Sync crypto prune P s c K where
  admitted : Admitted crypto P Q c
  tree : Tree crypto P Q s.blockStore K

section Tree

variable {crypto : Crypto} {prune : Bool} {P : Transaction → Prop} {Q : Processor → Prop}
  {s s' : Processor} {c d : Chain} {K : Set BlockID} {x t : BlockID × Block}
  {blockStore : BlockStorage} {id : BlockID}

/-- Storing a block that is not known does not touch the tree. -/
theorem Tree.store (h : Tree crypto P Q blockStore K) (hid : id ∉ K) (block : Block) (now : Int) :
    Tree crypto P Q (blockStore.store id block now) K := by
  intro id' hid'
  obtain ⟨b, d, hadm, hst, hd⟩ := h id' hid'
  refine ⟨b, d, hadm, hst.store ?_ now, hd⟩
  intro hmem
  obtain ⟨y, hy, rfl⟩ := List.mem_map.mp hmem
  rcases List.mem_cons.mp hy with rfl | hy
  · exact hid hid'
  · exact hid (hd y hy)

/-- A new leaf. -/
theorem Tree.insert (h : Tree crypto P Q blockStore K) (hx : Admitted crypto P Q (x :: d))
    (hst : Stored blockStore (x :: d)) (hd : ∀ y ∈ d, y.1 ∈ K) :
    Tree crypto P Q blockStore (insert x.1 K) := by
  intro id hid
  rcases Set.mem_insert_iff.mp hid with rfl | hid
  · exact ⟨x.2, d, hx, hst, fun y hy => Set.mem_insert_of_mem _ (hd y hy)⟩
  · obtain ⟨b, e, hadm, hst', he⟩ := h id hid
    exact ⟨b, e, hadm, hst', fun y hy => Set.mem_insert_of_mem _ (he y hy)⟩

theorem Tree.stored (h : Tree crypto P Q blockStore K) (hid : id ∈ K) :
    ∃ e, blockStore[id]? = some e ∧ e.block.id crypto = id := by
  obtain ⟨b, d, hadm, hst, -⟩ := h id hid
  obtain ⟨t, ht⟩ := hst (id, b) List.mem_cons_self
  exact ⟨⟨b, t⟩, ht, (hadm.id_eq (id, b) List.mem_cons_self).symm⟩

/-- A known block was admitted on a line of known blocks. -/
theorem Tree.line (h : Tree crypto P Q blockStore K) (hid : id ∈ K) {e : StoredBlock}
    (he : blockStore[id]? = some e) :
    ∃ d, Admitted crypto P Q ((id, e.block) :: d) ∧ Stored blockStore ((id, e.block) :: d) ∧
      ∀ y ∈ d, y.1 ∈ K := by
  obtain ⟨b, d, hadm, hst, hd⟩ := h id hid
  obtain ⟨storedAt, hget⟩ := hst _ List.mem_cons_self
  obtain rfl : e = ⟨b, storedAt⟩ := Option.some.inj (he.symm.trans hget)
  exact ⟨d, hadm, hst, hd⟩

/-- Two admitted lines in storage part at a fork point. -/
theorem Admitted.exists_fork (hc : Admitted crypto P Q c) (hd : Admitted crypto P Q d)
    (hcs : Stored blockStore c) (hds : Stored blockStore d) {t p : BlockID × Block}
    (ht : c.head? = some t) (hp : d.head? = some p) :
    ∃ (cs ds : Chain) (f : BlockID × Block) (common : Chain),
      c = cs ++ f :: common ∧ d = ds ++ f :: common ∧ (∀ x ∈ cs, x ∉ ds) ∧
      findFork blockStore t.1 t.2.header p.1 p.2.header = .ok (cs.ids, ds.ids.reverse) := by
  have hline := hc.line hcs
  have hline' := hd.line hds
  obtain ⟨cs, ds, f, common, rfl, rfl, hdisj⟩ := BlockLine.forks hline hline'
  refine ⟨cs, ds, f, common, rfl, rfl, hdisj, findFork_eq hline hline' ht hp ?_ ?_ ?_⟩
  · -- equal headers have equal IDs
    intro a ha b hb heq
    have hida := hc.id_eq a (List.mem_append_left _ ha)
    have hidb := hd.id_eq b (List.mem_append_left _ hb)
    have hid : a.1 = b.1 := by rw [hida, hidb, Block.id, Block.id, heq]
    obtain rfl := hcs.eq_of_fst_eq hds (List.mem_append_left _ ha) (List.mem_append_left _ hb) hid
    exact hdisj a ha hb
  · have := hcs.length_le (BlockLine.ids_nodup hline hcs)
    simp only [List.length_append] at this
    omega
  · have := hds.length_le (BlockLine.ids_nodup hline' hds)
    simp only [List.length_append] at this
    omega

/-! ### Reorganisation -/

theorem Placed.getChainTipHeader (h : Placed crypto prune P Q s (t :: c) K) {tipWhen : Int}
    (hw : s.blockStore[t.1]? = some ⟨t.2, tipWhen⟩) :
    s.getChainTipHeader = .ok (t.1, t.2.header, tipWhen) := by
  have htip := h.describes.chainTip
  rw [List.head?_cons, Option.map_some] at htip
  simp [Processor.getChainTipHeader, htip, BlockStorage.getBlockHeader, hw]

/-- Between the two states the tip moved from the chain `c` to `x` on top of
the chain `d`, and the messages sent are about the segments above the fork
point. -/
def Moved (source : String) (s s' : Processor) (c d : Chain) (x : BlockID × Block) : Prop :=
  ∃ (cs ds : Chain) (f : BlockID × Block) (common : Chain),
    c = cs ++ f :: common ∧ d = ds ++ f :: common ∧ (∀ y ∈ cs, y ∉ ds) ∧
      s'.tipChanges = s.tipChanges ++ (cs.map (TipChange.down source) ++
        (ds.reverse.map (TipChange.up source true) ++ [TipChange.up source false x]))

/-- The messages of a move, once the fork point is known. -/
theorem Moved.sent_eq {source : String} (cs ds : Chain) {common : Chain} {f : BlockID × Block}
    (h : Moved source s s' (cs ++ f :: common) (ds ++ f :: common) x) (hdisj : ∀ y ∈ cs, y ∉ ds) :
    s'.tipChanges = s.tipChanges ++ (cs.map (TipChange.down source) ++
      (ds.reverse.map (TipChange.up source true) ++ [TipChange.up source false x])) := by
  obtain ⟨cs', ds', f', common', hc, hd, hdisj', htips⟩ := h
  obtain ⟨rfl, rfl⟩ := fork_unique hc hd hdisj hdisj'
  exact htips

/-- None of the messages says that the move is complete. -/
def Quiet (messages : List TipChange) : Prop :=
  ∀ m ∈ messages, m.connect = true → m.more = true

theorem Quiet.append {ms ms' : List TipChange} (h : Quiet ms) (h' : Quiet ms') :
    Quiet (ms ++ ms') :=
  fun m hm => (List.mem_append.mp hm).elim (h m) (h' m)

theorem quiet_down (source : String) (c : Chain) : Quiet (c.map (TipChange.down source)) := by
  intro m hm
  obtain ⟨x, -, rfl⟩ := List.mem_map.mp hm
  exact fun hconnect => absurd hconnect (by simp [TipChange.down])

theorem quiet_up (source : String) (c : Chain) : Quiet (c.map (TipChange.up source true)) := by
  intro m hm
  obtain ⟨x, -, rfl⟩ := List.mem_map.mp hm
  exact fun _ => rfl

/-- Between the two states the tip moved from the chain `c` towards the line `d`
and stopped on `c'`, short of its end only if the line is not valid. -/
def Tried (crypto : Crypto) (prune : Bool) (source : String) (s s' : Processor) (c d c' : Chain) :
    Prop :=
  ∃ (cs a b : Chain) (f : BlockID × Block) (common : Chain),
    c = cs ++ f :: common ∧ d = a ++ c' ∧ c' = b ++ f :: common ∧ (∀ y ∈ cs, y ∉ a ++ b) ∧
      (a = [] ∨ ¬ Valid crypto prune d) ∧
      s'.tipChanges = s.tipChanges ++
        (cs.map (TipChange.down source) ++ b.reverse.map (TipChange.up source true))

theorem Tried.quiet {source : String} {c' : Chain}
    (h : Tried crypto prune source s s' c d c') :
    ∃ messages, Quiet messages ∧ s'.tipChanges = s.tipChanges ++ messages := by
  obtain ⟨cs, a, b, f, common, -, -, -, -, -, htips⟩ := h
  exact ⟨_, (quiet_down source cs).append (quiet_up source b.reverse), htips⟩

/-- The state after a reorganisation towards `d` that stopped: it is on a line of
known blocks, and on the old one only if nothing was moved. -/
structure Stopped (crypto : Crypto) (prune : Bool) (P : Transaction → Prop) (Q : Processor → Prop)
    (source : String) (s s' : Processor) (c d c' : Chain) (K : Set BlockID) : Prop where
  placed : Placed crypto prune P Q s' c' K
  blockStore : s'.blockStore = s.blockStore
  unmoved : c' = c → s'.ledger = s.ledger ∧ s'.txQueue = s.txQueue ∧ s'.tipChanges = s.tipChanges
  tried : Tried crypto prune source s s' c d c'

/-- **A reorganisation** to the block `x` on top of the line `d`. -/
theorem Placed.acceptBlockContinue_cases (h : Placed crypto prune P Q s (t :: c) K)
    {tipWhen blockWhen : Int} (hw : s.blockStore[t.1]? = some ⟨t.2, tipWhen⟩)
    (hx : Admitted crypto P Q (x :: d)) (hst : Stored s.blockStore (x :: d))
    (hd : ∀ y ∈ d, y.1 ∈ K) {p : BlockID × Block} (hp : d.head? = some p) (hne : x.1 ≠ t.1)
    (hbetter : x.2.header.compare crypto t.2.header blockWhen tipWhen = true) (source : String) :
    (Valid crypto prune (x :: d) ∧
      ∃ s', s.acceptBlockContinue crypto prune x.1 x.2 blockWhen (some p.2.header) source =
          (s', .ok ()) ∧
        Placed crypto prune P Q s' (x :: d) (insert x.1 K) ∧ s'.blockStore = s.blockStore ∧
        Fresh s' ∧ Moved source s s' (t :: c) d x) ∨
    (¬ Valid crypto prune (x :: d) ∧
      ∃ s' e c', s.acceptBlockContinue crypto prune x.1 x.2 blockWhen (some p.2.header) source =
          (s', .error e) ∧
        e.isPanic = false ∧ Stopped crypto prune P Q source s s' (t :: c) d c' K) := by
  have hdst : Stored s.blockStore d := fun y hy => hst y (List.mem_cons_of_mem _ hy)
  have hdne : d ≠ [] := by
    rintro rfl
    simp at hp
  have hdadm : Admitted crypto P Q d := hx.tail hdne
  have hprev : x.2.header.previous = p.1 := by
    cases hx with
    | genesis => exact absurd rfl hdne
    | cons _ _ _ hx => exact (hx.parent p hp).1
  have hready := hx.ready hst hdne
  obtain ⟨cs, ds, f, common, hc, rfl, hdisj, hfork⟩ :=
    h.admitted.exists_fork hdadm h.stored hdst rfl hp
  have hvouched : ∀ y ∈ cs, ∀ tx ∈ y.2.transactions.tail, P tx := by
    intro y hy
    apply h.admitted.vouched
    rw [hc]
    exact List.mem_append_left _ hy
  -- down to the fork point
  obtain ⟨s₁, hok₁, h₁, hst₁, htip₁⟩ :=
    Sync.disconnectBlocks_eq source (hc ▸ h.toSync) (by simp) hvouched
  simp only [Processor.acceptBlockContinue, h.getChainTipHeader hw, if_neg hne, hbetter,
    Bool.true_eq_false, if_false, hprev, hfork, hok₁]
  -- stopping on the old chain means that nothing was moved
  have hstay : ∀ a b, ds = a ++ b → b ++ f :: common = t :: c → s₁ = s ∧ b = [] := by
    intro a b hab hb
    obtain rfl : b = cs := List.append_cancel_right (hb.trans hc)
    obtain rfl : b = [] := List.eq_nil_iff_forall_not_mem.mpr fun y hy =>
      hdisj y hy (hab ▸ List.mem_append_right _ hy)
    exact ⟨(congrArg Prod.fst hok₁).symm, rfl⟩
  have hsegment : ∀ a y b, ds = a ++ y :: b →
      y.1 ∈ K ∧ Ready crypto s₁.blockStore (b ++ f :: common) y := by
    rintro a y b rfl
    rw [List.append_assoc, List.cons_append] at hdadm hdst
    refine ⟨hd y (by simp), ?_⟩
    rw [hst₁]
    exact hdadm.suffix.ready (fun z hz => hdst z (List.mem_append_right _ hz)) (by simp)
  have htree₁ : Tree crypto P Q s₁.blockStore K := hst₁ ▸ h.tree
  -- up the new line
  rcases h₁.connectBlocks_cases source hsegment with
    ⟨-, s₂, hok₂, h₂, hst₂, htip₂⟩ | ⟨hnot, s₂, e, a, b, rfl, herr₂, hpanic, h₂, hst₂, hsame₂, htip₂⟩
  swap
  · have hadm : Admitted crypto P Q (b ++ f :: common) := by
      obtain ⟨z, e, hz⟩ := exists_head_append b f common
      rw [List.append_assoc, hz] at hdadm
      rw [hz]
      exact hdadm.suffix
    rw [herr₂]
    refine Or.inr ⟨fun hv => hnot hv.tail, s₂, e, b ++ f :: common, rfl, hpanic,
      ⟨h₂, hadm, hst₂ ▸ htree₁⟩, hst₂.trans hst₁, fun hb => ?_, cs, a, b, f, common, hc,
      List.append_assoc _ _ _, rfl, hdisj, Or.inr hnot, by rw [htip₂, htip₁, List.append_assoc]⟩
    obtain ⟨rfl, rfl⟩ := hstay a b rfl hb
    obtain ⟨hl, hq⟩ := hsame₂ rfl
    exact ⟨hl, hq, by simpa using htip₂⟩
  -- and to the new block
  rw [hok₂]
  have hsync : Ready crypto s₂.blockStore (ds ++ f :: common) x := by
    rw [hst₂, hst₁]
    exact hready
  rcases h₂.connectBlock_cases source hsync false with
    ⟨-, s₃, hok₃, h₃, hst₃, htip₃, hfresh⟩ | ⟨hnot, s₃, e, herr₃, hpanic, h₃, hst₃, hl₃, hq₃, htip₃⟩
  · refine Or.inl ⟨h₃.valid, s₃, hok₃, ⟨h₃, hx, ?_⟩, hst₃.trans (hst₂.trans hst₁), hfresh rfl,
      cs, ds, f, common, hc, rfl, hdisj, ?_⟩
    · rw [hst₃, hst₂, hst₁]
      exact h.tree.insert hx hst hd
    · simp [htip₃, htip₂, htip₁]
  · refine Or.inr ⟨fun hv => hnot hv.head.toConnects, s₃, e, ds ++ f :: common, herr₃, hpanic,
      ⟨h₃, hdadm, hst₃ ▸ hst₂ ▸ htree₁⟩, hst₃.trans (hst₂.trans hst₁), fun hb => ?_, cs, [], ds, f,
      common, hc, rfl, rfl, hdisj, Or.inl rfl, by rw [htip₃, htip₂, htip₁, List.append_assoc]⟩
    obtain ⟨rfl, rfl⟩ := hstay [] ds rfl hb
    obtain rfl : s₂ = s₁ := (congrArg Prod.fst hok₂).symm
    exact ⟨hl₃, hq₃, htip₃⟩

end Tree

end Cruzbit

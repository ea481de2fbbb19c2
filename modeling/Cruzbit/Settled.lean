/-
Cruzbit/Settled.lean

The processor between two calls: the tip of the main chain is better than
every other known block, and the queue's balance cache is up to date
(`Settled`).

`Settled.acceptCheckedBlock_cases` says what happens to a block that passed
all checks.  It is filed as a side branch block, or it becomes the new tip,
or its line turns out not to be valid.  In the last case the processor is
left somewhere on the new line, and `reconnectTip` brings it back: the old
tip still beats whatever block was reached, because that block is known, and
the old line is still valid (`Settled.reconnectTip_eq`).
-/
import Cruzbit.BlockTree

namespace Cruzbit

open Chain Lineage Word

/-- The stored block `a` is better than the stored block `b`. -/
def Better (crypto : Crypto) (blockStore : BlockStorage) (a b : BlockID) : Prop :=
  ∃ e e', blockStore[a]? = some e ∧ blockStore[b]? = some e' ∧
    e.block.header.compare crypto e'.block.header e.storedAt e'.storedAt = true

/-- What holds between two calls. -/
structure Settled (crypto : Crypto) (prune : Bool) (P : Transaction → Prop) (Q : Processor → Prop)
    (s : Processor) (c : Chain) (K : Set BlockID) : Prop
    extends Placed crypto prune P Q s c K where
  best : ∀ t ∈ c.head?, ∀ id ∈ K, id ≠ t.1 → Better crypto s.blockStore t.1 id
  fresh : Fresh s

section Better

variable {crypto : Crypto} {blockStore : BlockStorage} {a b c id : BlockID}

theorem Better.trans (h : Better crypto blockStore a b) (h' : Better crypto blockStore b c) :
    Better crypto blockStore a c := by
  obtain ⟨e₁, e₂, h₁, h₂, hcmp⟩ := h
  obtain ⟨e₂', e₃, h₂', h₃, hcmp'⟩ := h'
  obtain rfl : e₂ = e₂' := Option.some.inj (h₂.symm.trans h₂')
  exact ⟨e₁, e₃, h₁, h₃, compare_trans hcmp hcmp'⟩

theorem Better.work_le (h : Better crypto blockStore a b) {e e' : StoredBlock}
    (ha : blockStore[a]? = some e) (hb : blockStore[b]? = some e') :
    e'.block.header.chainWork.toNat ≤ e.block.header.chainWork.toNat := by
  obtain ⟨e₁, e₂, h₁, h₂, hcmp⟩ := h
  obtain rfl : e₁ = e := Option.some.inj (h₁.symm.trans ha)
  obtain rfl : e₂ = e' := Option.some.inj (h₂.symm.trans hb)
  rw [compare_iff] at hcmp
  omega

theorem Better.store (h : Better crypto blockStore a b) (ha : id ≠ a) (hb : id ≠ b)
    (block : Block) (now : Int) : Better crypto (blockStore.store id block now) a b := by
  obtain ⟨e, e', h₁, h₂, hcmp⟩ := h
  refine ⟨e, e', ?_, ?_, hcmp⟩
  · rw [BlockStorage.get_store, if_neg ha, h₁]
  · rw [BlockStorage.get_store, if_neg hb, h₂]

end Better

section Settled

variable {crypto : Crypto} {prune : Bool} {P : Transaction → Prop} {Q : Processor → Prop}
  {s s' : Processor} {c c' d : Chain} {K : Set BlockID} {x t : BlockID × Block} {id : BlockID}

theorem Settled.tip_mem (h : Settled crypto prune P Q s (t :: c) K) : t.1 ∈ K :=
  h.describes.known _ List.mem_cons_self

/-- Storing a block that is not known. -/
theorem Settled.store (h : Settled crypto prune P Q s c K) (hid : id ∉ K) (block : Block)
    (now : Int) :
    Settled crypto prune P Q { s with blockStore := s.blockStore.store id block now } c K where
  describes := h.describes
  valid := h.valid
  stored := h.stored.store (fun hmem => hid (h.describes.known _ hmem)) now
  queue := h.queue
  vouched := h.vouched
  exact := h.exact
  mirrored := h.mirrored
  unconfirmed := by
    refine fun U hU => h.unconfirmed U ⟨hU.collisionFree, hU.vouched, fun id' hid' e he => ?_⟩
    refine hU.inSeries id' hid' e ?_
    rw [BlockStorage.get_store, if_neg, he]
    rintro rfl
    exact hid hid'
  admitted := h.admitted
  tree := h.tree.store hid block now
  best := by
    intro t ht id' hid' hne
    have htK : t.1 ∈ K :=
      h.describes.known _ (List.mem_map_of_mem (List.mem_of_mem_head? ht))
    refine (h.best t ht id' hid' hne).store ?_ ?_ block now
    · rintro rfl
      exact hid htK
    · rintro rfl
      exact hid hid'
  fresh := ⟨h.fresh.replays, h.fresh.current⟩

/-! ### Recovery -/

/-- The line of a stored block is unique. -/
theorem Placed.chain_eq (h : Placed crypto prune P Q s (t :: c) K)
    (h' : Placed crypto prune P Q s' (t :: c') K) (hst : s'.blockStore = s.blockStore) : c' = c :=
  BlockLine.ext (h'.admitted.line h'.stored) (hst ▸ h.admitted.line h.stored)

/-- If genesis is better than a known block, it is that block. -/
theorem Settled.tail_ne_nil (h : Settled crypto prune P Q s (t :: c) K) (hx : x ∈ c')
    (hadm : Admitted crypto P Q c') (hst : Stored s.blockStore c') (hK : x.1 ∈ K)
    (hne : x.1 ≠ t.1) : c ≠ [] := by
  rintro rfl
  obtain rfl : t = genesisEntry crypto := by simpa using h.admitted.getLast
  obtain ⟨a, b, rfl⟩ := List.append_of_mem hx
  have hline := hadm.suffix
  have hb : b ≠ [] := by
    rintro rfl
    have : x = genesisEntry crypto := by simpa using hline.getLast
    exact hne (congrArg Prod.fst this)
  obtain ⟨u, hu⟩ := h.stored _ List.mem_cons_self
  obtain ⟨v, hv⟩ := hst x hx
  have hle := (h.best _ rfl x.1 hK hne).work_le hu hv
  exact absurd (hline.work_lt hb) (not_lt.mpr hle)

/-- The messages sent between the two states, if any, end with the one that says
that the tip is `t`, and no other says that the move is complete. -/
def Announced (s s' : Processor) (t : BlockID × Block) : Prop :=
  s'.tipChanges = s.tipChanges ∨ ∃ source messages, Quiet messages ∧
    s'.tipChanges = s.tipChanges ++ messages ++ [.up source false t]

theorem Moved.announced {source : String} (h : Moved source s s' c d x) : Announced s s' x := by
  obtain ⟨cs, ds, f, common, -, -, -, htips⟩ := h
  refine Or.inr ⟨source, _, (quiet_down source cs).append (quiet_up source ds.reverse), ?_⟩
  simp [htips]

/-- Between the two states the tip moved from `t` on top of `c` towards the line
`d`, as far as it went, and back. -/
def Undone (crypto : Crypto) (prune : Bool) (source : String) (s s' : Processor)
    (t : BlockID × Block) (c d : Chain) : Prop :=
  ∃ s₁ c₁, Tried crypto prune source s s₁ (t :: c) d c₁ ∧
    (c₁ = t :: c ∧ s'.tipChanges = s.tipChanges ∨ Moved source s₁ s' c₁ c t)

theorem Undone.announced {source : String} (h : Undone crypto prune source s s' t c d) :
    Announced s s' t := by
  obtain ⟨s₁, c₁, htried, ⟨-, htips⟩ | hmoved⟩ := h
  · exact Or.inl htips
  · obtain ⟨messages, hquiet, htips⟩ := htried.quiet
    obtain ⟨cs, ds, f, common, -, -, -, htips'⟩ := hmoved
    refine Or.inr ⟨source, _, hquiet.append ((quiet_down source cs).append
      (quiet_up source ds.reverse)), ?_⟩
    simp [htips', htips]

/-- The messages of a move that was undone at the new block, once the fork point
is known. -/
theorem Undone.sent_eq {source : String} (cs ds : Chain) {common : Chain} {f : BlockID × Block}
    (h : Undone crypto prune source s s' t (cs ++ f :: common) (ds ++ f :: common))
    (hvalid : Valid crypto prune (ds ++ f :: common)) (hdisj : ∀ y ∈ t :: cs, y ∉ ds) :
    s'.tipChanges = s.tipChanges ++ ((t :: cs).map (TipChange.down source) ++
      ds.reverse.map (TipChange.up source true)) ++ (ds.map (TipChange.down source) ++
        (cs.reverse.map (TipChange.up source true) ++ [TipChange.up source false t])) := by
  obtain ⟨s₁, c₁, ⟨cs', a, b, f', common', hc, hd, rfl, hdisj', ha, htips⟩, hback⟩ := h
  obtain rfl : a = [] := ha.resolve_right (not_not.mpr hvalid)
  rw [List.nil_append] at hd hdisj'
  rw [← List.cons_append] at hc
  obtain ⟨rfl, rfl⟩ := fork_unique hc hd hdisj hdisj'
  obtain ⟨rfl, rfl⟩ := List.cons.inj (List.append_cancel_left hd)
  rcases hback with ⟨hsame, -⟩ | hmoved
  · -- the two lines are not the same
    rw [← List.cons_append] at hsame
    obtain rfl := List.append_cancel_right hsame
    exact absurd List.mem_cons_self (hdisj t List.mem_cons_self)
  · rw [hmoved.sent_eq ds cs fun y hy hy' => hdisj y (List.mem_cons_of_mem _ hy') hy, htips]

/-- **Recovery**: wherever a reorganisation stopped, the old tip is
reconnected and the ledger is as before. -/
theorem Settled.reconnectTip_eq {source : String} (h : Settled crypto prune P Q s (t :: c) K)
    (h' : Stopped crypto prune P Q source s s' (t :: c) d c' K) :
    ∃ s'', s'.reconnectTip crypto prune t.1 source = (s'', .ok ()) ∧
      Settled crypto prune P Q s'' (t :: c) K ∧ s''.ledger = s.ledger ∧
      s''.blockStore = s.blockStore ∧ Undone crypto prune source s s'' t c d := by
  obtain ⟨t', e', rfl⟩ := List.exists_cons_of_ne_nil h'.placed.admitted.ne_nil
  obtain ⟨tipWhen, htip⟩ := h.stored t List.mem_cons_self
  obtain ⟨tipWhen', htip'⟩ := h'.placed.stored t' List.mem_cons_self
  have hget : s'.blockStore.getBlock t.1 = .ok t.2 := by
    rw [h'.blockStore]
    exact h.stored.getBlock List.mem_cons_self
  have hat : ((s'.blockStore.getBlockHeader t.1).map Prod.snd).getD 0 = tipWhen := by
    rw [h'.blockStore, BlockStorage.getBlockHeader, htip]
    rfl
  simp only [Processor.reconnectTip, hget, hat]
  by_cases heq : t.1 = t'.1
  · -- nothing was moved
    obtain rfl := (h'.blockStore ▸ h.stored).eq_of_fst_eq h'.placed.stored List.mem_cons_self
      List.mem_cons_self heq
    obtain rfl := h.chain_eq h'.placed h'.blockStore
    obtain ⟨hledger, hqueue, htips⟩ := h'.unmoved rfl
    refine ⟨s', ?_, ⟨h'.placed, h'.blockStore ▸ h.best, ?_⟩, hledger, h'.blockStore, s', _, h'.tried,
      Or.inl ⟨rfl, htips⟩⟩
    · simp only [Processor.acceptBlockContinue, h'.placed.getChainTipHeader htip', if_true]
    · refine ⟨?_, ?_⟩
      · rw [hledger, hqueue]
        exact h.fresh.replays
      · rw [hledger, hqueue]
        exact h.fresh.current
  · have hK : t'.1 ∈ K := h'.placed.describes.known _ List.mem_cons_self
    have hc : c ≠ [] := h.tail_ne_nil List.mem_cons_self h'.placed.admitted
      (h'.blockStore ▸ h'.placed.stored) hK (Ne.symm heq)
    obtain ⟨p, e, rfl⟩ := List.exists_cons_of_ne_nil hc
    have hbetter : t.2.header.compare crypto t'.2.header tipWhen tipWhen' = true := by
      obtain ⟨u, v, hu, hv, hcmp⟩ := h.best t rfl t'.1 hK (Ne.symm heq)
      obtain rfl := Option.some.inj (htip.symm.trans hu)
      obtain rfl := Option.some.inj ((h'.blockStore ▸ htip').symm.trans hv)
      exact hcmp
    have hprev : (s'.blockStore.getBlockHeader t.2.header.previous).map Prod.fst =
        some p.2.header := by
      obtain ⟨u, hu⟩ := h.stored p (by simp)
      rw [h'.blockStore, h.valid.head.linked p rfl, BlockStorage.getBlockHeader, hu]
      rfl
    rw [hprev]
    rcases h'.placed.acceptBlockContinue_cases htip' h.admitted (h'.blockStore ▸ h.stored)
        (fun y hy => h.describes.known _ (List.mem_map_of_mem (List.mem_cons_of_mem _ hy))) rfl
        heq hbetter source with ⟨-, s'', hok, hplaced, hst, hfresh, hmoved⟩ | ⟨hnot, -⟩
    · rw [Set.insert_eq_of_mem h.tip_mem] at hplaced
      refine ⟨s'', hok, ⟨hplaced, ?_, hfresh⟩, hplaced.describes.unique h.describes,
        hst.trans h'.blockStore, s', _, h'.tried, Or.inr hmoved⟩
      rw [hst, h'.blockStore]
      exact h.best
    · exact absurd h.valid hnot

/-! ### A block that passed the checks -/

/-- What becomes of the block `x` on top of the line `d`. -/
inductive Verdict (crypto : Crypto) (prune : Bool) (P : Transaction → Prop) (Q : Processor → Prop)
    (source : String) (s : Processor) (c d : Chain) (K : Set BlockID) (x : BlockID × Block) :
    Processor → Res Unit → Prop
  | side {s' : Processor} : Settled crypto prune P Q s' c (insert x.1 K) →
      s'.tipChanges = s.tipChanges → Verdict crypto prune P Q source s c d K x s' (.ok ())
  | moved {s' : Processor} : Settled crypto prune P Q s' (x :: d) (insert x.1 K) →
      Moved source s s' c d x → Verdict crypto prune P Q source s c d K x s' (.ok ())
  | rejected {s' : Processor} {e : Err} : ¬ Valid crypto prune (x :: d) → e.isPanic = false →
      Settled crypto prune P Q s' c K → s'.ledger = s.ledger →
      (∀ t e, c = t :: e → Undone crypto prune source s s' t e d) →
      Verdict crypto prune P Q source s c d K x s' (.error e)

/-- **A block that passed the checks** on top of the line `d`. -/
theorem Settled.acceptCheckedBlock_cases (h : Settled crypto prune P Q s (t :: c) K)
    (hid : x.1 ∉ K) (hx : Admitted crypto P Q (x :: d)) (hst : Stored s.blockStore d)
    (hd : ∀ y ∈ d, y.1 ∈ K) {p : BlockID × Block} (hp : d.head? = some p) (now : Int)
    (source : String) :
    ∃ s' r, s.acceptCheckedBlock crypto prune x.1 x.2 now p.2.header source = (s', r) ∧
      s'.blockStore = s.blockStore.store x.1 x.2 now ∧
      Verdict crypto prune P Q source s (t :: c) d K x s' r := by
  have hxd : x.1 ∉ ids d := by
    intro hmem
    obtain ⟨y, hy, heq⟩ := List.mem_map.mp hmem
    exact hid (heq ▸ hd y hy)
  have h₁ := h.store hid x.2 now
  generalize hs₁ : { s with blockStore := s.blockStore.store x.1 x.2 now } = s₁ at h₁
  have hstore : s₁.blockStore = s.blockStore.store x.1 x.2 now := by rw [← hs₁]
  have hledger : s₁.ledger = s.ledger := by rw [← hs₁]
  have htips : s₁.tipChanges = s.tipChanges := by rw [← hs₁]
  have hself : s₁.blockStore[x.1]? = some ⟨x.2, now⟩ := by
    rw [hstore, BlockStorage.get_store, if_pos rfl]
  have hst₁ : Stored s₁.blockStore (x :: d) := by
    refine List.forall_mem_cons.mpr ⟨⟨now, hself⟩, ?_⟩
    rw [hstore]
    exact hst.store hxd now
  obtain ⟨tipWhen, htip⟩ := h₁.stored t List.mem_cons_self
  have hne : x.1 ≠ t.1 := fun heq => hid (heq ▸ h.tip_mem)
  have htipID : s.ledger.chainTip.map Prod.fst = some t.1 := by
    rw [h.describes.chainTip]
    rfl
  simp only [Processor.acceptCheckedBlock, hs₁, htipID]
  by_cases hbetter : x.2.header.compare crypto t.2.header now tipWhen = true
  · rcases h₁.acceptBlockContinue_cases htip hx hst₁ hd hp hne hbetter source with
      ⟨-, s', hok, hplaced, hst', hfresh, hmoved⟩ | ⟨hnot, s', e, c', herr, hpanic, hstop⟩
    · -- the new block beats the old tip, which beat the rest
      have hxt : Better crypto s₁.blockStore x.1 t.1 := ⟨_, _, hself, htip, hbetter⟩
      rw [hok]
      refine ⟨s', .ok (), rfl, hst'.trans hstore, .moved ⟨hplaced, ?_, hfresh⟩ ?_⟩
      · intro t' ht' id' hid' hne'
        obtain rfl : x = t' := Option.some.inj ht'
        rw [hst']
        have hK := (Set.mem_insert_iff.mp hid').resolve_left hne'
        by_cases heq : id' = t.1
        · exact heq ▸ hxt
        · exact hxt.trans (h₁.best t rfl id' hK heq)
      · unfold Moved at hmoved ⊢
        rw [htips] at hmoved
        exact hmoved
    · obtain ⟨s'', hback, hsettled, hl, hb, hundone⟩ := h₁.reconnectTip_eq hstop
      simp only [herr, hpanic, Bool.false_eq_true, if_false, hback]
      refine ⟨s'', _, rfl, hb.trans hstore, .rejected hnot hpanic hsettled (hl.trans hledger) ?_⟩
      intro t' e' hte
      obtain ⟨rfl, rfl⟩ := List.cons.inj hte
      unfold Undone Tried at hundone ⊢
      rwa [htips] at hundone
  · have hcontinue : s₁.acceptBlockContinue crypto prune x.1 x.2 now (some p.2.header) source =
        ({ s₁ with ledger := s₁.ledger.setBranchType x.1 .side }, .ok ()) := by
      simp only [Processor.acceptBlockContinue, h₁.getChainTipHeader htip, if_neg hne,
        Bool.not_eq_true _ ▸ hbetter, if_true]
    have hxc : x.1 ∉ ids (t :: c) := fun hmem => hid (h.describes.known _ hmem)
    rw [hcontinue]
    refine ⟨_, .ok (), rfl, hstore, .side ⟨⟨⟨h₁.describes.setBranchType_side hxc, h₁.valid, h₁.stored,
      h₁.queue, h₁.vouched, h₁.exact, h₁.mirrored,
      fun U hU => h₁.unconfirmed U (hU.mono (Set.subset_insert _ _))⟩, h₁.admitted,
      h₁.tree.insert hx hst₁ hd⟩, ?_, ⟨h₁.fresh.replays, h₁.fresh.current⟩⟩ htips⟩
    intro t' ht' id' hid' hne'
    obtain rfl : t = t' := Option.some.inj ht'
    rcases Set.mem_insert_iff.mp hid' with rfl | hK
    · -- one of the two is better, since their IDs differ
      have hxid := hx.id_eq x List.mem_cons_self
      have htid := h.admitted.id_eq t List.mem_cons_self
      exact ⟨_, _, htip, hself, compare_total (fun he => hne (hxid.trans (he.trans htid.symm)))
        hbetter⟩
    · exact h₁.best t rfl id' hK hne'

end Settled

end Cruzbit

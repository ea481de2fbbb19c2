/-
Cruzbit/LedgerSteps.lean

Earlier and later states of one run of the ledger.

Blocks whose branch is known are never stored again, so the chain of an
earlier state whose tip is on the main chain now is what is below it now
(`LedgerSteps.exists_append`).  In the other direction, a chain of blocks
that follow each other can be built up from genesis one block after another
(`OnChain.climb`).

The ledger of a processor, whatever calls led to it, is that of a run of the
ledger (`Run.ledgerRun`), so what is shown of such runs holds of every node.

`ledger_history_independence`: the tables are those of the main chain, and
runs with the same main chain have the same tables.
-/
import Cruzbit.Ancestry

namespace Cruzbit

open Chain

/-- The calls that lead from one state of the ledger to another. -/
inductive LedgerSteps (crypto : Crypto) (prune : Bool) (s₀ : BlockStorage) (l₀ : Ledger) :
    BlockStorage → Ledger → Prop
  | refl : LedgerSteps crypto prune s₀ l₀ s₀ l₀
  | call {s : BlockStorage} {l : Ledger} (call : LedgerCall) :
      LedgerSteps crypto prune s₀ l₀ s l → call.Issued crypto s l →
      LedgerSteps crypto prune s₀ l₀ (call.blockStore s) (call.ledger crypto prune s l)

section Steps

variable {crypto : Crypto} {prune : Bool} {s₀ s : BlockStorage} {l₀ l : Ledger} {c₀ c : Chain}
  {K : Set BlockID} {x : BlockID × Block} {id : BlockID} {target : Chain → Res BlockID} {now : Int}

theorem LedgerSteps.run (h : LedgerSteps crypto prune s₀ l₀ s l)
    (h₀ : LedgerRun crypto prune s₀ l₀) : LedgerRun crypto prune s l := by
  induction h with
  | refl => exact h₀
  | call call _ hissued ih => exact .call call ih hissued

theorem LedgerSteps.trans {s₁ : BlockStorage} {l₁ : Ledger}
    (h₁ : LedgerSteps crypto prune s₁ l₁ s l) (h₀ : LedgerSteps crypto prune s₀ l₀ s₁ l₁) :
    LedgerSteps crypto prune s₀ l₀ s l := by
  induction h₁ with
  | refl => exact h₀
  | call call _ hissued ih => exact .call call ih hissued

/-! ### What stays -/

/-- A call keeps known blocks known and as they are stored. -/
theorem OnChain.call_known (h : OnChain crypto prune s l c K) {call : LedgerCall}
    (hissued : call.Issued crypto s l) (hid : l.Known id) :
    (call.ledger crypto prune s l).Known id ∧ (call.blockStore s)[id]? = s[id]? := by
  have hK := (h.describes.known_iff id).mp hid
  constructor
  · rcases h.call_cases hissued with ⟨K', hsub, h'⟩ | ⟨x, h'⟩ | ⟨x, d, -, h'⟩
    · exact (h'.describes.known_iff id).mpr (hsub hK)
    · exact (h'.describes.known_iff id).mpr (Set.mem_insert_of_mem _ hK)
    · exact (h'.describes.known_iff id).mpr hK
  · cases call with
    | store id' block now =>
      show (s.store id' block now)[id]? = s[id]?
      rw [BlockStorage.get_store, if_neg]
      rintro rfl
      exact h.describes.not_mem_of_unknown hissued hK
    | connectBlock id' block => rfl
    | disconnectBlock id' block => rfl
    | setBranchType id' => rfl

theorem LedgerSteps.known (h : LedgerSteps crypto prune s₀ l₀ s l)
    (h₀ : LedgerRun crypto prune s₀ l₀) (hid : l₀.Known id) :
    l.Known id ∧ s[id]? = s₀[id]? := by
  induction h with
  | refl => exact ⟨hid, rfl⟩
  | call call hsteps hissued ih =>
    obtain ⟨c, K, hc⟩ := (hsteps.run h₀).invariant
    obtain ⟨hknown, hstored⟩ := hc.call_known hissued ih.1
    exact ⟨hknown, hstored.trans ih.2⟩

/-- Chains of the same length in one storage, linked by their parents' IDs, with
the same newest block are the same. -/
theorem eq_of_linked (hst : Stored s c) (hst₀ : Stored s c₀)
    (hl : c.IsChain fun x y => x.2.header.previous = y.1)
    (hl₀ : c₀.IsChain fun x y => x.2.header.previous = y.1) (hlen : c.length = c₀.length)
    (hhead : c.ids.head? = c₀.ids.head?) : c = c₀ := by
  induction c generalizing c₀ with
  | nil => exact (List.length_eq_zero_iff.mp hlen.symm).symm
  | cons x c ih =>
    obtain ⟨x₀, c₀, rfl⟩ := List.exists_cons_of_length_pos (by simp [← hlen] : 0 < c₀.length)
    obtain rfl : x = x₀ := hst.eq_of_fst_eq hst₀ List.mem_cons_self List.mem_cons_self
      (Option.some.inj hhead)
    refine congrArg (x :: ·) (ih (fun y hy => hst y (List.mem_cons_of_mem _ hy))
      (fun y hy => hst₀ y (List.mem_cons_of_mem _ hy)) hl.tail hl₀.tail (Nat.succ.inj hlen) ?_)
    cases c with
    | nil =>
      obtain rfl : c₀ = [] := List.length_eq_zero_iff.mp (by simpa using hlen.symm)
      rfl
    | cons y c =>
      obtain ⟨y₀, c₀, rfl⟩ :=
        List.exists_cons_of_length_pos (by simp at hlen; omega : 0 < c₀.length)
      show some y.1 = some y₀.1
      rw [← (List.isChain_cons_cons.mp hl).1, ← (List.isChain_cons_cons.mp hl₀).1]

/-- **The chain of an earlier state** whose tip is on the main chain now is what
is below it now. -/
theorem LedgerSteps.exists_append (h : LedgerSteps crypto prune s₀ l₀ s l)
    (h₀ : LedgerRun crypto prune s₀ l₀) {K₀ : Set BlockID} (hc₀ : OnChain crypto prune s₀ l₀ c₀ K₀)
    (hc : OnChain crypto prune s l c K) {height : Int} (htip : l₀.chainTip = some (id, height))
    (hmain : l.getBlockIDForHeight height = some id) : ∃ d, c = d ++ c₀ := by
  obtain ⟨t, e₀, rfl⟩ := hc₀.exists_head
  rw [hc₀.describes.chainTip] at htip
  obtain ⟨rfl, rfl⟩ := Prod.mk.inj (Option.some.inj htip)
  -- the block at that height now
  obtain ⟨x, hx, hentry⟩ := List.mem_map.mp ((hc.describes.heightIndex _ _).mp hmain)
  obtain ⟨hheight, hid⟩ := Prod.mk.inj hentry
  obtain ⟨d, e, rfl⟩ := List.append_of_mem hx
  have hlen : x.2.header.height = e.length := hc.valid.extends_of_append.height
  have hstored₀ : Stored s (t :: e₀) := by
    intro y hy
    obtain ⟨storedAt, hget⟩ := hc₀.stored y hy
    have hknown := (hc₀.describes.known_iff y.1).mpr
      (hc₀.describes.known _ (List.mem_map_of_mem hy))
    exact ⟨storedAt, ((h.known h₀ hknown).2).trans hget⟩
  have hsame : x :: e = t :: e₀ := by
    refine eq_of_linked (fun y hy => hc.stored y (List.mem_append_right _ hy)) hstored₀
      hc.linked.right_of_append hc₀.linked ?_ (congrArg some hid)
    simp only [List.length_cons] at hheight ⊢
    omega
  exact ⟨d, by rw [hsame]⟩

/-- A block that a call brings onto the main chain is the tip after it. -/
theorem OnChain.call_mainBlock (h : OnChain crypto prune s l c K) {call : LedgerCall}
    (hissued : call.Issued crypto s l) {n : Nat}
    (hx : mainBlock (call.blockStore s) (call.ledger crypto prune s l) n = some x) :
    mainBlock s l n = some x ∨
      (call.ledger crypto prune s l).chainTip = some (x.1, (n : Int)) := by
  rw [h.mainBlock_eq]
  rcases h.call_cases hissued with ⟨K', -, h'⟩ | ⟨y, h'⟩ | ⟨y, d, rfl, h'⟩
  · exact Or.inl ((h'.mainBlock_eq n).symm.trans hx)
  · rw [h'.mainBlock_eq, blockAt_cons] at hx
    split_ifs at hx with hn
    · obtain rfl := Option.some.inj hx
      refine Or.inr (h'.describes.chainTip.trans ?_)
      simp [hn]
    · exact Or.inl hx
  · rw [h'.mainBlock_eq] at hx
    have hlt := (List.getElem?_eq_some_iff.mp hx).1
    rw [List.length_reverse] at hlt
    exact Or.inl (by rw [blockAt_cons, if_neg hlt.ne, hx])

/-- **Every block of the main chain has been the tip.** -/
theorem LedgerRun.exists_tip (h : LedgerRun crypto prune s l) {n : Nat}
    (hx : mainBlock s l n = some x) :
    ∃ s₀ l₀, LedgerRun crypto prune s₀ l₀ ∧ LedgerSteps crypto prune s₀ l₀ s l ∧
      l₀.chainTip = some (x.1, (n : Int)) := by
  induction h with
  | @genesis l txIDs now hok =>
    have hc := onChain_genesis hok
    rw [hc.mainBlock_eq, blockAt_cons] at hx
    split_ifs at hx with hn
    · obtain rfl := Option.some.inj hx
      refine ⟨_, l, .genesis now hok, .refl, hc.describes.chainTip.trans ?_⟩
      simp [hn]
    · simp [blockAt] at hx
  | @call s l call hrun hissued ih =>
    obtain ⟨c, K, hc⟩ := hrun.invariant
    rcases hc.call_mainBlock hissued hx with hbefore | htip
    · obtain ⟨s₀, l₀, hrun₀, hsteps, htip⟩ := ih hbefore
      exact ⟨s₀, l₀, hrun₀, .call call hsteps hissued, htip⟩
    · exact ⟨_, _, .call call hrun hissued, .refl, htip⟩

/-! ### Building up a chain -/

/-- A screened block on top of the tip is connected if the ledger can do it. -/
theorem OnChain.connected (h : OnChain crypto prune s l c K) (hs : Screened crypto s x.1 x.2)
    (hprev : ∃ y ∈ c.head?, x.2.header.previous = y.1) (hx : Connects crypto prune c x.2) :
    OnChain crypto prune s ((LedgerCall.connectBlock x.1 x.2).ledger crypto prune s l) (x :: c)
      (insert x.1 K) := by
  rcases h.connectBlock_cases hs with ⟨-, l', hok, hon⟩ | ⟨hnot, -⟩
  · rwa [LedgerCall.ledger_of_ok (by rw [LedgerCall.result, hok]; rfl)]
  · exact absurd ⟨hprev, hx⟩ hnot

theorem OnChain.connect (h : OnChain crypto prune s l c K) (hs : Screened crypto s x.1 x.2)
    (hprev : ∃ y ∈ c.head?, x.2.header.previous = y.1) (hx : Connects crypto prune c x.2) :
    ∃ l', LedgerSteps crypto prune s l s l' ∧
      OnChain crypto prune s l' (x :: c) (insert x.1 K) :=
  ⟨_, .call (.connectBlock x.1 x.2) .refl hs, h.connected hs hprev hx⟩

/-- The tip is disconnected, unless it is genesis. -/
theorem OnChain.disconnected (h : OnChain crypto prune s l (x :: c) K)
    (hne : x.1 ≠ genesisBlock.id crypto) :
    OnChain crypto prune s ((LedgerCall.disconnectBlock x.1 x.2).ledger crypto prune s l) c K := by
  rcases h.disconnectBlock_cases (h.stored x List.mem_cons_self) hne with
    ⟨d, hd, l', hok, hon⟩ | ⟨hnot, -⟩
  · obtain rfl : c = d := (List.cons.inj hd).2
    rwa [LedgerCall.ledger_of_ok (by rw [LedgerCall.result, hok]; rfl)]
  · exact absurd rfl (hnot x rfl)

theorem OnChain.disconnect (h : OnChain crypto prune s l (x :: c) K)
    (hne : x.1 ≠ genesisBlock.id crypto) :
    ∃ l', LedgerSteps crypto prune s l s l' ∧ OnChain crypto prune s l' c K :=
  ⟨_, .call (.disconnectBlock x.1 x.2) .refl ⟨h.stored x List.mem_cons_self, hne⟩,
    h.disconnected hne⟩

/-- A block that follows the chain passes the checks once it is stored. -/
theorem Follows.screened (h : Follows crypto prune target c x)
    (hst : Stored (s.store x.1 x.2 now) c) (hc : c ≠ []) :
    Screened crypto (s.store x.1 x.2 now) x.1 x.2 := by
  obtain ⟨p, c, rfl⟩ := List.exists_cons_of_ne_nil hc
  obtain ⟨hprev, hheight, -⟩ := h.parent p rfl
  obtain ⟨t, ht⟩ := hst p List.mem_cons_self
  refine ⟨⟨now, by rw [BlockStorage.get_store, if_pos rfl]⟩, h.checked,
    ⟨p.2.header, t, ?_, hheight⟩, h.reward⟩
  rw [hprev, BlockStorage.getBlockHeader, ht]
  rfl

/-- A block that follows the chain is screened and connected once it is stored. -/
theorem OnChain.followed (h : OnChain crypto prune s l c K)
    (hx : Follows crypto prune target c x) (hfresh : x.1 ∉ K) (now : Int) :
    Screened crypto (s.store x.1 x.2 now) x.1 x.2 ∧
      OnChain crypto prune (s.store x.1 x.2 now)
        ((LedgerCall.connectBlock x.1 x.2).ledger crypto prune (s.store x.1 x.2 now) l) (x :: c)
        (insert x.1 K) := by
  obtain ⟨p, c, rfl⟩ := h.exists_head
  have hstored : Stored (s.store x.1 x.2 now) (p :: c) :=
    h.stored.store (fun hmem => hfresh (h.describes.known _ hmem)) now
  have h' : OnChain crypto prune (s.store x.1 x.2 now) l (p :: c) K :=
    ⟨h.describes, h.valid, hstored, h.genesis⟩
  have hscreened := hx.screened hstored (List.cons_ne_nil _ _)
  exact ⟨hscreened, h'.connected hscreened ⟨p, rfl, (hx.parent p rfl).1⟩ hx.connects⟩

/-- A block that follows the chain can be stored and connected. -/
theorem OnChain.follow (h : OnChain crypto prune s l c K) (hx : Follows crypto prune target c x)
    (hfresh : x.1 ∉ K) :
    ∃ s' l', LedgerSteps crypto prune s l s' l' ∧
      OnChain crypto prune s' l' (x :: c) (insert x.1 K) := by
  obtain ⟨hscreened, hon⟩ := h.followed hx hfresh 0
  have hstore : LedgerSteps crypto prune s l (s.store x.1 x.2 0) l :=
    .call (.store x.1 x.2 0) .refl ((h.describes.getBranchType_eq_unknown x.1).mpr hfresh)
  exact ⟨_, _, .call (.connectBlock x.1 x.2) hstore hscreened, hon⟩

/-- **A chain of blocks that follow each other** is built up from genesis, if none
of them is known yet. -/
theorem OnChain.climb (h : OnChain crypto prune s l [genesisEntry crypto] K)
    (hc : Ancestry crypto prune target c) (hnd : c.ids.Nodup)
    (hfresh : ∀ id ∈ c.ids, id ∈ K → id = genesisBlock.id crypto) :
    ∃ s' l', LedgerSteps crypto prune s l s' l' ∧
      OnChain crypto prune s' l' c (K ∪ {id | id ∈ c.ids}) := by
  induction hc with
  | genesis =>
    have hsub : {id | id ∈ ids [genesisEntry crypto]} ⊆ K := fun id hid => h.describes.known id hid
    exact ⟨s, l, .refl, by rwa [Set.union_eq_left.mpr hsub]⟩
  | @cons c x hc hx ih =>
    obtain ⟨hxc, hnd⟩ := List.nodup_cons.mp hnd
    obtain ⟨s₁, l₁, hsteps, hon⟩ := ih hnd fun id hid => hfresh id (List.mem_cons_of_mem _ hid)
    have hnew : x.1 ∉ K ∪ {id | id ∈ c.ids} := by
      rintro (hK | hmem)
      · have hgenesis := List.mem_map_of_mem (f := Prod.fst) (List.mem_of_getLast? hon.genesis)
        exact hxc (hfresh x.1 List.mem_cons_self hK ▸ hgenesis)
      · exact hxc hmem
    obtain ⟨s₂, l₂, hsteps', hon'⟩ := hon.follow hx hnew
    refine ⟨s₂, l₂, hsteps'.trans hsteps, ?_⟩
    convert hon' using 1
    ext id
    simp only [ids, List.map_cons, List.mem_cons, Set.mem_union, Set.mem_insert_iff,
      Set.mem_ofPred_eq]
    tauto

/-- A run that builds up a chain. -/
theorem Ancestry.ledgerSteps (h : Ancestry crypto prune target c) (hnd : c.ids.Nodup) (now : Int) :
    ∃ l₀ s l, LedgerRun crypto prune
        (BlockStorage.store ∅ (genesisBlock.id crypto) genesisBlock now) l₀ ∧
      OnChain crypto prune (BlockStorage.store ∅ (genesisBlock.id crypto) genesisBlock now) l₀
        [genesisEntry crypto] {genesisBlock.id crypto} ∧
      LedgerSteps crypto prune (BlockStorage.store ∅ (genesisBlock.id crypto) genesisBlock now) l₀
        s l ∧
      OnChain crypto prune s l c {id | id ∈ c.ids} := by
  obtain ⟨l₀, hok, hc⟩ := genesis_connects crypto prune now
  obtain ⟨s, l, hsteps, hon⟩ := hc.climb h hnd fun id _ hid => hid
  refine ⟨l₀, s, l, .genesis now hok, hc, hsteps, ?_⟩
  have hsub : {genesisBlock.id crypto} ⊆ {id | id ∈ c.ids} := by
    rintro _ rfl
    exact List.mem_map_of_mem (f := Prod.fst) (List.mem_of_getLast? hon.genesis)
  rwa [Set.union_eq_right.mpr hsub] at hon

/-! ### The ledger of a processor -/

/-- Blocks that are not known yet can all be stored. -/
theorem LedgerSteps.store_all (s : BlockStorage) {entries : List (BlockID × StoredBlock)}
    (hnd : (entries.map Prod.fst).Nodup)
    (hnew : ∀ e ∈ entries, l.getBranchType e.1 = .unknown) :
    ∃ s', LedgerSteps crypto prune s l s' l ∧ (∀ e ∈ entries, s'[e.1]? = some e.2) ∧
      ∀ id, id ∉ entries.map Prod.fst → s'[id]? = s[id]? := by
  induction entries with
  | nil => exact ⟨s, .refl, by simp, fun _ _ => rfl⟩
  | cons e entries ih =>
    obtain ⟨hfresh, hnd⟩ := List.nodup_cons.mp hnd
    obtain ⟨s', hsteps, hheld, hrest⟩ := ih hnd fun e' he' => hnew e' (List.mem_cons_of_mem _ he')
    refine ⟨s'.store e.1 e.2.block e.2.storedAt,
      .call (.store e.1 e.2.block e.2.storedAt) hsteps (hnew e List.mem_cons_self), ?_, ?_⟩
    · intro e' he'
      rw [BlockStorage.get_store]
      rcases List.mem_cons.mp he' with rfl | he'
      · rw [if_pos rfl]
      · rw [if_neg, hheld e' he']
        rintro heq
        exact hfresh (heq ▸ List.mem_map_of_mem he')
    · intro id hid
      rw [List.map_cons, List.mem_cons, not_or] at hid
      rw [BlockStorage.get_store, if_neg (Ne.symm hid.1), hrest id hid.2]

/-- Blocks can be filed as side branch blocks. -/
theorem OnChain.file_all (h : OnChain crypto prune s l c K) (ids : List BlockID) :
    ∃ l', LedgerSteps crypto prune s l s l' ∧
      OnChain crypto prune s l' c (K ∪ {id | id ∈ ids}) := by
  induction ids with
  | nil => exact ⟨l, .refl, by simpa using h⟩
  | cons id ids ih =>
    obtain ⟨l', hsteps, hon⟩ := ih
    have hinsert : K ∪ {x | x ∈ id :: ids} = insert id (K ∪ {x | x ∈ ids}) := by
      ext x
      simp only [Set.mem_union, Set.mem_ofPred_eq, List.mem_cons, Set.mem_insert_iff]
      tauto
    rw [hinsert]
    by_cases hid : id ∈ K ∪ {x | x ∈ ids}
    · exact ⟨l', hsteps, by rwa [Set.insert_eq_of_mem hid]⟩
    · have hunknown := (hon.describes.getBranchType_eq_unknown id).mpr hid
      exact ⟨_, .call (.setBranchType id) hsteps hunknown, hon.setBranchType hunknown⟩

/-- The blocks of an admitted line in storage are connected one after another. -/
theorem Admitted.ledgerSteps {P : Transaction → Prop} {Q : Processor → Prop}
    (hadm : Admitted crypto P Q c) (hst : Stored s c) (hvalid : Valid crypto prune c)
    (h : OnChain crypto prune s l [genesisEntry crypto] {genesisBlock.id crypto}) :
    ∃ l', LedgerSteps crypto prune s l s l' ∧
      OnChain crypto prune s l' c {id | id ∈ c.ids} := by
  induction hadm with
  | genesis =>
    refine ⟨l, .refl, ?_⟩
    convert h using 1
    ext id
    simp [ids, genesisEntry]
  | @cons c x s₀ hadm _ hx ih =>
    have hst' : Stored s c := fun y hy => hst y (List.mem_cons_of_mem _ hy)
    obtain ⟨l', hsteps, hon⟩ := ih hst' hvalid.tail
    obtain ⟨p, c, rfl⟩ := hon.exists_head
    obtain ⟨hprev, hheight, hchecks⟩ := hx.parent p rfl
    have hscreened : Screened crypto s x.1 x.2 := by
      obtain ⟨t, ht⟩ := hst' p List.mem_cons_self
      refine ⟨hst x List.mem_cons_self, hx.checked, ⟨p.2.header, t, ?_, hheight⟩,
        (acceptBlockChecks_ok_iff.mp hchecks).2.2.2.2.2⟩
      rw [hprev, BlockStorage.getBlockHeader, ht]
      rfl
    obtain ⟨l'', hsteps', hon'⟩ := hon.connect hscreened ⟨p, rfl, hprev⟩ hvalid.head.toConnects
    refine ⟨l'', hsteps'.trans hsteps, ?_⟩
    convert hon' using 1
    ext id
    simp [ids]

/-- **The ledger of a processor is that of a run of the ledger.**  The same tables
come about if the stored blocks are stored first, then the main chain is
connected and then the rest of the known blocks is filed. -/
theorem Placed.ledgerRun {P : Transaction → Prop} {Q : Processor → Prop} {s : Processor}
    (h : Placed crypto prune P Q s c K) : LedgerRun crypto prune s.blockStore s.ledger := by
  have hgenesis := List.mem_of_getLast? h.onChain.genesis
  obtain ⟨now, hstored⟩ := h.stored _ hgenesis
  obtain ⟨l₀, hok, hon₀⟩ := genesis_connects crypto prune now
  -- all other blocks of the storage
  generalize hentries : s.blockStore.toList.filter (fun e => e.1 ≠ genesisBlock.id crypto) = entries
  have hmem (id : BlockID) (e : StoredBlock) :
      (id, e) ∈ entries ↔ s.blockStore[id]? = some e ∧ id ≠ genesisBlock.id crypto := by
    simp [← hentries]
  have hnd : (entries.map Prod.fst).Nodup := by
    rw [← hentries]
    exact (Table.nodup_keys s.blockStore).sublist (List.filter_sublist.map _)
  have hnew : ∀ e ∈ entries, l₀.getBranchType e.1 = .unknown := fun e he =>
    (hon₀.describes.getBranchType_eq_unknown _).mpr ((hmem e.1 e.2).mp he).2
  obtain ⟨s₁, hsteps₁, hheld, hrest⟩ := LedgerSteps.store_all
    (BlockStorage.store ∅ (genesisBlock.id crypto) genesisBlock now) hnd hnew
  have hsame : s₁ = s.blockStore := by
    refine Std.ExtTreeMap.ext_getElem? fun {id} => ?_
    by_cases hid : id ∈ entries.map Prod.fst
    · obtain ⟨e, he, rfl⟩ := List.mem_map.mp hid
      rw [hheld e he, ((hmem e.1 e.2).mp he).1]
    · rw [hrest id hid, BlockStorage.get_store]
      split_ifs with hg
      · rw [← hg]
        exact hstored.symm
      · cases hget : s.blockStore[id]? with
        | none => rfl
        | some e => exact absurd (List.mem_map_of_mem ((hmem id e).mpr ⟨hget, Ne.symm hg⟩)) hid
  rw [hsame] at hsteps₁
  have hon₁ : OnChain crypto prune s.blockStore l₀ [genesisEntry crypto]
      {genesisBlock.id crypto} := by
    refine ⟨hon₀.describes, hon₀.valid, fun y hy => ?_, hon₀.genesis⟩
    obtain rfl := List.mem_singleton.mp hy
    exact ⟨now, hstored⟩
  obtain ⟨l₂, hsteps₂, hon₂⟩ := h.admitted.ledgerSteps h.stored h.valid hon₁
  obtain ⟨l₃, hsteps₃, hon₃⟩ := hon₂.file_all s.ledger.branchTypes.keys
  have hK : {id | id ∈ c.ids} ∪ {id | id ∈ s.ledger.branchTypes.keys} = K := by
    ext id
    simp only [Set.mem_union, Set.mem_ofPred_eq, Std.ExtTreeMap.mem_keys,
      Std.ExtTreeMap.mem_iff_isSome_getElem?]
    by_cases hid : id ∈ K
    · by_cases hc : id ∈ c.ids
      · simp [hid, hc]
      · simp [hid, h.describes.side id hc hid]
    · have hc : id ∉ c.ids := fun hc => hid (h.describes.known id hc)
      simp [hid, hc, h.describes.unknown id hid]
  obtain rfl : l₃ = s.ledger := (hK ▸ hon₃.describes).unique h.describes
  exact hsteps₃.run (hsteps₂.run (hsteps₁.run (.genesis now hok)))

theorem Run.ledgerRun {A : Call → Prop} {s : Processor} (h : Run crypto prune A s) :
    LedgerRun crypto prune s.blockStore s.ledger := by
  obtain ⟨c, K, hs⟩ := h.settled fun call _ => vouches_true call
  exact hs.toPlaced.ledgerRun

/-! ### Two histories of one chain -/

/-- **History independence**: at every point of a run the tables are those of
the main chain, and two runs with the same main chain have the same tables,
whatever reorganisations happened before. -/
theorem ledger_history_independence (h : LedgerRun crypto false s l) :
    ∃ c : Chain, (c.IsChain fun x y => x.2.header.previous = y.1) ∧
      c.getLast? = some (genesisEntry crypto) ∧ (∀ n, mainBlock s l n = blockAt c n) ∧
      MainChainTables crypto l c ∧
      ∀ s' l', LedgerRun crypto false s' l' → (∀ n, mainBlock s' l' n = mainBlock s l n) →
        l'.chainTip = l.chainTip ∧ l'.heightIndex = l.heightIndex ∧ l'.txIndex = l.txIndex ∧
        l'.pubKeyTxIndex = l.pubKeyTxIndex ∧ l'.balances = l.balances ∧
        ∀ id, l'.getBranchType id = .main ↔ l.getBranchType id = .main := by
  obtain ⟨c, K, hc⟩ := h.invariant
  refine ⟨c, hc.linked, hc.genesis, hc.mainBlock_eq, hc.tables, fun s' l' h' heq => ?_⟩
  obtain ⟨c', K', hc'⟩ := h'.invariant
  obtain rfl := hc.chain_unique hc' heq
  have hd := hc.describes
  have hd' := hc'.describes
  refine ⟨hd'.chainTip.trans hd.chainTip.symm, hd'.heightIndex.unique hd.heightIndex,
    hd'.txIndex.unique hd.txIndex, hd'.pubKeyTxIndex.unique hd.pubKeyTxIndex, ?_, fun id => ?_⟩
  · exact Std.ExtTreeMap.ext_getElem? fun {pk} => (hd'.balances pk).trans (hd.balances pk).symm
  · rw [hd'.getBranchType_eq_main, hd.getBranchType_eq_main]

end Steps

/-- The sibling of the first block is on no sample chain. -/
theorem Sample.sibling_not_on_chain {n : Nat} (hn : n ≤ 100) :
    sibling.id crypto ∉ (chain 0 n).ids := by
  intro hmem
  obtain ⟨x, hx, hid⟩ := List.mem_map.mp hmem
  obtain ⟨k, hk, rfl⟩ := mem_chain.mp hx
  have htime := time_bounds (n := k) (by omega)
  rw [entry_fst, sibling_id] at hid
  have := ofNat_inj (by omega) (by omega) hid
  simp only [time, genesisBlock] at this
  omega

theorem Sample.blockAt_chain {n k : Nat} (hk : k ≤ n) :
    blockAt (chain 0 n) k = some (entry 0 k) := by
  induction n with
  | zero =>
    obtain rfl : k = 0 := by omega
    rfl
  | succ n ih =>
    rw [chain, blockAt_cons, chain_length]
    split_ifs with heq
    · rw [heq]
    · exact ih (by omega)

/-- The run that builds up the sample chain. -/
theorem Sample.exists_run (n : Nat) (hn : n ≤ 101) :
    ∃ l₀ s l, LedgerRun crypto false
        (BlockStorage.store ∅ (genesisBlock.id crypto) genesisBlock 0) l₀ ∧
      OnChain crypto false (BlockStorage.store ∅ (genesisBlock.id crypto) genesisBlock 0) l₀
        [genesisEntry crypto] {genesisBlock.id crypto} ∧
      LedgerSteps crypto false (BlockStorage.store ∅ (genesisBlock.id crypto) genesisBlock 0) l₀
        s l ∧
      OnChain crypto false s l (chain 0 n) {id | id ∈ (chain 0 n).ids} :=
  (ancestry false hn (Or.inl rfl) (by decide)).ledgerSteps (chain_nodup hn) 0

/-- One run connects the sample chain; the other first connects a sibling of its
first block and disconnects it. -/
theorem history_of_two_runs :
    ∃ s l s' l', LedgerRun Sample.crypto false s l ∧ LedgerRun Sample.crypto false s' l' ∧
      l.getBranchType (Sample.sibling.id Sample.crypto) = .unknown ∧
      l'.getBranchType (Sample.sibling.id Sample.crypto) = .side ∧
      l.chainTip = some ((Sample.entry 0 100).1, 100) ∧
      l'.chainTip = l.chainTip ∧ l'.heightIndex = l.heightIndex ∧ l'.txIndex = l.txIndex ∧
      l'.pubKeyTxIndex = l.pubKeyTxIndex ∧ l'.balances = l.balances ∧
      ∀ id, l'.getBranchType id = .main ↔ l.getBranchType id = .main := by
  have hanc : Ancestry Sample.crypto false ancestorTarget (Sample.chain 0 100) :=
    Sample.ancestry false (by decide) (Or.inl rfl) (by decide)
  have hnd : (Sample.chain 0 100).ids.Nodup := Sample.chain_nodup (by decide)
  have hsibling := Sample.sibling_not_on_chain (n := 100) le_rfl
  obtain ⟨l₀, s, l, hrun₀, hon₀, hsteps, hon⟩ := Sample.exists_run 100 (by decide)
  -- the detour
  obtain ⟨s₁, l₁, hsteps₁, hon₁⟩ := hon₀.follow (Sample.sibling_follows false)
    Sample.sibling_ne_genesis
  obtain ⟨l₂, hsteps₂, hon₂⟩ := hon₁.disconnect Sample.sibling_ne_genesis
  obtain ⟨s', l', hsteps', hon'⟩ := hon₂.climb hanc hnd (by
    rintro id hid (rfl | rfl)
    · exact absurd hid hsibling
    · rfl)
  have hrun := hsteps.run hrun₀
  have hrun' := hsteps'.run (hsteps₂.run (hsteps₁.run hrun₀))
  obtain ⟨-, -, -, -, -, hsame⟩ := ledger_history_independence hrun
  refine ⟨s, l, s', l', hrun, hrun', (hon.describes.getBranchType_eq_unknown _).mpr hsibling, ?_,
    hon.describes.chainTip, hsame s' l' hrun' fun n => ?_⟩
  · rw [Ledger.getBranchType, hon'.describes.side _ hsibling (Or.inl (Set.mem_insert _ _))]
    rfl
  · rw [hon'.mainBlock_eq, hon.mainBlock_eq]

end Cruzbit

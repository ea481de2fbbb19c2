/-
Cruzbit/BestChain.lean

The best-chain rule and recovery, for every reachable state.

`best_chain_rule`: the tip is strictly better than every other main or side
branch block, the height index is the path from genesis to the tip, parents
of known blocks are known, and a better block moves the tip along the two
path segments above the fork point and no others.

`rejected_block_leaves_ledger`: a block that is refused, at whatever point,
leaves every table of the ledger as it was.

Both are applied to a fork of the sample chain (`Sample.fork`), with a block
that moves the tip to the side branch and one that fails on the way.
-/
import Cruzbit.Ancestry

namespace Cruzbit

open Chain Lineage Word

/-- A path of stored blocks linked by `Previous`, newest first, down to genesis. -/
structure PreviousPath (crypto : Crypto) (blockStore : BlockStorage) (c : Chain) : Prop where
  stored : Stored blockStore c
  linked : c.IsChain fun x y => x.2.header.previous = y.1
  genesis : c.getLast? = some (genesisEntry crypto)

/-- The height index lists exactly the blocks of the path. -/
def Ledger.Indexes (l : Ledger) (c : Chain) : Prop :=
  ∀ (height : Int) (id : BlockID), l.heightIndex[height]? = some id ↔
    ∃ n : Nat, height = n ∧ (blockAt c n).map Prod.fst = some id

/-- The tip of the main chain with the path below it. -/
structure MainPath (crypto : Crypto) (s : Processor) (t : BlockID × Block) (c : Chain) : Prop
    extends PreviousPath crypto s.blockStore (t :: c) where
  tip : s.ledger.chainTip = some (t.1, (c.length : Int))
  indexes : s.ledger.Indexes (t :: c)

/-! ### A fork of the sample chain -/

namespace Sample

/-- A second block with the transfer, which nobody can pay for yet. -/
def unpaid : Block where
  header := { (block 0 2).header with time := time 2 + 7, transactionCount := 2 }
  transactions :=
    [{ coinbase 0 2 with time := time 2 + 7, amount := initialCoinbaseReward + minFeeCruzbits },
      transfer 0]

theorem block_id (n : Nat) : (block 0 (n + 1)).id crypto = BitVec.ofNat 256 (time (n + 1)).natAbs :=
  entry_id 0 (n + 1)

theorem unpaid_id : unpaid.id crypto = BitVec.ofNat 256 1561174363 :=
  header_id (h := unpaid.header) (by decide)

theorem checkBlock_unpaid : checkBlock crypto (unpaid.id crypto) unpaid (time 2 + 7) = .ok () := by
  obtain ⟨max, hmax, hle⟩ := le_computeMaxTransactionsPerBlock (show (0 : Int) ≤ 2 by decide)
  have hmany : 10000 ≤ max := hle
  have hsane : (block 0 2).Sane crypto _ _ :=
    checkBlock_ok_iff.mp (checkBlock_block (by decide) (by decide))
  have hcoinbase : (coinbase 0 2).Checked := coinbase_checked (by decide)
  rw [unpaid_id]
  refine checkBlock_ok_iff.mpr ⟨by decide, by decide, by decide, hsane.nonce_range,
    hsane.height_range, rfl, rfl, ⟨_, _, rfl, rfl, ?_⟩, ⟨max, hmax, ?_⟩, ?_, ?_, ?_⟩
  · intro tx htx
    obtain rfl := List.mem_singleton.mp htx
    rfl
  · show (2 : Int) ≤ max
    omega
  · intro tx htx
    rcases List.mem_cons.mp htx with rfl | htx
    · refine { hcoinbase with time_range := ?_, amount_pos := ?_, amount_le := ?_ } <;> decide
    · obtain rfl := List.mem_singleton.mp htx
      exact transfer_checked (by decide)
  · have hid : ∀ tx ∈ unpaid.transactions, tx.id crypto = BitVec.ofNat 256 tx.time.natAbs := by
      intro tx htx
      refine transaction_id ?_
      revert tx
      decide
    rw [Block.txIDs, List.map_congr_left hid]
    decide
  · exact computeHashListRoot_eq _ (by decide) (by decide) _

/-- The block passes all checks that are made before the ledger is asked. -/
theorem unpaid_proposed :
    Proposed crypto ancestorTarget (chain 0 1) (unpaid.id crypto, unpaid) := by
  have hf : Follows crypto false ancestorTarget (chain 0 1) (entry 0 2) :=
    follows false (by decide) (Or.inl rfl) (by decide)
  refine ⟨rfl, ⟨_, checkBlock_unpaid⟩, hf.parent, hf.target, hf.time.trans (by decide), ?_,
    by decide⟩
  intro tx htx
  rcases List.mem_cons.mp htx with rfl | htx
  · exact ⟨rfl, fun h => absurd h (by decide), fun h => absurd h (by decide),
      fun h => absurd h (by decide)⟩
  · obtain rfl := List.mem_singleton.mp htx
    exact ⟨rfl, fun _ => rfl, fun _ => rfl, fun _ => Or.inr rfl⟩

/-- The ledger refuses it. -/
theorem unpaid_not_valid (prune : Bool) :
    ¬ Valid crypto prune ((unpaid.id crypto, unpaid) :: chain 0 1) := by
  intro hvalid
  have hcovered := hvalid.head.covered
  have hdues : dues (chain 0 1) unpaid = [transfer 0] := rfl
  rw [balances_eq_zero (by decide), hdues] at hcovered
  have hpaid := hcovered.1 genesisCoinbase.recipient rfl
  exact absurd hpaid (by decide)

/-- The call delivers a block of the fork: two on top of genesis, and two on top
of the first. -/
def Forks : Call → Prop
  | .block b _ _ => b = sibling ∨ b = block 0 1 ∨ b = block 0 2 ∨ b = unpaid
  | .transaction _ => False

theorem Forks.agrees {s : Processor} (h : Run crypto false Forks s) :
    Agrees crypto ancestorTarget s := by
  refine h.agrees ?_ ?_
  · rintro b now source (rfl | rfl | rfl | rfl)
    · rw [sibling_id]
      exact ⟨by decide, by decide⟩
    · rw [block_id 0]
      exact ⟨by decide, by decide⟩
    · rw [block_id 1]
      exact ⟨by decide, by decide⟩
    · rw [unpaid_id]
      exact ⟨by decide, by decide⟩
  · rw [genesis_id]
    decide

/-- The later block arrives first. -/
def forkCalls : List Call :=
  [genesisBlock.call, .block sibling (time 1 + 7) "", .block (block 0 1) (time 1 + 8) ""]

/-- **A fork**: the later block is the tip, the earlier one is on a side branch. -/
def fork : Processor := Processor.new.carryOut crypto false forkCalls

/-- The state of the fork, and the times its blocks were stored. -/
structure Forked (s : Processor) : Prop where
  run : Run crypto false Forks s
  settled : Settled crypto false (fun _ => True) (fun _ => True) s
    [(sibling.id crypto, sibling), entry 0 0]
    {(block 0 1).id crypto, sibling.id crypto, genesisBlock.id crypto}
  tip : s.blockStore[sibling.id crypto]? = some ⟨sibling, time 1 + 7⟩
  side : Stored s.blockStore (chain 0 1)

/-- A block on top of genesis makes a valid chain. -/
theorem valid_of_follows {b : Block}
    (hb : Follows crypto false ancestorTarget (chain 0 0) (b.id crypto, b))
    (hne : b.id crypto ≠ genesisBlock.id crypto) :
    Valid crypto false ((b.id crypto, b) :: chain 0 0) := by
  refine (Ancestry.cons .genesis hb).valid ?_
  simpa [chain, entry, genesisEntry, ids] using hne

/-- The state before the earlier block arrives. -/
structure Led (s : Processor) : Prop where
  run : Run crypto false Forks s
  settled : Settled crypto false (fun _ => True) (fun _ => True) s
    [(sibling.id crypto, sibling), entry 0 0] {sibling.id crypto, genesisBlock.id crypto}
  tip : s.blockStore[sibling.id crypto]? = some ⟨sibling, time 1 + 7⟩

/-- **The later block arrives** and is the tip. -/
theorem exists_led :
    ∃ s, fork = (s.step crypto false (.block (block 0 1) (time 1 + 8) "")).1 ∧ Led s ∧
      s.tipChanges = [.up "" false (entry 0 0), .up "" false (sibling.id crypto, sibling)] := by
  obtain ⟨s₀, hok₀, h₀, -, htips₀⟩ : ∃ s, Processor.new.step crypto false genesisBlock.call =
      (s, .ok ()) ∧ Settled crypto false (fun _ => True) (fun _ => True) s [genesisEntry crypto]
        {genesisBlock.id crypto} ∧ _ ∧ _ :=
    genesis_step "" checkBlock_genesis
  have hrun₀ : Run crypto false Forks s₀ := .genesis _ "" hok₀
  have hpass : Passes crypto _ _ s₀ _ sibling (time 1 + 7) (chain 0 0) :=
    h₀.passes (Forks.agrees hrun₀) .genesis (sibling_follows false).toProposed h₀.stored
      (fun y hy => h₀.describes.known _ (List.mem_map_of_mem hy)) sibling_ne_genesis (by decide)
  obtain ⟨storedAt, hg⟩ := h₀.stored _ List.mem_cons_self
  obtain ⟨h, -, hmoved⟩ := h₀.moves trivial "" (vouches_true _) hpass
    (valid_of_follows (sibling_follows false) sibling_ne_genesis) hg (compare_of_work (by decide))
  have hstore := (h₀.judged trivial "" (vouches_true _) hpass).1
  have htips := Moved.sent_eq [] [] hmoved (by simp)
  refine ⟨(s₀.step crypto false (.block sibling (time 1 + 7) "")).1, ?_,
    ⟨hrun₀.call (.block sibling (time 1 + 7) "") (Or.inl rfl), h, ?_⟩, ?_⟩
  · rw [show s₀ = (Processor.new.step crypto false genesisBlock.call).1 by rw [hok₀]]
    rfl
  · rw [hstore, BlockStorage.get_store, if_pos rfl]
  · rw [htips, htips₀]
    rfl

/-- **The earlier block, with the same work, does not replace it.** -/
theorem Led.forks {s : Processor} (h : Led s) :
    Forked (s.step crypto false (.block (block 0 1) (time 1 + 8) "")).1 ∧
      (s.step crypto false (.block (block 0 1) (time 1 + 8) "")).1.tipChanges = s.tipChanges := by
  have hfollows : Follows crypto false ancestorTarget (chain 0 0) (entry 0 1) :=
    follows false (by decide) (Or.inl rfl) (by decide)
  have hne₀ : (block 0 1).id crypto ≠ genesisBlock.id crypto := by
    rw [block_id 0, genesis_id]
    decide
  have hne : (block 0 1).id crypto ≠ sibling.id crypto := by
    rw [block_id 0, sibling_id]
    decide
  have hpass : Passes crypto (fun _ => True) (fun _ => True) s
      {sibling.id crypto, genesisBlock.id crypto} (block 0 1) (time 1 + 8) (chain 0 0) := by
    refine h.settled.passes (Forks.agrees h.run) .genesis hfollows.toProposed ?_ ?_ ?_ (by decide)
    · exact fun y hy => h.settled.stored y (List.mem_cons_of_mem _ hy)
    · exact fun y hy =>
        h.settled.describes.known _ (List.mem_map_of_mem (List.mem_cons_of_mem _ hy))
    · simp [hne, hne₀]
  have hworse :
      (block 0 1).header.compare crypto sibling.header (time 1 + 8) (time 1 + 7) = false := by
    rw [← Bool.not_eq_true, compare_iff]
    decide
  obtain ⟨hs, -, htips⟩ := h.settled.puts_aside trivial "" (vouches_true _) hpass
    (valid_of_follows hfollows hne₀) h.tip hworse
  have hstore := (h.settled.judged trivial "" (vouches_true _) hpass).1
  have hrun := h.run.call (.block (block 0 1) (time 1 + 8) "") (Or.inr (Or.inl rfl))
  refine ⟨⟨hrun, hs, ?_, List.forall_mem_cons.mpr ⟨⟨time 1 + 8, ?_⟩, fun y hy => ?_⟩⟩, htips⟩
  · rw [hstore, BlockStorage.get_store, if_neg hne, h.tip]
  · rw [hstore]
    exact (BlockStorage.get_store _ _ _ _ _).trans (if_pos rfl)
  · exact hs.stored y (List.mem_cons_of_mem _ hy)

theorem fork_forked : Forked fork ∧ fork.tipChanges =
    [.up "" false (entry 0 0), .up "" false (sibling.id crypto, sibling)] := by
  obtain ⟨s, hfork, hled, htips⟩ := exists_led
  rw [hfork]
  exact ⟨hled.forks.1, hled.forks.2.trans htips⟩

theorem sibling_not_mem : ∀ y ∈ [(sibling.id crypto, sibling)], y ∉ [entry 0 1] := by
  intro y hy hy'
  rw [List.mem_singleton] at hy hy'
  have hid : sibling.id crypto = (block 0 1).id crypto := congrArg Prod.fst (hy.symm.trans hy')
  rw [sibling_id, block_id 0] at hid
  exact absurd hid (by decide)

/-- A block on top of the earlier block passes the checks. -/
theorem Forked.passes {s : Processor} (h : Forked s) {b : Block} (now : Int)
    (hb : Proposed crypto ancestorTarget (chain 0 1) (b.id crypto, b))
    (hid : b.id crypto ∉
      ({(block 0 1).id crypto, sibling.id crypto, genesisBlock.id crypto} : Set BlockID))
    (hlate : b.header.time ≤ int64 (now + maxFutureSeconds)) :
    Passes crypto (fun _ => True) (fun _ => True) s
      {(block 0 1).id crypto, sibling.id crypto, genesisBlock.id crypto} b now (chain 0 1) := by
  have hanc : Ancestry crypto false ancestorTarget (chain 0 1) :=
    ancestry false (by decide) (Or.inl rfl) (by decide)
  refine h.settled.passes (Forks.agrees h.run) hanc hb h.side ?_ hid hlate
  simp [chain, entry, genesisEntry]

/-- **A move that fails**: the tip is disconnected, the earlier block is
connected, the next one cannot be paid for, and all of it is undone. -/
theorem Forked.refuses {s : Processor} (h : Forked s) :
    Forked (s.step crypto false (.block unpaid (time 2 + 7) "")).1 ∧
      (∃ e, (s.step crypto false (.block unpaid (time 2 + 7) "")).2 = .error e) ∧
      (s.step crypto false (.block unpaid (time 2 + 7) "")).1.tipChanges = s.tipChanges ++
        [.down "" (sibling.id crypto, sibling), .up "" true (entry 0 1), .down "" (entry 0 1),
          .up "" false (sibling.id crypto, sibling)] := by
  have hne : unpaid.id crypto ∉
      ({(block 0 1).id crypto, sibling.id crypto, genesisBlock.id crypto} : Set BlockID) := by
    rw [unpaid_id, block_id 0, sibling_id, genesis_id]
    simp only [Set.mem_insert_iff, Set.mem_singleton_iff]
    decide
  have hpass := h.passes (time 2 + 7) unpaid_proposed hne (by decide)
  obtain ⟨hs, herr, hundone⟩ := h.settled.refuses trivial "" (vouches_true _) hpass
    (unpaid_not_valid false) h.tip (compare_of_work (by decide))
  have hstore := (h.settled.judged trivial "" (vouches_true _) hpass).1
  have hrun := h.run.call (.block unpaid (time 2 + 7) "") (Or.inr (Or.inr (Or.inr rfl)))
  have hvalid : Valid crypto false (chain 0 1) :=
    (ancestry false (by decide) (Or.inl rfl) (by decide)).valid (chain_nodup (by decide))
  have hsent := Undone.sent_eq [] [entry 0 1] hundone hvalid sibling_not_mem
  refine ⟨⟨hrun, hs, ?_, ?_⟩, herr, hsent.trans (by simp)⟩
  · rw [hstore, BlockStorage.get_store, if_neg, h.tip]
    rintro heq
    exact hne (heq ▸ by simp)
  · rw [hstore]
    refine h.side.store (fun hmem => hne ?_) _
    simp only [chain, entry, genesisEntry, ids, List.map_cons, List.map_nil, List.mem_cons,
      List.not_mem_nil, or_false] at hmem
    rcases hmem with heq | heq <;> simp [heq]

theorem second_not_known : (block 0 2).id crypto ∉
    ({(block 0 1).id crypto, sibling.id crypto, genesisBlock.id crypto} : Set BlockID) := by
  rw [block_id 1, block_id 0, sibling_id, genesis_id]
  simp only [Set.mem_insert_iff, Set.mem_singleton_iff]
  decide

/-- **A move that succeeds.** -/
theorem Forked.moves {s : Processor} (h : Forked s) :
    (s.step crypto false (.block (block 0 2) (time 2 + 8) "")).2 = .ok () ∧
      (∃ K, Settled crypto false (fun _ => True) (fun _ => True)
        (s.step crypto false (.block (block 0 2) (time 2 + 8) "")).1 (chain 0 2) K) ∧
      (s.step crypto false (.block (block 0 2) (time 2 + 8) "")).1.tipChanges = s.tipChanges ++
        [.down "" (sibling.id crypto, sibling), .up "" true (entry 0 1),
          .up "" false (entry 0 2)] := by
  have hfollows : Follows crypto false ancestorTarget (chain 0 1) (entry 0 2) :=
    follows false (by decide) (Or.inl rfl) (by decide)
  have hpass := h.passes (time 2 + 8) hfollows.toProposed second_not_known (by decide)
  have hvalid : Valid crypto false (chain 0 2) :=
    (ancestry false (by decide) (Or.inl rfl) (by decide)).valid (chain_nodup (by decide))
  obtain ⟨hs, hok, hmoved⟩ := h.settled.moves trivial "" (vouches_true _) hpass hvalid h.tip
    (compare_of_work (by decide))
  have hsent := Moved.sent_eq [_] [entry 0 1] hmoved sibling_not_mem
  exact ⟨hok, ⟨_, hs⟩, hsent.trans (by simp [entry])⟩

end Sample

section Reachable

variable {crypto : Crypto} {prune : Bool} {P : Transaction → Prop} {Q : Processor → Prop}
  {s s' : Processor} {c d : Chain} {K : Set BlockID} {t x : BlockID × Block}

/-- An admitted line in storage is a path down to genesis. -/
theorem Admitted.previousPath {blockStore : BlockStorage} (h : Admitted crypto P Q c)
    (hst : Stored blockStore c) : PreviousPath crypto blockStore c :=
  ⟨hst, (h.line hst).chain.imp fun _ _ hp => hp.previous, h.getLast⟩

theorem Placed.mainPath (h : Placed crypto prune P Q s (t :: c) K) : MainPath crypto s t c := by
  have hc := h.onChain
  refine ⟨h.admitted.previousPath h.stored, ?_, fun height id => ?_⟩
  · rw [hc.describes.chainTip]
    simp
  · rw [h.describes.heightIndex height id, List.mem_map]
    simp only [Option.map_eq_some_iff, h.valid.blockAt_iff, heightEntry, Prod.mk.injEq]
    constructor
    · rintro ⟨x, hx, hheight, hid⟩
      have hnonneg := (h.valid.mem_wellFormed hx).height_nonneg
      refine ⟨height.toNat, by omega, x, ⟨hx, ?_⟩, hid⟩
      omega
    · rintro ⟨n, rfl, x, ⟨hx, hheight⟩, hid⟩
      exact ⟨x, hx, hheight, hid⟩

/-- The parent of a known block is known. -/
theorem Placed.parent_known (h : Placed crypto prune P Q s c K) {id : BlockID} (hid : id ∈ K)
    (hne : id ≠ genesisBlock.id crypto) :
    ∃ e, s.blockStore[id]? = some e ∧ e.block.header.previous ∈ K := by
  obtain ⟨b, d, hadm, hst, hd⟩ := h.tree id hid
  obtain ⟨storedAt, hget⟩ := hst _ List.mem_cons_self
  refine ⟨_, hget, ?_⟩
  generalize hx : (id, b) = x at hadm
  cases hadm with
  | genesis => exact absurd (congrArg Prod.fst hx) hne
  | cons s₀ hadm _ hx' =>
    subst hx
    obtain ⟨p, e, rfl⟩ := List.exists_cons_of_ne_nil hadm.ne_nil
    have hprev := (hx'.parent p rfl).1
    simp only at hprev ⊢
    rw [hprev]
    exact hd p List.mem_cons_self

/-- **The best-chain rule.** -/
theorem best_chain_rule (h : Reachable crypto prune s) :
    ∃ t c, MainPath crypto s t c ∧
      (∀ id, s.ledger.Known id → id ≠ t.1 → Better crypto s.blockStore t.1 id) ∧
      (∀ id, s.ledger.Known id → id ≠ genesisBlock.id crypto →
        ∃ e, s.blockStore[id]? = some e ∧ s.ledger.Known e.block.header.previous) ∧
      ∀ (b : Block) (now : Int) (source : String) (s' : Processor) (tipWhen : Int),
        ¬ s.ledger.Known (b.id crypto) → s.blockStore[t.1]? = some ⟨t.2, tipWhen⟩ →
        b.header.compare crypto t.2.header now tipWhen = true →
        s.step crypto prune (.block b now source) = (s', .ok ()) →
        ∃ (cs ds : Chain) (f : BlockID × Block) (common : Chain),
          t :: c = cs ++ f :: common ∧
          MainPath crypto s' (b.id crypto, b) (ds ++ f :: common) ∧
          (∀ y ∈ cs, y ∉ (b.id crypto, b) :: ds) ∧
          s'.tipChanges = s.tipChanges ++ (cs.map (TipChange.down source) ++
            (ds.reverse.map (TipChange.up source true) ++
              [TipChange.up source false (b.id crypto, b)])) := by
  obtain ⟨c, K, hs⟩ := h.settled
  obtain ⟨t, c, rfl⟩ := List.exists_cons_of_ne_nil hs.admitted.ne_nil
  have hknown := hs.describes.known_iff
  refine ⟨t, c, hs.mainPath, ?_, ?_, ?_⟩
  · intro id hid hne
    exact hs.best t rfl id ((hknown id).mp hid) hne
  · intro id hid hne
    obtain ⟨e, he, hprev⟩ := hs.parent_known ((hknown id).mp hid) hne
    exact ⟨e, he, (hknown _).mpr hprev⟩
  · intro b now source s' tipWhen hunknown htip hbetter hok
    have hid : b.id crypto ∉ K := fun hK => hunknown ((hknown _).mpr hK)
    have hout := hs.processBlock_cases h source (vouches_true (.block b now source))
    rw [hok] at hout
    generalize hr : (Except.ok () : Res Unit) = r at hout
    cases hout with
    | known hK => exact absurd hK hid
    | refused _ _ => exact absurd hr (by simp)
    | judged hpasses _ hstore hverdict =>
      cases hverdict with
      | rejected => exact absurd hr (by simp)
      | side hs' _ =>
        -- then the tip would be worse than the new block
        have hself : s'.blockStore[b.id crypto]? = some ⟨b, now⟩ := by
          rw [hstore, BlockStorage.get_store, if_pos rfl]
        have htip' : s'.blockStore[t.1]? = some ⟨t.2, tipWhen⟩ := by
          rw [hstore, BlockStorage.get_store, if_neg, htip]
          intro heq
          exact hid (heq ▸ hs.tip_mem)
        exact absurd ⟨_, _, hself, htip', hbetter⟩ (hs'.not_better (Set.mem_insert _ _))
      | moved hs' hmoved =>
        obtain ⟨cs, ds, f, common, hc, rfl, hdisj, htips⟩ := hmoved
        refine ⟨cs, ds, f, common, hc, hs'.mainPath, fun y hy hmem => ?_, htips⟩
        rcases List.mem_cons.mp hmem with rfl | hmem
        · refine hid (hs.describes.known _ (List.mem_map.mpr ⟨(b.id crypto, b), ?_, rfl⟩))
          rw [hc]
          exact List.mem_append_left _ hy
        · exact hdisj y hy hmem

/-- The tip of the fork is better than the block on the side branch, and the
second block moves it there. -/
theorem best_chain_of_fork :
    ∃ t c, MainPath Sample.crypto Sample.fork t c ∧ t.1 = Sample.sibling.id Sample.crypto ∧
      Better Sample.crypto Sample.fork.blockStore t.1 (Sample.entry 0 1).1 ∧
      ∃ s' cs ds f common,
        Sample.fork.step Sample.crypto false
          (.block (Sample.block 0 2) (Sample.time 2 + 8) "") = (s', .ok ()) ∧
        t :: c = cs ++ f :: common ∧
        MainPath Sample.crypto s' (Sample.entry 0 2) (ds ++ f :: common) ∧
        s'.tipChanges = Sample.fork.tipChanges ++ (cs.map (TipChange.down "") ++
          (ds.reverse.map (TipChange.up "" true) ++
            [TipChange.up "" false (Sample.entry 0 2)])) := by
  have hfork := Sample.fork_forked.1
  have hrun : Reachable Sample.crypto false Sample.fork := hfork.run.mono fun _ _ => trivial
  obtain ⟨t, c, hpath, hbest, -, hmove⟩ := best_chain_rule hrun
  have htip : t.1 = Sample.sibling.id Sample.crypto := by
    have hchain := hpath.tip.symm.trans hfork.settled.describes.chainTip
    exact congrArg Prod.fst (Option.some.inj hchain)
  have hknown {id : BlockID} := hfork.settled.describes.known_iff id
  have hside : (Sample.entry 0 1).1 ≠ t.1 := by
    rw [htip, Sample.entry_fst, Sample.sibling_id]
    decide
  have hsecond : ¬ Sample.fork.ledger.Known ((Sample.block 0 2).id Sample.crypto) :=
    fun h => Sample.second_not_known (hknown.mp h)
  obtain ⟨tipWhen, hstored⟩ := hpath.stored t List.mem_cons_self
  have hblock : t.2 = Sample.sibling := by
    rw [htip, hfork.tip] at hstored
    exact (congrArg StoredBlock.block (Option.some.inj hstored)).symm
  obtain ⟨cs, ds, f, common, hc, hpath', -, htips⟩ := hmove (Sample.block 0 2)
    (Sample.time 2 + 8) "" _ tipWhen hsecond hstored (compare_of_work (by rw [hblock]; decide))
    (Prod.ext rfl hfork.moves.1)
  exact ⟨t, c, hpath, htip, hbest _ (hknown.mpr (by simp [Sample.entry])) hside, _, cs, ds, f,
    common, Prod.ext rfl hfork.moves.1, hc, hpath', htips⟩

/-- A delivered block that ends in an error leaves the ledger alone. -/
theorem Outcome.ledger_of_error {b : Block} {now : Int} {source : String} {e : Err}
    (hs : Describes crypto prune s.ledger c K)
    (h : Outcome crypto prune P Q source s c K b now s' (.error e)) :
    s'.ledger = s.ledger ∧ s'.ledger.getBranchType (b.id crypto) = .unknown := by
  generalize hr : (Except.error e : Res Unit) = r at h
  cases h with
  | known _ => exact absurd hr (by simp)
  | refused hid _ => exact ⟨rfl, (hs.getBranchType_eq_unknown _).mpr hid⟩
  | judged hpasses _ _ hverdict =>
    cases hverdict with
    | side => exact absurd hr (by simp)
    | moved => exact absurd hr (by simp)
    | rejected _ _ _ hl =>
      rw [hl]
      exact ⟨rfl, (hs.getBranchType_eq_unknown _).mpr hpasses.unknown⟩

/-- **A rejected block leaves the ledger exactly as it was.** -/
theorem rejected_block_leaves_ledger (h : Reachable crypto prune s) (b : Block) (now : Int)
    (source : String) (s' : Processor) (e : Err) :
    (s.ledger.getBranchType (b.id crypto) = .unknown →
      checkBlock crypto (b.id crypto) b now = .ok () → s.ledger.Known b.header.previous →
      s.acceptBlock crypto prune (b.id crypto) b now source = (s', .error e) →
      s'.ledger = s.ledger ∧ s'.ledger.getBranchType (b.id crypto) = .unknown) ∧
    (s.step crypto prune (.block b now source) = (s', .error e) →
      s'.ledger = s.ledger ∧ s'.ledger.getBranchType (b.id crypto) = .unknown) := by
  obtain ⟨c, K, hs⟩ := h.settled
  constructor
  · intro hunknown hchk hprev herr
    have hout := hs.acceptBlock_cases h source (vouches_true (.block b now source))
      (hs.describes.not_mem_of_unknown hunknown) hchk ((hs.describes.known_iff _).mp hprev)
    rw [herr] at hout
    exact hout.ledger_of_error hs.describes
  · intro herr
    have hout := hs.processBlock_cases h source (vouches_true (.block b now source))
    rw [herr] at hout
    exact hout.ledger_of_error hs.describes

/-- The block fails in `ConnectBlock` when the old tip is disconnected and the
side branch is connected, and the ledger is as before. -/
theorem unpaid_block_leaves_ledger :
    ∃ s' e, Sample.fork.step Sample.crypto false
        (.block Sample.unpaid (Sample.time 2 + 7) "") = (s', .error e) ∧
      s'.tipChanges = Sample.fork.tipChanges ++
        [.down "" (Sample.sibling.id Sample.crypto, Sample.sibling), .up "" true (Sample.entry 0 1),
          .down "" (Sample.entry 0 1),
          .up "" false (Sample.sibling.id Sample.crypto, Sample.sibling)] ∧
      s'.ledger = Sample.fork.ledger ∧
      s'.ledger.getBranchType (Sample.unpaid.id Sample.crypto) = .unknown := by
  have hfork := Sample.fork_forked.1
  have hrun : Reachable Sample.crypto false Sample.fork := hfork.run.mono fun _ _ => trivial
  obtain ⟨-, ⟨e, herr⟩, htips⟩ := hfork.refuses
  have hstep : Sample.fork.step Sample.crypto false
      (.block Sample.unpaid (Sample.time 2 + 7) "") = (_, .error e) := Prod.ext rfl herr
  exact ⟨_, e, hstep, htips, (rejected_block_leaves_ledger hrun _ _ _ _ _).2 hstep⟩

end Reachable

end Cruzbit

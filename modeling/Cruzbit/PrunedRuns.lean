/-
Cruzbit/PrunedRuns.lean

Pruning is unobservable (`pruning_unobservable`): at every point of a lockstep
run the two ledgers differ in the transaction indices alone, and there the
pruned one has what the other has for the blocks of the newest two series.

A chain of blocks that follow each other is built up in lockstep
(`LockstepRun.climb`).  On the pinned chain two series are full at height 2016;
the next block makes the ledger drop the indices of block 1, and
disconnecting it brings them back.
-/
import Cruzbit.Checkpoints
import Cruzbit.LedgerSteps

namespace Cruzbit

open Chain

section Lockstep

variable {crypto : Crypto} {U : Set Transaction} {s : BlockStorage} {l₁ l₂ : Ledger} {c : Chain}
  {K : Set BlockID} {x : BlockID × Block} {target : Chain → Res BlockID}

/-! ### Building up a chain in lockstep -/

theorem lockstep_genesis (crypto : Crypto) (hg : genesisCoinbase ∈ U) (now : Int) :
    ∃ l₁ l₂, LockstepRun crypto U (BlockStorage.store ∅ (genesisBlock.id crypto) genesisBlock now)
        l₁ l₂ ∧
      Lockstep crypto U (BlockStorage.store ∅ (genesisBlock.id crypto) genesisBlock now) l₁ l₂
        [genesisEntry crypto] {genesisBlock.id crypto} := by
  obtain ⟨l₁, hok₁, hon₁⟩ := genesis_connects crypto true now
  obtain ⟨l₂, hok₂, hon₂⟩ := genesis_connects crypto false now
  refine ⟨l₁, l₂, .genesis now hok₁ hok₂, hon₁, hon₂, ?_⟩
  simp only [List.mem_singleton, forall_eq]
  exact inSeries_genesis hg

/-- **A block that follows the chain** is stored and connected on both ledgers. -/
theorem LockstepRun.follow (hrun : LockstepRun crypto U s l₁ l₂) (hU : CollisionFree crypto U)
    (h : Lockstep crypto U s l₁ l₂ c K) (hx : Follows crypto false target c x) (hfresh : x.1 ∉ K)
    (hmem : ∀ tx ∈ x.2.transactions, tx ∈ U) :
    ∃ s' l₁' l₂', LockstepRun crypto U s' l₁' l₂' ∧
      Lockstep crypto U s' l₁' l₂' (x :: c) (insert x.1 K) := by
  obtain ⟨p, c, rfl⟩ := h.full.exists_head
  obtain ⟨hprev, hheight, -⟩ := hx.parent p rfl
  have hseries : InSeries U x.2 := fun tx htx => ⟨hmem tx htx, (hx.transactions tx htx).series⟩
  have hstored : Stored (s.store x.1 x.2 0) (p :: c) :=
    h.full.stored.store (fun hid => hfresh (h.full.describes.known _ hid)) 0
  have hissued : l₂.getBranchType x.1 = .unknown :=
    (h.full.describes.getBranchType_eq_unknown x.1).mpr hfresh
  have hscreened := hx.screened hstored (List.cons_ne_nil _ _)
  have hparent : ∃ y ∈ (p :: c).head?, x.2.header.previous = y.1 := ⟨p, rfl, hprev⟩
  have hpruned : OnChain crypto true (s.store x.1 x.2 0) l₁ (p :: c) K :=
    ⟨h.pruned.describes, h.pruned.valid, hstored, h.pruned.genesis⟩
  have hfull : OnChain crypto false (s.store x.1 x.2 0) l₂ (p :: c) K :=
    ⟨h.full.describes, h.full.valid, hstored, h.full.genesis⟩
  have hconnects : Connects crypto true (p :: c) x.2 := by
    refine (connects_iff hU h.full.valid h.inSeries ?_ hseries).mpr hx.connects
    rw [hheight, h.full.valid.head.height]
    rfl
  exact ⟨_, _, _, .call (.connectBlock x.1 x.2) (.call (.store x.1 x.2 0) hrun hissued trivial)
    hscreened hseries, hpruned.connected hscreened hparent hconnects,
    hfull.connected hscreened hparent hx.connects, List.forall_mem_cons.mpr ⟨hseries, h.inSeries⟩⟩

/-- **A chain is built up in lockstep.** -/
theorem LockstepRun.climb (hU : CollisionFree crypto U) (hg : genesisCoinbase ∈ U)
    (hc : Ancestry crypto false target c) (hnd : c.ids.Nodup)
    (hmem : ∀ x ∈ c, ∀ tx ∈ x.2.transactions, tx ∈ U) :
    ∃ s l₁ l₂, LockstepRun crypto U s l₁ l₂ ∧
      Lockstep crypto U s l₁ l₂ c {id | id ∈ c.ids} := by
  induction hc with
  | genesis =>
    obtain ⟨l₁, l₂, hrun, h⟩ := lockstep_genesis crypto hg 0
    refine ⟨_, l₁, l₂, hrun, ?_⟩
    convert h using 1
    ext id
    simp [ids, genesisEntry]
  | @cons c x hc hx ih =>
    obtain ⟨hxc, hnd⟩ := List.nodup_cons.mp hnd
    obtain ⟨hx', hmem⟩ := List.forall_mem_cons.mp hmem
    obtain ⟨s, l₁, l₂, hrun, h⟩ := ih hnd hmem
    obtain ⟨s', l₁', l₂', hrun', h'⟩ := hrun.follow hU h hx hxc hx'
    refine ⟨s', l₁', l₂', hrun', ?_⟩
    convert h' using 1
    ext id
    simp [ids]

/-- The tip is disconnected on both ledgers. -/
theorem LockstepRun.disconnect (hrun : LockstepRun crypto U s l₁ l₂)
    (h : Lockstep crypto U s l₁ l₂ (x :: c) K) (hne : x.1 ≠ genesisBlock.id crypto) :
    ∃ l₁' l₂', LockstepRun crypto U s l₁' l₂' ∧ Lockstep crypto U s l₁' l₂' c K :=
  ⟨_, _, .call (.disconnectBlock x.1 x.2) hrun ⟨h.full.stored x List.mem_cons_self, hne⟩ trivial,
    h.pruned.disconnected hne, h.full.disconnected hne,
    fun y hy => h.inSeries y (List.mem_cons_of_mem _ hy)⟩

end Lockstep

/-! ### The coinbases of the pinned chain -/

namespace Pinned

/-- The coinbases of the main branch. -/
def coinbases (n : Nat) : Set Transaction := {tx | ∃ k ≤ n, tx ∈ (entry false k).2.transactions}

theorem mem_coinbases {n : Nat} {tx : Transaction} (h : tx ∈ coinbases n) :
    ∃ k ≤ n, (entry false k).2.transactions = [tx] := by
  obtain ⟨k, hk, htx⟩ := h
  refine ⟨k, hk, ?_⟩
  cases k with
  | zero =>
    obtain rfl : tx = genesisCoinbase := List.mem_singleton.mp htx
    rfl
  | succ k =>
    obtain rfl : tx = coinbase false (k + 1) := List.mem_singleton.mp htx
    rfl

/-- Each has a time of its own, and so an ID of its own. -/
theorem collisionFree_coinbases {n : Nat} (hn : n ≤ 28861) :
    CollisionFree crypto (coinbases n) := by
  rintro _ ⟨tx, htx, rfl⟩ _ ⟨tx', htx', rfl⟩ hid
  obtain ⟨k, hk, hentry⟩ := mem_coinbases htx
  obtain ⟨k', hk', hentry'⟩ := mem_coinbases htx'
  have hmem : tx.id crypto ∈ (entry false k).2.txIDs crypto := by
    rw [Block.txIDs, hentry]
    exact List.mem_singleton_self _
  have hmem' : tx'.id crypto ∈ (entry false k').2.txIDs crypto := by
    rw [Block.txIDs, hentry']
    exact List.mem_singleton_self _
  have hsame : k = k' := by
    by_contra hne
    have hid' : tx.id crypto = tx'.id crypto := hid
    rcases Nat.lt_or_gt_of_ne hne with hlt | hlt
    · obtain ⟨m, rfl⟩ := Nat.exists_eq_succ_of_ne_zero (by omega : k' ≠ 0)
      exact unconfirmed (by omega) (mem_chain.mpr ⟨k, by omega, rfl⟩) _ hmem' (hid' ▸ hmem)
    · obtain ⟨m, rfl⟩ := Nat.exists_eq_succ_of_ne_zero (by omega : k ≠ 0)
      exact unconfirmed (by omega) (mem_chain.mpr ⟨k', by omega, rfl⟩) _ hmem (hid' ▸ hmem')
  rw [hsame, hentry'] at hentry
  rw [List.singleton_inj.mp hentry]

/-- The lockstep run that builds up the main branch. -/
theorem exists_lockstep {n : Nat} (hn : n ≤ 28861) :
    ∃ s l₁ l₂, LockstepRun crypto (coinbases n) s l₁ l₂ ∧
      Lockstep crypto (coinbases n) s l₁ l₂ (chain false n) {id | id ∈ (chain false n).ids} := by
  refine LockstepRun.climb (collisionFree_coinbases hn) ⟨0, by omega, List.mem_singleton_self _⟩
    (ancestry false false hn) (chain_nodup false hn) fun x hx tx htx => ?_
  obtain ⟨k, hk, rfl⟩ := mem_chain.mp hx
  exact ⟨k, hk, htx⟩

variable {U : Set Transaction} {s : BlockStorage} {l₁ l₂ : Ledger} {n : Nat} {K : Set BlockID}

theorem tip_height (h : Lockstep crypto U s l₁ l₂ (chain false n) K)
    {tipID : BlockID} {tipHeight : Int} (htip : l₂.chainTip = some (tipID, tipHeight)) :
    tipHeight = n := by
  have hchain := htip.symm.trans h.full.describes.chainTip
  have hlen := chain_length false n
  rw [chain_eq_cons] at hchain hlen
  have := congrArg Prod.snd (Option.some.inj hchain)
  simp only [hlen] at this
  omega

/-- The coinbase of block 1 is in the full index. -/
theorem first_coinbase (h : Lockstep crypto U s l₁ l₂ (chain false n) K)
    (hn : 1 ≤ n) : l₂.txIndex[(coinbase false 1).id crypto]? = some (1, 0) := by
  refine (h.full.tables.txIndex _ _ _).mpr ⟨1, 0, rfl, rfl, ?_⟩
  rw [transactionAt, blockAt_chain hn]
  rfl

end Pinned

/-! ### Pruning is unobservable -/

section Unobservable

variable {crypto : Crypto} {U : Set Transaction} {s : BlockStorage} {l₁ l₂ : Ledger}

/-- **Pruning is unobservable to consensus.**  At every point of a lockstep
run the ledgers agree on the tip, the height index, the branch types and the
balances; the pruned indices are the full ones restricted to the newest two
series; any next call succeeds on both or fails on both; and no transaction ID
is confirmed twice on the main chain. -/
theorem pruning_unobservable (hU : CollisionFree crypto U) (hg : genesisCoinbase ∈ U)
    (h : LockstepRun crypto U s l₁ l₂) :
    (l₁.chainTip = l₂.chainTip ∧ l₁.heightIndex = l₂.heightIndex ∧
      l₁.branchTypes = l₂.branchTypes ∧ l₁.balances = l₂.balances) ∧
    (∃ tipID tipHeight, l₂.chainTip = some (tipID, tipHeight) ∧
      (∀ id : TransactionID, l₁.txIndex[id]? = (l₂.txIndex[id]?).filter fun e : Int × Int =>
        decide (e.1 > tipHeight - 2 * blocksUntilNewSeries)) ∧
      ∀ key, l₁.pubKeyTxIndex.contains key = true ↔ l₂.pubKeyTxIndex.contains key = true ∧
        ∃ (pk : PublicKey) (height : Int) (i : Nat), pk.length = publicKeySize ∧
          0 ≤ height ∧ height ≤ maxNumber ∧ (i : Int) < 2 ^ 31 ∧
          key = computePubKeyTransactionIndexKey pk (some height) (some (i : Int)) ∧
          height > tipHeight - 2 * blocksUntilNewSeries) ∧
    (∀ call : LedgerCall, call.Issued crypto s l₂ → call.InSeries U →
      ((∃ l, call.result crypto true s l₁ = .ok l) ↔ ∃ l, call.result crypto false s l₂ = .ok l)) ∧
    ∀ (n i n' i' : Nat) (x x' : BlockID × Block) (tx tx' : Transaction),
      mainBlock s l₁ n = some x → x.2.transactions[i]? = some tx →
      mainBlock s l₁ n' = some x' → x'.2.transactions[i']? = some tx' →
      tx.id crypto = tx'.id crypto → n = n' ∧ i = i' := by
  obtain ⟨c, K, hc⟩ := h.invariant hU hg
  have hp := hc.pruned.describes
  have hf := hc.full.describes
  refine ⟨⟨hp.chainTip.trans hf.chainTip.symm, hp.heightIndex.unique hf.heightIndex, ?_, ?_⟩,
    ?_, fun call hissued hs => ?_, ?_⟩
  · refine Std.ExtTreeMap.ext_getElem? fun {id} => ?_
    by_cases hmem : id ∈ c.ids
    · rw [hp.main id hmem, hf.main id hmem]
    · by_cases hK : id ∈ K
      · rw [hp.side id hmem hK, hf.side id hmem hK]
      · rw [hp.unknown id hK, hf.unknown id hK]
  · exact Std.ExtTreeMap.ext_getElem? fun {pk} => (hp.balances pk).trans (hf.balances pk).symm
  · obtain ⟨y, d, rfl⟩ := hc.full.exists_head
    exact ⟨y.1, _, hf.chainTip, hc.txIndex, hc.pubKeyTxIndex⟩
  · rcases hc.call hU hissued hs with
      ⟨l₁', l₂', -, -, hok₁, hok₂, -⟩ | ⟨e₁, e₂, herr₁, herr₂, -⟩
    · exact ⟨fun _ => ⟨l₂', hok₂⟩, fun _ => ⟨l₁', hok₁⟩⟩
    · rw [herr₁, herr₂]
      simp
  · intro n i n' i' x x' tx tx' hx htx hx' htx' hid
    rw [hc.pruned.mainBlock_eq] at hx hx'
    have hat : c.transactionAt n i = some tx := by rw [transactionAt, hx, Option.bind_some, htx]
    have hat' : c.transactionAt n' i' = some tx' := by
      rw [transactionAt, hx', Option.bind_some, htx']
    exact hc.full.valid.transactionAt_unique hat hat' hid

end Unobservable

/-- The pinned chain, one block past two series, and one block back: block 1 is
not indexed by the pruned ledger, and then it is again. -/
theorem pruning_of_pinned_chain :
    ∃ s l₁ l₂ l₁' l₂', LockstepRun Pinned.crypto (Pinned.coinbases 2017) s l₁ l₂ ∧
      LockstepRun Pinned.crypto (Pinned.coinbases 2017) s l₁' l₂' ∧
      (l₁.chainTip = l₂.chainTip ∧ l₁.heightIndex = l₂.heightIndex ∧
        l₁.branchTypes = l₂.branchTypes ∧ l₁.balances = l₂.balances) ∧
      (l₁'.chainTip = l₂'.chainTip ∧ l₁'.heightIndex = l₂'.heightIndex ∧
        l₁'.branchTypes = l₂'.branchTypes ∧ l₁'.balances = l₂'.balances) ∧
      l₂.txIndex[(Pinned.coinbase false 1).id Pinned.crypto]? = some (1, 0) ∧
      l₁.txIndex[(Pinned.coinbase false 1).id Pinned.crypto]? = none ∧
      l₁'.txIndex[(Pinned.coinbase false 1).id Pinned.crypto]? = some (1, 0) := by
  have hU := Pinned.collisionFree_coinbases (n := 2017) (by decide)
  have hg : genesisCoinbase ∈ Pinned.coinbases 2017 := ⟨0, by omega, List.mem_singleton_self _⟩
  have htip : (Pinned.entry false 2017).1 ≠ genesisBlock.id Pinned.crypto := by
    rw [Pinned.entry_fst false (by decide), Pinned.genesis_id false]
    intro heq
    exact absurd (Pinned.blockID_inj (by decide) (by decide) heq).1 (by decide)
  obtain ⟨s, l₁, l₂, hrun, h⟩ := Pinned.exists_lockstep (n := 2017) (by decide)
  obtain ⟨l₁', l₂', hrun', h'⟩ := hrun.disconnect (Pinned.chain_succ false 2016 ▸ h) htip
  obtain ⟨hsame, ⟨_, tipHeight, hheight, hindex, -⟩, -⟩ := pruning_unobservable hU hg hrun
  obtain ⟨hsame', ⟨_, tipHeight', hheight', hindex', -⟩, -⟩ := pruning_unobservable hU hg hrun'
  have hfull := Pinned.first_coinbase h (by decide)
  have hfull' := Pinned.first_coinbase h' (by decide)
  obtain rfl : tipHeight = 2017 := Pinned.tip_height h hheight
  obtain rfl : tipHeight' = 2016 := Pinned.tip_height h' hheight'
  refine ⟨s, l₁, l₂, l₁', l₂', hrun, hrun', hsame, hsame', hfull, ?_, ?_⟩
  · rw [hindex, hfull]
    rfl
  · rw [hindex', hfull']
    rfl

end Cruzbit

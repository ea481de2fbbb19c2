/-
Cruzbit/Pruning.lean

Two ledgers, one that prunes its transaction indices and one that does not,
make the same calls in lockstep.  A transaction is only valid in two
consecutive series, and a pruned ledger keeps the indices of as many blocks
as two series have, so a transaction that could be confirmed again is always
still indexed (`connects_iff`).  Hence both ledgers follow the same chain, and
differ in the indices alone.

The argument needs two transactions with the same ID to have the same series,
so the hash must not collide on the encodings of the transactions at hand
(`CollisionFree`).
-/
import Cruzbit.History

namespace Cruzbit

open Accounts Chain Word

/-! ### The series window -/

theorem series_bounds {tx : Transaction} {height : Int} (h₀ : 0 ≤ height)
    (h : checkTransactionSeries tx height = true) :
    height / 1008 ≤ tx.series ∧ tx.series ≤ height / 1008 + 1 := by
  cases hcb : tx.isCoinbase with
  | true =>
    have hseries := (checkTransactionSeries_coinbase hcb h₀).mp h
    simp only [blocksUntilNewSeries] at hseries
    omega
  | false =>
    have hseries := (checkTransactionSeries_user hcb h₀).mp h
    simp only [blocksUntilNewSeries] at hseries
    omega

/-- Two heights that admit the same series are less than two series apart. -/
theorem height_sub_lt {tx tx' : Transaction} {height height' : Int} (h₀ : 0 ≤ height)
    (h₀' : 0 ≤ height') (h : checkTransactionSeries tx height = true)
    (h' : checkTransactionSeries tx' height' = true) (hs : tx.series = tx'.series) :
    height - height' < pruneWindow := by
  have := series_bounds h₀ h
  have := series_bounds h₀' h'
  have hw : (pruneWindow : Int) = 2016 := rfl
  omega

/-- All transactions of the block are in `U` and valid for its height. -/
def InSeries (U : Set Transaction) (b : Block) : Prop :=
  ∀ tx ∈ b.transactions, tx ∈ U ∧ checkTransactionSeries tx b.header.height = true

section Window

variable {crypto : Crypto} {prune : Bool} {c : Chain} {x y : BlockID × Block} {b : Block}
  {U : Set Transaction}

/-- **A transaction that is valid for the next height and not indexed is not
confirmed at all.** -/
theorem Chain.Valid.unconfirmed (hU : CollisionFree crypto U) (h : Valid crypto prune c)
    (hc : ∀ y ∈ c, InSeries U y.2) {tx : Transaction} (htx : tx ∈ U)
    (hs : checkTransactionSeries tx c.length = true) {prune' : Bool}
    (hunc : ∀ y ∈ indexed prune' c, tx.id crypto ∉ y.2.txIDs crypto) :
    ∀ y ∈ c, tx.id crypto ∉ y.2.txIDs crypto := by
  intro y hy hid
  obtain ⟨tx', htx', heq⟩ := List.mem_map.mp hid
  -- the same ID means the same series, so `y` is still in the window
  have hseries := (Transaction.idJson_inj (hU.idJson_eq htx (hc y hy tx' htx').1 heq.symm)).2
  have hlt := height_sub_lt (by omega) (h.mem_wellFormed hy).height_nonneg hs
    (hc y hy tx' htx').2 hseries
  cases prune' with
  | false => exact hunc y hy hid
  | true => exact hunc y ((h.mem_take_iff pruneWindow).mpr ⟨hy, by omega⟩) hid

/-- **Pruning does not change which blocks connect.** -/
theorem connects_iff (hU : CollisionFree crypto U) (h : Valid crypto prune c)
    (hc : ∀ y ∈ c, InSeries U y.2) (hheight : b.header.height = c.length)
    (hs : InSeries U b) : Connects crypto true c b ↔ Connects crypto false c b := by
  constructor
  · rintro ⟨hunc, hcov⟩
    refine ⟨fun y hy id hid => ?_, hcov⟩
    obtain ⟨tx, htx, rfl⟩ := List.mem_map.mp hid
    exact h.unconfirmed hU hc (hs tx htx).1 (hheight ▸ (hs tx htx).2)
      (fun z hz => hunc z hz _ hid) y hy
  · rintro ⟨hunc, hcov⟩
    exact ⟨fun y hy => hunc y (Table.mem_of_mem_window hy), hcov⟩

theorem indexed_true_iff (h : Valid crypto prune c) :
    y ∈ c.indexed true ↔
      y ∈ c ∧ y.2.header.height > (c.length : Int) - 1 - 2 * blocksUntilNewSeries := by
  have hw : (pruneWindow : Int) = 2 * blocksUntilNewSeries := rfl
  constructor
  · intro hy
    refine ⟨Table.mem_of_mem_window hy, ?_⟩
    by_contra hle
    -- a block that low comes after the window
    have hy' : y ∈ c.take pruneWindow := hy
    obtain ⟨a, e, he⟩ := List.append_of_mem hy'
    have hc : c = a ++ y :: (e ++ c.drop pruneWindow) := by
      conv_lhs => rw [← List.take_append_drop pruneWindow c, he]
      simp
    have hh := (hc ▸ h : Valid crypto prune
      (a ++ y :: (e ++ c.drop pruneWindow))).extends_of_append.height
    have hlen : (e ++ c.drop pruneWindow).length ≥ c.length - pruneWindow := by simp
    omega
  · rintro ⟨hy, hgt⟩
    exact (h.mem_take_iff pruneWindow).mpr ⟨hy, by omega⟩

/-- On an unpruned valid chain no transaction ID occurs twice. -/
theorem Chain.Valid.transactionAt_unique (h : Valid crypto false c) {n i n' i' : Nat}
    {tx tx' : Transaction} (htx : transactionAt c n i = some tx)
    (htx' : transactionAt c n' i' = some tx') (hid : tx.id crypto = tx'.id crypto) :
    n = n' ∧ i = i' := by
  have entry {n i : Nat} {tx : Transaction} (htx : transactionAt c n i = some tx) :
      (tx.id crypto, ((n : Int), (i : Int))) ∈ c.flatMap (txEntries crypto) := by
    obtain ⟨x, hx, hheight, hget⟩ := h.transactionAt_iff.mp htx
    refine List.mem_flatMap.mpr ⟨x, hx, List.mem_map.mpr ⟨(tx, i),
      List.mem_zipIdx_iff_getElem?.mpr hget, ?_⟩⟩
    rw [hheight]
  have hfun : Table.Functional (c.flatMap (txEntries crypto)) := by
    intro k v v' hv hv'
    obtain ⟨x, hx, hxv⟩ := List.mem_flatMap.mp hv
    obtain ⟨y, hy, hyv⟩ := List.mem_flatMap.mp hv'
    have hapart : Table.Apart (txEntries crypto) c := by
      show (Table.window false 0 c).Pairwise _
      refine Table.pairwise_window fun z e hz w hw => ?_
      obtain ⟨a, rfl⟩ := hz
      exact txEntries_disjoint (h.extends_of_append.unconfirmed w hw)
    have : Std.Symm fun a b => Table.Disjoint (txEntries crypto a) (txEntries crypto b) :=
      ⟨fun _ _ => Table.Disjoint.symm⟩
    by_cases hxy : x = y
    · subst hxy
      exact txEntries_functional (h.mem_wellFormed hx) k v v' hxv hyv
    · exact absurd hyv (hapart.forall hx hy hxy k v v' hxv)
  have := hfun _ _ _ (entry htx) (hid ▸ entry htx')
  simp only [Prod.mk.injEq, Nat.cast_inj] at this
  exact this

end Window

/-! ### Lockstep runs -/

/-- The call connects only blocks whose transactions are in `U` and valid for
the block's height. -/
def LedgerCall.InSeries (U : Set Transaction) : LedgerCall → Prop
  | .connectBlock _ block => Cruzbit.InSeries U block
  | _ => True

/-- A pruning and an unpruned ledger over one block storage, making the same
calls. -/
inductive LockstepRun (crypto : Crypto) (U : Set Transaction) :
    BlockStorage → Ledger → Ledger → Prop
  | genesis {l₁ l₂ : Ledger} {txIDs₁ txIDs₂ : List TransactionID} (now : Int) :
      Ledger.empty.connectBlock crypto true
        (BlockStorage.store ∅ (genesisBlock.id crypto) genesisBlock now)
        (genesisBlock.id crypto) genesisBlock = .ok (l₁, txIDs₁) →
      Ledger.empty.connectBlock crypto false
        (BlockStorage.store ∅ (genesisBlock.id crypto) genesisBlock now)
        (genesisBlock.id crypto) genesisBlock = .ok (l₂, txIDs₂) →
      LockstepRun crypto U (BlockStorage.store ∅ (genesisBlock.id crypto) genesisBlock now) l₁ l₂
  | call {s : BlockStorage} {l₁ l₂ : Ledger} (call : LedgerCall) : LockstepRun crypto U s l₁ l₂ →
      call.Issued crypto s l₂ → call.InSeries U →
      LockstepRun crypto U (call.blockStore s) (call.ledger crypto true s l₁)
        (call.ledger crypto false s l₂)

/-- Both ledgers are on the same chain. -/
structure Lockstep (crypto : Crypto) (U : Set Transaction) (s : BlockStorage) (l₁ l₂ : Ledger)
    (c : Chain) (K : Set BlockID) : Prop where
  pruned : OnChain crypto true s l₁ c K
  full : OnChain crypto false s l₂ c K
  inSeries : ∀ y ∈ c, InSeries U y.2

section Lockstep

variable {crypto : Crypto} {U : Set Transaction} {s : BlockStorage} {l₁ l₂ : Ledger} {c : Chain}
  {K : Set BlockID} {id : BlockID} {block : Block}

/-- A call succeeds on both ledgers and keeps them in lockstep, or fails on
both. -/
theorem Lockstep.call (hU : CollisionFree crypto U) (h : Lockstep crypto U s l₁ l₂ c K)
    {call : LedgerCall} (hissued : call.Issued crypto s l₂) (hs : call.InSeries U) :
    (∃ l₁' l₂' c' K', call.result crypto true s l₁ = .ok l₁' ∧
      call.result crypto false s l₂ = .ok l₂' ∧
      Lockstep crypto U (call.blockStore s) l₁' l₂' c' K') ∨
    (∃ e₁ e₂, call.result crypto true s l₁ = .error e₁ ∧
      call.result crypto false s l₂ = .error e₂ ∧ call.blockStore s = s) := by
  cases call with
  | store id block now =>
    have hid : id ∉ c.ids := fun hmem =>
      h.full.describes.not_mem_of_unknown hissued (h.full.describes.known id hmem)
    exact Or.inl ⟨l₁, l₂, c, K, rfl, rfl,
      ⟨h.pruned.describes, h.pruned.valid, h.pruned.stored.store hid now, h.pruned.genesis⟩,
      ⟨h.full.describes, h.full.valid, h.full.stored.store hid now, h.full.genesis⟩, h.inSeries⟩
  | connectBlock id block =>
    simp only [LedgerCall.result]
    have hiff : (∃ y ∈ c.head?, block.header.previous = y.1) →
        (Connects crypto true c block ↔ Connects crypto false c block) := by
      rintro ⟨y, hy, hprev⟩
      have hfits := hissued.fits h.full hy hprev
      exact connects_iff hU h.full.valid h.inSeries hfits.height hs
    rcases h.pruned.connectBlock_cases hissued with ⟨hyes, l₁', hok₁, hc₁⟩ | ⟨hno, e₁, herr₁⟩ <;>
      rcases h.full.connectBlock_cases hissued with ⟨hyes', l₂', hok₂, hc₂⟩ | ⟨hno', e₂, herr₂⟩
    · refine Or.inl ⟨l₁', l₂', _, _, by rw [hok₁]; rfl, by rw [hok₂]; rfl, hc₁, hc₂, ?_⟩
      exact List.forall_mem_cons.mpr ⟨hs, h.inSeries⟩
    · exact absurd ⟨hyes.1, (hiff hyes.1).mp hyes.2⟩ hno'
    · exact absurd ⟨hyes'.1, (hiff hyes'.1).mpr hyes'.2⟩ hno
    · exact Or.inr ⟨e₁, e₂, by rw [herr₁]; rfl, by rw [herr₂]; rfl, rfl⟩
  | disconnectBlock id block =>
    simp only [LedgerCall.result]
    rcases h.pruned.disconnectBlock_cases hissued.1 hissued.2 with
        ⟨d, rfl, l₁', hok₁, hc₁⟩ | ⟨hno, e₁, herr₁⟩ <;>
      rcases h.full.disconnectBlock_cases hissued.1 hissued.2 with
        ⟨d', hd, l₂', hok₂, hc₂⟩ | ⟨hno', e₂, herr₂⟩
    · obtain rfl : d = d' := (List.cons.inj hd).2
      refine Or.inl ⟨l₁', l₂', d, K, by rw [hok₁]; rfl, by rw [hok₂]; rfl, hc₁, hc₂, ?_⟩
      exact fun y hy => h.inSeries y (List.mem_cons_of_mem _ hy)
    · exact absurd rfl (hno' (id, block) rfl)
    · subst hd
      exact absurd rfl (hno (id, block) rfl)
    · exact Or.inr ⟨e₁, e₂, by rw [herr₁]; rfl, by rw [herr₂]; rfl, rfl⟩
  | setBranchType id =>
    have hunknown : l₁.getBranchType id = .unknown := by
      rw [h.pruned.describes.getBranchType_eq_unknown]
      exact h.full.describes.not_mem_of_unknown hissued
    exact Or.inl ⟨_, _, c, insert id K, rfl, rfl, h.pruned.setBranchType hunknown,
      h.full.setBranchType hissued, h.inSeries⟩

theorem inSeries_genesis (hg : genesisCoinbase ∈ U) : InSeries U genesisBlock := by
  intro tx htx
  obtain rfl : tx = genesisCoinbase := List.mem_singleton.mp htx
  exact ⟨hg, show checkTransactionSeries genesisCoinbase 0 = true by decide⟩

/-- **Lockstep runs stay on one chain.** -/
theorem LockstepRun.invariant (hU : CollisionFree crypto U) (hg : genesisCoinbase ∈ U)
    (h : LockstepRun crypto U s l₁ l₂) : ∃ c K, Lockstep crypto U s l₁ l₂ c K := by
  induction h with
  | genesis now h₁ h₂ =>
    refine ⟨_, _, onChain_genesis h₁, onChain_genesis h₂, ?_⟩
    simp only [List.mem_singleton, forall_eq]
    exact inSeries_genesis hg
  | @call s l₁ l₂ call _ hissued hs ih =>
    obtain ⟨c, K, hc⟩ := ih
    rcases hc.call hU hissued hs with
      ⟨l₁', l₂', c', K', hok₁, hok₂, hc'⟩ | ⟨e₁, e₂, herr₁, herr₂, hstore⟩
    · exact ⟨c', K', by rwa [LedgerCall.ledger_of_ok hok₁, LedgerCall.ledger_of_ok hok₂]⟩
    · exact ⟨c, K, by
        rwa [LedgerCall.ledger_of_error herr₁, LedgerCall.ledger_of_error herr₂, hstore]⟩

/-! ### The difference between the ledgers -/

/-- The pruned `t` is the full one restricted to the window. -/
theorem Lockstep.txIndex (h : Lockstep crypto U s l₁ l₂ c K) (id : TransactionID) :
    l₁.txIndex[id]? = (l₂.txIndex[id]?).filter fun e : Int × Int =>
      decide (e.1 > (c.length : Int) - 1 - 2 * blocksUntilNewSeries) := by
  refine Option.ext fun e => ?_
  rw [h.pruned.describes.txIndex id e, Option.filter_eq_some_iff, h.full.describes.txIndex id e,
    decide_eq_true_eq]
  simp only [List.mem_flatMap]
  constructor
  · rintro ⟨y, hy, hmem⟩
    obtain ⟨hyc, hgt⟩ := (indexed_true_iff h.pruned.valid).mp hy
    obtain ⟨i, -, he⟩ := mem_txEntries hmem
    exact ⟨⟨y, hyc, hmem⟩, he ▸ hgt⟩
  · rintro ⟨⟨y, hy, hmem⟩, hgt⟩
    obtain ⟨i, -, he⟩ := mem_txEntries hmem
    rw [he] at hgt
    exact ⟨y, (indexed_true_iff h.pruned.valid).mpr ⟨hy, hgt⟩, hmem⟩

/-- The pruned `k` is the full one restricted to the window. -/
theorem Lockstep.pubKeyTxIndex (h : Lockstep crypto U s l₁ l₂ c K) (key : List UInt8) :
    l₁.pubKeyTxIndex.contains key = true ↔ l₂.pubKeyTxIndex.contains key = true ∧
      ∃ (pk : PublicKey) (height : Int) (i : Nat), pk.length = publicKeySize ∧
        0 ≤ height ∧ height ≤ maxNumber ∧ (i : Int) < 2 ^ 31 ∧
        key = computePubKeyTransactionIndexKey pk (some height) (some (i : Int)) ∧
        height > (c.length : Int) - 1 - 2 * blocksUntilNewSeries := by
  rw [h.pruned.describes.pubKeyTxIndex.contains_iff, h.full.describes.pubKeyTxIndex.contains_iff]
  simp only [List.mem_flatMap]
  constructor
  · rintro ⟨⟨⟩, y, hy, hmem⟩
    obtain ⟨hyc, hgt⟩ := (indexed_true_iff h.pruned.valid).mp hy
    have hwf := h.pruned.valid.mem_wellFormed hyc
    obtain ⟨pk, i, hpk, hi, hkey⟩ := mem_keyEntries hwf hmem
    exact ⟨⟨(), y, hyc, hmem⟩, pk, _, i, hpk, hwf.height_nonneg, hwf.height_le, hi, hkey, hgt⟩
  · rintro ⟨⟨⟨⟩, y, hy, hmem⟩, pk, height, i, hpk, hh₀, hh, hi, hkey, hgt⟩
    have hwf := h.pruned.valid.mem_wellFormed hy
    obtain ⟨pk', i', hpk', hi', hkey'⟩ := mem_keyEntries hwf hmem
    -- the key determines the height
    obtain ⟨-, hheight, -⟩ := computePubKeyTransactionIndexKey_inj hpk hpk' ⟨hh₀, hh⟩
      ⟨hwf.height_nonneg, hwf.height_le⟩ ⟨by omega, hi⟩ ⟨by omega, hi'⟩ (hkey.symm.trans hkey')
    exact ⟨(), y, (indexed_true_iff h.pruned.valid).mpr ⟨hy, hheight ▸ hgt⟩, hmem⟩

end Lockstep

end Cruzbit

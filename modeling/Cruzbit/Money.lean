/-
Cruzbit/Money.lean

The money supply in every reachable state.

The inspector's `verify` adds up the rewards of the mature heights, takes off
the fees that sit in immature coinbases, and compares the outcome with the
sum of all recorded balances.  `conservation_of_money` says that the two
agree on every reachable state, that no recorded balance is zero or less,
and that none of the machine arithmetic on the way has ever wrapped.

`no_fee_inflation` is the other side: the reward check of `acceptBlock` adds
up fees modulo `2 ^ 64`, before any balance is looked at.  On the main chain
the check is exact all the same, since fees that pass the balance checks are
bounded by the money there is.
-/
import Cruzbit.Ancestry

namespace Cruzbit

open Accounts Chain Word

/-! ### The inspector -/

namespace Inspector

/-- Sum all mature rewards per schedule, up to the given height. -/
def matureRewards (height : Nat) : Int :=
  (List.range (height + 1)).foldl (fun expect (i : Nat) => int64 (expect + blockCreationReward i)) 0

/-- Account for fees included in immature rewards. -/
def immatureFees (ledger : Ledger) (blockStore : BlockStorage) : List Int → Int → Res Int
  | [], fees => .ok fees
  | i :: is, fees =>
    if i < 0 then immatureFees ledger blockStore is fees
    else
      match ledger.getBlockIDForHeight i with
      | none => .error (.missingBlockAtHeight i)
      | some oldID =>
        match blockStore.getTransaction oldID 0 with
        | .error e => .error e
        | .ok (oldTx, _) =>
          immatureFees ledger blockStore is
            (int64 (fees + int64 (oldTx.amount - blockCreationReward i)))

/-- `verify` without a public key: the expected total balance, and the balance
found given the sum of all public key balances. -/
def verify (ledger : Ledger) (blockStore : BlockStorage) (height : Int) : Res (Int × Int) :=
  if height - coinbaseMaturity ≥ 0 then
    let heights := (List.range coinbaseMaturity.toNat).map fun i : Nat =>
      height - coinbaseMaturity + 1 + i
    match immatureFees ledger blockStore heights 0 with
    | .error e => .error e
    | .ok fees =>
      .ok (int64 (matureRewards (height - coinbaseMaturity).toNat - fees), ledger.balance)
  else .ok (0, ledger.balance)

end Inspector

/-! ### The expected total -/

/-- The exact sum of all recorded balances. -/
def Ledger.total (l : Ledger) : Int := (l.balances.toList.map Prod.snd).sum

/-- The coinbase amount of the main chain block at a height. -/
def coinbaseAt (s : BlockStorage) (l : Ledger) (n : Nat) : Int :=
  ((mainBlock s l n).map fun x => x.2.coinbaseAmount).getD 0

/-- The rewards of the heights `0` to `height - 100`, less what the immature
coinbases hold beyond their rewards; nothing below height 100. -/
def expectedTotal (s : BlockStorage) (l : Ledger) (height : Nat) : Int :=
  if height < 100 then 0
  else
    ((List.range (height - 100 + 1)).map fun i : Nat => blockCreationReward i).sum -
      ((List.range 100).map fun i : Nat => coinbaseAt s l (height - 99 + i) -
        blockCreationReward ((height - 99 + i : Nat) : Int)).sum

section Chain

variable {crypto : Crypto} {prune : Bool} {s : BlockStorage} {l : Ledger} {c : Chain}
  {K : Set BlockID}

/-- The immature coinbases, by height. -/
theorem OnChain.pending_eq_sum (h : OnChain crypto prune s l c K) (hlen : 100 ≤ c.length) :
    pending c = ((List.range 100).map fun i => coinbaseAt s l (c.length - 100 + i)).sum := by
  have hlist : ((c.take 100).map fun x => x.2.coinbaseAmount).reverse =
      (List.range 100).map fun i => coinbaseAt s l (c.length - 100 + i) := by
    refine List.ext_getElem? fun i => ?_
    rw [← List.map_reverse, List.reverse_take, List.getElem?_map, List.getElem?_drop,
      List.getElem?_map]
    rcases Nat.lt_or_ge i 100 with hi | hi
    · have hlt : c.length - 100 + i < c.reverse.length := by
        rw [List.length_reverse]
        omega
      simp only [List.getElem?_range hi, Option.map_some, coinbaseAt, h.mainBlock_eq, blockAt,
        List.getElem?_eq_getElem hlt, Option.getD_some]
    · have hge : c.reverse.length ≤ c.length - 100 + i := by
        rw [List.length_reverse]
        omega
      have hnone : (List.range 100)[i]? = none := by
        rw [List.getElem?_eq_none]
        simpa using hi
      rw [List.getElem?_eq_none hge, hnone]
      rfl
  rw [pending, ← List.sum_reverse, ← hlist]
  rfl

/-- The last hundred rewards, by height. -/
theorem issued_eq_add (n : Nat) :
    issued (n + 100) = issued n +
      ((List.range 100).map fun i : Nat => blockCreationReward ((n + i : Nat) : Int)).sum := by
  rw [issued, List.range_add, List.map_append, List.sum_append, List.map_map]
  rfl

/-- No coinbase is less than its reward. -/
theorem Chain.Valid.issued_le (h : Valid crypto prune c) :
    issued c.length ≤ (c.map fun x => x.2.coinbaseAmount).sum := by
  induction h with
  | nil => simp
  | @cons c x _ hx ih =>
    have hfees := fees_nonneg hx.wellFormed
    have hreward := hx.reward
    rw [List.length_cons, issued_succ, List.map_cons, List.sum_cons]
    omega

/-- **Conservation on a chain.** -/
theorem OnChain.total_eq (h : OnChain crypto prune s l c K) :
    l.total = expectedTotal s l (c.length - 1) := by
  have htotal : l.total = total (balances c) := h.describes.balances.sum_eq_total
  have hsum := h.valid.total_add_pending
  have hpos : 0 < c.length := List.length_pos_of_ne_nil (by
    obtain ⟨y, d, rfl⟩ := h.exists_head
    simp)
  unfold expectedTotal
  split_ifs with hlt
  · -- all coinbases are immature, and no coinbase is less than its reward
    have hnonneg : 0 ≤ total (balances c) := total_nonneg h.valid.balances_nonneg
    have hissued : issued c.length ≤ pending c := by
      have hall : c.take coinbaseMaturity.toNat = c :=
        List.take_of_length_le (by rw [show coinbaseMaturity.toNat = 100 from rfl]; omega)
      rw [pending, hall]
      exact h.valid.issued_le
    omega
  · have hlen : 100 ≤ c.length := by omega
    have hissued := issued_eq_add (c.length - 100)
    rw [Nat.sub_add_cancel hlen] at hissued
    have hheight : c.length - 1 - 99 = c.length - 100 := by omega
    have hmature : c.length - 1 - 100 + 1 = c.length - 100 := by omega
    have hsplit : ((List.range 100).map fun i : Nat => coinbaseAt s l (c.length - 100 + i) -
        blockCreationReward ((c.length - 100 + i : Nat) : Int)).sum +
        ((List.range 100).map fun i : Nat =>
          blockCreationReward ((c.length - 100 + i : Nat) : Int)).sum = pending c := by
      rw [← List.sum_map_add, h.pending_eq_sum hlen]
      simp only [sub_add_cancel]
    rw [hheight, hmature, ← issued]
    omega

theorem OnChain.total_bounds (h : OnChain crypto prune s l c K) :
    0 ≤ l.total ∧ l.total ≤ maxMoney := by
  have htotal : l.total = total (balances c) := h.describes.balances.sum_eq_total
  have hsum := h.valid.total_add_pending
  have hpending : 0 ≤ pending c := by
    refine List.sum_nonneg fun a ha => ?_
    obtain ⟨y, hy, rfl⟩ := List.mem_map.mp ha
    exact h.valid.coinbaseAmount_nonneg (List.mem_of_mem_take hy)
  have hissued := issued_le_maxMoney c.length
  rw [htotal]
  exact ⟨total_nonneg h.valid.balances_nonneg, by omega⟩

theorem OnChain.balance_pos (h : OnChain crypto prune s l c K) {pk : PublicKey} {balance : Int}
    (hb : l.balances[pk]? = some balance) : 0 < balance := by
  rw [h.describes.balances pk] at hb
  split_ifs at hb with h0
  obtain rfl := Option.some.inj hb
  exact lt_of_le_of_ne (h.valid.balances_nonneg pk) (Ne.symm h0)

/-- The running sum of `Balance` stays below the total. -/
theorem OnChain.partial_sum_fits (h : OnChain crypto prune s l c K) {vs : List Int}
    (hvs : vs <+: l.balances.toList.map Prod.snd) : Fits64 vs.sum := by
  obtain ⟨ws, hws⟩ := hvs
  have hpos : ∀ v ∈ vs ++ ws, 0 ≤ v := by
    intro v hv
    rw [hws] at hv
    obtain ⟨e, he, rfl⟩ := List.mem_map.mp hv
    exact (h.balance_pos ((Table.mem_toList _ _ _).mp he)).le
  have hsum : vs.sum + ws.sum = l.total := by rw [← List.sum_append, hws, Ledger.total]
  have h₁ : 0 ≤ vs.sum := List.sum_nonneg fun v hv => hpos v (List.mem_append_left _ hv)
  have h₂ : 0 ≤ ws.sum := List.sum_nonneg fun v hv => hpos v (List.mem_append_right _ hv)
  have h₃ := h.total_bounds.2
  simp only [maxMoney, cruzbitsPerCruz] at h₃
  unfold Fits64
  omega

theorem OnChain.int64_total (h : OnChain crypto prune s l c K) : int64 l.total = l.total :=
  int64_of_fits (h.partial_sum_fits (List.prefix_refl _))

theorem OnChain.balance_eq (h : OnChain crypto prune s l c K) : l.balance = l.total := by
  have hfold := foldl_int64 Prod.snd l.balances.toList 0
  rw [zero_add, ← Ledger.total, h.int64_total] at hfold
  exact hfold

/-! ### The inspector agrees -/

theorem matureRewards_eq (n : Nat) : Inspector.matureRewards n = int64 (issued (n + 1)) := by
  have hfold := foldl_int64 (fun i : Nat => blockCreationReward i) (List.range (n + 1)) 0
  rw [zero_add] at hfold
  exact hfold

theorem OnChain.immatureFees_eq (h : OnChain crypto prune s l c K) {is : List Nat}
    (his : ∀ i ∈ is, i < c.length) (a : Int) :
    Inspector.immatureFees l s (is.map Nat.cast) (int64 a) =
      .ok (int64 (a + (is.map fun i : Nat => coinbaseAt s l i - blockCreationReward i).sum)) := by
  induction is generalizing a with
  | nil => simp [Inspector.immatureFees]
  | cons i is ih =>
    obtain ⟨y, hy⟩ : ∃ y, blockAt c i = some y := by
      have hlt : i < c.reverse.length := by
        rw [List.length_reverse]
        exact his i List.mem_cons_self
      exact ⟨_, List.getElem?_eq_getElem hlt⟩
    have hmain : mainBlock s l i = some y := (h.mainBlock_eq i).trans hy
    obtain ⟨id, hid, e, he, rfl⟩ : ∃ id, l.getBlockIDForHeight i = some id ∧
        ∃ e, s[id]? = some e ∧ (id, e.block) = y := by
      simpa [mainBlock, Option.bind_eq_some_iff, Option.map_eq_some_iff] using hmain
    have hwf := h.valid.mem_wellFormed (h.valid.blockAt_iff.mp hy).1
    obtain ⟨coinbase, transfers, hshape, -, -⟩ := hwf.shape
    have hget : s.getTransaction id 0 = .ok (coinbase, e.block.header) := by
      simp only [BlockStorage.getTransaction, he]
      rw [show e.block.transactions = coinbase :: transfers from hshape]
      rfl
    have hamount : coinbase.amount = coinbaseAt s l i := by
      have : e.block.transactions = coinbase :: transfers := hshape
      simp [coinbaseAt, hmain, Block.coinbaseAmount, this]
    simp only [List.map_cons, Inspector.immatureFees, hid, hget, hamount,
      if_neg (not_lt.mpr (Int.natCast_nonneg i)), int64_add_int64]
    rw [add_comm a, int64_add_int64, add_comm _ a, ih fun j hj => his j (List.mem_cons_of_mem _ hj),
      List.sum_cons, add_assoc]

/-- **The inspector agrees** on the total balance of a chain. -/
theorem OnChain.verify_eq (h : OnChain crypto prune s l c K) :
    Inspector.verify l s ((c.length : Int) - 1) = .ok (l.total, l.total) := by
  have htotal := h.total_eq
  unfold expectedTotal at htotal
  simp only [Inspector.verify, h.balance_eq, show coinbaseMaturity = 100 from rfl]
  by_cases hlen : c.length - 1 < 100
  · rw [if_pos hlen] at htotal
    rw [if_neg (by omega), htotal]
  rw [if_neg hlen] at htotal
  have hheights : (List.range 100).map (fun i : Nat => (c.length : Int) - 1 - 100 + 1 + i) =
      ((List.range 100).map fun i => c.length - 1 - 99 + i).map Nat.cast := by
    rw [List.map_map]
    refine List.map_congr_left fun i _ => ?_
    simp only [Function.comp_apply]
    omega
  have hfees : Inspector.immatureFees l s
      (((List.range 100).map fun i => c.length - 1 - 99 + i).map Nat.cast) (int64 0) = _ :=
    h.immatureFees_eq (fun i hi => by
      obtain ⟨j, hj, rfl⟩ := List.mem_map.mp hi
      have := List.mem_range.mp hj
      omega) 0
  rw [List.map_map, zero_add] at hfees
  rw [if_pos (by omega), show Int.toNat 100 = 100 from rfl, hheights, List.map_map]
  rw [show int64 0 = 0 from rfl] at hfees
  have hmature : ((c.length : Int) - 1 - 100).toNat = c.length - 1 - 100 := by omega
  rw [hfees, hmature, matureRewards_eq]
  simp only [int64_sub_int64]
  rw [← issued] at htotal
  have hexpect := h.int64_total
  rw [htotal] at hexpect ⊢
  rw [← hexpect]
  rfl

/-! ### The chain below a block -/

/-- The main chain below a height, newest first, as the height index and block
storage give it. -/
def mainChainBelow (s : BlockStorage) (l : Ledger) (n : Nat) : Chain :=
  ((List.range n).filterMap (mainBlock s l)).reverse

theorem filterMap_range_getElem? {α : Type} (xs : List α) (n : Nat) :
    (List.range n).filterMap (fun i => xs[i]?) = xs.take n := by
  induction n with
  | zero => rfl
  | succ n ih =>
    rw [List.range_succ, List.filterMap_append, ih, List.take_add_one]
    cases h : xs[n]? <;> simp [h]

theorem OnChain.mainChainBelow_eq {d e : Chain} (h : OnChain crypto prune s l (d ++ e) K) :
    mainChainBelow s l e.length = e := by
  have hmain : mainBlock s l = blockAt (d ++ e) := funext h.mainBlock_eq
  have htake := filterMap_range_getElem? (d ++ e).reverse e.length
  rw [mainChainBelow, hmain]
  show ((List.range e.length).filterMap fun i => (d ++ e).reverse[i]?).reverse = e
  rw [htake, List.reverse_append, ← List.length_reverse, List.take_left, List.reverse_reverse]

/-- The coinbase that matures on top of the chain below a block. -/
theorem OnChain.maturedAmount_eq {d e : Chain} (h : OnChain crypto prune s l (d ++ e) K) :
    maturedAmount e = if 100 ≤ e.length then coinbaseAt s l (e.length - 100) else 0 := by
  have hhead : (e.drop (coinbaseMaturity.toNat - 1)).head? = e[99]? := List.head?_drop
  rw [maturedAmount, matured, hhead]
  split_ifs with hlen
  · have hat : blockAt (d ++ e) (e.length - 100) = e[99]? := by
      rw [blockAt_append (by omega), blockAt, List.getElem?_reverse (by omega)]
      congr 1
      omega
    rw [coinbaseAt, h.mainBlock_eq, hat]
    cases e[99]? with
    | none => rfl
    | some y => rfl
  · rw [List.getElem?_eq_none (by omega)]
    rfl

end Chain

/-! ### Reachable states -/

section Reachable

variable {crypto : Crypto} {prune : Bool} {s : Processor}

/-- **Conservation of money.** -/
theorem conservation_of_money (h : Reachable crypto prune s) :
    ∃ (tipID : BlockID) (height : Nat), s.ledger.chainTip = some (tipID, (height : Int)) ∧
      s.ledger.total = expectedTotal s.blockStore s.ledger height ∧
      Inspector.verify s.ledger s.blockStore height = .ok (s.ledger.total, s.ledger.total) ∧
      (∀ (pk : PublicKey) (balance : Int), s.ledger.balances[pk]? = some balance → 0 < balance) ∧
      s.ledger.total ≤ maxMoney ∧
      (∀ e ∈ s.events, ∀ x ∈ e.sums crypto, Fits64 x) ∧
      ∀ vs, vs <+: s.ledger.balances.toList.map Prod.snd → Fits64 vs.sum := by
  obtain ⟨c, K, hs⟩ := h.settled
  have hc := hs.onChain
  obtain ⟨y, d, rfl⟩ := hc.exists_head
  have hheight : (((y :: d).length - 1 : Nat) : Int) = ((y :: d).length : Int) - 1 := by
    simp
  refine ⟨y.1, (y :: d).length - 1, ?_, hc.total_eq, ?_, fun pk b hb => hc.balance_pos hb,
    hc.total_bounds.2, hs.exact, fun vs hvs => hc.partial_sum_fits hvs⟩
  · rw [hheight]
    exact hc.describes.chainTip
  · rw [hheight]
    exact hc.verify_eq

theorem money_after_hundred_blocks :
    ∃ (tipID : BlockID) (height : Nat),
      (Sample.state false 0 100).ledger.chainTip = some (tipID, (height : Int)) ∧
      (Sample.state false 0 100).ledger.total = expectedTotal (Sample.state false 0 100).blockStore
        (Sample.state false 0 100).ledger height := by
  have hrun : Reachable Sample.crypto false (Sample.state false 0 100) :=
    Sample.reachable false le_rfl (Or.inl rfl) (by decide)
  obtain ⟨tipID, height, htip, htotal, -⟩ := conservation_of_money hrun
  exact ⟨tipID, height, htip, htotal⟩

/-- **No inflation through fee wraparound**: the coinbase of every main chain
block above genesis is exactly the reward and the fees, and the fees do not
exceed the balances at its parent and the coinbase it matures. -/
theorem no_fee_inflation (h : Reachable crypto prune s) {id : BlockID} {e : StoredBlock} {n : Nat}
    (hmain : s.ledger.getBranchType id = .main) (he : s.blockStore[id]? = some e)
    (hn : e.block.header.height = n) (hpos : 1 ≤ n) :
    e.block.coinbaseAmount = blockCreationReward n + e.block.fees ∧
      e.block.fees ≤ total (balances (mainChainBelow s.blockStore s.ledger n)) +
        (if 100 ≤ n then coinbaseAt s.blockStore s.ledger (n - 100) else 0) ∧
      ∀ s', Reachable crypto prune s' →
        (∀ m, mainBlock s'.blockStore s'.ledger m =
          if m < n then mainBlock s.blockStore s.ledger m else none) →
        s'.ledger.total = total (balances (mainChainBelow s.blockStore s.ledger n)) := by
  obtain ⟨c, K, hs⟩ := h.settled
  have hc := hs.onChain
  obtain ⟨x, hx, rfl⟩ := List.mem_map.mp ((hc.describes.getBranchType_eq_main id).mp hmain)
  obtain ⟨storedAt, hst⟩ := hc.stored x hx
  obtain rfl : e = ⟨x.2, storedAt⟩ := Option.some.inj (he.symm.trans hst)
  obtain ⟨d, below, rfl⟩ := List.append_of_mem hx
  have hext := hc.valid.extends_of_append
  have hlen : n = below.length := by
    have := hext.height
    simp only at hn
    omega
  subst hlen
  have hchain : OnChain crypto prune s.blockStore s.ledger ((d ++ [x]) ++ below) K := by simpa using hc
  have hvalid : Valid crypto prune below := by
    have := hchain.valid.drop (d ++ [x]).length
    rwa [List.drop_left] at this
  have hfees := hvalid.fees_le hext.wellFormed hext.toConnects
  rw [hchain.maturedAmount_eq] at hfees
  rw [hchain.mainChainBelow_eq]
  refine ⟨hext.reward, hfees, fun s' h' hsame => ?_⟩
  obtain ⟨c', K', hs'⟩ := h'.settled
  -- the other state's chain is the one below the block
  have hchain' : c' = below := by
    refine List.reverse_injective (List.ext_getElem? fun m => ?_)
    have hm := (hs'.onChain.mainBlock_eq m).symm.trans (hsame m)
    rw [hchain.mainBlock_eq] at hm
    refine hm.trans ?_
    split_ifs with hlt
    · exact blockAt_append hlt
    · exact (List.getElem?_eq_none (by rw [List.length_reverse]; omega)).symm
  rw [← hchain']
  exact hs'.describes.balances.sum_eq_total

theorem fee_of_hundredth_block :
    (Sample.block 0 100).fees = minFeeCruzbits ∧
      (Sample.block 0 100).coinbaseAmount =
        blockCreationReward (100 : Nat) + (Sample.block 0 100).fees := by
  have hrun : Reachable Sample.crypto false (Sample.state false 0 100) :=
    Sample.reachable false le_rfl (Or.inl rfl) (by decide)
  obtain ⟨hmain, storedAt, hst⟩ :=
    Sample.state_block false le_rfl (Or.inl rfl) (by decide) (le_refl 100)
  exact ⟨by decide, (no_fee_inflation hrun hmain hst rfl (by decide)).1⟩

end Reachable

end Cruzbit

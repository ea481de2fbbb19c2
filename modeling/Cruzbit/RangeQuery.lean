/-
Cruzbit/RangeQuery.lean

What a range query over a public key's transactions returns.

Both directions walk the same positions: the end of a range is made inclusive
by one more height going forward and by one more index in reverse.  One more
than the largest height wraps around to a negative one, whose bytes still
come after those of every height (`unsigned_succ`).  So every query returns a
first part of the owner's history in the range, in the order it is walked
(`range_query_spec`).
-/
import Cruzbit.KeyIndex
import Cruzbit.LedgerSteps

namespace Cruzbit

open Chain Word ByteOrder

/-! ### The loop -/

/-- The first `limit` entries, or all of them if the limit is zero. -/
def page {α : Type} (limit : Int) (xs : List α) : List α :=
  if limit = 0 then xs else xs.take limit.toNat

/-- The result shows these positions: the blocks at their heights, their
indices, and the last of them. -/
structure RangeResult.Shows (l : Ledger) (r : RangeResult) (ps : List Position) : Prop where
  ids : r.ids.map some = ps.map fun p => l.getBlockIDForHeight p.height
  indices : r.indices = ps.map fun p => (p.index : Int)
  last : (r.lastHeight, r.lastIndex) =
    (ps.getLast?.map fun p => ((p.height : Int), (p.index : Int))).getD (0, 0)

theorem RangeResult.Shows.ids_eq {l : Ledger} {r : RangeResult} {ps : List Position}
    {ids : List BlockID} (h : r.Shows l ps)
    (hids : (ps.map fun p => l.getBlockIDForHeight p.height) = ids.map some) : r.ids = ids :=
  List.map_injective_iff.mpr (Option.some_injective _) (h.ids.trans hids)

section Loop

variable {l : Ledger} {pk : PublicKey} {limit : Int} {r : RangeResult} {ps qs : List Position}
  {p : Position}

theorem shows_empty (l : Ledger) : RangeResult.empty.Shows l [] := ⟨rfl, rfl, rfl⟩

theorem RangeResult.Shows.add (h : r.Shows l qs) {id : BlockID}
    (hid : l.getBlockIDForHeight p.height = some id) :
    RangeResult.Shows l ⟨r.ids ++ [id], r.indices ++ [(p.index : Int)], p.height, p.index⟩
      (qs ++ [p]) :=
  ⟨by simp [h.ids, hid], by simp [h.indices], by simp⟩

/-- Every block that was looked up is the one at its height. -/
def Consults (l : Ledger) (heightMap : Table Int BlockID) : Prop :=
  ∀ height id, heightMap[height]? = some id → l.getBlockIDForHeight height = some id

theorem Consults.lookupHeight {heightMap : Table Int BlockID} (h : Consults l heightMap)
    {height : Int} {id : BlockID} (hid : l.getBlockIDForHeight height = some id) :
    ∃ heightMap', l.lookupHeight heightMap height = .ok (id, heightMap') ∧
      Consults l heightMap' := by
  rw [Ledger.lookupHeight]
  cases hmap : heightMap[height]? with
  | some id' =>
    obtain rfl : id' = id := Option.some.inj ((h height id' hmap).symm.trans hid)
    exact ⟨heightMap, rfl, h⟩
  | none =>
    rw [hid]
    refine ⟨_, rfl, fun height' id' hget => ?_⟩
    rw [Table.get_insert] at hget
    split_ifs at hget with heq
    · rw [← heq, hid, hget]
    · exact h height' id' hget

/-- **The loop** over the keys of positions shows these positions, up to the
limit. -/
theorem rangeLoop_eq (hpk : pk.length = publicKeySize)
    (hps : ∀ p ∈ ps, p.InBounds ∧ ∃ id, l.getBlockIDForHeight p.height = some id)
    {heightMap : Table Int BlockID} (hmap : Consults l heightMap) (hr : r.Shows l qs)
    (hlimit : limit = 0 ∨ qs.length < limit) :
    ∃ r', l.rangeLoop limit (ps.map (positionKey pk)) r heightMap = .ok r' ∧
      r'.Shows l (page limit (qs ++ ps)) := by
  induction ps generalizing r qs heightMap with
  | nil =>
    refine ⟨r, rfl, ?_⟩
    have hpage : page limit (qs ++ []) = qs := by
      rw [page, List.append_nil]
      split_ifs with h₀
      · rfl
      · exact List.take_of_length_le (by omega)
    rwa [hpage]
  | cons p ps ih =>
    obtain ⟨hp, id, hid⟩ := hps p List.mem_cons_self
    obtain ⟨heightMap', hlookup, hmap'⟩ := hmap.lookupHeight hid
    have hadd := hr.add hid
    have hlen : (r.indices ++ [(p.index : Int)]).length = qs.length + 1 := by
      simp [hr.indices]
    simp only [List.map_cons, Ledger.rangeLoop, decode_positionKey hpk hp, hlookup, bind,
      Except.bind, hlen]
    split_ifs with hfull
    · -- the page is full
      refine ⟨_, rfl, ?_⟩
      have hpage : page limit (qs ++ p :: ps) = qs ++ [p] := by
        rw [page, if_neg hfull.1, show limit.toNat = (qs ++ [p]).length by simp; omega,
          List.append_cons qs p ps, List.take_left]
      rwa [hpage]
    · rw [List.append_cons qs p ps]
      refine ih (fun q hq => hps q (List.mem_cons_of_mem _ hq)) hmap' hadd ?_
      rw [List.length_append, List.length_singleton]
      push_cast
      omega

end Loop

/-! ### The range -/

section Range

variable {crypto : Crypto} {s : BlockStorage} {l : Ledger} {c : Chain} {K : Set BlockID}
  {pk : PublicKey} {p : Position} {startHeight endHeight startIndex limit : Int}

/-- Where a query starts, as its key says it. -/
def cursor (height index : Int) : Position := ⟨unsigned 8 height, unsigned 4 (int32 index)⟩

/-- What a query going forward selects. -/
def selectForward (pk : PublicKey) (c : Chain) (start : Position) (endHeight : Int) :
    List Position :=
  (history pk c).filter fun p => start ≤ p ∧ (p.height : Int) ≤ endHeight

/-- What a query in reverse selects. -/
def selectReverse (pk : PublicKey) (c : Chain) (start : Position) (endHeight : Int) :
    List Position :=
  ((history pk c).filter fun p => endHeight ≤ (p.height : Int) ∧ p < start).reverse

theorem mem_selectForward {start : Position} : p ∈ selectForward pk c start endHeight ↔
    p ∈ history pk c ∧ start ≤ p ∧ (p.height : Int) ≤ endHeight := by
  rw [selectForward, List.mem_filter, decide_eq_true_eq]

theorem mem_selectReverse {start : Position} : p ∈ selectReverse pk c start endHeight ↔
    p ∈ history pk c ∧ endHeight ≤ (p.height : Int) ∧ p < start := by
  rw [selectReverse, List.mem_reverse, List.mem_filter, decide_eq_true_eq]

theorem selectForward_sorted (pk : PublicKey) (c : Chain) (start : Position) (endHeight : Int) :
    (selectForward pk c start endHeight).Pairwise (· < ·) :=
  (history_sorted pk c).filter _

theorem selectReverse_sorted (pk : PublicKey) (c : Chain) (start : Position) (endHeight : Int) :
    (selectReverse pk c start endHeight).Pairwise (· > ·) :=
  List.pairwise_reverse.mpr ((history_sorted pk c).filter _)

/-- One more than a height, as its key says it: the wrapped one is above all
heights too. -/
theorem unsigned_succ (h : 0 ≤ endHeight ∧ endHeight < 2 ^ 63) :
    (unsigned 8 (int64 (endHeight + 1)) : Int) = endHeight + 1 := by
  have hwidth : (256 : Int) ^ 8 = ((2 ^ 64 : Nat) : Int) := by norm_num
  rw [unsigned, int64, hwidth, Int.bmod_emod, Int.emod_eq_of_lt (by omega) (by norm_num; omega)]
  omega

theorem cursor_le (hp : p.InBounds) :
    computePubKeyTransactionIndexKey pk (some startHeight) (some startIndex) ≤ positionKey pk p ↔
      cursor startHeight startIndex ≤ p := by
  rw [← List.not_lt, positionKey, key_lt_key, unsigned_height hp.height_lt,
    unsigned_index hp.index_lt, ← not_lt, Position.lt_iff]
  rfl

theorem lt_cursor (hp : p.InBounds) :
    positionKey pk p < computePubKeyTransactionIndexKey pk (some startHeight) (some startIndex) ↔
      p < cursor startHeight startIndex := by
  rw [positionKey, key_lt_key, unsigned_height hp.height_lt, unsigned_index hp.index_lt,
    Position.lt_iff]
  rfl

theorem OnChain.forward_iterator (h : OnChain crypto false s l c K)
    (hpk : pk.length = publicKeySize) (hend : 0 ≤ endHeight ∧ endHeight < 2 ^ 63)
    (startHeight startIndex : Int) :
    l.newIterator (computePubKeyTransactionIndexKey pk (some startHeight) (some startIndex))
        (computePubKeyTransactionIndexKey pk (some (int64 (endHeight + 1))) none) =
      (selectForward pk c (cursor startHeight startIndex) endHeight).map (positionKey pk) := by
  rw [computePubKeyTransactionIndexKey, computePubKeyTransactionIndexKey, h.newIterator_eq hpk,
    selectForward]
  congr 1
  refine List.filter_congr fun p hp => decide_eq_decide.mpr (and_congr ?_ ?_)
  · exact cursor_le (h.inBounds hp)
  · have hsucc := unsigned_succ hend
    have hheight := unsigned_height (h.inBounds hp).height_lt
    exact key_lt_heightKey.trans (by omega)

theorem OnChain.reverse_iterator (h : OnChain crypto false s l c K)
    (hpk : pk.length = publicKeySize) (hend : 0 ≤ endHeight ∧ endHeight < 2 ^ 63)
    (startHeight startIndex : Int) :
    (l.newIterator (computePubKeyTransactionIndexKey pk (some endHeight) none)
        (computePubKeyTransactionIndexKey pk (some startHeight) (some startIndex))).reverse =
      (selectReverse pk c (cursor startHeight startIndex) endHeight).map (positionKey pk) := by
  rw [computePubKeyTransactionIndexKey, computePubKeyTransactionIndexKey, h.newIterator_eq hpk,
    selectReverse, List.map_reverse]
  congr 2
  refine List.filter_congr fun p hp => decide_eq_decide.mpr (and_congr ?_ ?_)
  · have hheight := unsigned_height (h.inBounds hp).height_lt
    have hend' : unsigned 8 endHeight = endHeight.toNat :=
      unsigned_of_nonneg hend.1 (by norm_num; omega)
    rw [← List.not_lt]
    exact (not_congr key_lt_heightKey).trans (by omega)
  · exact lt_cursor (h.inBounds hp)

/-- The positions of a history can be looked up. -/
theorem OnChain.lookup (h : OnChain crypto false s l c K) (hp : p ∈ history pk c) :
    p.InBounds ∧ ∃ id, l.getBlockIDForHeight p.height = some id := by
  refine ⟨h.inBounds hp, ?_⟩
  obtain ⟨tx, htx, -⟩ := mem_history.mp hp
  obtain ⟨x, hx, -⟩ := Option.bind_eq_some_iff.mp htx
  exact ⟨x.1, (h.tables.heightIndex _ _).mpr ⟨p.height, rfl, by rw [hx, Option.map_some]⟩⟩

/-- **Going forward.** -/
theorem OnChain.range_forward (h : OnChain crypto false s l c K)
    (hpk : pk.length = publicKeySize) (hend : 0 ≤ endHeight ∧ endHeight < 2 ^ 63)
    (hlimit : 0 ≤ limit) (startHeight startIndex : Int) :
    ∃ r, l.getPublicKeyTransactionIndicesRangeForward pk startHeight endHeight startIndex limit =
        .ok r ∧
      r.Shows l (page limit (selectForward pk c (cursor startHeight startIndex) endHeight)) := by
  rw [Ledger.getPublicKeyTransactionIndicesRangeForward, h.forward_iterator hpk hend]
  refine rangeLoop_eq hpk (fun p hp => ?_) (fun _ _ hget => by simp at hget) (shows_empty l) ?_
  · exact h.lookup (mem_selectForward.mp hp).1
  · rw [List.length_nil]
    omega

/-- **In reverse.** -/
theorem OnChain.range_reverse (h : OnChain crypto false s l c K)
    (hpk : pk.length = publicKeySize) (hend : 0 ≤ endHeight ∧ endHeight < 2 ^ 63)
    (hlimit : 0 ≤ limit) (startHeight startIndex : Int) :
    ∃ r, l.getPublicKeyTransactionIndicesRangeReverse pk startHeight endHeight startIndex limit =
        .ok r ∧
      r.Shows l (page limit
        (selectReverse pk c (cursor startHeight (int64 (startIndex + 1))) endHeight)) := by
  rw [Ledger.getPublicKeyTransactionIndicesRangeReverse, h.reverse_iterator hpk hend]
  refine rangeLoop_eq hpk (fun p hp => ?_) (fun _ _ hget => by simp at hget) (shows_empty l) ?_
  · exact h.lookup (mem_selectReverse.mp hp).1
  · rw [List.length_nil]
    omega

/-- What a query selects. -/
def select (pk : PublicKey) (c : Chain) (endHeight startHeight startIndex : Int) : List Position :=
  if startHeight ≤ endHeight then
    selectForward pk c (cursor startHeight startIndex) endHeight
  else selectReverse pk c (cursor startHeight (int64 (startIndex + 1))) endHeight

/-- **Either way** the query shows the first positions it selects. -/
theorem OnChain.range_eq (h : OnChain crypto false s l c K) (hpk : pk.length = publicKeySize)
    (hend : 0 ≤ endHeight ∧ endHeight < 2 ^ 63) (hlimit : 0 ≤ limit)
    (startHeight startIndex : Int) :
    ∃ r, l.getPublicKeyTransactionIndicesRange pk startHeight endHeight startIndex limit = .ok r ∧
      r.Shows l (page limit (select pk c endHeight startHeight startIndex)) := by
  unfold Ledger.getPublicKeyTransactionIndicesRange select
  split_ifs
  · exact h.range_forward hpk hend hlimit startHeight startIndex
  · exact h.range_reverse hpk hend hlimit startHeight startIndex

/-- The position is in the range of a query. -/
def InRange (startHeight endHeight startIndex : Int) (p : Position) : Prop :=
  if startHeight ≤ endHeight then
    (startHeight < p.height ∨ startHeight = p.height ∧ startIndex ≤ p.index) ∧ p.height ≤ endHeight
  else
    (p.height < startHeight ∨ p.height = startHeight ∧ p.index ≤ startIndex) ∧ endHeight ≤ p.height

theorem cursor_le_iff (hstart : 0 ≤ startHeight ∧ startHeight < 2 ^ 63)
    (hindex : 0 ≤ startIndex ∧ startIndex < 2 ^ 31) :
    cursor startHeight startIndex ≤ p ↔
      startHeight < p.height ∨ startHeight = p.height ∧ startIndex ≤ p.index := by
  have hheight : unsigned 8 startHeight = startHeight.toNat :=
    unsigned_of_nonneg hstart.1 (by norm_num; omega)
  have hindex' : unsigned 4 (int32 startIndex) = startIndex.toNat := by
    rw [int32_of_fits hindex.1 hindex.2, unsigned_of_nonneg hindex.1 (by norm_num; omega)]
  rw [Position.le_iff, cursor, hheight, hindex']
  simp only
  omega

/-- The position lies ahead of a query, by what its keys say. -/
def Ahead (startHeight endHeight startIndex : Int) (p : Position) : Prop :=
  if startHeight ≤ endHeight then
    cursor startHeight startIndex ≤ p ∧ (p.height : Int) ≤ endHeight
  else endHeight ≤ (p.height : Int) ∧ p < cursor startHeight (int64 (startIndex + 1))

theorem mem_select_iff : p ∈ select pk c endHeight startHeight startIndex ↔
    Ahead startHeight endHeight startIndex p ∧ p ∈ history pk c := by
  unfold select Ahead
  split_ifs
  · rw [mem_selectForward, and_comm]
  · rw [mem_selectReverse, and_comm]

/-- For an index that fits, that is the range of the query. -/
theorem ahead_iff_inRange (hstart : 0 ≤ startHeight ∧ startHeight < 2 ^ 63)
    (hindex : 0 ≤ startIndex ∧ startIndex < 2 ^ 31 - 1) :
    Ahead startHeight endHeight startIndex p ↔ InRange startHeight endHeight startIndex p := by
  unfold Ahead InRange
  split_ifs
  · rw [cursor_le_iff hstart ⟨hindex.1, by omega⟩]
  · rw [← not_le, int64_of_fits (by unfold Fits64; omega),
      cursor_le_iff hstart ⟨by omega, by omega⟩]
    omega

theorem select_sorted (pk : PublicKey) (c : Chain) (endHeight startHeight startIndex : Int) :
    if startHeight ≤ endHeight then
      (select pk c endHeight startHeight startIndex).Pairwise (· < ·)
    else (select pk c endHeight startHeight startIndex).Pairwise (· > ·) := by
  unfold select
  split_ifs
  · exact selectForward_sorted pk c _ endHeight
  · exact selectReverse_sorted pk c _ endHeight

/-- The history in terms of the height index and block storage. -/
theorem OnChain.mem_history_iff (h : OnChain crypto false s l c K) :
    p ∈ history pk c ↔ ∃ x tx, mainBlock s l p.height = some x ∧
      x.2.transactions[p.index]? = some tx ∧ tx.Involves pk := by
  rw [mem_history]
  simp only [h.mainBlock_eq, transactionAt, Option.bind_eq_some_iff]
  constructor
  · rintro ⟨tx, ⟨x, hx, htx⟩, hinv⟩
    exact ⟨x, tx, hx, htx, hinv⟩
  · rintro ⟨x, tx, hx, htx, hinv⟩
    exact ⟨tx, ⟨x, hx, htx⟩, hinv⟩

/-- What a query selects is determined by its members and their order. -/
theorem eq_select {ps : List Position}
    (hmem : ∀ p, p ∈ ps ↔ Ahead startHeight endHeight startIndex p ∧ p ∈ history pk c)
    (hsorted : if startHeight ≤ endHeight then ps.Pairwise (· < ·) else ps.Pairwise (· > ·)) :
    ps = select pk c endHeight startHeight startIndex := by
  have hsame : ∀ p, p ∈ ps ↔ p ∈ select pk c endHeight startHeight startIndex :=
    fun p => (hmem p).trans mem_select_iff.symm
  have hselect := select_sorted pk c endHeight startHeight startIndex
  split_ifs at hsorted hselect
  · refine List.Perm.eq_of_pairwise (fun x y _ _ hxy hyx => absurd hxy (lt_asymm hyx)) hsorted
      hselect ?_
    exact (List.perm_ext_iff_of_nodup (hsorted.imp ne_of_lt) (hselect.imp ne_of_lt)).mpr hsame
  · refine List.Perm.eq_of_pairwise (fun x y _ _ hxy hyx => absurd hxy (lt_asymm hyx)) hsorted
      hselect ?_
    exact (List.perm_ext_iff_of_nodup (hsorted.imp ne_of_gt) (hselect.imp ne_of_gt)).mpr hsame

theorem OnChain.eq_select (h : OnChain crypto false s l c K)
    (hstart : 0 ≤ startHeight ∧ startHeight < 2 ^ 63)
    (hindex : 0 ≤ startIndex ∧ startIndex < 2 ^ 31 - 1) {ps : List Position}
    (hmem : ∀ p, p ∈ ps ↔ InRange startHeight endHeight startIndex p ∧
      ∃ x tx, mainBlock s l p.height = some x ∧ x.2.transactions[p.index]? = some tx ∧
        tx.Involves pk)
    (hsorted : if startHeight ≤ endHeight then ps.Pairwise (· < ·) else ps.Pairwise (· > ·)) :
    ps = select pk c endHeight startHeight startIndex := by
  refine Cruzbit.eq_select (fun p => ?_) hsorted
  rw [hmem, ahead_iff_inRange hstart hindex, h.mem_history_iff]

end Range

/-! ### A key of the sample chain -/

namespace Sample

/-- Every block of the sample chain pays the recipient of the genesis coinbase. -/
theorem history_succ {n : Nat} (hn : n + 1 < 100) :
    history genesisCoinbase.recipient (chain 0 (n + 1)) =
      history genesisCoinbase.recipient (chain 0 n) ++ [⟨n + 1, 0⟩] := by
  have htransactions : (entry 0 (n + 1)).2.transactions = [coinbase 0 (n + 1)] := by
    show coinbase 0 (n + 1) :: transfers 0 (n + 1) = _
    rw [transfers, if_neg (by omega)]
  have hpaid : (coinbase 0 (n + 1)).Involves genesisCoinbase.recipient :=
    Or.inl (coinbase_recipient 0 (n + 1)).symm
  rw [chain, history, blockHistory, chain_length, htransactions]
  simp [hpaid]

/-- Block 100 pays them, and they send the transfer in it. -/
theorem history_recipient : history genesisCoinbase.recipient (chain 0 100) =
    history genesisCoinbase.recipient (chain 0 97) ++ [⟨98, 0⟩, ⟨99, 0⟩, ⟨100, 0⟩, ⟨100, 1⟩] := by
  have htransactions : (entry 0 100).2.transactions = [coinbase 0 100, transfer 0] := rfl
  have hpaid : (coinbase 0 100).Involves genesisCoinbase.recipient :=
    Or.inl (coinbase_recipient 0 100).symm
  have hspent : (transfer 0).Involves genesisCoinbase.recipient := by decide
  rw [chain, history, history_succ (by decide), history_succ (by decide), blockHistory, chain_length,
    htransactions]
  simp [hpaid, hspent]

theorem height_of_history {p : Position} (h : p ∈ history genesisCoinbase.recipient (chain 0 97)) :
    p.height < 98 := by
  obtain ⟨tx, htx, -⟩ := mem_history.mp h
  obtain ⟨x, hx, -⟩ := Option.bind_eq_some_iff.mp htx
  have hlt := (List.getElem?_eq_some_iff.mp hx).1
  rwa [List.length_reverse, chain_length] at hlt

/-- Forward from block 99. -/
theorem select_forward : select genesisCoinbase.recipient (chain 0 100) (2 ^ 63 - 1) 99 0 =
    [⟨99, 0⟩, ⟨100, 0⟩, ⟨100, 1⟩] := by
  rw [select, if_pos (by decide), selectForward, history_recipient, List.filter_append,
    List.filter_eq_nil_iff.mpr]
  · decide
  · intro p hp
    have hlt := height_of_history hp
    rw [decide_eq_true_eq, cursor_le_iff (by decide) (by decide)]
    omega

/-- In reverse from the transfer, down to block 98. -/
theorem select_reverse : select genesisCoinbase.recipient (chain 0 100) 98 100 1 =
    [⟨100, 1⟩, ⟨100, 0⟩, ⟨99, 0⟩, ⟨98, 0⟩] := by
  rw [select, if_neg (by decide), selectReverse, history_recipient, List.filter_append,
    List.filter_eq_nil_iff.mpr]
  · decide
  · intro p hp
    have hlt := height_of_history hp
    rw [decide_eq_true_eq]
    omega

end Sample

section Spec

variable {crypto : Crypto} {s : BlockStorage} {l : Ledger} {pk : PublicKey}
  {startHeight endHeight startIndex limit : Int}

/-- **What a range query returns.**  `ps` are the positions of the transactions
on the main chain that involve the key, in the range, ascending or in
reverse.  The query shows the first of them, up to the limit. -/
theorem range_query_spec (h : LedgerRun crypto false s l) (hpk : pk.length = publicKeySize)
    (hstart : 0 ≤ startHeight ∧ startHeight < 2 ^ 63) (hend : 0 ≤ endHeight ∧ endHeight < 2 ^ 63)
    (hindex : 0 ≤ startIndex ∧ startIndex < 2 ^ 31 - 1) (hlimit : 0 ≤ limit) :
    ∃ ps : List Position,
      (∀ p, p ∈ ps ↔ InRange startHeight endHeight startIndex p ∧
        ∃ x tx, mainBlock s l p.height = some x ∧ x.2.transactions[p.index]? = some tx ∧
          tx.Involves pk) ∧
      (if startHeight ≤ endHeight then ps.Pairwise (· < ·) else ps.Pairwise (· > ·)) ∧
      ∃ r, l.getPublicKeyTransactionIndicesRange pk startHeight endHeight startIndex limit = .ok r ∧
        r.Shows l (page limit ps) := by
  obtain ⟨c, K, hc⟩ := h.invariant
  refine ⟨select pk c endHeight startHeight startIndex, fun p => ?_, select_sorted _ _ _ _ _,
    hc.range_eq hpk hend hlimit startHeight startIndex⟩
  rw [mem_select_iff, ahead_iff_inRange hstart hindex, hc.mem_history_iff]

end Spec

/-- The key of the sample chain, in reverse from the transfer with three
transactions a page, and forward without a limit. -/
theorem range_query_of_sample :
    ∃ s l, LedgerRun Sample.crypto false s l ∧
      (∃ r, l.getPublicKeyTransactionIndicesRange genesisCoinbase.recipient 100 98 1 3 = .ok r ∧
        r.ids = [(Sample.entry 0 100).1, (Sample.entry 0 100).1, (Sample.entry 0 99).1] ∧
        r.indices = [1, 0, 0] ∧ (r.lastHeight, r.lastIndex) = (99, 0)) ∧
      ∃ r, l.getPublicKeyTransactionIndicesRange genesisCoinbase.recipient 99 (2 ^ 63 - 1) 0 0 =
          .ok r ∧
        r.ids = [(Sample.entry 0 99).1, (Sample.entry 0 100).1, (Sample.entry 0 100).1] ∧
        r.indices = [0, 0, 1] ∧ (r.lastHeight, r.lastIndex) = (100, 1) := by
  obtain ⟨l₀, s, l, hrun₀, -, hsteps, hc⟩ := Sample.exists_run 100 (by decide)
  have hrun := hsteps.run hrun₀
  have hpk : genesisCoinbase.recipient.length = publicKeySize := by decide
  have hid (n : Nat) (hn : n ≤ 100) : l.getBlockIDForHeight n = some (Sample.entry 0 n).1 :=
    (hc.tables.heightIndex _ _).mpr ⟨n, rfl, by rw [Sample.blockAt_chain hn]; rfl⟩
  have hlast : l.getBlockIDForHeight 100 = some (Sample.entry 0 100).1 := hid 100 le_rfl
  have hprevious : l.getBlockIDForHeight 99 = some (Sample.entry 0 99).1 := hid 99 (by decide)
  refine ⟨s, l, hrun, ?_, ?_⟩
  · obtain ⟨ps, hps, hsorted, r, hr, hshows⟩ := range_query_spec hrun hpk
      (show (0 : Int) ≤ 100 ∧ (100 : Int) < 2 ^ 63 by decide)
      (show (0 : Int) ≤ 98 ∧ (98 : Int) < 2 ^ 63 by decide)
      (show (0 : Int) ≤ 1 ∧ (1 : Int) < 2 ^ 31 - 1 by decide) (show (0 : Int) ≤ 3 by decide)
    obtain rfl := (hc.eq_select (by decide) (by decide) hps hsorted).trans Sample.select_reverse
    exact ⟨r, hr, hshows.ids_eq (by simp [page, hlast, hprevious]), hshows.indices, hshows.last⟩
  · obtain ⟨ps, hps, hsorted, r, hr, hshows⟩ := range_query_spec hrun hpk
      (show (0 : Int) ≤ 99 ∧ (99 : Int) < 2 ^ 63 by decide)
      (show (0 : Int) ≤ 2 ^ 63 - 1 ∧ (2 ^ 63 - 1 : Int) < 2 ^ 63 by decide)
      (show (0 : Int) ≤ 0 ∧ (0 : Int) < 2 ^ 31 - 1 by decide) (le_refl 0)
    obtain rfl := (hc.eq_select (by decide) (by decide) hps hsorted).trans Sample.select_forward
    exact ⟨r, hr, hshows.ids_eq (by simp [page, hlast, hprevious]), hshows.indices, hshows.last⟩

end Cruzbit

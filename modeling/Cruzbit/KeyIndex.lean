/-
Cruzbit/KeyIndex.lean

The index of transactions by public key, read in key order: the range
queries of `ledger_disk.go`.

All tables of the ledger share one database, whose iterators list the keys of
a range in bytewise order (`newIterator`).  A key of the index is
`k{pk}{height}{index}`, so between two keys of one owner there are only keys
of that owner, in the order of their positions on the main chain
(`OnChain.newIterator_eq`).
-/
import Cruzbit.ByteOrder
import Cruzbit.History

namespace Cruzbit

open Chain Word ByteOrder

/-! ### The database -/

def computeChainTipKey : List UInt8 := [84]

def computeBranchTypeKey (id : BlockID) : List UInt8 := 66 :: idBytes id

def computeBlockHeightIndexKey (height : Int) : List UInt8 := 104 :: bigEndian 8 (unsigned 8 height)

def computeTransactionIndexKey (id : TransactionID) : List UInt8 := 116 :: idBytes id

def computePubKeyBalanceKey (pk : PublicKey) : List UInt8 := 98 :: pk

/-- `decodePubKeyTransactionIndexKey`: skip the first byte and read the fields. -/
def decodePubKeyTransactionIndexKey (key : List UInt8) : Res (PublicKey × Int × Int) :=
  if key.length < 1 + publicKeySize + 8 + 4 then .error .unexpectedEOF
  else
    let fields := key.drop 1
    .ok (fields.take publicKeySize, int64 (ofBigEndian ((fields.drop publicKeySize).take 8)),
      int32 (ofBigEndian ((fields.drop (publicKeySize + 8)).take 4)))

namespace Ledger

/-- The keys of all tables. -/
def keys (l : Ledger) : List (List UInt8) :=
  (l.chainTip.toList.map fun _ => computeChainTipKey) ++
    l.branchTypes.keys.map computeBranchTypeKey ++
    l.heightIndex.keys.map computeBlockHeightIndexKey ++
    l.txIndex.keys.map computeTransactionIndexKey ++
    l.pubKeyTxIndex.keys ++
    l.balances.keys.map computePubKeyBalanceKey

/-- An iterator over the keys from `start` up to but not including `limit`, where `start` does not
come after `limit`. -/
def newIterator (l : Ledger) (start limit : List UInt8) : List (List UInt8) :=
  (l.keys.filter fun key => start ≤ key ∧ key < limit).insertionSort (· ≤ ·)

end Ledger

/-! ### Range queries -/

/-- What a range query returns. -/
structure RangeResult where
  ids : List BlockID
  indices : List Int
  lastHeight : Int
  lastIndex : Int
  deriving DecidableEq, Repr

/-- Nothing found yet. -/
def RangeResult.empty : RangeResult := ⟨[], [], 0, 0⟩

namespace Ledger

/-- The ID of the block at the height, looked up once for each height. -/
def lookupHeight (l : Ledger) (heightMap : Table Int BlockID) (height : Int) :
    Res (BlockID × Table Int BlockID) :=
  match heightMap[height]? with
  | some id => .ok (id, heightMap)
  | none =>
    match l.getBlockIDForHeight height with
    | none => .error (.noBlockFound height)
    | some id => .ok (id, heightMap.insert height id)

/-- The loop over the iterator, in either direction. -/
def rangeLoop (l : Ledger) (limit : Int) :
    List (List UInt8) → RangeResult → Table Int BlockID → Res RangeResult
  | [], r, _ => .ok r
  | key :: keys, r, heightMap => do
    let (_, lastHeight, lastIndex) ← decodePubKeyTransactionIndexKey key
    let (id, heightMap) ← l.lookupHeight heightMap lastHeight
    let r : RangeResult := ⟨r.ids ++ [id], r.indices ++ [lastIndex], lastHeight, lastIndex⟩
    if limit ≠ 0 ∧ r.indices.length = limit then .ok r
    else rangeLoop l limit keys r heightMap

/-- Iterate through transaction history going forward. -/
def getPublicKeyTransactionIndicesRangeForward (l : Ledger) (pk : PublicKey)
    (startHeight endHeight startIndex limit : Int) : Res RangeResult :=
  let startKey := computePubKeyTransactionIndexKey pk (some startHeight) (some startIndex)
  -- make it inclusive
  let endKey := computePubKeyTransactionIndexKey pk (some (int64 (endHeight + 1))) none
  l.rangeLoop limit (l.newIterator startKey endKey) .empty ∅

/-- Iterate through transaction history in reverse. -/
def getPublicKeyTransactionIndicesRangeReverse (l : Ledger) (pk : PublicKey)
    (startHeight endHeight startIndex limit : Int) : Res RangeResult :=
  let endKey := computePubKeyTransactionIndexKey pk (some endHeight) none
  -- make it inclusive
  let startKey := computePubKeyTransactionIndexKey pk (some startHeight)
    (some (int64 (startIndex + 1)))
  l.rangeLoop limit (l.newIterator endKey startKey).reverse .empty ∅

/-- GetPublicKeyTransactionIndicesRange returns transaction indices involving a
given public key over a range of heights.  If startHeight > endHeight this
iterates in reverse. -/
def getPublicKeyTransactionIndicesRange (l : Ledger) (pk : PublicKey)
    (startHeight endHeight startIndex limit : Int) : Res RangeResult :=
  if endHeight ≥ startHeight then
    l.getPublicKeyTransactionIndicesRangeForward pk startHeight endHeight startIndex limit
  else l.getPublicKeyTransactionIndicesRangeReverse pk startHeight endHeight startIndex limit

end Ledger

/-! ### Positions on the main chain -/

/-- The place of a transaction on the main chain. -/
@[ext]
structure Position where
  height : Nat
  index : Nat
  deriving DecidableEq, Repr

/-- Positions are ordered by height, then by index. -/
instance : LinearOrder Position :=
  LinearOrder.lift' (fun p => toLex (p.height, p.index)) fun p q h => by
    obtain ⟨hh, hi⟩ := Prod.mk.inj (toLex_inj.mp h)
    exact Position.ext hh hi

theorem Position.lt_iff {p q : Position} :
    p < q ↔ p.height < q.height ∨ p.height = q.height ∧ p.index < q.index :=
  Prod.Lex.toLex_lt_toLex

theorem Position.le_iff {p q : Position} :
    p ≤ q ↔ p.height < q.height ∨ p.height = q.height ∧ p.index ≤ q.index :=
  Prod.Lex.toLex_le_toLex

instance (pk : PublicKey) (tx : Transaction) : Decidable (tx.Involves pk) := by
  unfold Transaction.Involves
  infer_instance

namespace Chain

/-- The transactions of a block that involve the key. -/
def blockHistory (pk : PublicKey) (n : Nat) (b : Block) : List Position :=
  (b.transactions.zipIdx.filter fun e => e.1.Involves pk).map fun e => ⟨n, e.2⟩

/-- The transactions of the chain that involve the key, in order. -/
def history (pk : PublicKey) : Chain → List Position
  | [] => []
  | x :: c => history pk c ++ blockHistory pk c.length x.2

section History

variable {pk : PublicKey} {c : Chain} {p : Position}

theorem mem_blockHistory {n : Nat} {b : Block} :
    p ∈ blockHistory pk n b ↔
      p.height = n ∧ ∃ tx, b.transactions[p.index]? = some tx ∧ tx.Involves pk := by
  simp only [blockHistory, List.mem_map, List.mem_filter, decide_eq_true_eq]
  constructor
  · rintro ⟨e, ⟨he, hpk⟩, rfl⟩
    exact ⟨rfl, e.1, List.mem_zipIdx_iff_getElem?.mp he, hpk⟩
  · rintro ⟨rfl, tx, hget, hpk⟩
    exact ⟨(tx, p.index), ⟨List.mem_zipIdx_iff_getElem?.mpr hget, hpk⟩, rfl⟩

theorem transactionAt_cons (x : BlockID × Block) (c : Chain) (n i : Nat) :
    transactionAt (x :: c) n i =
      if n = c.length then x.2.transactions[i]? else transactionAt c n i := by
  rw [transactionAt, blockAt_cons]
  split_ifs <;> rfl

/-- The history lists exactly the transactions of the chain that involve the key. -/
theorem mem_history : p ∈ history pk c ↔
    ∃ tx, transactionAt c p.height p.index = some tx ∧ tx.Involves pk := by
  induction c with
  | nil => simp [history, transactionAt, blockAt]
  | cons x c ih =>
    rw [history, List.mem_append, ih, mem_blockHistory]
    simp only [transactionAt_cons]
    by_cases hn : p.height = c.length
    · have hnone : blockAt c p.height = none := by
        rw [blockAt, List.getElem?_eq_none (by rw [List.length_reverse, hn])]
      simp [hn, transactionAt, hn ▸ hnone]
    · simp [hn]

theorem history_height_lt (hp : p ∈ history pk c) : p.height < c.length := by
  obtain ⟨tx, htx, -⟩ := mem_history.mp hp
  obtain ⟨x, hx, -⟩ := Option.bind_eq_some_iff.mp htx
  have := (List.getElem?_eq_some_iff.mp hx).1
  rwa [List.length_reverse] at this

/-- The history is in order. -/
theorem history_sorted (pk : PublicKey) (c : Chain) : (history pk c).Pairwise (· < ·) := by
  induction c with
  | nil => exact List.Pairwise.nil
  | cons x c ih =>
    refine List.pairwise_append.mpr ⟨ih, ?_, fun p hp q hq => ?_⟩
    · have hindices : x.2.transactions.zipIdx.Pairwise fun a b => a.2 < b.2 := by
        rw [← List.pairwise_map (f := Prod.snd) (R := (· < ·)), List.zipIdx_map_snd]
        exact List.pairwise_lt_range'
      rw [blockHistory, List.pairwise_map]
      refine (hindices.imp fun hlt => ?_).filter _
      exact Position.lt_iff.mpr (Or.inr ⟨rfl, hlt⟩)
    · have := history_height_lt hp
      exact Position.lt_iff.mpr (Or.inl (by rw [(mem_blockHistory.mp hq).1]; exact this))

end History

end Chain

/-! ### Keys in order -/

/-- The key of the transaction at a position. -/
def positionKey (pk : PublicKey) (p : Position) : List UInt8 :=
  computePubKeyTransactionIndexKey pk (some (p.height : Int)) (some (p.index : Int))

section Keys

variable {pk : PublicKey} {h h' i i' : Int} {p q : Position}

/-- Keys of one owner compare by height, then by index. -/
theorem key_lt_key : computePubKeyTransactionIndexKey pk (some h) (some i) <
      computePubKeyTransactionIndexKey pk (some h') (some i') ↔
    unsigned 8 h < unsigned 8 h' ∨
      unsigned 8 h = unsigned 8 h' ∧ unsigned 4 (int32 i) < unsigned 4 (int32 i') := by
  rw [computePubKeyTransactionIndexKey, computePubKeyTransactionIndexKey, append_lt_append_left,
    append_lt_append (by simp), bigEndian_lt_bigEndian (unsigned_lt 8 h) (unsigned_lt 8 h'),
    bigEndian_injOn (unsigned_lt 8 h) (unsigned_lt 8 h'),
    bigEndian_lt_bigEndian (unsigned_lt 4 _) (unsigned_lt 4 _)]

theorem key_lt_heightKey : computePubKeyTransactionIndexKey pk (some h) (some i) <
    computePubKeyTransactionIndexKey pk (some h') none ↔ unsigned 8 h < unsigned 8 h' := by
  rw [computePubKeyTransactionIndexKey, computePubKeyTransactionIndexKey, append_lt_append_left,
    append_lt_append (by simp), bigEndian_lt_bigEndian (unsigned_lt 8 h) (unsigned_lt 8 h')]
  simp

/-- The position can be written into a key. -/
structure Position.InBounds (p : Position) : Prop where
  height_lt : p.height < 2 ^ 63
  index_lt : p.index < 2 ^ 31

theorem unsigned_height {n : Nat} (hn : n < 2 ^ 63) : unsigned 8 (n : Int) = n := by
  rw [unsigned_of_nonneg (by omega) (by norm_num; omega), Int.toNat_natCast]

theorem unsigned_index {n : Nat} (hn : n < 2 ^ 31) : unsigned 4 (int32 (n : Int)) = n := by
  rw [int32_of_fits (by omega) (by omega), unsigned_of_nonneg (by omega) (by norm_num; omega),
    Int.toNat_natCast]

theorem positionKey_lt (hp : p.InBounds) (hq : q.InBounds) :
    positionKey pk p < positionKey pk q ↔ p < q := by
  rw [positionKey, positionKey, key_lt_key, unsigned_height hp.height_lt,
    unsigned_height hq.height_lt, unsigned_index hp.index_lt, unsigned_index hq.index_lt, Position.lt_iff]

/-- Decoding undoes encoding. -/
theorem decode_positionKey (hpk : pk.length = publicKeySize) (hp : p.InBounds) :
    decodePubKeyTransactionIndexKey (positionKey pk p) =
      .ok (pk, (p.height : Int), (p.index : Int)) := by
  have hlength : (positionKey pk p).length = 1 + publicKeySize + 8 + 4 := by
    simp only [positionKey, computePubKeyTransactionIndexKey, List.length_append, List.length_cons,
      bigEndian_length, hpk]
    omega
  have hfields : (positionKey pk p).drop 1 = pk ++ (bigEndian 8 (unsigned 8 (p.height : Int)) ++
      bigEndian 4 (unsigned 4 (int32 (p.index : Int)))) := rfl
  have hheight := hp.height_lt
  have hindex := hp.index_lt
  rw [decodePubKeyTransactionIndexKey, if_neg (by omega), hfields]
  simp only [← hpk, List.take_left, List.drop_left, ← List.drop_drop,
    List.take_left' (bigEndian_length _ _), List.drop_left' (bigEndian_length _ _)]
  rw [List.take_of_length_le (by simp), ofBigEndian_bigEndian, ofBigEndian_bigEndian,
    unsigned_height hheight, unsigned_index hindex, Nat.mod_eq_of_lt (by omega),
    Nat.mod_eq_of_lt (by omega), int64_of_fits (by unfold Fits64; omega),
    int32_of_fits (by omega) (by omega)]

end Keys

/-! ### The iterator -/

section Iterator

variable {crypto : Crypto} {s : BlockStorage} {l : Ledger} {c : Chain} {K : Set BlockID}
  {pk : PublicKey} {p : Position} {a b : List UInt8}

theorem OnChain.inBounds (h : OnChain crypto false s l c K) (hp : p ∈ history pk c) :
    p.InBounds := by
  obtain ⟨tx, htx, hpk⟩ := mem_history.mp hp
  obtain ⟨-, hheight, hindex⟩ := h.valid.involves_length htx hpk
  simp only [maxNumber] at hheight
  exact ⟨by omega, by omega⟩

/-- Between two keys of an owner there are keys of the index only. -/
theorem filter_keys (l : Ledger) (pk : PublicKey) (a b : List UInt8) :
    (l.keys.filter fun key => (107 :: pk) ++ a ≤ key ∧ key < (107 :: pk) ++ b) =
      l.pubKeyTxIndex.keys.filter fun key => (107 :: pk) ++ a ≤ key ∧ key < (107 :: pk) ++ b := by
  have hother {α : Type} (f : α → List UInt8) (xs : List α) {x : UInt8} (hx : x ≠ 107)
      (hf : ∀ k, ∃ w, f k = x :: w) :
      ((xs.map f).filter fun key => (107 :: pk) ++ a ≤ key ∧ key < (107 :: pk) ++ b) = [] := by
    rw [List.filter_eq_nil_iff]
    intro key hkey hbetween
    obtain ⟨k, -, rfl⟩ := List.mem_map.mp hkey
    obtain ⟨w, hw⟩ := hf k
    obtain ⟨hlo, hhi⟩ := of_decide_eq_true hbetween
    obtain ⟨w', hw'⟩ := exists_append_of_between (u := [107]) (by simp [hw]) hlo hhi
    exact hx (List.cons.inj (hw.symm.trans hw')).1
  simp only [Ledger.keys, List.filter_append]
  rw [hother (fun _ => computeChainTipKey) _ (by decide : (84 : UInt8) ≠ 107) fun _ => ⟨_, rfl⟩,
    hother computeBranchTypeKey _ (by decide : (66 : UInt8) ≠ 107) fun _ => ⟨_, rfl⟩,
    hother computeBlockHeightIndexKey _ (by decide : (104 : UInt8) ≠ 107) fun _ => ⟨_, rfl⟩,
    hother computeTransactionIndexKey _ (by decide : (116 : UInt8) ≠ 107) fun _ => ⟨_, rfl⟩,
    hother computePubKeyBalanceKey _ (by decide : (98 : UInt8) ≠ 107) fun _ => ⟨_, rfl⟩]
  simp only [List.nil_append, List.append_nil]

/-- A key of the index between two keys of an owner is that of a transaction
that involves them. -/
theorem OnChain.mem_pubKeyTxIndex (h : OnChain crypto false s l c K)
    (hpk : pk.length = publicKeySize) {key : List UInt8}
    (hlo : (107 :: pk) ++ a ≤ key) (hhi : key < (107 :: pk) ++ b) :
    key ∈ l.pubKeyTxIndex ↔ ∃ p ∈ history pk c, key = positionKey pk p := by
  rw [← Std.ExtTreeMap.contains_iff_mem, h.tables.pubKeyTxIndex key]
  constructor
  · rintro ⟨pk', tx, n, i, htx, hinv, rfl⟩
    have hpk' := (h.valid.involves_length htx hinv).1
    obtain ⟨w, hw⟩ := exists_append_of_between (by
      simp [computePubKeyTransactionIndexKey, hpk, hpk']) hlo hhi
    obtain rfl : pk' = pk := by
      rw [computePubKeyTransactionIndexKey] at hw
      exact (List.cons.inj (List.append_inj hw (by simp [hpk, hpk'])).1).2
    exact ⟨⟨n, i⟩, mem_history.mpr ⟨tx, htx, hinv⟩, rfl⟩
  · rintro ⟨p, hp, rfl⟩
    obtain ⟨tx, htx, hinv⟩ := mem_history.mp hp
    exact ⟨pk, tx, p.height, p.index, htx, hinv, rfl⟩

/-- **The iterator** over a range of an owner's keys lists the positions of
their transactions in order. -/
theorem OnChain.newIterator_eq (h : OnChain crypto false s l c K)
    (hpk : pk.length = publicKeySize) (a b : List UInt8) :
    l.newIterator ((107 :: pk) ++ a) ((107 :: pk) ++ b) =
      ((history pk c).filter fun p => (107 :: pk) ++ a ≤ positionKey pk p ∧
        positionKey pk p < (107 :: pk) ++ b).map (positionKey pk) := by
  rw [Ledger.newIterator, filter_keys]
  refine List.Pairwise.eq_of_mem_iff (r := (· < ·)) ?_ ?_ fun key => ?_
  · have hnodup : l.pubKeyTxIndex.keys.Nodup := Std.ExtTreeMap.nodup_keys
    have hsorted := List.pairwise_insertionSort (· ≤ ·) (l.pubKeyTxIndex.keys.filter fun key =>
      (107 :: pk) ++ a ≤ key ∧ key < (107 :: pk) ++ b)
    have hne := ((List.perm_insertionSort (· ≤ ·) _).nodup_iff.mpr
      (hnodup.filter fun key => (107 :: pk) ++ a ≤ key ∧ key < (107 :: pk) ++ b))
    exact (hsorted.and hne).imp fun h => Std.lt_of_le_of_ne h.1 h.2
  · refine List.pairwise_map.mpr (List.Pairwise.filter _ ?_)
    refine (history_sorted pk c).imp_of_mem fun hp hq hlt => ?_
    exact (positionKey_lt (h.inBounds hp) (h.inBounds hq)).mpr hlt
  · rw [List.mem_insertionSort, List.mem_filter, Std.ExtTreeMap.mem_keys, List.mem_map]
    simp only [List.mem_filter, decide_eq_true_eq]
    constructor
    · rintro ⟨hkey, hlo, hhi⟩
      obtain ⟨p, hp, rfl⟩ := (h.mem_pubKeyTxIndex hpk hlo hhi).mp hkey
      exact ⟨p, ⟨hp, hlo, hhi⟩, rfl⟩
    · rintro ⟨p, ⟨hp, hlo, hhi⟩, rfl⟩
      exact ⟨(h.mem_pubKeyTxIndex hpk hlo hhi).mpr ⟨p, hp, rfl⟩, hlo, hhi⟩

end Iterator

end Cruzbit

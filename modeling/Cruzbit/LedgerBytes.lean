/-
Cruzbit/LedgerBytes.lean

How the tables of the ledger lie in its database.

Each table has a layout (`branchTypeLayout` and so on), and `Represents` says that
the database holds the tables of a ledger.  Heights, indices and balances are
written in a fixed width, so what is written has to fit (`Write.Sized`).  One
operation of a batch is one write to a table (`Represents.write1`), and what
is read is what the ledger has (`Represents.getChainTip` and so on).  The
iterators go over the keys of all tables, and find those of one because its
first byte is its own (`Represents.newIterator`).
-/
import Cruzbit.Commitment
import Cruzbit.LedgerDisk
import Cruzbit.RangeQuery

namespace Cruzbit

open KeyValue Word

/-! ### Values and their bytes -/

section Codec

variable {x : Int}

theorem fits_int64 (x : Int) : Fits64 (int64 x) := by
  have hlo := Int.le_bmod (x := x) (m := 2 ^ 64) (by norm_num)
  have hhi := Int.bmod_lt (x := x) (m := 2 ^ 64) (by norm_num)
  unfold Fits64 int64
  norm_num at hlo hhi ⊢
  omega

theorem int64_unsigned (h : Fits64 x) : int64 (unsigned 8 x : Int) = x := by
  have hnonneg : 0 ≤ x % (256 ^ 8 : Int) := Int.emod_nonneg x (by norm_num)
  have hwidth : (256 : Int) ^ 8 = ((2 ^ 64 : Nat) : Int) := by norm_num
  rw [unsigned, Int.toNat_of_nonneg hnonneg, int64, hwidth, Int.emod_bmod]
  exact int64_of_fits h

theorem int32_unsigned (x : Int) : int32 (unsigned 4 (int32 x) : Int) = int32 x := by
  have hnonneg : 0 ≤ int32 x % (256 ^ 4 : Int) := Int.emod_nonneg _ (by norm_num)
  have hwidth : (256 : Int) ^ 4 = ((2 ^ 32 : Nat) : Int) := by norm_num
  rw [unsigned, Int.toNat_of_nonneg hnonneg, int32, hwidth, Int.emod_bmod, int32, Int.bmod_bmod]

theorem ofBigEndian_unsigned (n : Nat) (x : Int) :
    ofBigEndian (bigEndian n (unsigned n x)) = unsigned n x := by
  rw [ofBigEndian_bigEndian, Nat.mod_eq_of_lt (unsigned_lt n x)]

theorem ofBigEndian_idBytes (id : BlockID) : BitVec.ofNat 256 (ofBigEndian (idBytes id)) = id := by
  have hlt : id.toNat < 256 ^ 32 := id.isLt
  rw [idBytes, ofBigEndian_bigEndian, Nat.mod_eq_of_lt hlt, BitVec.ofNat_toNat, BitVec.setWidth_eq]

theorem copyID_idBytes (id : BlockID) : copyID (idBytes id) = id := by
  rw [copyID, idBytes_length, List.take_of_length_le (idBytes_length id).le, Nat.sub_self,
    List.replicate_zero, List.append_nil, ofBigEndian_idBytes]

theorem decodeChainTip_encode (id : BlockID) (h : Fits64 x) :
    decodeChainTip (encodeChainTip id x) = .ok (id, x) := by
  have hlen : (encodeChainTip id x).length = 32 + 8 := by
    rw [encodeChainTip, List.length_append, idBytes_length, bigEndian_length]
  rw [decodeChainTip, if_neg (by omega), encodeChainTip, List.take_left' (idBytes_length id),
    List.drop_left' (idBytes_length id), List.take_of_length_le (by simp), ofBigEndian_idBytes,
    ofBigEndian_unsigned, int64_unsigned h]

theorem readBalance_encodeNumber (h : Fits64 x) : readBalance (encodeNumber x) = x := by
  rw [readBalance, encodeNumber, bigEndian_length, if_neg (lt_irrefl 8),
    List.take_of_length_le (by simp), ofBigEndian_unsigned, int64_unsigned h]

theorem decodeTransactionIndex_encode (h : Fits64 x) (index : Int) :
    decodeTransactionIndex (encodeTransactionIndex x index) = .ok (x, int32 index) := by
  have hlen : (encodeTransactionIndex x index).length = 8 + 4 := by
    rw [encodeTransactionIndex, List.length_append, bigEndian_length, bigEndian_length]
  rw [decodeTransactionIndex, if_neg (by omega), encodeTransactionIndex,
    List.take_left' (bigEndian_length _ _), List.drop_left' (bigEndian_length _ _),
    List.take_of_length_le (by simp), ofBigEndian_unsigned, int64_unsigned h,
    ofBigEndian_unsigned, int32_unsigned]

end Codec

/-! ### Layouts -/

/-- `B{bid}` -/
def branchTypeLayout : Layout BlockID BranchType where
  tag := 66
  body := idBytes
  value branchType := [branchType.code]
  decode bytes := match bytes with
    | [0] => .main
    | [1] => .side
    | [2] => .orphan
    | _ => .unknown
  keys := Set.univ
  values := Set.univ
  body_injOn := idBytes_injective.injOn
  decode_value branchType _ := by cases branchType <;> rfl

/-- `h{height}` -/
def heightLayout : Layout Int BlockID where
  tag := 104
  body height := bigEndian 8 (unsigned 8 height)
  value := idBytes
  decode := copyID
  keys := {height | Fits64 height}
  values := Set.univ
  body_injOn height h height' h' heq := by
    have hnat := congrArg (fun bytes => int64 (ofBigEndian bytes : Int)) heq
    simp only [ofBigEndian_unsigned] at hnat
    rwa [int64_unsigned h, int64_unsigned h'] at hnat
  decode_value id _ := copyID_idBytes id

/-- `t{txid}` -/
def txLayout : Layout TransactionID (Int × Int) where
  tag := 116
  body := idBytes
  value e := encodeTransactionIndex e.1 e.2
  decode bytes := (decodeTransactionIndex bytes).toOption.getD (0, 0)
  keys := Set.univ
  values := {e | Fits64 e.1 ∧ int32 e.2 = e.2}
  body_injOn := idBytes_injective.injOn
  decode_value e he := by
    rw [decodeTransactionIndex_encode he.1, he.2]
    rfl

/-- `k{pk}{height}{index}` -/
def keyLayout : Layout (List UInt8) Unit where
  tag := 107
  body := List.tail
  value _ := [1]
  decode _ := ()
  keys := {key | key.head? = some 107}
  values := Set.univ
  body_injOn key h key' h' heq := by
    obtain ⟨rest, rfl⟩ := List.head?_eq_some_iff.mp h
    obtain ⟨rest', rfl⟩ := List.head?_eq_some_iff.mp h'
    exact congrArg _ heq
  decode_value _ _ := rfl

/-- `b{pk}` -/
def balanceLayout : Layout PublicKey Int where
  tag := 98
  body := id
  value := encodeNumber
  decode := readBalance
  keys := Set.univ
  values := {balance | Fits64 balance}
  body_injOn := Set.injOn_id _
  decode_value _ h := readBalance_encodeNumber h

/-- **The database holds the tables of the ledger.** -/
structure Represents (db : Store) (l : Ledger) : Prop where
  chainTip : db[computeChainTipKey]? = l.chainTip.map fun t => encodeChainTip t.1 t.2
  tip_fits : ∀ t ∈ l.chainTip, Fits64 t.2
  branchTypes : branchTypeLayout.Holds db l.branchTypes
  heightIndex : heightLayout.Holds db l.heightIndex
  txIndex : txLayout.Holds db l.txIndex
  pubKeyTxIndex : keyLayout.Holds db l.pubKeyTxIndex
  balances : balanceLayout.Holds db l.balances
  tags : ∀ key v, db[key]? = some v →
    key = computeChainTipKey ∨ ∃ tag ∈ ([66, 104, 116, 107, 98] : List UInt8), key.head? = some tag

theorem represents_empty : Represents ∅ Ledger.empty :=
  ⟨by simp [Ledger.empty], by simp [Ledger.empty], Layout.holds_empty _, Layout.holds_empty _,
    Layout.holds_empty _, Layout.holds_empty _, Layout.holds_empty _, fun key v h => by simp at h⟩

/-! ### Writes -/

/-- The operation of a batch as bytes. -/
def Write.op : Write → List UInt8 × Option (List UInt8)
  | .chainTip id height => (computeChainTipKey, some (encodeChainTip id height))
  | .branchType id kind => (computeBranchTypeKey id, some [kind.code])
  | .blockHeight height id => (computeBlockHeightIndexKey height, id.map idBytes)
  | .transaction id index =>
    (computeTransactionIndexKey id, index.map fun e => encodeTransactionIndex e.1 e.2)
  | .pubKeyTransaction key mark => (key, mark.map fun _ => [1])
  | .pubKeyBalance pk balance => (computePubKeyBalanceKey pk, balance.map encodeNumber)

/-- What is written fits. -/
def Write.Sized : Write → Prop
  | .chainTip _ height => Fits64 height
  | .branchType _ _ => True
  | .blockHeight height _ => Fits64 height
  | .transaction _ index => ∀ e ∈ index, Fits64 e.1 ∧ int32 e.2 = e.2
  | .pubKeyTransaction key _ => key.head? = some 107
  | .pubKeyBalance _ balance => ∀ b ∈ balance, Fits64 b

section Writes

variable {db : Store} {l : Ledger} {w : Write}

/-- No key but that of the tip is written by a batch operation under a tag of its own. -/
theorem tags_set (h : ∀ key v, db[key]? = some v → key = computeChainTipKey ∨
      ∃ tag ∈ ([66, 104, 116, 107, 98] : List UInt8), key.head? = some tag) {key : List UInt8}
    (hkey : key = computeChainTipKey ∨
      ∃ tag ∈ ([66, 104, 116, 107, 98] : List UInt8), key.head? = some tag)
    (o : Option (List UInt8)) : ∀ key' v, (Table.set db key o)[key']? = some v →
      key' = computeChainTipKey ∨
        ∃ tag ∈ ([66, 104, 116, 107, 98] : List UInt8), key'.head? = some tag := by
  intro key' v hget
  rw [Table.get_set] at hget
  split_ifs at hget with heq
  · exact heq ▸ hkey
  · exact h key' v hget

/-- The tip is where it was unless it is written. -/
theorem Represents.chainTip_set (h : Represents db l) {key : List UInt8} {tag : UInt8}
    (hhead : key.head? = some tag) (hne : tag ≠ 84) (o : Option (List UInt8)) :
    (Table.set db key o)[computeChainTipKey]? =
      l.chainTip.map fun t => encodeChainTip t.1 t.2 := by
  rw [Table.get_set, if_neg]
  · exact h.chainTip
  · rintro rfl
    exact hne (Option.some.inj hhead).symm

/-- **One operation of a batch.** -/
theorem Represents.write1 (h : Represents db l) (hw : w.Sized) :
    Represents (Table.set db w.op.1 w.op.2) (l.write1 w) := by
  cases w with
  | chainTip id height =>
    have hhead : computeChainTipKey.head? = some 84 := rfl
    refine ⟨?_, ?_, h.branchTypes.set_other hhead (by decide) _,
      h.heightIndex.set_other hhead (by decide) _, h.txIndex.set_other hhead (by decide) _,
      h.pubKeyTxIndex.set_other hhead (by decide) _, h.balances.set_other hhead (by decide) _,
      tags_set h.tags (.inl rfl) _⟩
    · rw [Table.get_set]
      exact if_pos rfl
    · rintro _ ⟨⟩
      exact hw
  | branchType id kind =>
    have hhead : (computeBranchTypeKey id).head? = some 66 := rfl
    exact ⟨h.chainTip_set hhead (by decide) _, h.tip_fits,
      h.branchTypes.set (o := some kind) (Set.mem_univ id) fun _ _ => Set.mem_univ _,
      h.heightIndex.set_other hhead (by decide) _, h.txIndex.set_other hhead (by decide) _,
      h.pubKeyTxIndex.set_other hhead (by decide) _, h.balances.set_other hhead (by decide) _,
      tags_set h.tags (.inr ⟨66, by simp, hhead⟩) _⟩
  | blockHeight height id =>
    have hhead : (computeBlockHeightIndexKey height).head? = some 104 := rfl
    exact ⟨h.chainTip_set hhead (by decide) _, h.tip_fits,
      h.branchTypes.set_other hhead (by decide) _,
      h.heightIndex.set hw fun _ _ => Set.mem_univ _, h.txIndex.set_other hhead (by decide) _,
      h.pubKeyTxIndex.set_other hhead (by decide) _, h.balances.set_other hhead (by decide) _,
      tags_set h.tags (.inr ⟨104, by simp, hhead⟩) _⟩
  | transaction id index =>
    have hhead : (computeTransactionIndexKey id).head? = some 116 := rfl
    exact ⟨h.chainTip_set hhead (by decide) _, h.tip_fits,
      h.branchTypes.set_other hhead (by decide) _, h.heightIndex.set_other hhead (by decide) _,
      h.txIndex.set (Set.mem_univ id) hw, h.pubKeyTxIndex.set_other hhead (by decide) _,
      h.balances.set_other hhead (by decide) _, tags_set h.tags (.inr ⟨116, by simp, hhead⟩) _⟩
  | pubKeyTransaction key mark =>
    obtain ⟨rest, rfl⟩ := List.head?_eq_some_iff.mp hw
    exact ⟨h.chainTip_set hw (by decide) _, h.tip_fits,
      h.branchTypes.set_other hw (by decide) _, h.heightIndex.set_other hw (by decide) _,
      h.txIndex.set_other hw (by decide) _,
      h.pubKeyTxIndex.set (k := 107 :: rest) hw fun _ _ => Set.mem_univ _,
      h.balances.set_other hw (by decide) _, tags_set h.tags (.inr ⟨107, by simp, hw⟩) _⟩
  | pubKeyBalance pk balance =>
    have hhead : (computePubKeyBalanceKey pk).head? = some 98 := rfl
    exact ⟨h.chainTip_set hhead (by decide) _, h.tip_fits,
      h.branchTypes.set_other hhead (by decide) _, h.heightIndex.set_other hhead (by decide) _,
      h.txIndex.set_other hhead (by decide) _, h.pubKeyTxIndex.set_other hhead (by decide) _,
      h.balances.set (Set.mem_univ pk) hw, tags_set h.tags (.inr ⟨98, by simp, hhead⟩) _⟩

/-- **A batch.** -/
theorem Represents.write {batch : List Write} (h : Represents db l)
    (hbatch : ∀ w ∈ batch, w.Sized) :
    Represents (Table.write db (batch.map Write.op)) (l.write batch) := by
  induction batch generalizing db l with
  | nil => exact h
  | cons w batch ih =>
    exact ih (h.write1 (hbatch w List.mem_cons_self)) fun w' hw' =>
      hbatch w' (List.mem_cons_of_mem _ hw')

end Writes

/-! ### Reads -/

section Reads

variable {crypto : Crypto} {db : Store} {l : Ledger}

theorem Represents.getChainTip (h : Represents db l) :
    LedgerDisk.getChainTip db = .ok l.chainTip := by
  rw [LedgerDisk.getChainTip, h.chainTip]
  cases htip : l.chainTip with
  | none => rfl
  | some t =>
    simp only [Option.map_some, decodeChainTip_encode t.1 (h.tip_fits t htip)]
    rfl

theorem Represents.getBlockIDForHeight (h : Represents db l) {height : Int}
    (hfits : Fits64 height) :
    LedgerDisk.getBlockIDForHeight db height = l.getBlockIDForHeight height :=
  h.heightIndex.decode_get hfits

theorem Represents.getBranchType (h : Represents db l) (id : BlockID) :
    LedgerDisk.getBranchType db id = some (l.getBranchType id).code := by
  have hget := h.branchTypes.get id (Set.mem_univ id)
  rw [LedgerDisk.getBranchType, Ledger.getBranchType,
    show computeBranchTypeKey id = branchTypeLayout.key id from rfl, hget]
  cases l.branchTypes[id]? with
  | none => rfl
  | some kind => rfl

theorem Represents.getPublicKeyBalance (h : Represents db l) :
    LedgerDisk.getPublicKeyBalance db = l.getPublicKeyBalance := by
  funext pk
  have hget := h.balances.decode_get (Set.mem_univ pk)
  rw [Ledger.getPublicKeyBalance, ← hget, LedgerDisk.getPublicKeyBalance]
  show _ = Except.ok ((Option.map readBalance db[computePubKeyBalanceKey pk]?).getD 0)
  cases db[computePubKeyBalanceKey pk]? with
  | none => rfl
  | some balanceBytes => rfl

theorem Represents.contains_tx (h : Represents db l) (id : TransactionID) :
    db.contains (computeTransactionIndexKey id) = l.txIndex.contains id := by
  rw [Std.ExtTreeMap.contains_eq_isSome_getElem?, Std.ExtTreeMap.contains_eq_isSome_getElem?,
    show computeTransactionIndexKey id = txLayout.key id from rfl,
    h.txIndex.get id (Set.mem_univ id), Option.isSome_map]

theorem Represents.getTransactionIndex (h : Represents db l) (id : TransactionID) :
    LedgerDisk.getTransactionIndex db id = .ok (l.getTransactionIndex id) := by
  have hget := h.txIndex.get id (Set.mem_univ id)
  rw [LedgerDisk.getTransactionIndex, Ledger.getTransactionIndex,
    show computeTransactionIndexKey id = txLayout.key id from rfl, hget]
  cases hindex : l.txIndex[id]? with
  | none => rfl
  | some e =>
    obtain ⟨hfits, h32⟩ := (h.txIndex.domain id e hindex).2
    have hdecode : decodeTransactionIndex (txLayout.value e) = .ok e := by
      show decodeTransactionIndex (encodeTransactionIndex e.1 e.2) = .ok e
      rw [decodeTransactionIndex_encode hfits, h32]
    simp only [Option.map_some, hdecode]
    show Except.ok (some (LedgerDisk.getBlockIDForHeight db e.1, e.2)) = _
    rw [h.getBlockIDForHeight hfits]

/-! ### Iterators -/

/-- The database and the ledger have the same keys. -/
theorem Represents.contains_iff (h : Represents db l) (key : List UInt8) :
    db.contains key = true ↔ key ∈ l.keys := by
  have hkeys {K V : Type} [Ord K] [Std.TransOrd K] [Std.LawfulEqOrd K] {t : Table K V} {k : K} :
      k ∈ t.keys ↔ t.contains k = true := by
    rw [Std.ExtTreeMap.mem_keys]
    exact Std.ExtTreeMap.contains_iff_mem.symm
  simp only [Ledger.keys, List.mem_append, List.mem_map, hkeys, Option.mem_toList]
  constructor
  · intro hkey
    obtain ⟨v, hv⟩ := (Table.contains_iff _ _).mp hkey
    rcases h.tags key v hv with rfl | ⟨tag, htag, hhead⟩
    · rw [Table.contains_iff] at hkey
      rw [h.chainTip] at hkey
      obtain ⟨v, hv⟩ := hkey
      obtain ⟨t, ht, -⟩ := Option.map_eq_some_iff.mp hv
      exact .inl (.inl (.inl (.inl (.inl ⟨t, ht, rfl⟩))))
    · obtain ⟨rest, rfl⟩ := List.head?_eq_some_iff.mp hhead
      simp only [List.mem_cons, List.not_mem_nil, or_false] at htag
      rcases htag with rfl | rfl | rfl | rfl | rfl
      · obtain ⟨id, hid, rfl⟩ := h.branchTypes.contains_iff.mp hkey
        exact .inl (.inl (.inl (.inl (.inr ⟨id, hid, rfl⟩))))
      · obtain ⟨height, hheight, rfl⟩ := h.heightIndex.contains_iff.mp hkey
        exact .inl (.inl (.inl (.inr ⟨height, hheight, rfl⟩)))
      · obtain ⟨id, hid, rfl⟩ := h.txIndex.contains_iff.mp hkey
        exact .inl (.inl (.inr ⟨id, hid, rfl⟩))
      · obtain ⟨k, hk, rfl⟩ := h.pubKeyTxIndex.contains_iff.mp hkey
        obtain ⟨u, hu⟩ := (Table.contains_iff _ _).mp hk
        obtain ⟨rest, rfl⟩ := List.head?_eq_some_iff.mp (h.pubKeyTxIndex.domain k u hu).1
        exact .inl (.inr hk)
      · obtain ⟨pk, hpk, rfl⟩ := h.balances.contains_iff.mp hkey
        exact .inr ⟨pk, hpk, rfl⟩
  · rintro (((((⟨t, ht, rfl⟩ | ⟨id, hid, rfl⟩) | ⟨height, hheight, rfl⟩) | ⟨id, hid, rfl⟩) | hk) |
      ⟨pk, hpk, rfl⟩)
    · rw [Table.contains_iff, h.chainTip, ht]
      exact ⟨_, rfl⟩
    · exact h.branchTypes.contains_iff.mpr ⟨id, hid, rfl⟩
    · exact h.heightIndex.contains_iff.mpr ⟨height, hheight, rfl⟩
    · exact h.txIndex.contains_iff.mpr ⟨id, hid, rfl⟩
    · obtain ⟨u, hu⟩ := (Table.contains_iff _ _).mp hk
      obtain ⟨rest, rfl⟩ := List.head?_eq_some_iff.mp (h.pubKeyTxIndex.domain key u hu).1
      exact h.pubKeyTxIndex.contains_iff.mpr ⟨_, hk, rfl⟩
    · exact h.balances.contains_iff.mpr ⟨pk, hpk, rfl⟩

/-- Keys with different first bytes are different. -/
theorem nodup_append_of_tag (tag : UInt8) {xs ys : List (List UInt8)} (hx : xs.Nodup)
    (hy : ys.Nodup) (htag : ∀ key ∈ ys, key.head? = some tag)
    (hne : ∀ key ∈ xs, key.head? ≠ some tag) : (xs ++ ys).Nodup := by
  refine List.nodup_append.mpr ⟨hx, hy, fun a ha b hb heq => ?_⟩
  exact hne a ha (heq ▸ htag b hb)

theorem nodup_table_keys {K V : Type} [Ord K] [Std.TransOrd K] [Std.LawfulEqOrd K]
    (t : Table K V) : t.keys.Nodup := by
  rw [← Std.ExtTreeMap.map_fst_toList_eq_keys]
  exact Table.nodup_keys t

/-- No key is listed twice. -/
theorem Represents.nodup_keys (h : Represents db l) : l.keys.Nodup := by
  have hdomain {height : Int} (hmem : height ∈ l.heightIndex.keys) : Fits64 height := by
    rw [Std.ExtTreeMap.mem_keys, ← Std.ExtTreeMap.contains_iff_mem] at hmem
    obtain ⟨id, hid⟩ := (Table.contains_iff _ _).mp hmem
    exact (h.heightIndex.domain height id hid).1
  have hhead {key : List UInt8} (hmem : key ∈ l.pubKeyTxIndex.keys) : key.head? = some 107 := by
    rw [Std.ExtTreeMap.mem_keys, ← Std.ExtTreeMap.contains_iff_mem] at hmem
    obtain ⟨u, hu⟩ := (Table.contains_iff _ _).mp hmem
    exact (h.pubKeyTxIndex.domain key u hu).1
  have htip : (l.chainTip.toList.map fun _ => computeChainTipKey).Nodup := by
    cases l.chainTip with
    | none => exact List.nodup_nil
    | some t => exact List.nodup_singleton _
  have hbranch : (l.branchTypes.keys.map computeBranchTypeKey).Nodup :=
    (nodup_table_keys _).map fun id id' heq => idBytes_injective (List.cons.inj heq).2
  have hheight : (l.heightIndex.keys.map computeBlockHeightIndexKey).Nodup := by
    refine (nodup_table_keys _).map_on fun height hmem height' hmem' heq => ?_
    exact heightLayout.body_injOn (hdomain hmem) (hdomain hmem') (List.cons.inj heq).2
  have htx : (l.txIndex.keys.map computeTransactionIndexKey).Nodup :=
    (nodup_table_keys _).map fun id id' heq => idBytes_injective (List.cons.inj heq).2
  have hbalance : (l.balances.keys.map computePubKeyBalanceKey).Nodup :=
    (nodup_table_keys _).map fun pk pk' heq => (List.cons.inj heq).2
  unfold Ledger.keys
  refine nodup_append_of_tag 98 (nodup_append_of_tag 107
    (nodup_append_of_tag 116 (nodup_append_of_tag 104
      (nodup_append_of_tag 66 htip hbranch ?_ ?_) hheight ?_ ?_) htx ?_ ?_)
      (nodup_table_keys _) (fun key => hhead) ?_) hbalance ?_ ?_
  all_goals
    intro key hkey
    simp only [List.mem_append, List.mem_map] at hkey
  · obtain ⟨id, -, rfl⟩ := hkey
    rfl
  · obtain ⟨t, -, rfl⟩ := hkey
    simp [computeChainTipKey]
  · obtain ⟨height, -, rfl⟩ := hkey
    rfl
  · rcases hkey with ⟨t, -, rfl⟩ | ⟨id, -, rfl⟩ <;> simp [computeChainTipKey, computeBranchTypeKey]
  · obtain ⟨id, -, rfl⟩ := hkey
    rfl
  · rcases hkey with (⟨t, -, rfl⟩ | ⟨id, -, rfl⟩) | ⟨height, -, rfl⟩ <;>
      simp [computeChainTipKey, computeBranchTypeKey, computeBlockHeightIndexKey]
  · rcases hkey with ((⟨t, -, rfl⟩ | ⟨id, -, rfl⟩) | ⟨height, -, rfl⟩) | ⟨id, -, rfl⟩ <;>
      simp [computeChainTipKey, computeBranchTypeKey, computeBlockHeightIndexKey,
        computeTransactionIndexKey]
  · obtain ⟨pk, -, rfl⟩ := hkey
    rfl
  · rcases hkey with (((⟨t, -, rfl⟩ | ⟨id, -, rfl⟩) | ⟨height, -, rfl⟩) | ⟨id, -, rfl⟩) | hkey
    · simp [computeChainTipKey]
    · simp [computeBranchTypeKey]
    · simp [computeBlockHeightIndexKey]
    · simp [computeTransactionIndexKey]
    · simp [hhead hkey]

/-- The database lists the keys that the ledger lists. -/
theorem Represents.keys_perm (h : Represents db l) : db.keys.Perm l.keys := by
  rw [List.perm_ext_iff_of_nodup (nodup_table_keys db) h.nodup_keys]
  intro key
  rw [← h.contains_iff, Std.ExtTreeMap.mem_keys, Std.ExtTreeMap.contains_iff_mem]

/-- **The iterators agree.** -/
theorem Represents.newIterator (h : Represents db l) {start limit : List UInt8}
    (hrange : start ≤ limit) :
    LedgerDisk.newIterator db start limit = some (l.newIterator start limit) := by
  have hperm := h.keys_perm.filter fun key => decide (start ≤ key ∧ key < limit)
  rw [LedgerDisk.newIterator, if_pos hrange]
  refine congrArg some (List.Perm.eq_of_pairwise ?_ (List.pairwise_insertionSort (· ≤ ·) _)
    (List.pairwise_insertionSort (· ≤ ·) _)
    ((List.perm_insertionSort _ _).trans (hperm.trans (List.perm_insertionSort _ _).symm)))
  intro a b _ _ hab hba
  exact List.le_antisymm hab hba

theorem fits_of_decode {key : List UInt8} {pk : PublicKey} {height index : Int}
    (h : decodePubKeyTransactionIndexKey key = .ok (pk, height, index)) : Fits64 height := by
  unfold decodePubKeyTransactionIndexKey at h
  split_ifs at h
  obtain ⟨-, rfl, -⟩ : _ ∧ _ = height ∧ _ := by simpa using h
  exact fits_int64 _

theorem Represents.rangeLoop (h : Represents db l) (limit : Int) (keys : List (List UInt8))
    (r : RangeResult) (heightMap : Table Int BlockID) :
    LedgerDisk.rangeLoop db limit keys r heightMap = l.rangeLoop limit keys r heightMap := by
  induction keys generalizing r heightMap with
  | nil => rfl
  | cons key keys ih =>
    rw [LedgerDisk.rangeLoop, Ledger.rangeLoop]
    cases hdecode : decodePubKeyTransactionIndexKey key with
    | error e => rfl
    | ok fields =>
      obtain ⟨pk, height, index⟩ := fields
      have hlookup : LedgerDisk.lookupHeight db heightMap height =
          l.lookupHeight heightMap height := by
        have hfound := h.getBlockIDForHeight (fits_of_decode hdecode)
        unfold LedgerDisk.lookupHeight Ledger.lookupHeight
        generalize LedgerDisk.getBlockIDForHeight db height = found at hfound ⊢
        subst hfound
        rfl
      simp only [bind, Except.bind, hlookup]
      cases l.lookupHeight heightMap height with
      | error e => rfl
      | ok found => simp only [ih]

/-- A range that goes forward ends above its start, also where one more than the last height
wraps. -/
theorem forwardRange_le {startHeight endHeight : Int} (pk : PublicKey) (startIndex : Int)
    (hstart : 0 ≤ startHeight) (hle : startHeight ≤ endHeight) (hend : endHeight < 2 ^ 63) :
    computePubKeyTransactionIndexKey pk (some startHeight) (some startIndex) ≤
      computePubKeyTransactionIndexKey pk (some (int64 (endHeight + 1))) none := by
  refine List.le_of_lt (key_lt_heightKey.mpr ?_)
  have hsucc := unsigned_succ ⟨hstart.trans hle, hend⟩
  have hsame := unsigned_of_nonneg (n := 8) hstart (by norm_num; omega)
  omega

theorem reverseRange_le {startHeight endHeight : Int} (pk : PublicKey) (startIndex : Int)
    (hend : 0 ≤ endHeight) (hlt : endHeight < startHeight) (hstart : startHeight < 2 ^ 63) :
    computePubKeyTransactionIndexKey pk (some endHeight) none ≤
      computePubKeyTransactionIndexKey pk (some startHeight) (some startIndex) := by
  rw [← List.not_lt, key_lt_heightKey, unsigned_of_nonneg hend (by norm_num; omega),
    unsigned_of_nonneg (by omega) (by norm_num; omega)]
  omega

/-- **Range queries agree** on heights. -/
theorem Represents.getPublicKeyTransactionIndicesRange (h : Represents db l) (pk : PublicKey)
    {startHeight endHeight : Int} (hstart : 0 ≤ startHeight ∧ startHeight < 2 ^ 63)
    (hend : 0 ≤ endHeight ∧ endHeight < 2 ^ 63) (startIndex limit : Int) :
    LedgerDisk.getPublicKeyTransactionIndicesRange db pk startHeight endHeight startIndex limit =
      some (l.getPublicKeyTransactionIndicesRange pk startHeight endHeight startIndex limit) := by
  rw [LedgerDisk.getPublicKeyTransactionIndicesRange, Ledger.getPublicKeyTransactionIndicesRange]
  split_ifs with hforward
  · have hiter := h.newIterator (forwardRange_le pk startIndex hstart.1 hforward hend.2)
    simp only [hiter, Option.map_some, h.rangeLoop]
    rfl
  · have hiter := h.newIterator
      (reverseRange_le pk (int64 (startIndex + 1)) hend.1 (not_le.mp hforward) hstart.2)
    simp only [hiter, Option.map_some, h.rangeLoop]
    rfl

theorem Represents.balanceLoop (h : Represents db l) (blockStore : BlockStorage) (pk : PublicKey)
    (currentHeight : Int) (keys : List (List UInt8)) (balance : Int) :
    LedgerDisk.balanceLoop crypto db blockStore pk currentHeight keys balance =
      l.balanceLoop crypto blockStore pk currentHeight keys balance := by
  induction keys generalizing balance with
  | nil => rfl
  | cons key keys ih =>
    rw [LedgerDisk.balanceLoop, Ledger.balanceLoop]
    cases hdecode : decodePubKeyTransactionIndexKey key with
    | error e => rfl
    | ok fields =>
      obtain ⟨pk', height, index⟩ := fields
      have hfound := h.getBlockIDForHeight (fits_of_decode hdecode)
      have hrest := funext ih
      simp only [bind, Except.bind]
      generalize LedgerDisk.getBlockIDForHeight db height = found at hfound ⊢
      generalize LedgerDisk.balanceLoop crypto db blockStore pk currentHeight keys = rest
        at hrest ⊢
      subst hfound hrest
      rfl

theorem Represents.getPublicKeyBalanceAt (h : Represents db l) (blockStore : BlockStorage)
    (pk : PublicKey) (height : Int) :
    LedgerDisk.getPublicKeyBalanceAt crypto db blockStore pk height =
      some (l.getPublicKeyBalanceAt crypto blockStore pk height) := by
  have hrange : computePubKeyTransactionIndexKey pk none none ≤
      computePubKeyTransactionIndexKey pk (some (int64 (height + 1))) none := by
    rw [computePubKeyTransactionIndexKey, List.append_nil, computePubKeyTransactionIndexKey]
    exact List.le_append_left
  rw [LedgerDisk.getPublicKeyBalanceAt, Ledger.getPublicKeyBalanceAt, h.getChainTip]
  simp only [h.newIterator hrange, Option.map_some, h.balanceLoop]

/-- **The total balance** is the sum over the range of keys. -/
theorem Represents.balance (h : Represents db l) : LedgerDisk.balance db = some l.balance := by
  obtain ⟨keys, hiter⟩ : ∃ keys, LedgerDisk.newIterator db [98] [99] = some keys :=
    ⟨_, if_pos (by decide)⟩
  have hkeys : keys.Perm (l.balances.toList.map fun e => computePubKeyBalanceKey e.1) := by
    obtain rfl := Option.some.inj ((if_pos (by decide)).symm.trans hiter)
    refine (List.perm_insertionSort _ _).trans ?_
    rw [List.perm_ext_iff_of_nodup ((nodup_table_keys db).filter _)]
    · intro key
      rw [List.mem_filter, Std.ExtTreeMap.mem_keys, ← Std.ExtTreeMap.contains_iff_mem,
        decide_eq_true_eq, List.mem_map]
      constructor
      · rintro ⟨hkey, hlo, hhi⟩
        obtain ⟨rest, rfl⟩ : ∃ rest, key = 98 :: rest := by
          cases key with
          | nil => exact absurd hlo (by decide)
          | cons tag rest =>
            rw [List.cons_lt_cons_iff] at hhi
            rw [← List.not_lt, List.cons_lt_cons_iff] at hlo
            refine ⟨rest, ?_⟩
            congr 1
            simp only [List.not_lt_nil, and_false, or_false, UInt8.lt_iff_toNat_lt] at hhi
            simp only [not_or, UInt8.lt_iff_toNat_lt] at hlo
            refine UInt8.toNat_inj.mp ?_
            have h98 : (98 : UInt8).toNat = 98 := rfl
            have h99 : (99 : UInt8).toNat = 99 := rfl
            omega
        obtain ⟨pk, hpk, rfl⟩ := h.balances.contains_iff.mp hkey
        obtain ⟨b, hb⟩ := (Table.contains_iff _ _).mp hpk
        exact ⟨(pk, b), (Table.mem_toList _ _ _).mpr hb, rfl⟩
      · rintro ⟨⟨pk, b⟩, hmem, rfl⟩
        have hb := (Table.mem_toList _ _ _).mp hmem
        refine ⟨h.balances.contains_iff.mpr ⟨pk, (Table.contains_iff _ _).mpr ⟨b, hb⟩, rfl⟩, ?_, ?_⟩
        · rw [← List.not_lt, computePubKeyBalanceKey, List.cons_lt_cons_iff]
          simp
        · rw [computePubKeyBalanceKey, List.cons_lt_cons_iff]
          exact .inl (by decide)
    · have hnd := Table.nodup_keys l.balances
      refine List.Nodup.of_map List.tail ?_
      rw [List.map_map]
      exact hnd
  have hvalue : ∀ e ∈ l.balances.toList,
      readBalance ((db[computePubKeyBalanceKey e.1]?).getD []) = e.2 := by
    intro e he
    have hb := (Table.mem_toList l.balances e.1 e.2).mp he
    have hget := h.balances.get e.1 (Set.mem_univ _)
    rw [hb] at hget
    rw [show computePubKeyBalanceKey e.1 = balanceLayout.key e.1 from rfl, hget]
    exact readBalance_encodeNumber (h.balances.domain e.1 e.2 hb).2
  have hsum := foldl_int64 (fun key => readBalance ((db[key]?).getD [])) keys 0
  rw [(hkeys.map _).sum_eq, List.map_map, Function.comp_def, List.map_congr_left hvalue] at hsum
  rw [LedgerDisk.balance, hiter]
  exact congrArg some (hsum.trans (foldl_int64 Prod.snd l.balances.toList 0).symm)

end Reads

end Cruzbit

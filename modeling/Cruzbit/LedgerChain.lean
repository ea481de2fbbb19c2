/-
Cruzbit/LedgerChain.lean

The ledger's tables against the chain they describe.  `Describes prune l c K`
says what every table of `l` holds when `c` is the main chain and `K` the set
of blocks whose branch is known.  The description is complete: two ledgers
that describe the same chain and the same known blocks are equal
(`Describes.unique`).

Main results, for a valid chain whose blocks are in storage:
  * `connectBlock_cases`: connecting a block that fits succeeds exactly when
    the block connects in the sense of the chain, and then describes the
    longer chain; otherwise it fails with an ordinary error;
  * `disconnectBlock_eq`: disconnecting the newest block always succeeds and
    describes the shorter chain.
-/
import Cruzbit.LedgerLoops

namespace Cruzbit

open Accounts Word

/-! ### What the tables hold -/

/-- The entries of `t` for a block. -/
def txEntries (crypto : Crypto) (x : BlockID × Block) : List (TransactionID × (Int × Int)) :=
  x.2.transactions.zipIdx.map fun e => (e.1.id crypto, (x.2.header.height, (e.2 : Int)))

/-- The entries of `k` for a block. -/
def keyEntries (x : BlockID × Block) : List (List UInt8 × Unit) :=
  x.2.transactions.zipIdx.flatMap fun e =>
    (partyKeys x.2.header.height e.2 e.1).map fun key => (key, ())

/-- The entry of `h` for a block. -/
def heightEntry (x : BlockID × Block) : Int × BlockID := (x.2.header.height, x.1)

/-- The ledger describes the main chain `c`, with the blocks in `K` known. -/
structure Describes (crypto : Crypto) (prune : Bool) (l : Ledger) (c : Chain)
    (K : Set BlockID) : Prop where
  chainTip : l.chainTip = c.head?.map fun x => (x.1, (c.length : Int) - 1)
  known : ∀ id ∈ c.ids, id ∈ K
  main : ∀ id ∈ c.ids, l.branchTypes[id]? = some .main
  side : ∀ id, id ∉ c.ids → id ∈ K → l.branchTypes[id]? = some .side
  unknown : ∀ id, id ∉ K → l.branchTypes[id]? = none
  heightIndex : Table.Holds l.heightIndex (c.map heightEntry)
  txIndex : Table.Holds l.txIndex ((c.indexed prune).flatMap (txEntries crypto))
  pubKeyTxIndex : Table.Holds l.pubKeyTxIndex ((c.indexed prune).flatMap keyEntries)
  balances : Records l.balances c.balances

/-- The blocks of the chain are in storage. -/
def Stored (blockStore : BlockStorage) (c : Chain) : Prop :=
  ∀ x ∈ c, ∃ storedAt, blockStore[x.1]? = some ⟨x.2, storedAt⟩

namespace Ledger

/-! ### Batches, table by table -/

def branchTypeOp : Write → Option (BlockID × Option BranchType)
  | .branchType id branchType => some (id, some branchType)
  | _ => none

def heightOp : Write → Option (Int × Option BlockID)
  | .blockHeight height id => some (height, id)
  | _ => none

def transactionOp : Write → Option (TransactionID × Option (Int × Int))
  | .transaction id index => some (id, index)
  | _ => none

def pubKeyOp : Write → Option (List UInt8 × Option Unit)
  | .pubKeyTransaction key mark => some (key, mark)
  | _ => none

def balanceOp : Write → Option (PublicKey × Option Int)
  | .pubKeyBalance pk balance => some (pk, balance)
  | _ => none

def chainTipOp : Write → Option (BlockID × Int)
  | .chainTip id height => some (id, height)
  | _ => none

theorem write_cons (l : Ledger) (op : Write) (ops : List Write) :
    l.write (op :: ops) = (l.write1 op).write ops := rfl

theorem write_tables (l : Ledger) (ops : List Write) :
    (l.write ops).branchTypes = l.branchTypes.write (ops.filterMap branchTypeOp) ∧
    (l.write ops).heightIndex = l.heightIndex.write (ops.filterMap heightOp) ∧
    (l.write ops).txIndex = l.txIndex.write (ops.filterMap transactionOp) ∧
    (l.write ops).pubKeyTxIndex = l.pubKeyTxIndex.write (ops.filterMap pubKeyOp) ∧
    (l.write ops).balances = l.balances.write (ops.filterMap balanceOp) ∧
    (l.write ops).chainTip = ((ops.filterMap chainTipOp).getLast?).or l.chainTip := by
  induction ops generalizing l with
  | nil => simp [write]
  | cons op ops ih =>
    obtain ⟨h₁, h₂, h₃, h₄, h₅, h₆⟩ := ih (l.write1 op)
    rw [write_cons, h₁, h₂, h₃, h₄, h₅, h₆]
    cases op <;> simp [write1, branchTypeOp, heightOp, transactionOp, pubKeyOp, balanceOp,
      chainTipOp, List.filterMap_cons, Table.set, List.getLast?_cons, Option.or_some]

/-- An operation on the transaction indices. -/
def IsIndexOp : Write → Prop
  | .transaction _ _ => True
  | .pubKeyTransaction _ _ => True
  | _ => False

theorem filterMap_indexOps {ops : List Write} (h : ∀ op ∈ ops, IsIndexOp op) :
    ops.filterMap branchTypeOp = [] ∧ ops.filterMap heightOp = [] ∧
      ops.filterMap balanceOp = [] ∧ ops.filterMap chainTipOp = [] := by
  refine ⟨?_, ?_, ?_, ?_⟩ <;>
    · rw [List.filterMap_eq_nil_iff]
      intro op hop
      have := h op hop
      cases op <;> simp_all [IsIndexOp, branchTypeOp, heightOp, balanceOp, chainTipOp]

/-- The operations on `b` that write a cache back. -/
def cacheOps (b : BalanceCache) : List (PublicKey × Option Int) :=
  b.cache.toList.map fun e => (e.1, if e.2 = 0 then none else some e.2)

theorem filterMap_balanceWrites (b : BalanceCache) :
    (balanceWrites b).filterMap branchTypeOp = [] ∧ (balanceWrites b).filterMap heightOp = [] ∧
    (balanceWrites b).filterMap transactionOp = [] ∧ (balanceWrites b).filterMap pubKeyOp = [] ∧
    (balanceWrites b).filterMap balanceOp = cacheOps b ∧
    (balanceWrites b).filterMap chainTipOp = [] := by
  refine ⟨?_, ?_, ?_, ?_, ?_, ?_⟩ <;>
    simp [balanceWrites, cacheOps, List.filterMap_map, Function.comp_def, branchTypeOp, heightOp,
      transactionOp, pubKeyOp, balanceOp, chainTipOp]

/-- The tables after the batch that either operation writes. -/
theorem write_batch (l : Ledger) (b : BalanceCache) {ixs ixs' : List Write}
    (h : ∀ op ∈ ixs, IsIndexOp op) (h' : ∀ op ∈ ixs', IsIndexOp op) (height tipHeight : Int)
    (o : Option BlockID) (id tipID : BlockID) (t : BranchType) :
    l.write (ixs ++ balanceWrites b ++
        [.blockHeight height o, .branchType id t, .chainTip tipID tipHeight] ++ ixs') =
      { chainTip := some (tipID, tipHeight)
        branchTypes := l.branchTypes.insert id t
        heightIndex := l.heightIndex.set height o
        txIndex := l.txIndex.write
          (ixs.filterMap transactionOp ++ ixs'.filterMap transactionOp)
        pubKeyTxIndex := l.pubKeyTxIndex.write (ixs.filterMap pubKeyOp ++ ixs'.filterMap pubKeyOp)
        balances := l.balances.write (cacheOps b) } := by
  set tail : List Write :=
    [.blockHeight height o, .branchType id t, .chainTip tipID tipHeight] with htail
  obtain ⟨h₁, h₂, h₃, h₄, h₅, h₆⟩ := l.write_tables (ixs ++ balanceWrites b ++ tail ++ ixs')
  obtain ⟨i₁, i₂, i₃, i₄⟩ := filterMap_indexOps h
  obtain ⟨j₁, j₂, j₃, j₄⟩ := filterMap_indexOps h'
  obtain ⟨b₁, b₂, b₃, b₄, b₅, b₆⟩ := filterMap_balanceWrites b
  have t₃ : tail.filterMap transactionOp = [] := rfl
  have t₄ : tail.filterMap pubKeyOp = [] := rfl
  have t₅ : tail.filterMap balanceOp = [] := rfl
  simp only [List.filterMap_append, List.append_nil, List.nil_append, i₁, i₂, i₃, i₄, j₁, j₂, j₃,
    j₄, b₁, b₂, b₃, b₄, b₅, b₆, t₃, t₄, t₅] at h₁ h₂ h₃ h₄ h₅ h₆
  exact Ledger.ext h₆ h₁ h₂ h₃ h₄ h₅

/-- Writing the cache back records the accounts it shows. -/
theorem records_cacheOps {t : Table PublicKey Int} {v w : PublicKey →₀ ℤ} {b : BalanceCache}
    (hr : Records t v) (hs : Shows v b w) : Records (t.write (cacheOps b)) w := by
  intro pk
  cases hc : b.cache[pk]? with
  | none =>
    rw [hs.uncached pk hc, ← hr pk]
    refine Table.get_write_of_notMem fun o ho => ?_
    obtain ⟨e, he, heq⟩ := List.mem_map.mp ho
    simp only [Prod.mk.injEq] at heq
    have := (Table.mem_toList b.cache e.1 e.2).mp he
    rw [heq.1, hc] at this
    exact absurd this (by simp)
  | some a =>
    rw [(hs.cached pk a hc).2]
    have hmem : (pk, a) ∈ b.cache.toList := (Table.mem_toList b.cache pk a).mpr hc
    refine Table.get_write_of_mem (List.mem_map.mpr ⟨(pk, a), hmem, rfl⟩) fun o ho => ?_
    obtain ⟨e, he, heq⟩ := List.mem_map.mp ho
    simp only [Prod.mk.injEq] at heq
    have := (Table.mem_toList b.cache e.1 e.2).mp he
    rw [heq.1, hc, Option.some.injEq] at this
    rw [← heq.2, ← this]

/-! ### Index operations of a block -/

section IndexOps

variable {crypto : Crypto} {x : BlockID × Block}

theorem isIndexOp_putIndices {height : Int} {i : Nat} {tx : Transaction} :
    ∀ op ∈ putIndices crypto height i tx, IsIndexOp op := by
  intro op hop
  rcases List.mem_cons.mp hop with rfl | hop
  · trivial
  · obtain ⟨key, -, rfl⟩ := List.mem_map.mp hop
    trivial

theorem isIndexOp_deleteIndices {height : Int} {i : Nat} {tx : Transaction} :
    ∀ op ∈ deleteIndices crypto height i tx, IsIndexOp op := by
  intro op hop
  rcases List.mem_cons.mp hop with rfl | hop
  · trivial
  · obtain ⟨key, -, rfl⟩ := List.mem_map.mp hop
    trivial

/-- The index within a block fits in 32 bits. -/
theorem int32_index {b : Block} (hb : b.WellFormed crypto) {e : Transaction × Nat}
    (he : e ∈ b.transactions.zipIdx) : int32 (e.2 : Int) = e.2 := by
  have hlt := List.snd_lt_of_mem_zipIdx he
  have := hb.length_lt
  refine int32_of_fits (by omega) ?_
  simp only [Nat.add_zero] at hlt
  omega

variable (crypto) in
/-- The index operations of numbered transactions, table by table: puts. -/
theorem filterMap_putIndices (height : Int) (ts : List (Transaction × Nat)) :
    (ts.flatMap fun e => putIndices crypto height e.2 e.1).filterMap transactionOp =
      ts.map (fun e => (e.1.id crypto, some (height, int32 e.2))) ∧
    (ts.flatMap fun e => putIndices crypto height e.2 e.1).filterMap pubKeyOp =
      ts.flatMap fun e => (partyKeys height e.2 e.1).map fun key => (key, some ()) := by
  constructor
  · rw [List.filterMap_flatMap, List.map_eq_flatMap]
    simp [putIndices, transactionOp, List.filterMap_map, Function.comp_def]
  · rw [List.filterMap_flatMap]
    simp [putIndices, List.filterMap_cons, pubKeyOp, List.filterMap_map, Function.comp_def]

variable (crypto) in
/-- The index operations of numbered transactions, table by table: deletes. -/
theorem filterMap_deleteIndices (height : Int) (ts : List (Transaction × Nat)) :
    (ts.flatMap fun e => deleteIndices crypto height e.2 e.1).filterMap transactionOp =
      ts.map (fun e => (e.1.id crypto, none)) ∧
    (ts.flatMap fun e => deleteIndices crypto height e.2 e.1).filterMap pubKeyOp =
      ts.flatMap fun e => (partyKeys height e.2 e.1).map fun key => (key, none) := by
  constructor
  · rw [List.filterMap_flatMap, List.map_eq_flatMap]
    simp [deleteIndices, transactionOp, List.filterMap_map, Function.comp_def]
  · rw [List.filterMap_flatMap]
    simp [deleteIndices, List.filterMap_cons, pubKeyOp, List.filterMap_map, Function.comp_def]

/-- Putting the indices of a block. -/
theorem put_ops (hx : x.2.WellFormed crypto) :
    (indexWrites putIndices crypto x.2.header.height 0 x.2.transactions).filterMap transactionOp =
      Table.puts (txEntries crypto x) ∧
    (indexWrites putIndices crypto x.2.header.height 0 x.2.transactions).filterMap pubKeyOp =
      Table.puts (keyEntries x) := by
  obtain ⟨ht, hk⟩ := filterMap_putIndices crypto x.2.header.height
    x.2.transactions.zipIdx
  refine ⟨ht.trans ?_, hk.trans ?_⟩
  · rw [Table.puts, txEntries, List.map_map]
    refine List.map_congr_left fun e he => ?_
    simp [int32_index hx he]
  · simp [Table.puts, keyEntries, List.map_flatMap, Function.comp_def]

variable (crypto) in
/-- Deleting the indices of a block, in either order of its transactions. -/
theorem delete_ops (x : BlockID × Block) :
    (indexWrites deleteIndices crypto x.2.header.height 0 x.2.transactions).filterMap
      transactionOp = Table.deletes (txEntries crypto x) ∧
    (indexWrites deleteIndices crypto x.2.header.height 0 x.2.transactions).filterMap pubKeyOp =
      Table.deletes (keyEntries x) := by
  obtain ⟨ht, hk⟩ := filterMap_deleteIndices crypto x.2.header.height
    x.2.transactions.zipIdx
  refine ⟨ht.trans ?_, hk.trans ?_⟩
  · simp [Table.deletes, txEntries, Function.comp_def]
  · simp [Table.deletes, keyEntries, List.map_flatMap, Function.comp_def]

variable (crypto) in
theorem reverse_delete_ops (x : BlockID × Block) :
    ∃ ts ks,
      (reverseIndexWrites deleteIndices crypto x.2.header.height 0 x.2.transactions).filterMap
        transactionOp = Table.deletes ts ∧
      (reverseIndexWrites deleteIndices crypto x.2.header.height 0 x.2.transactions).filterMap
        pubKeyOp = Table.deletes ks ∧
      (∀ e, e ∈ ts ↔ e ∈ txEntries crypto x) ∧ (∀ e, e ∈ ks ↔ e ∈ keyEntries x) := by
  obtain ⟨ht, hk⟩ := filterMap_deleteIndices crypto x.2.header.height
    x.2.transactions.zipIdx.reverse
  refine ⟨(txEntries crypto x).reverse, x.2.transactions.zipIdx.reverse.flatMap fun e =>
    (partyKeys x.2.header.height e.2 e.1).map fun key => (key, ()), ht.trans ?_, hk.trans ?_,
    by simp, ?_⟩
  · simp [Table.deletes, txEntries, Function.comp_def]
  · simp [Table.deletes, List.map_flatMap, Function.comp_def]
  · simp [keyEntries]

theorem isIndexOp_indexWrites {height : Int} {i : Nat} {txs : List Transaction} :
    (∀ op ∈ indexWrites putIndices crypto height i txs, IsIndexOp op) ∧
    (∀ op ∈ indexWrites deleteIndices crypto height i txs, IsIndexOp op) ∧
    (∀ op ∈ reverseIndexWrites deleteIndices crypto height i txs, IsIndexOp op) := by
  refine ⟨?_, ?_, ?_⟩ <;> intro op hop <;> obtain ⟨e, -, he⟩ := List.mem_flatMap.mp hop
  · exact isIndexOp_putIndices op he
  · exact isIndexOp_deleteIndices op he
  · exact isIndexOp_deleteIndices op he

end IndexOps

end Ledger

/-! ### Entries of different blocks -/

section Entries

variable {crypto : Crypto} {x y : BlockID × Block}

/-- Party keys tell the key, the height and the index apart. -/
theorem computePubKeyTransactionIndexKey_inj {pk pk' : PublicKey} {h h' i i' : Int}
    (hl : pk.length = publicKeySize) (hl' : pk'.length = publicKeySize)
    (hh : 0 ≤ h ∧ h ≤ maxNumber) (hh' : 0 ≤ h' ∧ h' ≤ maxNumber)
    (hi : 0 ≤ i ∧ i < 2 ^ 31) (hi' : 0 ≤ i' ∧ i' < 2 ^ 31)
    (heq : computePubKeyTransactionIndexKey pk (some h) (some i) =
      computePubKeyTransactionIndexKey pk' (some h') (some i')) :
    pk = pk' ∧ h = h' ∧ i = i' := by
  simp only [maxNumber] at hh hh'
  simp only [computePubKeyTransactionIndexKey, List.cons_append, List.cons.injEq, true_and] at heq
  obtain ⟨hpk, hrest⟩ := List.append_inj heq (hl.trans hl'.symm)
  obtain ⟨hheight, hindex⟩ := List.append_inj hrest (by simp)
  rw [int32_of_fits hi.1 hi.2, int32_of_fits hi'.1 hi'.2] at hindex
  have e₁ := bigEndian_inj hheight
  have e₂ := bigEndian_inj hindex
  rw [unsigned_of_nonneg hh.1 (by norm_num at *; omega),
    unsigned_of_nonneg hh'.1 (by norm_num at *; omega)] at e₁
  rw [unsigned_of_nonneg hi.1 (by norm_num at *; omega),
    unsigned_of_nonneg hi'.1 (by norm_num at *; omega)] at e₂
  norm_num at e₁ e₂ hi hi'
  exact ⟨hpk, by omega, by omega⟩

/-- A key of a block comes from one of its transactions and one of its parties. -/
theorem mem_keyEntries (hx : x.2.WellFormed crypto) {key : List UInt8}
    (h : (key, ()) ∈ keyEntries x) :
    ∃ (pk : PublicKey) (i : Nat), pk.length = publicKeySize ∧ (i : Int) < 2 ^ 31 ∧
      key = computePubKeyTransactionIndexKey pk (some x.2.header.height) (some (i : Int)) := by
  obtain ⟨e, he, hkey⟩ := List.mem_flatMap.mp h
  obtain ⟨key', hkey', heq⟩ := List.mem_map.mp hkey
  simp only [Prod.mk.injEq, and_true] at heq
  subst heq
  have hlt := List.snd_lt_of_mem_zipIdx he
  have hlen := hx.length_lt
  have hmem : e.1 ∈ x.2.transactions := by
    have := List.fst_mem_of_mem_zipIdx he
    simpa using this
  have hchk := hx.checked e.1 hmem
  simp only [partyKeys, List.mem_append, List.mem_singleton] at hkey'
  rcases hkey' with hkey' | rfl
  · split_ifs at hkey' with hcb
    · simp at hkey'
    · simp only [List.mem_singleton] at hkey'
      exact ⟨e.1.sender, e.2, (hchk.signed (by simpa using hcb)).1, by omega, hkey'⟩
  · exact ⟨e.1.recipient, e.2, hchk.recipient_length, by omega, rfl⟩

theorem keyEntries_disjoint (hx : x.2.WellFormed crypto) (hy : y.2.WellFormed crypto)
    (hne : x.2.header.height ≠ y.2.header.height) :
    Table.Disjoint (keyEntries x) (keyEntries y) := by
  intro key _ _ hkx hky
  obtain ⟨pk, i, hpk, hi, rfl⟩ := mem_keyEntries hx hkx
  obtain ⟨pk', i', hpk', hi', heq⟩ := mem_keyEntries hy hky
  exact hne (computePubKeyTransactionIndexKey_inj hpk hpk' ⟨hx.height_nonneg, hx.height_le⟩
    ⟨hy.height_nonneg, hy.height_le⟩ ⟨by omega, hi⟩ ⟨by omega, hi'⟩ heq).2.1

theorem keyEntries_functional (x : BlockID × Block) : Table.Functional (keyEntries x) :=
  fun _ _ _ _ _ => rfl

theorem mem_txEntries {id : TransactionID} {e : Int × Int} (h : (id, e) ∈ txEntries crypto x) :
    ∃ i : Nat, (x.2.txIDs crypto)[i]? = some id ∧ e = (x.2.header.height, (i : Int)) := by
  obtain ⟨a, ha, heq⟩ := List.mem_map.mp h
  simp only [Prod.mk.injEq] at heq
  refine ⟨a.2, ?_, heq.2.symm⟩
  have := List.mem_zipIdx_iff_getElem?.mp ha
  simp [Block.txIDs, this, heq.1]

theorem txEntries_functional (hx : x.2.WellFormed crypto) :
    Table.Functional (txEntries crypto x) := by
  intro id v v' hv hv'
  obtain ⟨i, hi, rfl⟩ := mem_txEntries hv
  obtain ⟨j, hj, rfl⟩ := mem_txEntries hv'
  have hlt : i < (x.2.txIDs crypto).length := (List.getElem?_eq_some_iff.mp hi).1
  rw [(List.getElem?_inj hlt hx.nodup).mp (hi.trans hj.symm)]

theorem txEntries_disjoint (h : ∀ id ∈ x.2.txIDs crypto, id ∉ y.2.txIDs crypto) :
    Table.Disjoint (txEntries crypto x) (txEntries crypto y) := by
  intro id v v' hv hv'
  obtain ⟨i, hi, -⟩ := mem_txEntries hv
  obtain ⟨j, hj, -⟩ := mem_txEntries hv'
  exact h id (List.mem_of_getElem? hi) (List.mem_of_getElem? hj)

end Entries

/-! ### Positions in the chain -/

namespace Chain

variable {crypto : Crypto} {prune : Bool} {c d : Chain} {x y : BlockID × Block} {l : Ledger}
  {K : Set BlockID} {blockStore : BlockStorage}

/-- A block's height counts the blocks below it. -/
theorem Valid.height_of_drop (h : Valid crypto prune c) {n : Nat} (hd : c.drop n = y :: d) :
    y.2.header.height = d.length :=
  (hd ▸ h.drop n).head.height

theorem Valid.height_lt (h : Valid crypto prune c) (hy : y ∈ c) :
    y.2.header.height < c.length := by
  obtain ⟨a, b, rfl⟩ := List.append_of_mem hy
  rw [h.extends_of_append.height]
  simp
  omega

/-- Adding a block keeps the entries of `t` in the window apart. -/
theorem Valid.apart_txEntries (h : Valid crypto prune c)
    (hx : ∀ y ∈ indexed prune c, ∀ id ∈ x.2.txIDs crypto, id ∉ y.2.txIDs crypto) :
    Table.Apart (txEntries crypto) (x :: indexed prune c) := by
  refine List.pairwise_cons.mpr ⟨fun y hy => txEntries_disjoint (hx y hy), ?_⟩
  refine Table.pairwise_window fun z e hz y hy => ?_
  obtain ⟨a, rfl⟩ := hz
  exact txEntries_disjoint (h.extends_of_append.unconfirmed y hy)

/-- Adding a block keeps the entries of `k` in the window apart. -/
theorem Valid.apart_keyEntries (h : Valid crypto prune c) (hx : Fits crypto c x) :
    Table.Apart keyEntries (x :: indexed prune c) := by
  refine List.pairwise_cons.mpr ⟨fun y hy => ?_, ?_⟩
  · have hy' := Table.mem_of_mem_window hy
    refine keyEntries_disjoint hx.wellFormed (h.mem_wellFormed hy') ?_
    have := h.height_lt hy'
    rw [hx.height]
    omega
  · refine Table.pairwise_window fun z e hz y hy => ?_
    obtain ⟨a, rfl⟩ := hz
    have hy' := Table.mem_of_mem_window hy
    have he : Valid crypto prune (z :: e) := by simpa using h.drop a.length
    refine keyEntries_disjoint he.head.wellFormed (he.tail.mem_wellFormed hy') ?_
    have := he.tail.height_lt hy'
    rw [he.head.height]
    omega

/-- The height index finds each block of the chain at its height. -/
theorem Valid.getBlockIDForHeight (h : Valid crypto prune c)
    (hh : Table.Holds l.heightIndex (c.map heightEntry)) {n : Nat} (hd : c.drop n = y :: d) :
    l.getBlockIDForHeight d.length = some y.1 := by
  refine (hh _ _).mpr (List.mem_map.mpr ⟨y, ?_, ?_⟩)
  · exact List.mem_of_mem_drop (hd ▸ List.mem_cons_self)
  · rw [heightEntry, h.height_of_drop hd]

/-- What is due at the coinbase's turn: the coinbase of 100 blocks ago. -/
theorem Valid.dueTransaction_coinbase (h : Valid crypto prune c) (hst : Stored blockStore c)
    (hidx : ∀ y d, c.drop (coinbaseMaturity.toNat - 1) = y :: d →
      l.getBlockIDForHeight d.length = some y.1)
    {coinbase : Transaction} (hcb : coinbase.isCoinbase = true) :
    l.dueTransaction blockStore c.length coinbase = .ok (matured c) := by
  simp only [Ledger.dueTransaction, hcb, if_true]
  cases hd : c.drop (coinbaseMaturity.toNat - 1) with
  | nil =>
    have hlen : c.length ≤ coinbaseMaturity.toNat - 1 := List.drop_eq_nil_iff.mp hd
    rw [if_neg]
    · simp [matured, hd]
    · simp only [coinbaseMaturity] at hlen ⊢
      omega
  | cons y d =>
    have hlen : c.length = coinbaseMaturity.toNat - 1 + (d.length + 1) := by
      have := congrArg List.length hd
      rw [List.length_drop, List.length_cons] at this
      omega
    have hpos : (c.length : Int) - coinbaseMaturity = d.length := by
      rw [hlen]
      simp only [coinbaseMaturity]
      omega
    have hy : y ∈ c := List.mem_of_mem_drop (hd ▸ List.mem_cons_self)
    obtain ⟨t, hstored⟩ := hst y hy
    obtain ⟨first, rest, hshape, -⟩ := (h.mem_wellFormed hy).shape
    rw [hpos, if_pos (by omega)]
    simp [hidx y d hd, BlockStorage.getTransaction, hstored, hshape, matured, hd, bind, pure,
      Except.bind, Except.pure]

/-- The index operations for the block that leaves the window. -/
theorem Valid.indicesAt_leaving (h : Valid crypto prune c) (hst : Stored blockStore c)
    (hidx : ∀ y d, c.drop (pruneWindow - 1) = y :: d →
      l.getBlockIDForHeight d.length = some y.1)
    (indices : Crypto → Int → Nat → Transaction → List Write) :
    Ledger.whenHistoric prune c.length (fun height => l.indicesAt crypto blockStore height indices) =
    .ok ((Table.leaving prune pruneWindow c).toList.flatMap fun y =>
      indexWrites indices crypto y.2.header.height 0 y.2.transactions) := by
  unfold Ledger.whenHistoric
  cases prune with
  | false => simp [Table.leaving]
  | true =>
    simp only [Table.leaving, if_true, true_and]
    cases hd : c.drop (pruneWindow - 1) with
    | nil =>
      have hlen : c.length ≤ pruneWindow - 1 := List.drop_eq_nil_iff.mp hd
      rw [if_neg]
      · rfl
      · simp only [pruneWindow, blocksUntilNewSeries] at hlen ⊢
        omega
    | cons y d =>
      have hlen : c.length = pruneWindow - 1 + (d.length + 1) := by
        have := congrArg List.length hd
        rw [List.length_drop, List.length_cons] at this
        have : 0 < pruneWindow := by decide
        omega
      have hpos : (c.length : Int) - 2 * blocksUntilNewSeries = d.length := by
        rw [hlen]
        simp only [pruneWindow, blocksUntilNewSeries]
        omega
      have hy : y ∈ c := List.mem_of_mem_drop (hd ▸ List.mem_cons_self)
      obtain ⟨t, hstored⟩ := hst y hy
      rw [if_pos (by omega), hpos]
      simp [Ledger.indicesAt, hidx y d hd, BlockStorage.getBlock, hstored, bind, pure, Except.bind,
        Except.pure, indexWrites]

/-- What is due keeps the accounts solvent up to the coinbase's turn. -/
theorem Valid.solvent (h : Valid crypto prune c) : Solvent (balances c) := by
  refine ⟨h.balances_nonneg, ?_⟩
  have := h.total_add_matured_le
  have hm : 0 ≤ maturedAmount c := by
    unfold maturedAmount
    cases hmat : matured c with
    | none => simp
    | some tx => simpa using (h.matured_coinbase hmat).1.amount_pos.le
  omega

theorem Valid.solvent_matured (h : Valid crypto prune c) :
    Solvent (settle (balances c) ((matured c).toList.map Transaction.payment)) := by
  cases hmat : matured c with
  | none => simpa using h.solvent
  | some tx =>
    obtain ⟨hchk, hcb⟩ := h.matured_coinbase hmat
    have hfrom := Transaction.isCoinbase_eq_true_iff.mp hcb
    simp only [Option.toList_some, List.map_cons, List.map_nil, settle_cons, settle_nil]
    refine h.solvent.pay hchk.sound ?_ ?_
    · intro k hk
      rw [Transaction.payment, hfrom] at hk
      exact absurd hk (by simp)
    · have := h.total_add_matured_le
      simpa [Payment.issued, Transaction.payment, hfrom, maturedAmount, hmat] using this

end Chain

/-! ### The two operations -/

section Operations

open Chain

variable {crypto : Crypto} {prune : Bool} {c : Chain} {x : BlockID × Block} {l l' : Ledger}
  {K : Set BlockID} {blockStore : BlockStorage}

theorem describes_empty : Describes crypto prune Ledger.empty [] ∅ where
  chainTip := rfl
  known := by simp [ids]
  main := by simp [ids]
  side := by simp
  unknown := by simp [Ledger.empty]
  heightIndex := Table.holds_nil
  txIndex := by cases prune <;> exact Table.holds_nil
  pubKeyTxIndex := by cases prune <;> exact Table.holds_nil
  balances := by intro pk; simp [Ledger.empty, Chain.balances]

/-- **The description is complete.** -/
theorem Describes.unique (h : Describes crypto prune l c K) (h' : Describes crypto prune l' c K) :
    l = l' := by
  refine Ledger.ext (h.chainTip.trans h'.chainTip.symm) ?_ (h.heightIndex.unique h'.heightIndex)
    (h.txIndex.unique h'.txIndex) (h.pubKeyTxIndex.unique h'.pubKeyTxIndex) ?_
  · refine Std.ExtTreeMap.ext_getElem? fun {id} => ?_
    by_cases hc : id ∈ c.ids
    · rw [h.main id hc, h'.main id hc]
    · by_cases hK : id ∈ K
      · rw [h.side id hc hK, h'.side id hc hK]
      · rw [h.unknown id hK, h'.unknown id hK]
  · exact Std.ExtTreeMap.ext_getElem? fun {pk} => (h.balances pk).trans (h'.balances pk).symm

theorem Describes.getPublicKeyBalance (h : Describes crypto prune l c K) (pk : PublicKey) :
    l.getPublicKeyBalance pk = .ok (c.balances pk) :=
  congrArg Except.ok (h.balances.getD pk)

theorem Describes.contains_iff (h : Describes crypto prune l c K) (id : TransactionID) :
    l.txIndex.contains id = true ↔ ∃ y ∈ c.indexed prune, id ∈ y.2.txIDs crypto := by
  rw [h.txIndex.contains_iff]
  constructor
  · rintro ⟨e, he⟩
    obtain ⟨y, hy, hmem⟩ := List.mem_flatMap.mp he
    obtain ⟨i, hi, -⟩ := mem_txEntries hmem
    exact ⟨y, hy, List.mem_of_getElem? hi⟩
  · rintro ⟨y, hy, hid⟩
    obtain ⟨tx, htx, rfl⟩ := List.mem_map.mp hid
    obtain ⟨i, hi⟩ := List.getElem?_of_mem htx
    refine ⟨(y.2.header.height, i), List.mem_flatMap.mpr ⟨y, hy, ?_⟩⟩
    exact List.mem_map.mpr ⟨(tx, i), List.mem_zipIdx_iff_getElem?.mpr hi, rfl⟩

/-- An indexed transaction is found again by its ID. -/
theorem Describes.getTransactionIndex_isSome (h : Describes crypto prune l c K)
    {y : BlockID × Block} (hy : y ∈ c.indexed prune) {id : TransactionID}
    (hid : id ∈ y.2.txIDs crypto) :
    ((l.getTransactionIndex id).bind Prod.fst).isSome = true := by
  obtain ⟨e, he⟩ := (Table.contains_iff _ _).mp ((h.contains_iff id).mpr ⟨y, hy, hid⟩)
  obtain ⟨z, hz, hmem⟩ := List.mem_flatMap.mp ((h.txIndex id e).mp he)
  obtain ⟨i, -, rfl⟩ := mem_txEntries hmem
  have hheight : l.heightIndex[z.2.header.height]? = some z.1 :=
    (h.heightIndex _ _).mpr (List.mem_map_of_mem (Table.mem_of_mem_window hz))
  simp [Ledger.getTransactionIndex, Ledger.getBlockIDForHeight, he, hheight]

theorem Describes.unconfirmed_iff (h : Describes crypto prune l c K) (b : Block) :
    (∀ tx ∈ b.transactions, l.txIndex.contains (tx.id crypto) = false) ↔
      ∀ y ∈ c.indexed prune, ∀ id ∈ b.txIDs crypto, id ∉ y.2.txIDs crypto := by
  simp only [← Bool.not_eq_true, h.contains_iff, Block.txIDs, List.mem_map]
  constructor
  · rintro hn y hy - ⟨tx, htx, rfl⟩ hmem
    exact hn tx htx ⟨y, hy, hmem⟩
  · rintro hn tx htx ⟨y, hy, hmem⟩
    exact hn y hy _ ⟨tx, htx, rfl⟩ hmem

/-- The loop of `ConnectBlock` on the ledger of a chain. -/
theorem Describes.connectTransactions_cases (h : Describes crypto prune l c K)
    (hv : Valid crypto prune c) (hst : Stored blockStore c) (hx : Fits crypto c x) :
    ((∃ b, l.connectTransactions crypto blockStore x.2.header.height 0 x.2.transactions Pass.start =
          .ok ⟨b, indexWrites putIndices crypto x.2.header.height 0 x.2.transactions⟩ ∧
        Connects crypto prune c x.2 ∧
        Shows c.balances b (Chain.balances (x :: c))) ∨
      (∃ e, l.connectTransactions crypto blockStore x.2.header.height 0 x.2.transactions
          Pass.start = .error e ∧ e.isPanic = false ∧ ¬ Connects crypto prune c x.2)) ∧
    ∀ s ∈ l.connectSums crypto blockStore x.2.header.height 0 x.2.transactions Pass.start,
      Fits64 s := by
  obtain ⟨coinbase, transfers, hshape, hcb, hsigned⟩ := hx.wellFormed.shape
  have hdue := hv.dueTransaction_coinbase hst
    (fun y d hd => hv.getBlockIDForHeight h.heightIndex hd) hcb
  rw [← hx.height] at hdue
  have hunc := h.unconfirmed_iff x.2
  have hdues : dues c x.2 = (matured c).toList ++ transfers := by rw [dues, hshape, List.tail_cons]
  have hbal : Chain.balances (x :: c) =
      settle c.balances (((matured c).toList ++ transfers).map Transaction.payment) := by
    rw [Chain.balances, hdues]
  obtain ⟨hcases, hfits⟩ := Ledger.connectTransactions_cases crypto
    h.getPublicKeyBalance hv.solvent hdue (fun t ht => (hv.matured_coinbase ht).1)
    (fun _ => hv.solvent_matured)
    (fun tx htx => ⟨hx.wellFormed.checked tx (by simp [hshape, htx]), hsigned tx htx⟩)
  rw [← hshape] at hcases hfits
  refine ⟨hcases.imp ?_ ?_, hfits⟩
  · rintro ⟨b, hok, hnew, hcov, hshow⟩
    exact ⟨b, hok, ⟨hunc.mp hnew, hdues ▸ hcov⟩, hbal ▸ hshow⟩
  · rintro ⟨e, herr, hpanic, hfail⟩
    exact ⟨e, herr, hpanic, fun hc => hfail ⟨hunc.mpr hc.unconfirmed, hdues ▸ hc.covered⟩⟩

/-- The block's sanity check passes when it fits. -/
theorem Describes.checkConnects (h : Describes crypto prune l c K) (hx : Fits crypto c x) :
    l.checkConnects x.1 x.2 = .ok () := by
  unfold Ledger.checkConnects
  rw [h.chainTip]
  cases c with
  | nil => rfl
  | cons y c => simp [hx.linked y rfl]

theorem isIndexOp_leaving {o : Option (BlockID × Block)} {ops : BlockID × Block → List Write}
    (h : ∀ y, ∀ op ∈ ops y, Ledger.IsIndexOp op) :
    ∀ op ∈ o.toList.flatMap ops, Ledger.IsIndexOp op := by
  intro op hop
  obtain ⟨y, -, hy⟩ := List.mem_flatMap.mp hop
  exact h y op hy

/-- The operations for a block that leaves the window. -/
theorem leaving_delete_ops {o : Option (BlockID × Block)} :
    (o.toList.flatMap fun y => indexWrites deleteIndices crypto y.2.header.height 0
        y.2.transactions).filterMap Ledger.transactionOp =
      Table.deletes (o.toList.flatMap (txEntries crypto)) ∧
    (o.toList.flatMap fun y => indexWrites deleteIndices crypto y.2.header.height 0
        y.2.transactions).filterMap Ledger.pubKeyOp =
      Table.deletes (o.toList.flatMap keyEntries) := by
  cases o with
  | none => exact ⟨rfl, rfl⟩
  | some y => simpa using Ledger.delete_ops crypto y

/-- The operations for a block that returns to the window. -/
theorem leaving_put_ops {o : Option (BlockID × Block)} (ho : ∀ y ∈ o, y.2.WellFormed crypto) :
    (o.toList.flatMap fun y => indexWrites putIndices crypto y.2.header.height 0
        y.2.transactions).filterMap Ledger.transactionOp =
      Table.puts (o.toList.flatMap (txEntries crypto)) ∧
    (o.toList.flatMap fun y => indexWrites putIndices crypto y.2.header.height 0
        y.2.transactions).filterMap Ledger.pubKeyOp =
      Table.puts (o.toList.flatMap keyEntries) := by
  cases o with
  | none => exact ⟨rfl, rfl⟩
  | some y => simpa using Ledger.put_ops (ho y rfl)

/-- **Connecting a block** that fits on the main chain. -/
theorem Describes.connectBlock_cases (h : Describes crypto prune l c K)
    (hv : Valid crypto prune c) (hst : Stored blockStore c) (hx : Fits crypto c x) :
    (Connects crypto prune c x.2 ∧ ∃ l', l.connectBlock crypto prune blockStore x.1 x.2 =
        .ok (l', x.2.txIDs crypto) ∧ Describes crypto prune l' (x :: c) (insert x.1 K)) ∨
    (¬ Connects crypto prune c x.2 ∧ ∃ e, l.connectBlock crypto prune blockStore x.1 x.2 =
        .error e ∧ e.isPanic = false) := by
  have hprune : Ledger.whenHistoric prune x.2.header.height (l.pruneIndices crypto blockStore) =
      .ok _ := hx.height ▸ hv.indicesAt_leaving hst
    (fun y d hd => hv.getBlockIDForHeight h.heightIndex hd) deleteIndices
  simp only [Ledger.connectBlock, h.checkConnects hx]
  rcases (h.connectTransactions_cases hv hst hx).1 with
    ⟨b, hok, hconn, hshow⟩ | ⟨e, herr, hpanic, hnot⟩
  swap
  · exact Or.inr ⟨hnot, e, by rw [herr]; rfl, hpanic⟩
  refine Or.inl ⟨hconn, _, by rw [hok, hprune]; rfl, ?_⟩
  rw [Ledger.write_batch l b Ledger.isIndexOp_indexWrites.1
    (isIndexOp_leaving fun _ => Ledger.isIndexOp_indexWrites.2.1)]
  obtain ⟨hput, hputk⟩ := Ledger.put_ops hx.wellFormed
  have hids : Chain.ids (x :: c) = x.1 :: c.ids := rfl
  refine
    { chainTip := ?_, known := ?_, main := ?_, side := ?_, unknown := ?_, heightIndex := ?_,
      txIndex := ?_, pubKeyTxIndex := ?_, balances := Ledger.records_cacheOps h.balances hshow }
  · simp [hx.height]
  · intro id hid
    rcases List.mem_cons.mp hid with rfl | hid
    · exact Set.mem_insert _ _
    · exact Set.mem_insert_of_mem _ (h.known id hid)
  · intro id hid
    rw [Table.get_insert]
    split_ifs with heq
    · rfl
    · exact h.main id ((List.mem_cons.mp hid).resolve_left (Ne.symm heq))
  · intro id hid hK
    rw [hids, List.mem_cons, not_or] at hid
    rw [Table.get_insert, if_neg (Ne.symm hid.1)]
    exact h.side id hid.2 (hK.resolve_left hid.1)
  · intro id hK
    rw [Set.mem_insert_iff, not_or] at hK
    rw [Table.get_insert, if_neg (Ne.symm hK.1)]
    exact h.unknown id hK.2
  · refine h.heightIndex.put [heightEntry x] ?_ ?_
    · intro k v v' he he'
      rw [List.mem_singleton] at he he'
      exact (Prod.mk.inj (he.trans he'.symm)).2
    · intro k v v' hk hk'
      obtain ⟨y, hy, heq⟩ := List.mem_map.mp hk'
      have := hv.height_lt hy
      simp only [heightEntry, List.mem_singleton, Prod.mk.injEq] at hk heq
      have := hx.height
      omega
  · rw [hput, leaving_delete_ops.1]
    exact Table.holds_push (by decide) h.txIndex (txEntries_functional hx.wellFormed)
      (hv.apart_txEntries hconn.unconfirmed)
  · rw [hputk, leaving_delete_ops.2]
    exact Table.holds_push (by decide) h.pubKeyTxIndex (keyEntries_functional x)
      (hv.apart_keyEntries hx)

/-- The loop of `DisconnectBlock` on the ledger of a chain. -/
theorem Describes.disconnectTransactions_eq (h : Describes crypto prune l (x :: c) K)
    (hv : Valid crypto prune (x :: c)) (hst : Stored blockStore (x :: c)) :
    (∃ b, l.disconnectTransactions crypto blockStore x.2.header.height 0 x.2.transactions
          Pass.start =
        .ok ⟨b, reverseIndexWrites deleteIndices crypto x.2.header.height 0 x.2.transactions⟩ ∧
      Shows (Chain.balances (x :: c)) b c.balances) ∧
    ∀ s ∈ l.disconnectSums crypto blockStore x.2.header.height 0 x.2.transactions Pass.start,
      Fits64 s := by
  have hx := hv.head
  obtain ⟨coinbase, transfers, hshape, hcb, hsigned⟩ := hx.wellFormed.shape
  -- the matured coinbase is one position further down now
  have hdue := hv.tail.dueTransaction_coinbase (l := l)
    (fun y hy => hst y (List.mem_cons_of_mem _ hy))
    (fun y d hd => hv.getBlockIDForHeight h.heightIndex (n := coinbaseMaturity.toNat) hd) hcb
  rw [← hx.height] at hdue
  have hdues : dues c x.2 = (matured c).toList ++ transfers := by rw [dues, hshape, List.tail_cons]
  have hbal : Chain.balances (x :: c) =
      settle c.balances (((matured c).toList ++ transfers).map Transaction.payment) := by
    rw [Chain.balances, hdues]
  have hloop := Ledger.disconnectTransactions_eq crypto
    h.getPublicKeyBalance hv.tail.solvent hdue (fun t ht => (hv.tail.matured_coinbase ht).1)
    hv.tail.solvent_matured
    (fun tx htx => ⟨hx.wellFormed.checked tx (by simp [hshape, htx]), hsigned tx htx⟩)
    (hdues ▸ hx.covered) hbal
  rwa [← hshape] at hloop

/-- **Disconnecting the newest block** of the main chain. -/
theorem Describes.disconnectBlock_eq (h : Describes crypto prune l (x :: c) K)
    (hv : Valid crypto prune (x :: c)) (hst : Stored blockStore (x :: c)) (hc : c ≠ []) :
    ∃ l', l.disconnectBlock crypto prune blockStore x.1 x.2 = .ok (l', x.2.txIDs crypto) ∧
      Describes crypto prune l' c K := by
  have hx := hv.head
  have hcheck : l.checkDisconnects x.1 = .ok () := by
    simp [Ledger.checkDisconnects, h.chainTip]
  have hrestore : Ledger.whenHistoric prune x.2.header.height (l.restoreIndices crypto blockStore) =
      .ok _ := hx.height ▸ hv.tail.indicesAt_leaving
    (fun y hy => hst y (List.mem_cons_of_mem _ hy))
    (fun y d hd => hv.getBlockIDForHeight h.heightIndex (n := pruneWindow) hd) putIndices
  obtain ⟨⟨b, hok, hshow⟩, -⟩ := h.disconnectTransactions_eq hv hst
  simp only [Ledger.disconnectBlock, hcheck]
  refine ⟨_, by rw [hok, hrestore]; rfl, ?_⟩
  rw [Ledger.write_batch l b Ledger.isIndexOp_indexWrites.2.2
    (isIndexOp_leaving fun _ => Ledger.isIndexOp_indexWrites.1)]
  have hleaving : ∀ y ∈ Table.leaving prune pruneWindow c, y ∈ c := by
    intro y hy
    unfold Table.leaving at hy
    split_ifs at hy
    · exact List.mem_of_mem_drop (List.mem_of_mem_head? hy)
    · simp at hy
  have hwf : ∀ y ∈ Table.leaving prune pruneWindow c, y.2.WellFormed crypto :=
    fun y hy => hv.tail.mem_wellFormed (hleaving y hy)
  obtain ⟨ts, ks, hdel, hdelk, hts, hks⟩ := Ledger.reverse_delete_ops crypto x
  have hids : Chain.ids (x :: c) = x.1 :: c.ids := rfl
  have hfresh := hx.fresh
  refine
    { chainTip := ?_, known := ?_, main := ?_, side := ?_, unknown := ?_, heightIndex := ?_,
      txIndex := ?_, pubKeyTxIndex := ?_, balances := Ledger.records_cacheOps h.balances hshow }
  · obtain ⟨y, c, rfl⟩ := List.exists_cons_of_ne_nil hc
    simp [hx.linked y rfl, hx.height]
  · exact fun id hid => h.known id (List.mem_cons_of_mem _ hid)
  · intro id hid
    rw [Table.get_insert, if_neg (by rintro rfl; exact hfresh hid)]
    exact h.main id (List.mem_cons_of_mem _ hid)
  · intro id hid hK
    rw [Table.get_insert]
    split_ifs with heq
    · rfl
    · refine h.side id ?_ hK
      rw [hids, List.mem_cons, not_or]
      exact ⟨Ne.symm heq, hid⟩
  · intro id hK
    rw [Table.get_insert, if_neg]
    · exact h.unknown id hK
    · rintro rfl
      exact hK (h.known x.1 List.mem_cons_self)
  · refine Table.Holds.delete [heightEntry x] h.heightIndex ?_
    intro k v v' hk hk'
    obtain ⟨y, hy, heq⟩ := List.mem_map.mp hk'
    have := hv.tail.height_lt hy
    simp only [heightEntry, List.mem_singleton, Prod.mk.injEq] at hk heq
    have := hx.height
    omega
  · rw [hdel, (leaving_put_ops hwf).1]
    exact Table.holds_pop (by decide) hts h.txIndex (fun y hy => txEntries_functional (hwf y hy))
      (hv.tail.apart_txEntries hx.unconfirmed)
  · rw [hdelk, (leaving_put_ops hwf).2]
    exact Table.holds_pop (by decide) hks h.pubKeyTxIndex (fun y _ => keyEntries_functional y)
      (hv.tail.apart_keyEntries hx.toFits)

/-- The genesis block under its ID. -/
def genesisEntry (crypto : Crypto) : BlockID × Block := (genesisBlock.id crypto, genesisBlock)

/-- The genesis block extends the empty chain. -/
theorem extends_genesis : Extends crypto prune [] (genesisEntry crypto) where
  wellFormed := genesisBlock_wellFormed crypto
  fresh := by simp [ids]
  height := rfl
  linked := by simp
  unconfirmed := by
    intro y hy
    exact absurd (Table.mem_of_mem_window hy) (by simp)
  covered := trivial
  reward := show genesisBlock.coinbaseAmount = blockCreationReward 0 + genesisBlock.fees by decide

end Operations

end Cruzbit

/-
Cruzbit/LedgerRefinement.lean

The bytes in the database are the ledger (`disk_refines_ledger`).

`ConnectBlock` and `DisconnectBlock` read the database, go over the transactions
with a balance cache, and collect a batch.  On a database that represents a
ledger they come to the same batch, written as bytes (`Pass.bytes`), or stop
with the same error.  All they write fits, since a cached balance is what a
wrapped addition has left (`BalanceCache.Fits`).  So after any calls the
database represents the ledger.  The balances are written in the order of a
map, and that makes no difference (`write_balanceWrites`).

The queries have the same answers (`SameAnswers`).  Those with an iterator have
one because the heights that are asked for are not negative; else the limit may
come before the start.
-/
import Cruzbit.History
import Cruzbit.LedgerBytes

namespace Cruzbit

open KeyValue Word

/-! ### What the loops write fits -/

section Sizes

variable {crypto : Crypto} {l : Ledger} {blockStore : BlockStorage} {height : Int} {i : Nat}
  {tx : Transaction} {b b' : BalanceCache} {get : PublicKey → Res Int} {p p' : Pass}

/-- All cached balances fit. -/
def BalanceCache.Fits (b : BalanceCache) : Prop := 
  ∀ (pk : PublicKey) (x : Int), b.cache[pk]? = some x → Fits64 x

theorem BalanceCache.fits_new (minBalance : Int) : (BalanceCache.new minBalance).Fits := by
  intro pk x hget
  simp [BalanceCache.new] at hget

theorem BalanceCache.Fits.put (h : b.Fits) (pk : PublicKey) (x : Int) :
    (b.put pk (int64 x)).Fits := by
  intro pk' y hget
  rw [BalanceCache.put, Table.get_insert] at hget
  split_ifs at hget
  · exact Option.some.inj hget ▸ fits_int64 x
  · exact h pk' y hget

theorem BalanceCache.Fits.credit (h : b.Fits) : (b.credit get tx).1.Fits := by
  unfold BalanceCache.credit
  split
  · exact h
  · exact h.put _ _

theorem BalanceCache.Fits.apply (h : b.Fits) : (b.apply get tx).1.Fits := by
  unfold BalanceCache.apply
  split
  · exact h.credit
  · split
    · exact h
    · dsimp only
      split
      · exact h
      · split
        · exact h
        · exact (h.put _ _).credit

theorem BalanceCache.Fits.debit (h : b.Fits) (hb : b.debit get tx = .ok b') : b'.Fits := by
  simp only [BalanceCache.debit, Res.bind_eq_ok] at hb
  obtain ⟨x, -, u, -, hput⟩ := hb
  exact Except.ok.inj hput ▸ h.put _ _

theorem BalanceCache.Fits.undo (h : b.Fits) (hb : b.undo get tx = .ok b') : b'.Fits := by
  unfold BalanceCache.undo at hb
  split_ifs at hb
  · exact h.debit hb
  · obtain ⟨x, -, hdebit⟩ := Res.bind_eq_ok.mp hb
    exact (h.put _ _).debit hdebit

theorem BalanceCache.Fits.applyDue (h : b.Fits) {due : Option Transaction}
    (hb : l.applyDue crypto b due = .ok b') : b'.Fits := by
  cases due with
  | none => exact Except.ok.inj hb ▸ h
  | some due =>
    have hfits : (b.apply l.getPublicKeyBalance due).1.Fits := h.apply
    rw [Ledger.applyDue] at hb
    split at hb
    · cases hb
    · cases hb
    · next heq =>
      rw [heq] at hfits
      exact Except.ok.inj hb ▸ hfits

theorem BalanceCache.Fits.undoDue (h : b.Fits) {due : Option Transaction}
    (hb : l.undoDue b due = .ok b') : b'.Fits := by
  cases due with
  | none => exact Except.ok.inj hb ▸ h
  | some due => exact h.undo hb

theorem head_partyKeys {key : List UInt8} (hkey : key ∈ partyKeys height i tx) :
    key.head? = some 107 := by
  simp only [partyKeys, List.mem_append, List.mem_singleton] at hkey
  rcases hkey with hkey | rfl
  · split_ifs at hkey
    · exact absurd hkey (List.not_mem_nil)
    · rw [List.mem_singleton.mp hkey]
      rfl
  · rfl

theorem int32_int32 (x : Int) : int32 (int32 x) = int32 x := by
  simp only [int32, Int.bmod_bmod]

theorem sized_putIndices (hheight : Fits64 height) :
    ∀ w ∈ putIndices crypto height i tx, w.Sized := by
  intro w hw
  simp only [putIndices, List.mem_cons, List.mem_map] at hw
  rcases hw with rfl | ⟨key, hkey, rfl⟩
  · simp only [Write.Sized, Option.mem_some_iff, forall_eq', int32_int32, and_true]
    exact hheight
  · exact head_partyKeys hkey

theorem sized_deleteIndices : ∀ w ∈ deleteIndices crypto height i tx, w.Sized := by
  intro w hw
  simp only [deleteIndices, List.mem_cons, List.mem_map] at hw
  rcases hw with rfl | ⟨key, hkey, rfl⟩
  · intro e he
    exact absurd he (Option.not_mem_none e)
  · exact head_partyKeys hkey

theorem sized_balanceWrites (h : b.Fits) : ∀ w ∈ balanceWrites b, w.Sized := by
  intro w hw
  obtain ⟨e, he, rfl⟩ := List.mem_map.mp hw
  have hfits : Fits64 e.2 := h e.1 e.2 ((Table.mem_toList _ _ _).mp he)
  intro x hx
  split_ifs at hx
  · cases hx
  · exact Option.some.inj hx ▸ hfits

/-- **What the loops have collected fits.** -/
structure Pass.Sized (p : Pass) : Prop where
  cache : p.balanceCache.Fits
  batch : ∀ w ∈ p.batch, w.Sized

theorem Pass.sized_start : Pass.start.Sized :=
  ⟨BalanceCache.fits_new 0, fun _ hw => absurd hw (List.not_mem_nil)⟩

theorem Pass.Sized.extend (hp : p.Sized) (hb : b.Fits) {ws : List Write}
    (hws : ∀ w ∈ ws, w.Sized) : Pass.Sized ⟨b, p.batch ++ ws⟩ :=
  ⟨hb, List.forall_mem_append.mpr ⟨hp.batch, hws⟩⟩

theorem Pass.Sized.connectTransaction (hp : p.Sized) (hheight : Fits64 height)
    (hok : l.connectTransaction crypto blockStore height i tx p = .ok p') : p'.Sized := by
  simp only [Ledger.connectTransaction, Res.bind_eq_ok] at hok
  obtain ⟨u, -, due, -, b, hb, hp'⟩ := hok
  exact Except.ok.inj hp' ▸ hp.extend (hp.cache.applyDue hb) (sized_putIndices hheight)

theorem Pass.Sized.connectTransactions (hheight : Fits64 height) {txs : List Transaction}
    (hp : p.Sized) (hok : l.connectTransactions crypto blockStore height i txs p = .ok p') :
    p'.Sized := by
  induction txs generalizing i p with
  | nil => exact Except.ok.inj hok ▸ hp
  | cons tx txs ih =>
    obtain ⟨q, hq, hrest⟩ := Res.bind_eq_ok.mp hok
    exact ih (hp.connectTransaction hheight hq) hrest

theorem Pass.Sized.disconnectTransaction (hp : p.Sized)
    (hok : l.disconnectTransaction crypto blockStore height i tx p = .ok p') : p'.Sized := by
  simp only [Ledger.disconnectTransaction, Res.bind_eq_ok] at hok
  obtain ⟨due, -, b, hb, hp'⟩ := hok
  exact Except.ok.inj hp' ▸ hp.extend (hp.cache.undoDue hb) sized_deleteIndices

theorem Pass.Sized.disconnectTransactions {txs : List Transaction} (hp : p.Sized)
    (hok : l.disconnectTransactions crypto blockStore height i txs p = .ok p') : p'.Sized := by
  induction txs generalizing i p' with
  | nil => exact Except.ok.inj hok ▸ hp
  | cons tx txs ih =>
    obtain ⟨q, hq, hlast⟩ := Res.bind_eq_ok.mp hok
    exact (ih hq).disconnectTransaction hlast

/-- All heights in storage fit. -/
def HeightsFit (blockStore : BlockStorage) : Prop :=
  ∀ (id : BlockID) (e : StoredBlock), blockStore[id]? = some e → Fits64 e.block.header.height

theorem sized_indicesAt (hstore : HeightsFit blockStore)
    {indices : Crypto → Int → Nat → Transaction → List Write} {ws : List Write}
    (hindices : ∀ h i tx, Fits64 h → ∀ w ∈ indices crypto h i tx, w.Sized)
    (hok : l.indicesAt crypto blockStore height indices = .ok ws) : ∀ w ∈ ws, w.Sized := by
  unfold Ledger.indicesAt at hok
  split at hok
  · cases hok
  · next id hid =>
    obtain ⟨block, hblock, hws⟩ := Res.bind_eq_ok.mp hok
    have hheight : Fits64 block.header.height := by
      unfold BlockStorage.getBlock at hblock
      split at hblock
      · cases hblock
      · next e he => exact Except.ok.inj hblock ▸ hstore id e he
    obtain rfl := Except.ok.inj hws
    intro w hw
    obtain ⟨e, -, hw⟩ := List.mem_flatMap.mp hw
    exact hindices _ _ _ hheight w hw

theorem sized_whenHistoric {prune : Bool} {f : Int → Res (List Write)} {ws : List Write}
    (hf : ∀ n ws, f n = .ok ws → ∀ w ∈ ws, w.Sized)
    (hok : Ledger.whenHistoric prune height f = .ok ws) : ∀ w ∈ ws, w.Sized := by
  unfold Ledger.whenHistoric at hok
  split_ifs at hok
  · exact hf _ _ hok
  · obtain rfl := Except.ok.inj hok
    exact fun w hw => absurd hw (List.not_mem_nil)

end Sizes

/-! ### The loops on both levels -/

section Loops

variable {crypto : Crypto} {db : Store} {l : Ledger} {blockStore : BlockStorage} {height : Int}
  {i : Nat} {tx : Transaction} {b : BalanceCache} {p : Pass}

/-- The state of the loops, with the batch as bytes. -/
def Pass.bytes (p : Pass) : LedgerDisk.Pass := ⟨p.balanceCache, p.batch.map Write.op⟩

theorem putIndices_op (crypto : Crypto) (height : Int) (i : Nat) (tx : Transaction) :
    (putIndices crypto height i tx).map Write.op = LedgerDisk.putIndices crypto height i tx := by
  have hindex : encodeTransactionIndex height (int32 i) = encodeTransactionIndex height i := by
    rw [encodeTransactionIndex, encodeTransactionIndex, int32_int32]
  rw [putIndices, LedgerDisk.putIndices, List.map_cons, List.map_map, Write.op, Option.map_some,
    hindex]
  rfl

theorem deleteIndices_op (crypto : Crypto) (height : Int) (i : Nat) (tx : Transaction) :
    (deleteIndices crypto height i tx).map Write.op =
      LedgerDisk.deleteIndices crypto height i tx := by
  rw [deleteIndices, LedgerDisk.deleteIndices, List.map_cons, List.map_map]
  rfl

theorem Represents.dueTransaction (h : Represents db l) (hheight : Fits64 height) :
    LedgerDisk.dueTransaction db blockStore height tx =
      l.dueTransaction blockStore height tx := by
  unfold LedgerDisk.dueTransaction Ledger.dueTransaction
  split_ifs with hcoinbase hold
  · have hfits : Fits64 (height - coinbaseMaturity) := by
      unfold Fits64 coinbaseMaturity at *
      omega
    have hfound := h.getBlockIDForHeight hfits
    generalize LedgerDisk.getBlockIDForHeight db (height - coinbaseMaturity) = found at hfound ⊢
    subst hfound
    rfl
  · rfl
  · rfl

theorem Represents.applyDue (h : Represents db l) (due : Option Transaction) :
    LedgerDisk.applyDue crypto db b due = l.applyDue crypto b due := by
  cases due with
  | none => rfl
  | some due =>
    have hread := h.getPublicKeyBalance
    unfold LedgerDisk.applyDue Ledger.applyDue
    generalize LedgerDisk.getPublicKeyBalance db = read at hread ⊢
    subst hread
    rfl

theorem Represents.undoDue (h : Represents db l) (due : Option Transaction) :
    LedgerDisk.undoDue db b due = l.undoDue b due := by
  cases due with
  | none => rfl
  | some due => rw [LedgerDisk.undoDue, Ledger.undoDue, h.getPublicKeyBalance]

/-- **One transaction of `ConnectBlock`.** -/
theorem Represents.connectTransaction (h : Represents db l) (hheight : Fits64 height) :
    LedgerDisk.connectTransaction crypto db blockStore height i tx p.bytes =
      (l.connectTransaction crypto blockStore height i tx p).map Pass.bytes := by
  simp only [LedgerDisk.connectTransaction, Ledger.connectTransaction, h.contains_tx,
    h.dueTransaction hheight, h.applyDue]
  cases failIf (l.txIndex.contains (tx.id crypto) = true) (.alreadyProcessed (tx.id crypto)) with
  | error e => rfl
  | ok _ =>
    cases l.dueTransaction blockStore height tx with
    | error e => rfl
    | ok due =>
      show (l.applyDue crypto p.balanceCache due >>= _) =
        (l.applyDue crypto p.balanceCache due >>= _).map Pass.bytes
      cases l.applyDue crypto p.balanceCache due with
      | error e => rfl
      | ok b =>
        show Except.ok _ = Except.ok (Pass.bytes _)
        rw [Pass.bytes, Pass.bytes, List.map_append, putIndices_op]

theorem Represents.connectTransactions (h : Represents db l) (crypto : Crypto)
    (blockStore : BlockStorage) (hheight : Fits64 height) (i : Nat) (txs : List Transaction)
    (p : Pass) :
    LedgerDisk.connectTransactions crypto db blockStore height i txs p.bytes =
      (l.connectTransactions crypto blockStore height i txs p).map Pass.bytes := by
  induction txs generalizing i p with
  | nil => rfl
  | cons tx txs ih =>
    rw [LedgerDisk.connectTransactions, Ledger.connectTransactions, h.connectTransaction hheight]
    cases l.connectTransaction crypto blockStore height i tx p with
    | error e => rfl
    | ok q => exact ih _ q

/-- **One transaction of `DisconnectBlock`.** -/
theorem Represents.disconnectTransaction (h : Represents db l) (hheight : Fits64 height) :
    LedgerDisk.disconnectTransaction crypto db blockStore height i tx p.bytes =
      (l.disconnectTransaction crypto blockStore height i tx p).map Pass.bytes := by
  simp only [LedgerDisk.disconnectTransaction, Ledger.disconnectTransaction,
    h.dueTransaction hheight, h.undoDue]
  cases l.dueTransaction blockStore height tx with
  | error e => rfl
  | ok due =>
    show (l.undoDue p.balanceCache due >>= _) =
      (l.undoDue p.balanceCache due >>= _).map Pass.bytes
    cases l.undoDue p.balanceCache due with
    | error e => rfl
    | ok b =>
      show Except.ok _ = Except.ok (Pass.bytes _)
      rw [Pass.bytes, Pass.bytes, List.map_append, deleteIndices_op]

theorem Represents.disconnectTransactions (h : Represents db l) (crypto : Crypto)
    (blockStore : BlockStorage) (hheight : Fits64 height) (i : Nat) (txs : List Transaction)
    (p : Pass) :
    LedgerDisk.disconnectTransactions crypto db blockStore height i txs p.bytes =
      (l.disconnectTransactions crypto blockStore height i txs p).map Pass.bytes := by
  induction txs generalizing i with
  | nil => rfl
  | cons tx txs ih =>
    rw [LedgerDisk.disconnectTransactions, Ledger.disconnectTransactions, ih]
    cases l.disconnectTransactions crypto blockStore height (i + 1) txs p with
    | error e => rfl
    | ok q => exact h.disconnectTransaction hheight

theorem Represents.indicesAt (h : Represents db l) (crypto : Crypto)
    (blockStore : BlockStorage) (hheight : Fits64 height)
    {indices : Crypto → Int → Nat → Transaction → List Write}
    {bytes : Crypto → Int → Nat → Transaction → Batch}
    (hop : ∀ n i tx, (indices crypto n i tx).map Write.op = bytes crypto n i tx) :
    LedgerDisk.indicesAt crypto db blockStore height bytes =
      (l.indicesAt crypto blockStore height indices).map (List.map Write.op) := by
  rw [LedgerDisk.indicesAt, Ledger.indicesAt, h.getBlockIDForHeight hheight]
  cases l.getBlockIDForHeight height with
  | none => rfl
  | some id =>
    show (blockStore.getBlock id >>= _) = (blockStore.getBlock id >>= _).map _
    cases blockStore.getBlock id with
    | error e => rfl
    | ok block =>
      show Except.ok _ = Except.ok (List.map Write.op _)
      rw [List.map_flatMap]
      simp only [hop]

theorem whenHistoric_op (prune : Bool) {f : Int → Res (List Write)}
    {f' : Int → Res Batch} (hheight : Fits64 height)
    (hf : ∀ n, Fits64 n → f' n = (f n).map (List.map Write.op)) :
    LedgerDisk.whenHistoric prune height f' =
      (Ledger.whenHistoric prune height f).map (List.map Write.op) := by
  unfold LedgerDisk.whenHistoric Ledger.whenHistoric
  split_ifs with hold
  · refine hf _ ?_
    unfold Fits64 blocksUntilNewSeries at *
    omega
  · rfl

theorem Represents.checkConnects (h : Represents db l) (id : BlockID) (block : Block) :
    LedgerDisk.checkConnects db id block = l.checkConnects id block := by
  rw [LedgerDisk.checkConnects, Ledger.checkConnects, h.getChainTip]
  cases l.chainTip with
  | none => rfl
  | some t => rfl

theorem Represents.checkDisconnects (h : Represents db l) (id : BlockID) :
    LedgerDisk.checkDisconnects db id = l.checkDisconnects id := by
  rw [LedgerDisk.checkDisconnects, Ledger.checkDisconnects, h.getChainTip]
  cases l.chainTip with
  | none => rfl
  | some t => rfl

end Loops

/-! ### The calls on both levels -/

section Calls

variable {crypto : Crypto} {prune : Bool} {db : Store} {l : Ledger} {blockStore : BlockStorage}
  {id : BlockID} {block : Block} {b : BalanceCache} {p : Pass}

theorem balanceWrites_op (b : BalanceCache) : (balanceWrites b).map Write.op =
    b.cache.toList.map fun e =>
      (computePubKeyBalanceKey e.1, if e.2 = 0 then none else some (encodeNumber e.2)) := by
  rw [balanceWrites, List.map_map]
  refine List.map_congr_left fun e _ => ?_
  show (_, Option.map encodeNumber (if e.2 = 0 then none else some e.2)) = _
  split_ifs <;> rfl

/-- **The order of the map makes no difference.** -/
theorem write_balanceWrites (order : MapOrder) (b : BalanceCache) (db : Store) :
    Table.write db (LedgerDisk.balanceWrites order b) =
      Table.write db ((balanceWrites b).map Write.op) := by
  rw [balanceWrites_op]
  refine (write_perm ((order.perm b).map _).symm ?_ db).symm
  -- the keys of the batch are those of the map behind one byte
  refine List.Nodup.of_map List.tail ?_
  rw [List.map_map, List.map_map]
  exact Table.nodup_keys b.cache

/-- **The batch of a block.** -/
theorem Represents.writeAll (h : Represents db l) (order : MapOrder) (hp : p.Sized)
    (ws : List Write) {ws' : List Write} (hws : ∀ w ∈ ws, w.Sized) (hws' : ∀ w ∈ ws', w.Sized) :
    Represents
      (Table.write db (p.bytes.batch ++ LedgerDisk.balanceWrites order p.bytes.balanceCache ++
        ws.map Write.op ++ ws'.map Write.op))
      (l.write (p.batch ++ balanceWrites p.balanceCache ++ ws ++ ws')) := by
  have hsized : ∀ w ∈ p.batch ++ balanceWrites p.balanceCache ++ ws ++ ws', w.Sized := by
    simp only [List.forall_mem_append]
    exact ⟨⟨⟨hp.batch, sized_balanceWrites hp.cache⟩, hws⟩, hws'⟩
  have hwritten := h.write hsized
  simp only [List.map_append, Table.write_append] at hwritten ⊢
  rw [write_balanceWrites]
  exact hwritten

/-- The outcomes of a call on the two levels. -/
inductive SameOutcome : Res (Store × List TransactionID) → Res (Ledger × List TransactionID) → Prop
  | ok {db : Store} {l : Ledger} (ids : List TransactionID) :
      Represents db l → SameOutcome (.ok (db, ids)) (.ok (l, ids))
  | error (e : Err) : SameOutcome (.error e) (.error e)

/-- The heights are not negative and fit, as `checkBlock` has made sure of. -/
structure BlockSized (blockStore : BlockStorage) (block : Block) : Prop where
  nonneg : 0 ≤ block.header.height
  fits : Fits64 block.header.height
  store : HeightsFit blockStore

/-- Both calls end in the same way: some operations from an older block are added to the batch,
and everything is written. -/
theorem Represents.finish (h : Represents db l) (order : MapOrder)
    (hsized : BlockSized blockStore block) (hp : p.Sized) (ws : List Write)
    (hws : ∀ w ∈ ws, w.Sized) {indices : Crypto → Int → Nat → Transaction → List Write}
    {bytes : Crypto → Int → Nat → Transaction → Batch}
    (hop : ∀ n i tx, (indices crypto n i tx).map Write.op = bytes crypto n i tx)
    (hindices : ∀ n i tx, Fits64 n → ∀ w ∈ indices crypto n i tx, w.Sized)
    (ids : List TransactionID) :
    SameOutcome
      (do
        let older ← LedgerDisk.whenHistoric prune block.header.height fun n =>
          LedgerDisk.indicesAt crypto db blockStore n bytes
        pure (Table.write db (p.bytes.batch ++
          LedgerDisk.balanceWrites order p.bytes.balanceCache ++ ws.map Write.op ++ older), ids))
      (do
        let older ← Ledger.whenHistoric prune block.header.height fun n =>
          l.indicesAt crypto blockStore n indices
        pure (l.write (p.batch ++ balanceWrites p.balanceCache ++ ws ++ older), ids)) := by
  rw [whenHistoric_op prune hsized.fits fun n hn => h.indicesAt crypto blockStore hn hop]
  cases hok : Ledger.whenHistoric prune block.header.height
    (fun n => l.indicesAt crypto blockStore n indices) with
  | error e => exact .error e
  | ok ws' =>
    have hws' : ∀ w ∈ ws', w.Sized :=
      sized_whenHistoric (fun n _ hn => sized_indicesAt hsized.store hindices hn) hok
    exact .ok ids (h.writeAll order hp ws hws hws')

/-- **`ConnectBlock`.** -/
theorem Represents.connectBlock (h : Represents db l) (order : MapOrder)
    (hsized : BlockSized blockStore block) :
    SameOutcome (LedgerDisk.connectBlock crypto prune order blockStore db id block)
      (l.connectBlock crypto prune blockStore id block) := by
  rw [LedgerDisk.connectBlock, Ledger.connectBlock, h.checkConnects]
  cases l.checkConnects id block with
  | error e => exact .error e
  | ok _ =>
    have hloop := h.connectTransactions crypto blockStore hsized.fits 0 block.transactions
      Pass.start
    show SameOutcome (LedgerDisk.connectTransactions crypto db blockStore block.header.height 0
      block.transactions Pass.start.bytes >>= _) (l.connectTransactions crypto blockStore
        block.header.height 0 block.transactions Pass.start >>= _)
    rw [hloop]
    cases hok : l.connectTransactions crypto blockStore block.header.height 0 block.transactions
      Pass.start with
    | error e => exact .error e
    | ok p =>
      refine h.finish order hsized (Pass.sized_start.connectTransactions hsized.fits hok)
        [.blockHeight block.header.height (some id), .branchType id .main,
          .chainTip id block.header.height] ?_ (deleteIndices_op crypto)
        (fun _ _ _ _ => sized_deleteIndices) _
      simp only [List.forall_mem_cons]
      exact ⟨hsized.fits, trivial, hsized.fits, fun w hw => absurd hw (List.not_mem_nil)⟩

/-- **`DisconnectBlock`.** -/
theorem Represents.disconnectBlock (h : Represents db l) (order : MapOrder)
    (hsized : BlockSized blockStore block) :
    SameOutcome (LedgerDisk.disconnectBlock crypto prune order blockStore db id block)
      (l.disconnectBlock crypto prune blockStore id block) := by
  have hfits : Fits64 (block.header.height - 1) := by
    have hnonneg := hsized.nonneg
    have hheight := hsized.fits
    unfold Fits64 at *
    omega
  rw [LedgerDisk.disconnectBlock, Ledger.disconnectBlock, h.checkDisconnects]
  cases l.checkDisconnects id with
  | error e => exact .error e
  | ok _ =>
    have hloop := h.disconnectTransactions crypto blockStore hsized.fits 0 block.transactions
      Pass.start
    show SameOutcome (LedgerDisk.disconnectTransactions crypto db blockStore block.header.height 0
      block.transactions Pass.start.bytes >>= _) (l.disconnectTransactions crypto blockStore
        block.header.height 0 block.transactions Pass.start >>= _)
    rw [hloop]
    cases hok : l.disconnectTransactions crypto blockStore block.header.height 0
      block.transactions Pass.start with
    | error e => exact .error e
    | ok p =>
      refine h.finish order hsized (Pass.sized_start.disconnectTransactions hok)
        [.blockHeight block.header.height none, .branchType id .side,
          .chainTip block.header.previous (block.header.height - 1)] ?_ (putIndices_op crypto)
        (fun _ _ _ hn => sized_putIndices hn) _
      simp only [List.forall_mem_cons]
      exact ⟨hsized.fits, trivial, hfits, fun w hw => absurd hw (List.not_mem_nil)⟩

end Calls

/-! ### Any number of calls -/

/-- A call that writes to block storage or to the ledger. -/
inductive DiskCall
  | store (id : BlockID) (block : Block) (now : Int)
  | connectBlock (id : BlockID) (block : Block)
  | disconnectBlock (id : BlockID) (block : Block)
  | setBranchType (id : BlockID) (kind : BranchType)

namespace DiskCall

/-- The heights are not negative and fit, as `checkBlock` has made sure of. -/
def Sized : DiskCall → Prop
  | store _ block _ | connectBlock _ block | disconnectBlock _ block =>
    0 ≤ block.header.height ∧ Fits64 block.header.height
  | setBranchType _ _ => True

/-- The block storage after the call. -/
def blockStore (s : BlockStorage) : DiskCall → BlockStorage
  | store id block now => s.store id block now
  | _ => s

/-- The call on the tables. -/
def onLedger (crypto : Crypto) (prune : Bool) (s : BlockStorage) (l : Ledger) :
    DiskCall → Res (Ledger × List TransactionID)
  | store _ _ _ => .ok (l, [])
  | connectBlock id block => l.connectBlock crypto prune s id block
  | disconnectBlock id block => l.disconnectBlock crypto prune s id block
  | setBranchType id kind => .ok (l.setBranchType id kind, [])

/-- The call on the database. -/
def onDisk (crypto : Crypto) (prune : Bool) (order : MapOrder) (s : BlockStorage) (db : Store) :
    DiskCall → Res (Store × List TransactionID)
  | store _ _ _ => .ok (db, [])
  | connectBlock id block => LedgerDisk.connectBlock crypto prune order s db id block
  | disconnectBlock id block => LedgerDisk.disconnectBlock crypto prune order s db id block
  | setBranchType id kind => .ok (LedgerDisk.setBranchType db id kind, [])

/-- The calls one after the other, each with the order in which it comes upon the balances: the
state in the end, and what each call returned.  A call that fails writes nothing. -/
def run {σ : Type} (step : BlockStorage → σ → MapOrder × DiskCall → Res (σ × List TransactionID)) :
    List (MapOrder × DiskCall) → BlockStorage → σ → σ × List (Res (List TransactionID))
  | [], _, state => (state, [])
  | call :: calls, s, state =>
    match step s state call with
    | .error e =>
      let rest := run step calls (call.2.blockStore s) state
      (rest.1, .error e :: rest.2)
    | .ok (state', ids) =>
      let rest := run step calls (call.2.blockStore s) state'
      (rest.1, .ok ids :: rest.2)

def runLedger (crypto : Crypto) (prune : Bool) :
    List (MapOrder × DiskCall) → BlockStorage → Ledger → Ledger × List (Res (List TransactionID)) :=
  run fun s l call => call.2.onLedger crypto prune s l

def runDisk (crypto : Crypto) (prune : Bool) :
    List (MapOrder × DiskCall) → BlockStorage → Store → Store × List (Res (List TransactionID)) :=
  run fun s db call => call.2.onDisk crypto prune call.1 s db

end DiskCall

/-- **Every query has the same answer.**  The answer of a query with an iterator is one at all:
its range is not inverted.  A range query is asked for heights, which are not negative. -/
structure SameAnswers (crypto : Crypto) (db : Store) (l : Ledger) : Prop where
  getChainTip : LedgerDisk.getChainTip db = .ok l.chainTip
  getBlockIDForHeight : ∀ height, Fits64 height →
    LedgerDisk.getBlockIDForHeight db height = l.getBlockIDForHeight height
  getBranchType : ∀ id, LedgerDisk.getBranchType db id = some (l.getBranchType id).code
  getPublicKeyBalance : ∀ pk, LedgerDisk.getPublicKeyBalance db pk = l.getPublicKeyBalance pk
  getPublicKeyBalances : ∀ pks, LedgerDisk.getPublicKeyBalances db pks =
    .ok (pks.foldl (fun balances pk =>
      balances.insert (pubKeyArray pk) ((l.balances[pk]?).getD 0)) ∅, l.chainTip)
  getTransactionIndex : ∀ id,
    LedgerDisk.getTransactionIndex db id = .ok (l.getTransactionIndex id)
  getPublicKeyTransactionIndicesRange : ∀ pk startHeight endHeight startIndex limit,
    0 ≤ startHeight ∧ startHeight < 2 ^ 63 → 0 ≤ endHeight ∧ endHeight < 2 ^ 63 →
    LedgerDisk.getPublicKeyTransactionIndicesRange db pk startHeight endHeight startIndex limit =
      some (l.getPublicKeyTransactionIndicesRange pk startHeight endHeight startIndex limit)
  balance : LedgerDisk.balance db = some l.balance
  getPublicKeyBalanceAt : ∀ s pk height,
    LedgerDisk.getPublicKeyBalanceAt crypto db s pk height =
      some (l.getPublicKeyBalanceAt crypto s pk height)

section Runs

variable {crypto : Crypto} {prune : Bool} {db : Store} {l : Ledger} {s : BlockStorage}
  {call : DiskCall}

theorem Represents.getPublicKeyBalances (h : Represents db l) (pks : List PublicKey) :
    LedgerDisk.getPublicKeyBalances db pks =
      .ok (pks.foldl (fun balances pk =>
        balances.insert (pubKeyArray pk) ((l.balances[pk]?).getD 0)) ∅, l.chainTip) := by
  have hfold (balances : Table PublicKey Int) :
      pks.foldlM (fun (balances : Table PublicKey Int) pk => do
        let balance ← l.getPublicKeyBalance pk
        pure (balances.insert (pubKeyArray pk) balance)) balances =
      (Except.ok (pks.foldl (fun balances pk =>
        balances.insert (pubKeyArray pk) ((l.balances[pk]?).getD 0)) balances) : Res _) := by
    induction pks generalizing balances with
    | nil => rfl
    | cons pk pks ih => exact ih _
  rw [LedgerDisk.getPublicKeyBalances, h.getChainTip, h.getPublicKeyBalance, hfold]
  rfl

theorem Represents.sameAnswers (h : Represents db l) : SameAnswers crypto db l where
  getChainTip := h.getChainTip
  getBlockIDForHeight _ := h.getBlockIDForHeight
  getBranchType := h.getBranchType
  getPublicKeyBalance := congrFun h.getPublicKeyBalance
  getPublicKeyBalances := h.getPublicKeyBalances
  getTransactionIndex := h.getTransactionIndex
  getPublicKeyTransactionIndicesRange pk _ _ startIndex limit hstart hend :=
    h.getPublicKeyTransactionIndicesRange pk hstart hend startIndex limit
  balance := h.balance
  getPublicKeyBalanceAt := h.getPublicKeyBalanceAt

/-- What is stored are blocks with a height that fits. -/
theorem HeightsFit.blockStore (hs : HeightsFit s) (hcall : call.Sized) :
    HeightsFit (call.blockStore s) := by
  cases call with
  | store id block now =>
    intro id' e hget
    rw [DiskCall.blockStore, BlockStorage.get_store] at hget
    split_ifs at hget
    · exact Option.some.inj hget ▸ hcall.2
    · exact hs id' e hget
  | connectBlock id block => exact hs
  | disconnectBlock id block => exact hs
  | setBranchType id kind => exact hs

/-- **One call.** -/
theorem Represents.onDisk (h : Represents db l) (hs : HeightsFit s) (hcall : call.Sized)
    (order : MapOrder) :
    SameOutcome (call.onDisk crypto prune order s db) (call.onLedger crypto prune s l) := by
  cases call with
  | store id block now => exact .ok [] h
  | connectBlock id block => exact h.connectBlock order ⟨hcall.1, hcall.2, hs⟩
  | disconnectBlock id block => exact h.disconnectBlock order ⟨hcall.1, hcall.2, hs⟩
  | setBranchType id kind =>
    have hsized : ∀ w ∈ [Write.branchType id kind], w.Sized := by
      intro w hw
      rw [List.mem_singleton.mp hw]
      trivial
    exact .ok [] (h.write hsized)

/-- **Any number of calls.** -/
theorem Represents.run (calls : List (MapOrder × DiskCall)) (hs : HeightsFit s)
    (hcalls : ∀ call ∈ calls, call.2.Sized) (h : Represents db l) :
    (DiskCall.runDisk crypto prune calls s db).2 =
        (DiskCall.runLedger crypto prune calls s l).2 ∧
      Represents (DiskCall.runDisk crypto prune calls s db).1
        (DiskCall.runLedger crypto prune calls s l).1 := by
  induction calls generalizing s db l with
  | nil => exact ⟨rfl, h⟩
  | cons call calls ih =>
    obtain ⟨hcall, hcalls⟩ := List.forall_mem_cons.mp hcalls
    have hs' := hs.blockStore hcall
    have hout : SameOutcome (call.2.onDisk crypto prune call.1 s db)
      (call.2.onLedger crypto prune s l) := h.onDisk hs hcall call.1
    unfold DiskCall.runDisk DiskCall.runLedger at ih ⊢
    rw [DiskCall.run, DiskCall.run]
    generalize call.2.onDisk crypto prune call.1 s db = disk at hout ⊢
    generalize call.2.onLedger crypto prune s l = ledger at hout ⊢
    cases hout with
    | ok ids h' =>
      obtain ⟨hids, hrest⟩ := ih hs' hcalls h'
      exact ⟨congrArg _ hids, hrest⟩
    | error e =>
      obtain ⟨hids, hrest⟩ := ih hs' hcalls h
      exact ⟨congrArg _ hids, hrest⟩

/-! ### The calls of a run of the ledger -/

/-- The call of a run of the ledger. -/
def LedgerCall.disk : LedgerCall → DiskCall
  | store id block now => .store id block now
  | connectBlock id block => .connectBlock id block
  | disconnectBlock id block => .disconnectBlock id block
  | setBranchType id => .setBranchType id .side

/-- The calls, on empty databases, lead to the storage and the ledger. -/
structure DiskCall.Leads (crypto : Crypto) (prune : Bool) (calls : List (MapOrder × DiskCall))
    (s : BlockStorage) (l : Ledger) : Prop where
  sized : ∀ call ∈ calls, call.2.Sized
  storage : calls.foldl (fun s call => call.2.blockStore s) ∅ = s
  ledger : (runLedger crypto prune calls ∅ Ledger.empty).1 = l

/-- The last call is made where the calls before it lead to. -/
theorem DiskCall.run_concat {σ : Type}
    (step : BlockStorage → σ → MapOrder × DiskCall → Res (σ × List TransactionID))
    (calls : List (MapOrder × DiskCall)) (call : MapOrder × DiskCall) (s : BlockStorage)
    (state : σ) :
    (run step (calls ++ [call]) s state).1 =
        (run step [call] (calls.foldl (fun s call => call.2.blockStore s) s)
          (run step calls s state).1).1 ∧
      (run step (calls ++ [call]) s state).2 = (run step calls s state).2 ++
        (run step [call] (calls.foldl (fun s call => call.2.blockStore s) s)
          (run step calls s state).1).2 := by
  induction calls generalizing s state with
  | nil => exact ⟨rfl, rfl⟩
  | cons first calls ih =>
    simp only [run] at ih
    simp only [List.cons_append, List.foldl_cons, run]
    cases step s state first with
    | error e =>
      obtain ⟨hstate, hresults⟩ := ih (first.2.blockStore s) state
      exact ⟨hstate, congrArg _ hresults⟩
    | ok next =>
      obtain ⟨hstate, hresults⟩ := ih (first.2.blockStore s) next.1
      exact ⟨hstate, congrArg _ hresults⟩

variable {calls : List (MapOrder × DiskCall)}

/-- One call more. -/
theorem DiskCall.Leads.extend (h : Leads crypto prune calls s l) (order : MapOrder)
    (next : LedgerCall) (hsized : next.disk.Sized) :
    Leads crypto prune (calls ++ [(order, next.disk)]) (next.blockStore s)
      (next.ledger crypto prune s l) where
  sized := by
    simp only [List.forall_mem_append, List.forall_mem_singleton]
    exact ⟨h.sized, hsized⟩
  storage := by
    rw [List.foldl_append, h.storage]
    cases next with
    | store id block now => rfl
    | connectBlock id block => rfl
    | disconnectBlock id block => rfl
    | setBranchType id => rfl
  ledger := by
    rw [runLedger, (run_concat _ calls _ ∅ Ledger.empty).1, h.storage]
    have hledger := h.ledger
    rw [runLedger] at hledger
    rw [hledger, LedgerCall.ledger]
    cases next with
    | store id block now => rfl
    | connectBlock id block =>
      simp only [run, LedgerCall.disk, onLedger, LedgerCall.result]
      cases l.connectBlock crypto prune s id block with
      | error e => rfl
      | ok found => rfl
    | disconnectBlock id block =>
      simp only [run, LedgerCall.disk, onLedger, LedgerCall.result]
      cases l.disconnectBlock crypto prune s id block with
      | error e => rfl
      | ok found => rfl
    | setBranchType id => rfl

/-- The genesis block is stored and connected. -/
theorem DiskCall.leads_genesis (crypto : Crypto) (prune : Bool) (order : MapOrder) :
    ∃ l, Leads crypto prune [(order, .store (genesisBlock.id crypto) genesisBlock 0),
        (order, .connectBlock (genesisBlock.id crypto) genesisBlock)]
        (BlockStorage.store ∅ (genesisBlock.id crypto) genesisBlock 0) l ∧
      OnChain crypto prune (BlockStorage.store ∅ (genesisBlock.id crypto) genesisBlock 0) l
        [genesisEntry crypto] {genesisBlock.id crypto} := by
  obtain ⟨l, hok, hon⟩ := genesis_connects crypto prune 0
  refine ⟨l, ⟨?_, rfl, ?_⟩, hon⟩
  · simp only [List.forall_mem_cons]
    exact ⟨⟨by decide, by decide⟩, ⟨by decide, by decide⟩,
      fun call hcall => absurd hcall List.not_mem_nil⟩
  · simp only [runLedger, run, onLedger, blockStore, hok]

/-- A block that follows the chain is stored and connected. -/
theorem DiskCall.Leads.follow (h : Leads crypto prune calls s l) {c : Chain} {K : Set BlockID}
    {x : BlockID × Block} {target : Chain → Res BlockID} (hon : OnChain crypto prune s l c K)
    (hx : Follows crypto prune target c x) (hfresh : x.1 ∉ K) (order : MapOrder)
    (hsized : 0 ≤ x.2.header.height ∧ Fits64 x.2.header.height) :
    ∃ s' l', Leads crypto prune
        (calls ++ [(order, .store x.1 x.2 0), (order, .connectBlock x.1 x.2)]) s' l' ∧
      OnChain crypto prune s' l' (x :: c) (insert x.1 K) := by
  have hstore := h.extend order (.store x.1 x.2 0) hsized
  have hconnect := hstore.extend order (.connectBlock x.1 x.2) hsized
  rw [List.append_assoc] at hconnect
  exact ⟨_, _, hconnect, (hon.followed hx hfresh 0).2⟩

end Runs

namespace Sample

/-- The balances are written last to first. -/
def lastFirst : MapOrder :=
  ⟨fun b => b.cache.toList.reverse, fun _ => List.reverse_perm _⟩

/-- After genesis a sibling of the first block is connected and disconnected, then the chain is
built up. -/
def diskCalls : Nat → List (MapOrder × DiskCall)
  | 0 => [(lastFirst, .store (genesisBlock.id crypto) genesisBlock 0),
      (lastFirst, .connectBlock (genesisBlock.id crypto) genesisBlock)] ++
      [(lastFirst, .store (sibling.id crypto) sibling 0),
        (lastFirst, .connectBlock (sibling.id crypto) sibling)] ++
      [(lastFirst, .disconnectBlock (sibling.id crypto) sibling)]
  | n + 1 => diskCalls n ++ [(lastFirst, .store (entry 0 (n + 1)).1 (entry 0 (n + 1)).2 0),
      (lastFirst, .connectBlock (entry 0 (n + 1)).1 (entry 0 (n + 1)).2)]

theorem leads_diskCalls (n : Nat) (hn : n ≤ 100) :
    ∃ s l K, DiskCall.Leads crypto false (diskCalls n) s l ∧
      OnChain crypto false s l (chain 0 n) K ∧ sibling.id crypto ∈ K ∧
      ∀ id ∈ K, id = sibling.id crypto ∨ id ∈ (chain 0 n).ids := by
  induction n with
  | zero =>
    obtain ⟨l₀, hleads₀, hon₀⟩ := DiskCall.leads_genesis crypto false lastFirst
    obtain ⟨s, l, hleads, hon⟩ := hleads₀.follow hon₀ (sibling_follows false) sibling_ne_genesis
      lastFirst ⟨by decide, by decide⟩
    refine ⟨s, _, _, hleads.extend lastFirst (.disconnectBlock _ _) ⟨by decide, by decide⟩,
      hon.disconnected sibling_ne_genesis, Set.mem_insert _ _, ?_⟩
    rintro id (rfl | rfl)
    · exact Or.inl rfl
    · exact Or.inr List.mem_cons_self
  | succ n ih =>
    obtain ⟨s, l, K, hleads, hon, hsibling, hK⟩ := ih (by omega)
    have hfresh : (entry 0 (n + 1)).1 ∉ K := by
      intro hmem
      rcases hK _ hmem with heq | hid
      · refine sibling_not_on_chain hn ?_
        rw [← heq]
        exact List.mem_cons_self
      · exact (List.nodup_cons.mp (chain_nodup (n := n + 1) (by omega))).1 hid
    have hsized : 0 ≤ (entry 0 (n + 1)).2.header.height ∧
        Fits64 (entry 0 (n + 1)).2.header.height := by
      rw [entry_height]
      unfold Fits64
      omega
    obtain ⟨s', l', hleads', hon'⟩ := hleads.follow hon
      (follows false (by omega) (Or.inl rfl) (by decide)) hfresh lastFirst hsized
    refine ⟨s', l', _, hleads', hon', Set.mem_insert_of_mem _ hsibling, ?_⟩
    rintro id (rfl | hid)
    · exact Or.inr List.mem_cons_self
    · exact (hK id hid).imp_right fun h => List.mem_cons_of_mem _ h

/-- In the end the sibling is to be connected again. -/
def detourCalls : List (MapOrder × DiskCall) :=
  diskCalls 100 ++ [(lastFirst, .connectBlock (sibling.id crypto) sibling)]

theorem leads_detourCalls :
    ∃ s l K, DiskCall.Leads crypto false detourCalls s l ∧
      (DiskCall.runLedger crypto false detourCalls ∅ Ledger.empty).2.getLast? =
        some (.error (.connectPreviousMismatch (sibling.id crypto) sibling.header.previous
          (entry 0 100).1)) ∧
      OnChain crypto false s l (chain 0 100) K ∧ sibling.id crypto ∈ K := by
  obtain ⟨s, l, K, hleads, hon, hsibling, -⟩ := leads_diskCalls 100 le_rfl
  have htip : l.chainTip = some ((entry 0 100).1, 100) := hon.describes.chainTip
  have hprevious : (entry 0 100).1 ≠ sibling.header.previous := by
    rw [entry_fst]
    decide
  have hrefused : l.connectBlock crypto false s (sibling.id crypto) sibling =
      .error (.connectPreviousMismatch (sibling.id crypto) sibling.header.previous
        (entry 0 100).1) := by
    rw [Ledger.connectBlock, Ledger.checkConnects, htip]
    simp only [failIf, hprevious, ne_eq, not_false_eq_true, if_true]
    rfl
  have hlast := hleads.extend lastFirst (.connectBlock (sibling.id crypto) sibling)
    ⟨by decide, by decide⟩
  rw [LedgerCall.ledger_of_error (by rw [LedgerCall.result, hrefused]; rfl)] at hlast
  refine ⟨s, l, K, hlast, ?_, hon, hsibling⟩
  have hledger := hleads.ledger
  rw [DiskCall.runLedger] at hledger ⊢
  rw [detourCalls, (DiskCall.run_concat _ _ _ ∅ Ledger.empty).2, hleads.storage, hledger]
  simp only [DiskCall.run, DiskCall.onLedger, hrefused, List.getLast?_append,
    List.getLast?_singleton, Option.some_or]

end Sample

/-- **The database is the ledger.**  Start from empty databases and make any calls, each with
the map of balances in an order of its own.  On the bytes every call returns what it returns on
the tables, errors included, and afterwards every query has the same answer. -/
theorem disk_refines_ledger (crypto : Crypto) (prune : Bool) (calls : List (MapOrder × DiskCall))
    (hcalls : ∀ call ∈ calls, call.2.Sized) :
    (DiskCall.runDisk crypto prune calls ∅ ∅).2 =
        (DiskCall.runLedger crypto prune calls ∅ Ledger.empty).2 ∧
      SameAnswers crypto (DiskCall.runDisk crypto prune calls ∅ ∅).1
        (DiskCall.runLedger crypto prune calls ∅ Ledger.empty).1 := by
  have hempty : HeightsFit ∅ := by
    intro id e hget
    simp at hget
  obtain ⟨hids, h⟩ := Represents.run calls hempty hcalls represents_empty
  exact ⟨hids, h.sameAnswers⟩

/-- The sample chain is on disk, above the detour.  Connecting the sibling again is refused. -/
theorem disk_after_detour :
    ∃ db results r, DiskCall.runDisk Sample.crypto false Sample.detourCalls ∅ ∅ = (db, results) ∧
      results.getLast? = some (.error (.connectPreviousMismatch (Sample.sibling.id Sample.crypto)
        Sample.sibling.header.previous (Sample.entry 0 100).1)) ∧
      LedgerDisk.getChainTip db = .ok (some ((Sample.entry 0 100).1, 100)) ∧
      LedgerDisk.getBranchType db (Sample.sibling.id Sample.crypto) = some BranchType.side.code ∧
      LedgerDisk.getPublicKeyTransactionIndicesRange db genesisCoinbase.recipient 100 98 1 3 =
        some (.ok r) ∧
      r.ids = [(Sample.entry 0 100).1, (Sample.entry 0 100).1, (Sample.entry 0 99).1] ∧
      r.indices = [1, 0, 0] := by
  obtain ⟨s, l, K, hleads, hlast, hon, hsibling⟩ := Sample.leads_detourCalls
  obtain ⟨hresults, hanswers⟩ :=
    disk_refines_ledger Sample.crypto false Sample.detourCalls hleads.sized
  rw [hleads.ledger] at hanswers
  have htip : l.chainTip = some ((Sample.entry 0 100).1, 100) := hon.describes.chainTip
  have hid (n : Nat) (hn : n ≤ 100) : l.getBlockIDForHeight n = some (Sample.entry 0 n).1 :=
    (hon.tables.heightIndex _ _).mpr ⟨n, rfl, by rw [Sample.blockAt_chain hn]; rfl⟩
  have hnewest : l.getBlockIDForHeight 100 = some (Sample.entry 0 100).1 := hid 100 le_rfl
  have hprevious : l.getBlockIDForHeight 99 = some (Sample.entry 0 99).1 := hid 99 (by decide)
  have hpk : genesisCoinbase.recipient.length = publicKeySize := by decide
  obtain ⟨r, hr, hshows⟩ := hon.range_eq hpk
    (show (0 : Int) ≤ 98 ∧ (98 : Int) < 2 ^ 63 by decide) (show (0 : Int) ≤ 3 by decide) 100 1
  rw [Sample.select_reverse] at hshows
  refine ⟨_, _, r, Prod.mk.eta.symm, (congrArg _ hresults).trans hlast, ?_, ?_, ?_,
    hshows.ids_eq (by simp [page, hnewest, hprevious]), hshows.indices⟩
  · rw [hanswers.getChainTip, htip]
  · rw [hanswers.getBranchType, Ledger.getBranchType,
      hon.describes.side _ (Sample.sibling_not_on_chain le_rfl) hsibling]
    rfl
  · rw [hanswers.getPublicKeyTransactionIndicesRange _ _ _ _ _ (by decide) (by decide), hr]

end Cruzbit

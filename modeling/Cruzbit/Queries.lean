/-
Cruzbit/Queries.lean

The requests of a wallet for transactions (`onGetTransaction` and
`onGetPublicKeyTransactions` of `peer.go`).

A range query finds positions on the main chain, one after the other.  The
handler fetches the transaction at each of them and puts it into the block it
came upon last, or into a new one.  Positions come sorted by height, so the
positions of a block are next to each other, and no block is begun twice
(`Grouped.add`, `Grouped.build`).
-/
import Cruzbit.RangeQuery
import Cruzbit.PeerLoop

namespace Cruzbit

open Chain Word

/-! ### The handlers -/

/-- TransactionMessage: a transaction, with the block that it is in. -/
structure TransactionMessage where
  blockID : Option BlockID
  height : Int
  transactionID : TransactionID
  transaction : Option Transaction

/-- Handle a request for a transaction. -/
def onGetTransaction (s : BlockStorage) (l : Ledger) (txID : TransactionID) :
    TransactionMessage :=
  match l.getTransactionIndex txID with
  -- not found
  | none => ⟨none, 0, txID, none⟩
  | some (none, _) => ⟨none, 0, txID, none⟩
  | some (some blockID, index) =>
    match s.getTransaction blockID index.toNat with
    -- odd case but send back what we know at least
    | .error _ => ⟨some blockID, 0, txID, none⟩
    | .ok (tx, header) => ⟨some blockID, header.height, txID, some tx⟩

/-- Figure out where to put the transaction. -/
def addToFilterBlocks (fbs : List FilterBlock) (blockID : BlockID) (header : BlockHeader)
    (tx : Transaction) : List FilterBlock :=
  match fbs.getLast? with
  -- new block
  | none => fbs ++ [⟨blockID, header, [tx]⟩]
  | some fb =>
    -- new block
    if fb.blockID ≠ blockID then fbs ++ [⟨blockID, header, [tx]⟩]
    -- transaction is from the same block
    else fbs.dropLast ++ [{ fb with transactions := fb.transactions ++ [tx] }]

/-- Build filter blocks from the indices. -/
def buildFilterBlocks (s : BlockStorage) :
    List (BlockID × Int) → List FilterBlock → List FilterBlock
  | [], fbs => fbs
  | (blockID, index) :: rest, fbs =>
    match s.getTransaction blockID index.toNat with
    -- odd case
    | .error _ => buildFilterBlocks s rest fbs
    | .ok (tx, header) => buildFilterBlocks s rest (addToFilterBlocks fbs blockID header tx)

/-- PublicKeyTransactionsMessage. -/
structure PublicKeyTransactions where
  publicKey : PublicKey
  startHeight : Int
  stopHeight : Int
  stopIndex : Int
  filterBlocks : List FilterBlock

/-- The limit that is enforced. -/
def enforcedLimit (limit : Int) : Int := if limit > 32 ∨ limit = 0 then 32 else limit

/-- Handle a request for a public key's transactions over a given height range.  A request with
a negative limit is answered without a body. -/
def onGetPublicKeyTransactions (s : BlockStorage) (l : Ledger) (pubKey : PublicKey)
    (startHeight endHeight startIndex limit : Int) : Res (Option PublicKeyTransactions) :=
  if limit < 0 then .ok none
  else do
    let r ← l.getPublicKeyTransactionIndicesRange pubKey startHeight endHeight startIndex
      (enforcedLimit limit)
    pure (some ⟨pubKey, startHeight, r.lastHeight, r.lastIndex,
      buildFilterBlocks s (r.ids.zip r.indices) []⟩)

/-! ### Transactions on the main chain -/

section MainChain

variable {crypto : Crypto} {s : BlockStorage} {l : Ledger} {c : Chain} {K : Set BlockID}
  {n i : Nat} {x : BlockID × Block} {tx : Transaction} {p : Position}

/-- A transaction with the ID and the header of its block. -/
abbrev Entry := BlockID × BlockHeader × Transaction

/-- The transaction at a position of the main chain, as the height index and storage give it. -/
def entryAt (s : BlockStorage) (l : Ledger) (p : Position) : Option Entry :=
  (mainBlock s l p.height).bind fun x =>
    (x.2.transactions[p.index]?).map fun tx => (x.1, x.2.header, tx)

theorem mainBlock_eq_some (hx : mainBlock s l n = some x) :
    l.getBlockIDForHeight n = some x.1 ∧ ∃ storedAt, s[x.1]? = some ⟨x.2, storedAt⟩ := by
  obtain ⟨id, hid, hmap⟩ := Option.bind_eq_some_iff.mp hx
  obtain ⟨e, he, rfl⟩ := Option.map_eq_some_iff.mp hmap
  exact ⟨hid, e.storedAt, he⟩

theorem getTransaction_of_stored {storedAt : Int} (hx : s[x.1]? = some ⟨x.2, storedAt⟩)
    (htx : x.2.transactions[i]? = some tx) : s.getTransaction x.1 i = .ok (tx, x.2.header) := by
  simp only [BlockStorage.getTransaction, hx, htx]

theorem entryAt_eq_some {e : Entry} (he : entryAt s l p = some e) :
    l.getBlockIDForHeight p.height = some e.1 ∧
      s.getTransaction e.1 p.index = .ok (e.2.2, e.2.1) := by
  obtain ⟨x, hx, hmap⟩ := Option.bind_eq_some_iff.mp he
  obtain ⟨tx, htx, rfl⟩ := Option.map_eq_some_iff.mp hmap
  obtain ⟨hid, storedAt, hstored⟩ := mainBlock_eq_some hx
  exact ⟨hid, getTransaction_of_stored hstored htx⟩

theorem OnChain.height_of_mainBlock (h : OnChain crypto false s l c K)
    (hx : mainBlock s l n = some x) : x.2.header.height = n := by
  rw [h.mainBlock_eq] at hx
  exact (h.valid.blockAt_iff.mp hx).2

theorem OnChain.height_of_entryAt (h : OnChain crypto false s l c K) {e : Entry}
    (he : entryAt s l p = some e) : e.2.1.height = p.height := by
  obtain ⟨x, hx, hmap⟩ := Option.bind_eq_some_iff.mp he
  obtain ⟨tx, -, rfl⟩ := Option.map_eq_some_iff.mp hmap
  exact h.height_of_mainBlock hx

/-- Two positions in one block have one ID and one header. -/
theorem entryAt_same {q : Position} {e e' : Entry} (he : entryAt s l p = some e)
    (he' : entryAt s l q = some e') (hheight : p.height = q.height) :
    e.1 = e'.1 ∧ e.2.1 = e'.2.1 := by
  obtain ⟨x, hx, hmap⟩ := Option.bind_eq_some_iff.mp he
  obtain ⟨tx, -, rfl⟩ := Option.map_eq_some_iff.mp hmap
  obtain ⟨x', hx', hmap'⟩ := Option.bind_eq_some_iff.mp he'
  obtain ⟨tx', -, rfl⟩ := Option.map_eq_some_iff.mp hmap'
  rw [hheight, hx'] at hx
  obtain rfl := Option.some.inj hx
  exact ⟨rfl, rfl⟩

/-- **A request for a transaction** is answered with the one transaction on the main chain that
has this ID, with its block and height, or with nothing if there is none. -/
theorem get_transaction_exact (h : LedgerRun crypto false s l) (txID : TransactionID) :
    (∀ (n i : Nat) (x : BlockID × Block) (tx : Transaction), mainBlock s l n = some x →
      x.2.transactions[i]? = some tx → tx.id crypto = txID →
        onGetTransaction s l txID = ⟨some x.1, n, txID, some tx⟩) ∧
    ((∀ (n i : Nat) (x : BlockID × Block) (tx : Transaction), mainBlock s l n = some x →
        x.2.transactions[i]? = some tx → tx.id crypto ≠ txID) →
      onGetTransaction s l txID = ⟨none, 0, txID, none⟩) := by
  obtain ⟨c, K, hc⟩ := h.invariant
  constructor
  · intro n i x tx hx htx hid
    have hindex : l.txIndex[txID]? = some ((n : Int), (i : Int)) := by
      refine (hc.tables.txIndex txID n i).mpr ⟨n, i, rfl, rfl, ?_⟩
      rw [transactionAt, ← hc.mainBlock_eq, hx]
      simp [htx, hid]
    obtain ⟨hheight, storedAt, hstored⟩ := mainBlock_eq_some hx
    have hfound : l.getTransactionIndex txID = some (some x.1, (i : Int)) := by
      rw [Ledger.getTransactionIndex, hindex, Option.map_some, hheight]
    simp only [onGetTransaction, hfound, Int.toNat_natCast, getTransaction_of_stored hstored htx,
      hc.height_of_mainBlock hx]
  · intro hnone
    have hindex : l.txIndex[txID]? = none := by
      rw [Option.eq_none_iff_forall_ne_some]
      rintro ⟨height, index⟩ hsome
      obtain ⟨n, i, rfl, rfl, htx⟩ := (hc.tables.txIndex txID height index).mp hsome
      obtain ⟨tx, htx, hid⟩ := Option.map_eq_some_iff.mp htx
      obtain ⟨x, hx, htx⟩ := Option.bind_eq_some_iff.mp htx
      rw [← hc.mainBlock_eq] at hx
      exact hnone n i x tx hx htx hid
    simp only [onGetTransaction, Ledger.getTransactionIndex, hindex, Option.map_none]

/-- The transfer of the sample chain is found in block 100; the coinbase that
the next block would have is not found. -/
theorem get_transaction_of_sample :
    ∃ s l, LedgerRun Sample.crypto false s l ∧
      onGetTransaction s l ((Sample.transfer 0).id Sample.crypto) =
        ⟨some (Sample.entry 0 100).1, 100, (Sample.transfer 0).id Sample.crypto,
          some (Sample.transfer 0)⟩ ∧
      onGetTransaction s l ((Sample.coinbase 0 101).id Sample.crypto) =
        ⟨none, 0, (Sample.coinbase 0 101).id Sample.crypto, none⟩ := by
  obtain ⟨l₀, s, l, hrun₀, -, hsteps, hc⟩ := Sample.exists_run 100 (by decide)
  have hrun := hsteps.run hrun₀
  refine ⟨s, l, hrun, ?_, ?_⟩
  · refine (get_transaction_exact hrun _).1 100 1 (Sample.entry 0 100) (Sample.transfer 0) ?_
      rfl rfl
    rw [hc.mainBlock_eq, Sample.blockAt_chain le_rfl]
  · refine (get_transaction_exact hrun _).2 fun n i x tx hx htx hid => ?_
    rw [hc.mainBlock_eq] at hx
    obtain ⟨k, hk, rfl⟩ := Sample.mem_chain.mp (hc.valid.blockAt_iff.mp hx).1
    obtain ⟨t, ht, heq⟩ := Sample.mem_txIDs_entry (show k < 101 by omega)
      (List.mem_map_of_mem (List.mem_of_getElem? htx))
    have hbounds := Sample.time_bounds (n := k) (by omega)
    have hbounds' := Sample.time_bounds (n := 101) le_rfl
    rw [hid, Sample.coinbase_id le_rfl] at heq
    have htime := Sample.ofNat_inj (by omega) (by omega) heq
    simp only [Sample.time] at ht hbounds hbounds' htime
    omega

end MainChain

/-! ### Grouping -/

section Grouping

variable {s : BlockStorage} {l : Ledger} {R : Int → Int → Prop} {done es : List Entry}
  {fbs : List FilterBlock} {e e' : Entry}

/-- The transactions of a filter block, each with its ID and header. -/
def FilterBlock.entries (fb : FilterBlock) : List Entry :=
  fb.transactions.map fun tx => (fb.blockID, fb.header, tx)

/-- The second transaction may come after the first: it is in the same block, or in one that is
farther along. -/
def Along (R : Int → Int → Prop) (e e' : Entry) : Prop :=
  e.1 = e'.1 ∧ e.2.1 = e'.2.1 ∨ e.1 ≠ e'.1 ∧ R e.2.1.height e'.2.1.height

/-- **The blocks hold these transactions**, none of them is empty, and each is farther along than
those before it. -/
structure Grouped (R : Int → Int → Prop) (es : List Entry) (fbs : List FilterBlock) : Prop where
  entries : fbs.flatMap FilterBlock.entries = es
  nonempty : ∀ fb ∈ fbs, fb.transactions ≠ []
  ordered : fbs.Pairwise fun a b =>
    a.blockID ≠ b.blockID ∧ R a.header.height b.header.height

theorem grouped_nil (R : Int → Int → Prop) : Grouped R [] [] :=
  ⟨rfl, fun _ hfb => absurd hfb (List.not_mem_nil), List.Pairwise.nil⟩

theorem Grouped.exists_entry (h : Grouped R es fbs) {fb : FilterBlock} (hfb : fb ∈ fbs) :
    ∃ tx, (fb.blockID, fb.header, tx) ∈ es := by
  obtain ⟨tx, htx⟩ := List.exists_mem_of_ne_nil _ (h.nonempty fb hfb)
  refine ⟨tx, ?_⟩
  rw [← h.entries]
  exact List.mem_flatMap.mpr ⟨fb, hfb, List.mem_map.mpr ⟨tx, htx, rfl⟩⟩

/-- A block is begun. -/
theorem Grouped.begin (h : Grouped R done fbs)
    (hR : ∀ fb ∈ fbs, fb.blockID ≠ e.1 ∧ R fb.header.height e.2.1.height) :
    Grouped R (done ++ [e]) (fbs ++ [⟨e.1, e.2.1, [e.2.2]⟩]) := by
  refine ⟨?_, ?_, ?_⟩
  · rw [List.flatMap_append, h.entries]
    rfl
  · intro fb hfb
    rcases List.mem_append.mp hfb with hfb | hfb
    · exact h.nonempty fb hfb
    · rw [List.mem_singleton.mp hfb]
      exact List.cons_ne_nil _ _
  · refine List.pairwise_append.mpr ⟨h.ordered, List.pairwise_singleton _ _, ?_⟩
    intro fb hfb fb' hfb'
    rw [List.mem_singleton.mp hfb']
    exact hR fb hfb

/-- A transaction is put into the last block. -/
theorem Grouped.extend {init : List FilterBlock} {fb : FilterBlock}
    (h : Grouped R done (init ++ [fb])) (hid : fb.blockID = e.1) (hheader : fb.header = e.2.1) :
    Grouped R (done ++ [e])
      (init ++ [{ fb with transactions := fb.transactions ++ [e.2.2] }]) := by
  obtain ⟨hinit, -, hlast⟩ := List.pairwise_append.mp h.ordered
  refine ⟨?_, ?_, ?_⟩
  · rw [← h.entries, List.flatMap_append, List.flatMap_append, List.append_assoc]
    simp [FilterBlock.entries, hid, hheader]
  · intro fb' hfb'
    rcases List.mem_append.mp hfb' with hfb' | hfb'
    · exact h.nonempty fb' (List.mem_append_left _ hfb')
    · rw [List.mem_singleton.mp hfb']
      simp
  · refine List.pairwise_append.mpr ⟨hinit, List.pairwise_singleton _ _, ?_⟩
    intro a ha b hb
    rw [List.mem_singleton.mp hb]
    exact hlast a ha fb (List.mem_singleton_self fb)

/-- **One transaction more.** -/
theorem Grouped.add [IsStrictOrder Int R] (h : Grouped R done fbs)
    (halong : ∀ e' ∈ done, Along R e' e) :
    Grouped R (done ++ [e]) (addToFilterBlocks fbs e.1 e.2.1 e.2.2) := by
  rcases List.eq_nil_or_concat fbs with rfl | ⟨init, fb, rfl⟩
  · exact h.begin fun fb hfb => absurd hfb (List.not_mem_nil)
  · rw [List.concat_eq_append] at h ⊢
    obtain ⟨tx, htx⟩ := h.exists_entry (List.mem_append_right init (List.mem_singleton_self fb))
    unfold addToFilterBlocks
    rw [List.getLast?_concat, List.dropLast_concat]
    rcases halong _ htx with ⟨hid, hheader⟩ | ⟨hne, hlast⟩
    · show Grouped R _ (if fb.blockID ≠ e.1 then _ else _)
      rw [if_neg (not_not_intro hid)]
      exact h.extend hid hheader
    · show Grouped R _ (if fb.blockID ≠ e.1 then _ else _)
      rw [if_pos hne]
      refine h.begin fun fb' hfb' => ?_
      rcases List.mem_append.mp hfb' with hinit | hfb'
      · have hR := (List.pairwise_append.mp h.ordered).2.2 fb' hinit fb (List.mem_singleton_self fb)
        obtain ⟨tx', htx'⟩ := h.exists_entry hfb'
        -- a block before the last one is not come upon again
        rcases halong _ htx' with ⟨-, hheader⟩ | hfar
        · have hback : R fb.header.height fb'.header.height := by
            rw [show fb'.header = e.2.1 from hheader]
            exact hlast
          exact absurd (IsTrans.trans _ _ _ hR.2 hback) (irrefl _)
        · exact hfar
      · rw [List.mem_singleton.mp hfb']
        exact ⟨hne, hlast⟩

/-- **All transactions of a query.** -/
theorem Grouped.build [IsStrictOrder Int R] {qs : List Position}
    (hes : es.map some = qs.map (entryAt s l)) (halong : (done ++ es).Pairwise (Along R))
    (h : Grouped R done fbs) :
    Grouped R (done ++ es)
      (buildFilterBlocks s ((es.map Prod.fst).zip (qs.map fun p => (p.index : Int))) fbs) := by
  induction es generalizing qs done fbs with
  | nil =>
    rw [List.append_nil]
    exact h
  | cons e es ih =>
    cases qs with
    | nil => cases hes
    | cons p qs =>
      obtain ⟨he, hes⟩ := List.cons.inj hes
      have hget := (entryAt_eq_some he.symm).2
      have hadd : Grouped R (done ++ [e]) (addToFilterBlocks fbs e.1 e.2.1 e.2.2) := by
        refine h.add fun e' he' => ?_
        exact (List.pairwise_append.mp halong).2.2 e' he' e List.mem_cons_self
      have hrest := ih hes (by rwa [List.append_assoc]) hadd
      rw [List.append_assoc, List.singleton_append] at hrest
      simpa only [List.map_cons, List.zip_cons_cons, buildFilterBlocks, Int.toNat_natCast, hget]
        using hrest

theorem Grouped.nodup (h : Grouped R es fbs) :
    (fbs.map FilterBlock.blockID).Nodup :=
  List.pairwise_map.mpr (h.ordered.imp fun hab => hab.1)

end Grouping

/-! ### Queries -/

section Query

variable {crypto : Crypto} {s : BlockStorage} {l : Ledger} {c : Chain} {K : Set BlockID}
  {p q : Position} {e e' : Entry} {pk : PublicKey}
  {startHeight endHeight startIndex limit : Int}

theorem header_of_getTransaction {id : BlockID} {i : Nat} {tx : Transaction} {header : BlockHeader}
    (h : s.getTransaction id i = .ok (tx, header)) :
    ∃ stored, s[id]? = some stored ∧ stored.block.header = header := by
  unfold BlockStorage.getTransaction at h
  split at h
  · cases h
  · next stored hstored =>
    split at h
    · cases h
    · exact ⟨stored, hstored, congrArg Prod.snd (Except.ok.inj h)⟩

theorem OnChain.along (h : OnChain crypto false s l c K) {R : Int → Int → Prop}
    (he : entryAt s l p = some e) (he' : entryAt s l q = some e')
    (hpq : p.height = q.height ∨ p.height ≠ q.height ∧ R p.height q.height) : Along R e e' := by
  have hheight := h.height_of_entryAt he
  have hheight' := h.height_of_entryAt he'
  rcases hpq with heq | ⟨hne, hR⟩
  · exact .inl (entryAt_same he he' heq)
  · refine .inr ⟨fun hid => hne ?_, ?_⟩
    · -- one ID is one stored block, and that has one height
      obtain ⟨b, hb, hheader⟩ := header_of_getTransaction (entryAt_eq_some he).2
      obtain ⟨b', hb', hheader'⟩ := header_of_getTransaction (entryAt_eq_some he').2
      rw [hid, hb'] at hb
      obtain rfl := Option.some.inj hb
      rw [← hheader] at hheight
      rw [← hheader'] at hheight'
      omega
    · rw [hheight, hheight']
      exact hR

theorem OnChain.pairwise_along (h : OnChain crypto false s l c K) {R : Int → Int → Prop}
    {qs : List Position} {es : List Entry} (hes : es.map some = qs.map (entryAt s l))
    (hqs : qs.Pairwise fun p q => p.height = q.height ∨ p.height ≠ q.height ∧ R p.height q.height) :
    es.Pairwise (Along R) := by
  have hmap : (qs.map (entryAt s l)).Pairwise fun o o' =>
      ∀ e ∈ o, ∀ e' ∈ o', Along R e e' := by
    refine List.pairwise_map.mpr (hqs.imp fun hpq e he e' he' => ?_)
    exact h.along he he' hpq
  rw [← hes, List.pairwise_map] at hmap
  exact hmap.imp fun hee' => hee' _ rfl _ rfl

/-- The positions that a query goes through are sorted by height. -/
theorem OnChain.grouped (h : OnChain crypto false s l c K) {qs : List Position} {es : List Entry}
    (hes : es.map some = qs.map (entryAt s l))
    (hqs : if startHeight ≤ endHeight then qs.Pairwise (· < ·) else qs.Pairwise (· > ·)) :
    ∃ R, Grouped R es
      (buildFilterBlocks s ((es.map Prod.fst).zip (qs.map fun p => (p.index : Int))) []) := by
  split_ifs at hqs
  · have halong : es.Pairwise (Along (· < ·)) := by
      refine h.pairwise_along hes (hqs.imp fun {p q} hpq => ?_)
      rw [Position.lt_iff] at hpq
      omega
    exact ⟨_, (grouped_nil (· < ·)).build hes halong⟩
  · have halong : es.Pairwise (Along (· > ·)) := by
      refine h.pairwise_along hes (hqs.imp fun {p q} hpq => ?_)
      rw [gt_iff_lt, Position.lt_iff] at hpq
      omega
    exact ⟨_, (grouped_nil (· > ·)).build hes halong⟩

theorem page_enforcedLimit (limit : Int) {α : Type} (xs : List α) :
    page (enforcedLimit limit) xs = xs.take (enforcedLimit limit).toNat := by
  have hpos : enforcedLimit limit ≠ 0 := by
    unfold enforcedLimit
    split_ifs <;> omega
  rw [page, if_neg hpos]

theorem enforcedLimit_nonneg (hlimit : 0 ≤ limit) : 0 ≤ enforcedLimit limit := by
  unfold enforcedLimit
  split_ifs <;> omega

/-- Every position of the history has its transaction. -/
theorem OnChain.exists_entries (h : OnChain crypto false s l c K) {qs : List Position}
    (hqs : ∀ p ∈ qs, p ∈ history pk c) : ∃ es : List Entry, es.map some = qs.map (entryAt s l) := by
  induction qs with
  | nil => exact ⟨[], rfl⟩
  | cons p qs ih =>
    obtain ⟨hp, hqs⟩ := List.forall_mem_cons.mp hqs
    obtain ⟨es, hes⟩ := ih hqs
    obtain ⟨x, tx, hx, htx, -⟩ := h.mem_history_iff.mp hp
    refine ⟨(x.1, x.2.header, tx) :: es, ?_⟩
    rw [List.map_cons, List.map_cons, hes, entryAt, hx]
    simp [htx]

/-- The IDs that the query returns are those of the entries. -/
theorem ids_of_shows {r : RangeResult} {qs : List Position} {es : List Entry} (h : r.Shows l qs)
    (hes : es.map some = qs.map (entryAt s l)) : r.ids = es.map Prod.fst := by
  have hids : r.ids.map some = (es.map Prod.fst).map some := by
    rw [h.ids]
    clear h
    induction qs generalizing es with
    | nil =>
      rw [List.map_eq_nil_iff.mp hes]
      rfl
    | cons p qs ih =>
      cases es with
      | nil => cases hes
      | cons e es =>
        obtain ⟨he, hes⟩ := List.cons.inj hes
        rw [List.map_cons, List.map_cons, List.map_cons, ih hes, (entryAt_eq_some he.symm).1]
  exact List.map_injective_iff.mpr (Option.some_injective _) hids

/-- A transaction of the sample chain, as the answer lists it. -/
def Sample.listed (n : Nat) (tx : Transaction) : Entry :=
  ((entry 0 n).1, (entry 0 n).2.header, tx)

/-- **A request for a key's transactions.**  `ps` are the positions of the transactions on the
main chain that involve the key, in the range, ascending or in reverse.  The answer has the first
of them, up to the limit and at most 32, in this order, each in a block with its ID and header;
every block is there once and none is empty; and it stops at the last position shown. -/
theorem public_key_transactions_exact (h : LedgerRun crypto false s l)
    (hpk : pk.length = publicKeySize) (hstart : 0 ≤ startHeight ∧ startHeight < 2 ^ 63)
    (hend : 0 ≤ endHeight ∧ endHeight < 2 ^ 63) (hindex : 0 ≤ startIndex ∧ startIndex < 2 ^ 31 - 1)
    (hlimit : 0 ≤ limit) :
    ∃ (ps : List Position) (m : PublicKeyTransactions),
      (∀ p, p ∈ ps ↔ InRange startHeight endHeight startIndex p ∧
        ∃ x tx, mainBlock s l p.height = some x ∧ x.2.transactions[p.index]? = some tx ∧
          tx.Involves pk) ∧
      (if startHeight ≤ endHeight then ps.Pairwise (· < ·) else ps.Pairwise (· > ·)) ∧
      onGetPublicKeyTransactions s l pk startHeight endHeight startIndex limit = .ok (some m) ∧
      (m.filterBlocks.flatMap FilterBlock.entries).map some =
        (ps.take (enforcedLimit limit).toNat).map (entryAt s l) ∧
      (∀ fb ∈ m.filterBlocks, fb.transactions ≠ []) ∧
      (m.filterBlocks.map FilterBlock.blockID).Nodup ∧
      (m.stopHeight, m.stopIndex) = ((ps.take (enforcedLimit limit).toNat).getLast?.map fun p =>
        ((p.height : Int), (p.index : Int))).getD (0, 0) := by
  obtain ⟨c, K, hc⟩ := h.invariant
  obtain ⟨r, hr, hshows⟩ := hc.range_eq hpk hend (enforcedLimit_nonneg hlimit) startHeight
    startIndex
  rw [page_enforcedLimit] at hshows
  have hsorted := select_sorted pk c endHeight startHeight startIndex
  set ps := select pk c endHeight startHeight startIndex with hps
  have hmem : ∀ p, p ∈ ps ↔ InRange startHeight endHeight startIndex p ∧ p ∈ history pk c := by
    intro p
    rw [hps, mem_select_iff, ahead_iff_inRange hstart hindex]
  obtain ⟨es, hes⟩ := hc.exists_entries fun p hp =>
    ((hmem p).mp (List.mem_of_mem_take (i := (enforcedLimit limit).toNat) hp)).2
  have htake : if startHeight ≤ endHeight then
      (ps.take (enforcedLimit limit).toNat).Pairwise (· < ·)
      else (ps.take (enforcedLimit limit).toNat).Pairwise (· > ·) := by
    split_ifs at hsorted ⊢
    · exact hsorted.take
    · exact hsorted.take
  obtain ⟨R, hgrouped⟩ := hc.grouped hes htake
  rw [← ids_of_shows hshows hes, ← hshows.indices] at hgrouped
  refine ⟨ps, ⟨pk, startHeight, r.lastHeight, r.lastIndex, _⟩, fun p => ?_, hsorted, ?_, ?_,
    hgrouped.nonempty, hgrouped.nodup, hshows.last⟩
  · rw [hmem, hc.mem_history_iff]
  · rw [onGetPublicKeyTransactions, if_neg (not_lt.mpr hlimit), hr]
    rfl
  · show (List.flatMap _ _).map some = _
    rw [hgrouped.entries, hes]

/-- The key of the sample chain, in reverse from the transfer with three
transactions a page, and forward without a limit. -/
theorem public_key_transactions_of_sample :
    ∃ s l, LedgerRun Sample.crypto false s l ∧
      (∃ m, onGetPublicKeyTransactions s l genesisCoinbase.recipient 100 98 1 3 = .ok (some m) ∧
        m.filterBlocks.flatMap FilterBlock.entries =
          [Sample.listed 100 (Sample.transfer 0), Sample.listed 100 (Sample.coinbase 0 100),
            Sample.listed 99 (Sample.coinbase 0 99)] ∧
        (m.filterBlocks.map FilterBlock.blockID).Nodup ∧ (m.stopHeight, m.stopIndex) = (99, 0)) ∧
      ∃ m, onGetPublicKeyTransactions s l genesisCoinbase.recipient 99 (2 ^ 63 - 1) 0 0 =
          .ok (some m) ∧
        m.filterBlocks.flatMap FilterBlock.entries =
          [Sample.listed 99 (Sample.coinbase 0 99), Sample.listed 100 (Sample.coinbase 0 100),
            Sample.listed 100 (Sample.transfer 0)] ∧
        (m.filterBlocks.map FilterBlock.blockID).Nodup ∧
        (m.stopHeight, m.stopIndex) = (100, 1) := by
  obtain ⟨l₀, s, l, hrun₀, -, hsteps, hc⟩ := Sample.exists_run 100 (by decide)
  have hrun := hsteps.run hrun₀
  have hpk : genesisCoinbase.recipient.length = publicKeySize := by decide
  have hlisted {n i : Nat} {tx : Transaction} (hn : n ≤ 100)
      (htx : (Sample.entry 0 n).2.transactions[i]? = some tx) :
      entryAt s l ⟨n, i⟩ = some (Sample.listed n tx) := by
    rw [entryAt, hc.mainBlock_eq, Sample.blockAt_chain hn, Option.bind_some, htx]
    rfl
  have htransfer := hlisted (i := 1) le_rfl (show _ = some (Sample.transfer 0) from rfl)
  have hlast := hlisted (i := 0) le_rfl (show _ = some (Sample.coinbase 0 100) from rfl)
  have hprevious := hlisted (n := 99) (i := 0) (by decide)
    (show _ = some (Sample.coinbase 0 99) from rfl)
  refine ⟨s, l, hrun, ?_, ?_⟩
  · obtain ⟨ps, m, hps, hsorted, hm, hentries, -, hnd, hstop⟩ := public_key_transactions_exact hrun
      hpk (show (0 : Int) ≤ 100 ∧ (100 : Int) < 2 ^ 63 by decide)
      (show (0 : Int) ≤ 98 ∧ (98 : Int) < 2 ^ 63 by decide)
      (show (0 : Int) ≤ 1 ∧ (1 : Int) < 2 ^ 31 - 1 by decide) (show (0 : Int) ≤ 3 by decide)
    obtain rfl := (hc.eq_select (by decide) (by decide) hps hsorted).trans Sample.select_reverse
    refine ⟨m, hm, List.map_injective_iff.mpr (Option.some_injective _) (hentries.trans ?_), hnd,
      hstop⟩
    show [entryAt s l ⟨100, 1⟩, entryAt s l ⟨100, 0⟩, entryAt s l ⟨99, 0⟩] = _
    rw [htransfer, hlast, hprevious]
    rfl
  · obtain ⟨ps, m, hps, hsorted, hm, hentries, -, hnd, hstop⟩ := public_key_transactions_exact hrun
      hpk (show (0 : Int) ≤ 99 ∧ (99 : Int) < 2 ^ 63 by decide)
      (show (0 : Int) ≤ 2 ^ 63 - 1 ∧ (2 ^ 63 - 1 : Int) < 2 ^ 63 by decide)
      (show (0 : Int) ≤ 0 ∧ (0 : Int) < 2 ^ 31 - 1 by decide) (le_refl 0)
    obtain rfl := (hc.eq_select (by decide) (by decide) hps hsorted).trans Sample.select_forward
    refine ⟨m, hm, List.map_injective_iff.mpr (Option.some_injective _) (hentries.trans ?_), hnd,
      hstop⟩
    show [entryAt s l ⟨99, 0⟩, entryAt s l ⟨100, 0⟩, entryAt s l ⟨100, 1⟩] = _
    rw [htransfer, hlast, hprevious]
    rfl

end Query

end Cruzbit

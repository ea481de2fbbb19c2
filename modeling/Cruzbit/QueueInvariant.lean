/-
Cruzbit/QueueInvariant.lean

The transaction queue between two calls.  `connectBlock` removes what a block
confirms, `disconnectBlock` puts back what it no longer does, and in between
the balance cache is left stale.  Whatever the calls were, and whether a
reorganisation succeeded or was rolled back, the queue that a call leaves
behind could be mined right away: nothing in it is confirmed, everything in it
is valid for the next height, and its cache is what the ledger's balances and
the queued payments give (`queue_invariant`).

That no queued transaction is confirmed rests on the hash.  A connected block
removes its transfers from the queue by ID but not its coinbase, and under
pruning an old confirmation is only excluded by the series in the encoding.
-/
import Cruzbit.Signatures

namespace Cruzbit

open Chain Word

/-- What the queue promises over a ledger. -/
structure TransactionQueue.Consistent (crypto : Crypto) (blockStore : BlockStorage)
    (ledger : Ledger) (q : TransactionQueue) : Prop where
  map_iff : ∀ id e, q.txMap[id]? = some e ↔ e ∈ q.txQueue ∧ e.value.id crypto = id
  ids_nodup : (q.transactions.map (Transaction.id crypto)).Nodup
  unconfirmed : ∀ tx ∈ q.transactions, ∀ n x, mainBlock blockStore ledger n = some x →
    tx.id crypto ∉ x.2.txIDs crypto
  current : ∃ tip, ledger.chainTip = some tip ∧ ∀ tx ∈ q.transactions,
    checkTransactionSeries tx (tip.2 + 1) = true ∧ tx.isMature (tip.2 + 1) = true ∧
      tx.isExpired (tip.2 + 1) = false ∧ minFeeCruzbits ≤ tx.fee ∧ minAmountCruzbits ≤ tx.amount
  replays : (BalanceCache.new (minAmountCruzbits + minFeeCruzbits)).applyAll
    ledger.getPublicKeyBalance q.transactions = some q.balanceCache

/-- An ID occurs once in the queue. -/
theorem TransactionQueue.WellFormed.ids_nodup {crypto : Crypto} {q : TransactionQueue}
    (h : q.WellFormed crypto) : (q.transactions.map (Transaction.id crypto)).Nodup := by
  rw [transactions, List.map_map]
  refine List.Nodup.map_on ?_ (List.Nodup.of_map _ h.ptr_nodup)
  intro e he e' he' heq
  have hget := (h.map_iff _ e).mpr ⟨he, rfl⟩
  have hget' := (h.map_iff _ e').mpr ⟨he', heq.symm⟩
  exact Option.some.inj (hget.symm.trans hget')

section Queue

variable {crypto : Crypto} {prune : Bool} {P : Transaction → Prop} {Q : Processor → Prop}
  {U : Set Transaction} {s : Processor} {c : Chain} {K : Set BlockID}

/-- The transactions of a known block are valid for its height. -/
theorem Placed.series_known (h : Placed crypto prune P Q s c K) {id : BlockID} (hid : id ∈ K)
    {e : StoredBlock} (he : s.blockStore[id]? = some e) {tx : Transaction}
    (htx : tx ∈ e.block.transactions) :
    checkTransactionSeries tx e.block.header.height = true := by
  obtain ⟨d, hadm, -⟩ := h.tree.line hid he
  obtain ⟨q, hacc⟩ := hadm.acceptable htx
  exact hacc.series

/-- All blocks delivered in a run within `U` hold transactions in `U`. -/
theorem Run.separates (hU : CollisionFree crypto U) (hg : genesisCoinbase ∈ U)
    (h : Run crypto prune (Call.Within U) s) (hP : ∀ tx, P tx → tx ∈ U)
    (hs : Placed crypto prune P Q s c K) : Separates crypto P s.blockStore K U where
  collisionFree := hU
  vouched := hP
  inSeries := by
    intro id hid e he tx htx
    refine ⟨?_, hs.series_known hid he htx⟩
    refine (h.stored (R := fun b => ∀ tx ∈ b.transactions, tx ∈ U) ?_ ?_ he).1 tx htx
    · exact fun b now source hb _ => hb
    · rintro tx htx
      rwa [List.mem_singleton.mp htx]

/-- **The transaction queue invariant.** -/
theorem queue_invariant (hU : CollisionFree crypto U) (hg : genesisCoinbase ∈ U)
    (h : Run crypto prune (Call.Within U) s) :
    s.txQueue.Consistent crypto s.blockStore s.ledger := by
  obtain ⟨c, K, hs⟩ := h.settled fun call hcall => hcall.vouches hU
  have hsep := h.separates hU hg (fun tx htx => htx.1) hs.toPlaced
  refine ⟨hs.queue.map_iff, hs.queue.ids_nodup, ?_, ?_, hs.fresh.replays⟩
  · intro tx htx n x hx
    obtain ⟨e, he, rfl⟩ := List.mem_map.mp htx
    rw [hs.onChain.mainBlock_eq, hs.valid.blockAt_iff] at hx
    exact hs.unconfirmed U hsep e he x hx.1
  · obtain ⟨t, d, rfl⟩ := List.exists_cons_of_ne_nil hs.admitted.ne_nil
    refine ⟨_, hs.describes.chainTip, fun tx htx => ?_⟩
    obtain ⟨e, he, rfl⟩ := List.mem_map.mp htx
    exact TransactionQueue.invalidated_eq_false_iff.mp
      (hs.fresh.current _ hs.describes.chainTip e he)

end Queue

/-! ### A queued transfer -/

namespace Sample

/-- A second transfer by the recipient of the genesis coinbase. -/
def offer : Transaction := { transfer 0 with time := time 100 + 2 }

/-- The sample transactions with the second transfer. -/
def offers : Set Transaction := insert offer transactions

theorem offers_time {tx : Transaction} (h : tx ∈ offers) :
    0 ≤ tx.time ∧ tx.time ≤ time 100 + 2 := by
  rcases h with rfl | h
  · decide
  · have := transactions_time h
    omega

theorem offers_inj {tx tx' : Transaction} (h : tx ∈ offers) (h' : tx' ∈ offers)
    (ht : tx.time = tx'.time) : tx = tx' := by
  have hoffer : offer.time = time 100 + 2 := rfl
  rcases h with rfl | h <;> rcases h' with rfl | h'
  · rfl
  · have := transactions_time h'
    omega
  · have := transactions_time h
    omega
  · exact transactions_inj h h' ht

theorem offers_collisionFree : CollisionFree crypto offers := by
  refine collisionFree_of_times (fun tx h => ?_) fun _ h _ h' => offers_inj h h'
  have := offers_time h
  simp only [time, genesisBlock] at this
  omega

theorem settled_hundred : Settled crypto false (fun _ => True) (Run crypto false (Delivers 0))
    (state false 0 100) (chain 0 100) {id | id ∈ (chain 0 100).ids} :=
  (settled false le_rfl (Or.inl rfl) (by decide)).2

/-- The sample chain confirms all of its transactions, so none is queued. -/
theorem queue_nil : (state false 0 100).txQueue.txQueue = [] := by
  have hsample := settled_hundred
  obtain ⟨c, K, hs⟩ := run_within.settled fun call hcall => hcall.vouches collisionFree
  obtain rfl : c = chain 0 100 := hsample.onChain.chain_unique hs.onChain fun n => rfl
  have hg : genesisCoinbase ∈ transactions := ⟨0, by omega, List.mem_singleton.mpr rfl⟩
  have hsep := run_within.separates collisionFree hg (fun tx htx => htx.1) hs.toPlaced
  refine List.eq_nil_iff_forall_not_mem.mpr fun e he => ?_
  have hcb := (hs.queue.checked e he).2
  have htransfer : e.value = transfer 0 := by
    rcases mem_transactions (hs.vouched e he).1 with heq | ⟨n, -, -, heq⟩ | heq
    · rw [heq] at hcb
      exact absurd hcb (by decide)
    · rw [heq] at hcb
      exact absurd (show true = false from hcb) (by decide)
    · exact heq
  refine hs.unconfirmed _ hsep e he (entry 0 100) (mem_chain.mpr ⟨100, le_rfl, rfl⟩) ?_
  rw [htransfer]
  exact List.mem_map_of_mem (List.mem_cons_of_mem _ List.mem_cons_self)

section Offer

variable {P : Transaction → Prop} {Q : Processor → Prop} {s : Processor} {K : Set BlockID}

/-- A later transaction is not confirmed. -/
theorem unindexed (hs : Settled crypto false P Q s (chain 0 100) K) {tx : Transaction}
    (hlate : time 100 + 1 < tx.time) (hlt : tx.time < 2 ^ 31) :
    s.ledger.getTransactionIndex (tx.id crypto) = none := by
  rw [Ledger.getTransactionIndex, Option.map_eq_none_iff, Option.eq_none_iff_forall_ne_some]
  intro e he
  obtain ⟨x, hx, hmem⟩ := (hs.describes.contains_iff _).mp ((Table.contains_iff _ _).mpr ⟨e, he⟩)
  obtain ⟨n, hn, rfl⟩ := mem_chain.mp (Table.mem_of_mem_window hx)
  obtain ⟨tx', htx', heq⟩ := List.mem_map.mp hmem
  have htime : 0 ≤ tx'.time ∧ tx'.time ≤ time 100 + 1 := transactions_time ⟨n, hn, htx'⟩
  rw [transaction_id htime.1, transaction_id (by omega)] at heq
  have := ofNat_inj (by omega) (by omega) heq
  omega

/-- The second transfer passes the checks on top of the hundredth block. -/
theorem offer_checks (hs : Settled crypto false P Q s (chain 0 100) K)
    (hq : s.txQueue.txQueue = []) :
    s.processTransactionChecks crypto (offer.id crypto) offer = .ok () := by
  have hchecked : offer.Checked :=
    Transaction.checkTransaction_ok_iff.mp (show checkTransaction 0 offer = .ok () by decide +kernel)
  have hunindexed : s.ledger.getTransactionIndex (offer.id crypto) = none :=
    unindexed hs (show time 100 + 1 < time 100 + 2 by decide) (by decide)
  have hlen : s.txQueue.len = 0 := by rw [TransactionQueue.len, hq, List.length_nil]
  have htip : s.ledger.chainTip = some ((entry 0 100).1, 100) := by
    rw [hs.describes.chainTip, chain_head, chain_length]
    rfl
  simp only [Processor.processTransactionChecks, Res.bind_eq_ok, Res.exists_unit, failIf_eq_ok,
    Transaction.checkTransaction_ok_iff, hunindexed, hlen, htip]
  exact ⟨by decide, by decide, hchecked, by decide, by decide, by simp, by decide, by decide,
    by decide, by simp [Transaction.verify, crypto]⟩

/-- The sender can pay for it. -/
theorem offer_apply (hs : Settled crypto false P Q s (chain 0 100) K)
    (hcache : s.txQueue.balanceCache = BalanceCache.new (minAmountCruzbits + minFeeCruzbits)) :
    ∃ b, s.txQueue.balanceCache.apply s.ledger.getPublicKeyBalance offer = (b, .ok true) := by
  have hsender : offer.sender = genesisCoinbase.recipient := rfl
  have hcb : offer.isCoinbase = false := rfl
  have hspent : int64 (offer.amount + offer.fee) = 1001000000 := by decide
  have hbalance : s.ledger.getPublicKeyBalance offer.sender = .ok 3999000000 := by
    rw [hs.describes.getPublicKeyBalance, hsender, balance_hundred]
  have hlook : (BalanceCache.new (minAmountCruzbits + minFeeCruzbits)).lookup
      s.ledger.getPublicKeyBalance offer.sender = .ok 3999000000 := by
    simp [BalanceCache.lookup, BalanceCache.new, hbalance]
  have hcredit (b : BalanceCache) :
      ∃ b', b.credit s.ledger.getPublicKeyBalance offer = (b', .ok true) := by
    unfold BalanceCache.credit BalanceCache.lookup Ledger.getPublicKeyBalance
    cases b.cache[pubKeyArray offer.recipient]? <;> exact ⟨_, rfl⟩
  rw [hcache]
  simp only [BalanceCache.apply, hcb, hlook, hspent, Bool.false_eq_true, if_false]
  rw [if_neg (by decide), if_neg (by decide)]
  exact hcredit _

/-- The second transfer is queued. -/
theorem queue_offer (hs : Settled crypto false P Q s (chain 0 100) K)
    (hq : s.txQueue.txQueue = []) :
    (s.step crypto false (.transaction offer)).1.txQueue.transactions = [offer] := by
  have hcache : s.txQueue.balanceCache = BalanceCache.new (minAmountCruzbits + minFeeCruzbits) := by
    have hreplays := hs.fresh.replays
    rw [TransactionQueue.Replays, TransactionQueue.transactions, hq] at hreplays
    exact (Option.some.inj hreplays).symm
  have hmap : s.txQueue.txMap.contains (offer.id crypto) = false := by
    rw [← Bool.not_eq_true, Table.contains_iff]
    rintro ⟨e, he⟩
    have := ((hs.queue.map_iff _ _).mp he).1
    rw [hq] at this
    exact absurd this List.not_mem_nil
  obtain ⟨b, hb⟩ := offer_apply hs hcache
  simp only [Processor.step, Processor.processTransaction, offer_checks hs hq,
    TransactionQueue.add, hmap, hb]
  simp [TransactionQueue.transactions, TransactionQueue.pushBack, hq]

end Offer

/-- The call delivers a block of the sample chain or the second transfer. -/
def Offers (call : Call) : Prop := Delivers 0 call ∨ call = .transaction offer

theorem Offers.within {call : Call} (h : Offers call) : call.Within offers := by
  rcases h with ⟨n, hn, rfl⟩ | rfl
  · exact fun tx htx => Or.inr ⟨n, hn, htx⟩
  · exact fun tx htx => Or.inl (List.mem_singleton.mp htx)

/-- The second transfer waits in the queue of a run. -/
theorem exists_offered :
    ∃ s, Run crypto false Offers s ∧
      Settled crypto false (fun _ => True) (Run crypto false (Delivers 0)) s (chain 0 100)
        {id | id ∈ (chain 0 100).ids} ∧
      s.txQueue.transactions = [offer] := by
  have hrun : Run crypto false (Delivers 0) (state false 0 100) :=
    (settled false le_rfl (Or.inl rfl) (by decide)).1
  exact ⟨_, .call (.transaction offer) (hrun.mono fun call => Or.inl) (Or.inr rfl),
    (settled_hundred.processTransaction_settled (vouches_true _)).1,
    queue_offer settled_hundred queue_nil⟩

end Sample

/-- **A transfer in the queue**: the invariant holds of a queue that is not
empty. -/
theorem queue_of_offered_transfer :
    CollisionFree Sample.crypto Sample.offers ∧ genesisCoinbase ∈ Sample.offers ∧
      ∃ s, Run Sample.crypto false (Call.Within Sample.offers) s ∧
        s.txQueue.transactions = [Sample.offer] ∧
        s.txQueue.Consistent Sample.crypto s.blockStore s.ledger := by
  have hg : genesisCoinbase ∈ Sample.offers := Or.inr ⟨0, by omega, List.mem_singleton.mpr rfl⟩
  obtain ⟨s, hrun, -, hqueue⟩ := Sample.exists_offered
  have hwithin := hrun.mono fun call => Sample.Offers.within
  exact ⟨Sample.offers_collisionFree, hg, s, hwithin, hqueue,
    queue_invariant Sample.offers_collisionFree hg hwithin⟩

/-! ### Signatures -/

/-- **Signature soundness.** -/
theorem signatures_sound {crypto : Crypto} {prune : Bool} {U : Set Transaction} {s : Processor}
    (hU : CollisionFree crypto U) (h : Run crypto prune (Call.Within U) s) :
    (∀ (id : BlockID) (e : StoredBlock) (tx : Transaction), s.ledger.Known id →
      s.blockStore[id]? = some e → tx ∈ e.block.transactions → tx.isCoinbase = false →
      tx.verify crypto = true) ∧
    ∀ e ∈ s.txQueue.txQueue, e.value.verify crypto = true := by
  obtain ⟨c, K, hs⟩ := h.settled fun call hcall => hcall.vouches hU
  constructor
  · intro id e tx hid he htx hcb
    exact (hs.vouched_known ((hs.describes.known_iff id).mp hid) he htx hcb).2
  · exact fun e he => (hs.vouched e he).2

/-- One transfer is in block 100, the other waits in the queue. -/
theorem signatures_of_offered_transfer :
    ∃ s, Run Sample.crypto false (Call.Within Sample.offers) s ∧
      (∃ e, s.blockStore[(Sample.entry 0 100).1]? = some e ∧
        Sample.transfer 0 ∈ e.block.transactions ∧
        (Sample.transfer 0).verify Sample.crypto = true) ∧
      s.txQueue.transactions = [Sample.offer] ∧
      ∀ e ∈ s.txQueue.txQueue, e.value.verify Sample.crypto = true := by
  obtain ⟨s, hrun, hs, hqueue⟩ := Sample.exists_offered
  have hwithin := hrun.mono fun call => Sample.Offers.within
  obtain ⟨hblocks, hqueued⟩ := signatures_sound Sample.offers_collisionFree hwithin
  have hmem : Sample.entry 0 100 ∈ Sample.chain 0 100 := Sample.mem_chain.mpr ⟨100, le_rfl, rfl⟩
  have hknown := (hs.describes.known_iff _).mpr (hs.describes.known _ (List.mem_map_of_mem hmem))
  obtain ⟨storedAt, hget⟩ := hs.stored _ hmem
  have htransfer : Sample.transfer 0 ∈ (Sample.entry 0 100).2.transactions :=
    List.mem_cons_of_mem _ (List.mem_singleton_self _)
  exact ⟨s, hwithin, ⟨_, hget, htransfer, hblocks _ _ _ hknown hget htransfer rfl⟩, hqueue, hqueued⟩

end Cruzbit

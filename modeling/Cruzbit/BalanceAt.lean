/-
Cruzbit/BalanceAt.lean

Balances replayed from the history of a public key: `GetPublicKeyBalanceAt`.

The replay adds up the key's transactions in order.  It leaves out a coinbase
that is not mature yet, but it asks whether it is mature now, not at the height
the replay is for.  So it counts some coinbases earlier than the ledger did
(`Chain.early`), and the running total is never below the balance of the time:
no payment that the ledger accepted makes it negative (`OnChain.balanceAt_eq`).

At the tip nothing is counted early (`balance_replays`).  At an earlier height the
replay agrees with the balance of that time if and only if no coinbase that
was immature then and is mature now was paid to the key (`balanceAt_iff`).
-/
import Cruzbit.LedgerSteps
import Cruzbit.KeyIndex

namespace Cruzbit

open Accounts Chain Word ByteOrder

/-! ### The replay -/

/-- A transaction's effect on the running balance of the key. -/
def historicalBalance (crypto : Crypto) (pk : PublicKey) (tx : Transaction) (balance : Int) :
    Res Int :=
  if pk = tx.recipient then .ok (int64 (balance + tx.amount))
  else if pk = tx.sender then
    let balance := int64 (int64 (balance - tx.amount) - tx.fee)
    if balance < 0 then .error (.balanceNegative (tx.id crypto)) else .ok balance
  else .error (.keyNotInvolved (tx.id crypto))

namespace Ledger

/-- The loop over the iterator.  The indices in the keys are not negative. -/
def balanceLoop (crypto : Crypto) (l : Ledger) (blockStore : BlockStorage) (pk : PublicKey)
    (currentHeight : Int) : List (List UInt8) → Int → Res Int
  | [], balance => .ok balance
  | key :: keys, balance => do
    let (_, height, index) ← decodePubKeyTransactionIndexKey key
    if index = 0 ∧ height > int64 (currentHeight - coinbaseMaturity) then
      -- coinbase isn't mature
      balanceLoop crypto l blockStore pk currentHeight keys balance
    else
      match l.getBlockIDForHeight height with
      | none => .error (.noBlockFound height)
      | some id =>
        let (tx, _) ← blockStore.getTransaction id index.toNat
        let balance ← historicalBalance crypto pk tx balance
        balanceLoop crypto l blockStore pk currentHeight keys balance

/-- GetPublicKeyBalanceAt returns the public key balance at the given height. -/
def getPublicKeyBalanceAt (crypto : Crypto) (l : Ledger) (blockStore : BlockStorage)
    (pk : PublicKey) (height : Int) : Res Int :=
  let currentHeight := (l.chainTip.map Prod.snd).getD 0
  let startKey := computePubKeyTransactionIndexKey pk none none
  -- make it inclusive
  let endKey := computePubKeyTransactionIndexKey pk (some (int64 (height + 1))) none
  balanceLoop crypto l blockStore pk currentHeight (l.newIterator startKey endKey) 0

end Ledger

/-! ### One transaction -/

section Step

variable {crypto : Crypto} {pk : PublicKey} {tx : Transaction} {balance : Int}

/-- The effect is exact as long as the outcome is neither negative nor huge. -/
theorem historicalBalance_eq (htx : tx.Checked) (hpk : tx.Involves pk) (hb : 0 ≤ balance)
    (hlow : 0 ≤ balance + tx.payment.delta pk) (hhigh : balance + tx.amount < 2 ^ 63) :
    historicalBalance crypto pk tx balance = .ok (balance + tx.payment.delta pk) := by
  have hamount := htx.amount_pos
  have hfee := htx.fee_nonneg
  rcases hpk with rfl | ⟨hcb, rfl⟩
  · have hdelta : tx.payment.delta tx.recipient = tx.amount :=
      Payment.delta_payee htx.sound.payer_ne
    rw [historicalBalance, if_pos rfl, int64_of_fits (by unfold Fits64; omega), hdelta]
  · have hdelta : tx.payment.delta tx.sender = -(tx.amount + tx.fee) :=
      Payment.delta_payer (Transaction.isCoinbase_eq_false_iff.mp hcb) htx.not_self
    rw [hdelta] at hlow ⊢
    rw [historicalBalance, if_neg htx.not_self, if_pos rfl,
      int64_of_fits (x := balance - tx.amount) (by unfold Fits64; omega),
      int64_of_fits (by unfold Fits64; omega), if_neg (by omega)]
    congr 1
    omega

/-- A transaction that does not involve the key does not change its account. -/
theorem delta_of_not_involves (hpk : ¬ tx.Involves pk) : tx.payment.delta pk = 0 := by
  rw [Transaction.Involves, not_or, not_and] at hpk
  refine Payment.delta_other (fun hfrom => ?_) hpk.1
  have hfrom : tx.fromKey = some pk := hfrom
  have hsender : tx.sender = pk := by rw [Transaction.sender, hfrom, Option.getD_some]
  exact hpk.2 (Transaction.isCoinbase_eq_false_iff.mpr (hsender ▸ hfrom)) hsender.symm

end Step

/-! ### The history of a block -/

section Loop

variable {crypto : Crypto} {s : BlockStorage} {l : Ledger} {c : Chain} {K : Set BlockID}
  {pk : PublicKey} {tx : Transaction} {n i : Nat} {balance currentHeight : Int}
  {rest : List (List UInt8)}

/-- A transaction of the main chain is found where the index says it is. -/
theorem OnChain.getTransaction_eq (h : OnChain crypto false s l c K)
    (htx : transactionAt c n i = some tx) :
    ∃ id header, l.getBlockIDForHeight n = some id ∧ s.getTransaction id i = .ok (tx, header) := by
  obtain ⟨x, hx, hget⟩ := Option.bind_eq_some_iff.mp htx
  have hid := (h.tables.heightIndex n x.1).mpr ⟨n, rfl, by rw [hx, Option.map_some]⟩
  obtain ⟨t, ht⟩ := h.stored x (h.valid.blockAt_iff.mp hx).1
  refine ⟨x.1, x.2.header, hid, ?_⟩
  simp only [BlockStorage.getTransaction, ht, hget]

/-- **One step of the replay.** -/
theorem OnChain.balanceLoop_cons (h : OnChain crypto false s l c K)
    (hpk : pk.length = publicKeySize) (htx : transactionAt c n i = some tx)
    (hinv : tx.Involves pk) :
    l.balanceLoop crypto s pk currentHeight (positionKey pk ⟨n, i⟩ :: rest) balance =
      if i = 0 ∧ (n : Int) > int64 (currentHeight - coinbaseMaturity) then
        l.balanceLoop crypto s pk currentHeight rest balance
      else historicalBalance crypto pk tx balance >>=
        l.balanceLoop crypto s pk currentHeight rest := by
  have hmem : (⟨n, i⟩ : Position) ∈ history pk c := mem_history.mpr ⟨tx, htx, hinv⟩
  have hbounds := h.inBounds hmem
  obtain ⟨id, header, hid, hget⟩ := h.getTransaction_eq htx
  simp only [Ledger.balanceLoop, decode_positionKey hpk hbounds, bind, Except.bind,
    Int.natCast_eq_zero, hid, Int.toNat_natCast, hget]

/-- The transfers of a block, from the one at index `k` on. -/
theorem OnChain.balanceLoop_transfers (h : OnChain crypto false s l c K)
    (hpk : pk.length = publicKeySize) {x : BlockID × Block} (hx : blockAt c n = some x)
    {txs : List Transaction} {k : Nat} (hk : k ≠ 0) (hdrop : x.2.transactions.drop k = txs)
    (hchecked : ∀ tx ∈ txs, tx.Checked ∧ tx.isCoinbase = false) {v : PublicKey →₀ ℤ}
    (hv : ∀ pk, 0 ≤ v pk) (hcov : Covered v (txs.map Transaction.payment)) {extra : Int}
    (hextra : 0 ≤ extra) (hsmall : total v + extra ≤ 2 * maxMoney) :
    l.balanceLoop crypto s pk currentHeight
        ((((txs.zipIdx k).filter fun e => e.1.Involves pk).map fun e => positionKey pk ⟨n, e.2⟩) ++
          rest) (v pk + extra) =
      l.balanceLoop crypto s pk currentHeight rest
        (settle v (txs.map Transaction.payment) pk + extra) := by
  induction txs generalizing k v with
  | nil => simp
  | cons tx txs ih =>
    obtain ⟨htx, hcb⟩ := hchecked tx List.mem_cons_self
    obtain ⟨hcovered, hcov⟩ := hcov
    have hat : transactionAt c n k = some tx := by
      rw [transactionAt, hx, Option.bind_some, ← List.head?_drop, hdrop, List.head?_cons]
    have hdrop' : x.2.transactions.drop (k + 1) = txs := by
      rw [← List.tail_drop, hdrop, List.tail_cons]
    have hv' := Payment.nonneg_add_delta hv htx.sound hcovered
    have htotal : total (v + tx.payment.delta) = total v - tx.fee := by
      have hfrom := Transaction.isCoinbase_eq_false_iff.mp hcb
      rw [total_add, Payment.total_delta]
      simp [Payment.issued, Transaction.payment, hfrom, sub_eq_add_neg]
    have hnext := ih (k := k + 1) (by omega) hdrop'
      (fun tx htx => hchecked tx (List.mem_cons_of_mem _ htx)) hv' hcov
      (by have := htx.fee_nonneg; omega)
    rw [List.map_cons, settle_cons, ← hnext, List.zipIdx_cons]
    by_cases hinv : tx.Involves pk
    · rw [List.filter_cons_of_pos (by simpa using hinv), List.map_cons, List.cons_append,
        h.balanceLoop_cons hpk hat hinv, if_neg (fun hz => hk hz.1)]
      have hle := le_total hv pk
      have hlow := hv' pk
      have hamount := htx.amount_le
      simp only [maxMoney, cruzbitsPerCruz] at hamount hsmall
      rw [Finsupp.add_apply] at hlow ⊢
      rw [historicalBalance_eq htx hinv (add_nonneg (hv pk) hextra) (by omega) (by omega)]
      show l.balanceLoop crypto s pk currentHeight _ (v pk + extra + tx.payment.delta pk) = _
      congr 1
      ring
    · rw [List.filter_cons_of_neg (by simpa using hinv), Finsupp.add_apply,
        delta_of_not_involves hinv, add_zero]

end Loop

/-! ### Coinbases that are counted early -/

namespace Chain

/-- What the replay counts of a block's coinbase, if coinbases up to the height
`mature` are mature now. -/
def counted (pk : PublicKey) (mature : Int) (x : BlockID × Block) : Int :=
  if x.2.header.height ≤ mature then coinbaseReceived pk x else 0

/-- What the replay counts of the coinbases that were not mature at the tip of
the chain. -/
def early (pk : PublicKey) (mature : Int) (c : Chain) : Int :=
  ((c.take coinbaseMaturity.toNat).map (counted pk mature)).sum

section Early

variable {crypto : Crypto} {prune : Bool} {c : Chain} {x : BlockID × Block} {pk : PublicKey}
  {mature : Int}

theorem coinbaseReceived_bounds (hx : x.2.WellFormed crypto) (pk : PublicKey) :
    0 ≤ coinbaseReceived pk x ∧ coinbaseReceived pk x ≤ x.2.coinbaseAmount := by
  obtain ⟨coinbase, transfers, hshape, -⟩ := hx.shape
  have hpos := (hx.checked coinbase (by simp [hshape])).amount_pos
  simp only [coinbaseReceived, Block.coinbaseAmount, hshape, List.head?_cons, Option.toList_some,
    List.map_singleton, List.sum_singleton, Option.map_some, Option.getD_some,
    Transaction.received]
  split_ifs <;> omega

theorem counted_bounds (hx : x.2.WellFormed crypto) (pk : PublicKey) (mature : Int) :
    0 ≤ counted pk mature x ∧ counted pk mature x ≤ x.2.coinbaseAmount := by
  have hbounds := coinbaseReceived_bounds hx pk
  rw [counted]
  split_ifs <;> omega

theorem Valid.early_nonneg (h : Valid crypto prune c) : 0 ≤ early pk mature c := by
  refine List.sum_nonneg fun a ha => ?_
  obtain ⟨x, hx, rfl⟩ := List.mem_map.mp ha
  exact (counted_bounds (h.mem_wellFormed (List.mem_of_mem_take hx)) pk mature).1

theorem Valid.early_le (h : Valid crypto prune c) : early pk mature c ≤ maxMoney := by
  have hle : early pk mature c ≤ pending c := List.sum_le_sum fun x hx =>
    (counted_bounds (h.mem_wellFormed (List.mem_of_mem_take hx)) pk mature).2
  have hsum := h.total_add_pending
  have hissued := issued_le_maxMoney c.length
  have htotal := total_nonneg h.balances_nonneg
  omega

theorem early_cons (x : BlockID × Block) (c : Chain) : early pk mature (x :: c) =
    counted pk mature x + ((c.take (coinbaseMaturity.toNat - 1)).map (counted pk mature)).sum :=
  rfl

/-- Of the coinbases counted early, the oldest one matures in the next block. -/
theorem Valid.early_eq (h : Valid crypto prune c) (hmature : (c.length : Int) ≤ mature + 100) :
    early pk mature c = ((c.take (coinbaseMaturity.toNat - 1)).map (counted pk mature)).sum +
      (((matured c).toList.map Transaction.payment).map Payment.delta).sum pk := by
  have htake : c.take coinbaseMaturity.toNat = c.take (coinbaseMaturity.toNat - 1) ++
      (c.drop (coinbaseMaturity.toNat - 1)).head?.toList := by
    rw [List.head?_drop]
    exact List.take_add_one
  rw [early, htake, List.map_append, List.sum_append, sum_delta_apply]
  congr 1
  have hmat := h.matured_received pk
  have hnext : c.drop coinbaseMaturity.toNat = (c.drop (coinbaseMaturity.toNat - 1)).tail := by
    rw [List.tail_drop]
    rfl
  cases hd : c.drop (coinbaseMaturity.toNat - 1) with
  | nil => simp [matured, hd]
  | cons y d =>
    rw [hnext, hd, List.tail_cons, List.map_cons, List.sum_cons] at hmat
    have hy : y.2.header.height ≤ mature := by
      have hlt := (hd ▸ h.drop _ : Valid crypto prune (y :: d)).head.height
      have hlen := congrArg List.length hd
      rw [List.length_drop, List.length_cons, show coinbaseMaturity.toNat - 1 = 99 from rfl] at hlen
      omega
    rw [List.head?_cons, Option.toList_some, List.map_singleton, List.sum_singleton, counted,
      if_pos hy]
    omega

end Early

end Chain

/-! ### The history of a chain -/

section Replay

variable {crypto : Crypto} {s : BlockStorage} {l : Ledger} {c d e : Chain} {K : Set BlockID}
  {pk : PublicKey} {n : Nat} {balance currentHeight mature : Int} {rest : List (List UInt8)}

/-- The coinbase of a block is counted if it is mature now. -/
theorem OnChain.balanceLoop_coinbase (h : OnChain crypto false s l c K)
    (hpk : pk.length = publicKeySize) {x : BlockID × Block} (hx : blockAt c n = some x)
    (hmature : int64 (currentHeight - coinbaseMaturity) = mature)
    (hb : 0 ≤ balance ∧ balance ≤ 2 * maxMoney) :
    l.balanceLoop crypto s pk currentHeight
        ((blockHistory pk n x.2).map (positionKey pk) ++ rest) balance =
      l.balanceLoop crypto s pk currentHeight
        ((((x.2.transactions.tail.zipIdx 1).filter fun e => e.1.Involves pk).map fun e =>
          positionKey pk ⟨n, e.2⟩) ++ rest) (balance + counted pk mature x) := by
  obtain ⟨hmem, hheight⟩ := h.valid.blockAt_iff.mp hx
  have hwf := h.valid.mem_wellFormed hmem
  obtain ⟨coinbase, transfers, hshape, hcb, -⟩ := hwf.shape
  have hchecked := hwf.checked coinbase (by simp [hshape])
  have hfrom := Transaction.isCoinbase_eq_true_iff.mp hcb
  have hreceived : coinbaseReceived pk x = coinbase.payment.delta pk := by
    rw [delta_apply, Transaction.sent, hfrom, coinbaseReceived, hshape]
    simp
  have hat : transactionAt c n 0 = some coinbase := by
    rw [transactionAt, hx, Option.bind_some, hshape]
    rfl
  rw [blockHistory, List.map_map, hshape, List.zipIdx_cons, List.tail_cons, counted, hheight,
    hreceived]
  by_cases hinv : coinbase.Involves pk
  · rw [List.filter_cons_of_pos (by simpa using hinv), List.map_cons, List.cons_append]
    refine (h.balanceLoop_cons hpk hat hinv).trans ?_
    rw [hmature]
    by_cases hle : (n : Int) ≤ mature
    · have hdelta := (coinbaseReceived_bounds hwf pk).1
      have hamount := hchecked.amount_le
      simp only [maxMoney, cruzbitsPerCruz] at hb hamount
      rw [if_neg (fun hgt => not_lt.mpr hle hgt.2), if_pos hle,
        historicalBalance_eq hchecked hinv hb.1 (by omega) (by omega)]
      rfl
    · rw [if_pos ⟨rfl, not_le.mp hle⟩, if_neg hle, add_zero]
      rfl
  · rw [List.filter_cons_of_neg (by simpa using hinv), delta_of_not_involves hinv, ite_self,
      add_zero]
    rfl

/-- **The replay of a chain's history** gives the balance at its tip and what is
counted early. -/
theorem OnChain.balanceLoop_history (h : OnChain crypto false s l (d ++ e) K)
    (hpk : pk.length = publicKeySize)
    (hmature : int64 (currentHeight - coinbaseMaturity) = mature)
    (hlen : ((d ++ e).length : Int) ≤ mature + 101) :
    l.balanceLoop crypto s pk currentHeight ((history pk e).map (positionKey pk) ++ rest) 0 =
      l.balanceLoop crypto s pk currentHeight rest (balances e pk + early pk mature e) := by
  induction e generalizing d rest with
  | nil => rfl
  | cons x e ih =>
    have hchain : d ++ x :: e = (d ++ [x]) ++ e := List.append_cons d x e
    have hvalid : Valid crypto false (x :: e) := by
      have := h.valid.drop d.length
      rwa [List.drop_left] at this
    have hx : blockAt (d ++ x :: e) e.length = some x := by
      rw [blockAt_append (by simp), blockAt_length]
    have hwf := hvalid.head.wellFormed
    have hsolvent := hvalid.tail.solvent
    have hearly : 0 ≤ early pk mature e := hvalid.tail.early_nonneg
    have hearly' : early pk mature e ≤ maxMoney := hvalid.tail.early_le
    have hbalance := hsolvent.nonneg pk
    have hbalance' := hsolvent.le pk
    -- the matured coinbase first, then the transfers
    set v := settle (balances e) ((matured e).toList.map Transaction.payment) with hv
    have hcov := hvalid.head.covered
    rw [dues, List.map_append, covered_append] at hcov
    have hmatured : Solvent v := hvalid.tail.solvent_matured
    have htotal := hmatured.total_le
    have hstart : balances e pk + early pk mature e + counted pk mature x =
        v pk + early pk mature (x :: e) := by
      rw [hvalid.tail.early_eq (by simp at hlen; omega), early_cons, hv, settle,
        Finsupp.add_apply]
      ring
    have hend : balances (x :: e) =
        settle v (x.2.transactions.tail.map Transaction.payment) := by
      rw [balances, dues, List.map_append, settle_append]
    rw [history, List.map_append, List.append_assoc, ih (hchain ▸ h) (hchain ▸ hlen),
      h.balanceLoop_coinbase hpk hx hmature ⟨by omega, by omega⟩, hstart, hend]
    have hextra : early pk mature (x :: e) ≤ maxMoney := hvalid.early_le
    refine h.balanceLoop_transfers hpk hx one_ne_zero List.drop_one (fun tx htx => ?_) hmatured.nonneg
      hcov.2 hvalid.early_nonneg (by omega)
    refine ⟨hwf.checked tx (List.mem_of_mem_tail htx), ?_⟩
    obtain ⟨coinbase, transfers, hshape, -, hsigned⟩ := hwf.shape
    rw [hshape] at htx
    exact hsigned tx htx

/-- The history below a height. -/
theorem filter_history (pk : PublicKey) (d e : Chain) :
    ((history pk (d ++ e)).filter fun p => p.height < e.length) = history pk e := by
  induction d with
  | nil => exact List.filter_eq_self.mpr fun p hp => decide_eq_true (history_height_lt hp)
  | cons x d ih =>
    rw [List.cons_append, history, List.filter_append, ih, List.filter_eq_nil_iff.mpr,
      List.append_nil]
    intro p hp hlt
    have hheight := (mem_blockHistory.mp hp).1
    rw [List.length_append] at hheight
    have := of_decide_eq_true hlt
    omega

/-- **What the replay returns** at the height of the newest block of `e`. -/
theorem OnChain.balanceAt_eq (h : OnChain crypto false s l (d ++ e) K)
    (hpk : pk.length = publicKeySize) (he : e ≠ []) :
    l.getPublicKeyBalanceAt crypto s pk ((e.length : Int) - 1) =
      .ok (balances e pk + early pk ((d ++ e).length - 101) e) := by
  obtain ⟨x, c, hc⟩ := List.exists_cons_of_ne_nil (show d ++ e ≠ [] by simp [he])
  have hlen : ((d ++ e).length : Int) < 2 ^ 62 := by
    have hvalid := hc ▸ h.valid
    have hheight := hvalid.head.height
    have hle := hvalid.head.wellFormed.height_le
    simp only [maxNumber] at hle
    rw [hc, List.length_cons]
    omega
  have helen : e.length ≤ (d ++ e).length := by simp
  have htip : (l.chainTip.map Prod.snd).getD 0 = ((d ++ e).length : Int) - 1 := by
    rw [h.describes.chainTip, hc]
    rfl
  have hiter : l.newIterator (computePubKeyTransactionIndexKey pk none none)
      (computePubKeyTransactionIndexKey pk (some (int64 ((e.length : Int) - 1 + 1))) none) =
      (history pk e).map (positionKey pk) := by
    rw [sub_add_cancel, int64_of_fits (by unfold Fits64; omega), computePubKeyTransactionIndexKey,
      computePubKeyTransactionIndexKey, h.newIterator_eq hpk, ← filter_history pk d e]
    congr 1
    refine List.filter_congr fun p hp => decide_eq_decide.mpr ?_
    have hprefix : (107 :: pk) ++ [] ≤ positionKey pk p := by
      rw [← List.not_lt, positionKey, computePubKeyTransactionIndexKey, append_lt_append_left]
      exact List.not_lt_nil _
    rw [and_iff_right hprefix]
    have hheight := unsigned_height (h.inBounds hp).height_lt
    have hlength : unsigned 8 (e.length : Int) = e.length := unsigned_height (by omega)
    exact key_lt_heightKey.trans (by omega)
  have hmature : int64 (((d ++ e).length : Int) - 1 - coinbaseMaturity) = (d ++ e).length - 101 := by
    rw [int64_of_fits (by unfold Fits64; simp only [coinbaseMaturity]; omega)]
    simp only [coinbaseMaturity]
    ring
  simp only [Ledger.getPublicKeyBalanceAt, htip, hiter]
  rw [← List.append_nil ((history pk e).map _), h.balanceLoop_history hpk hmature (by omega)]
  rfl

/-! ### At the tip -/

/-- Nothing is counted early if and only if no coinbase pays the key that was
not mature at the tip of the chain and is mature now. -/
theorem Chain.Valid.early_eq_zero (h : Valid crypto false c) : early pk mature c = 0 ↔
    ∀ x ∈ c, (c.length : Int) ≤ x.2.header.height + 100 → x.2.header.height ≤ mature →
      coinbaseReceived pk x = 0 := by
  have hsum : early pk mature c = 0 ↔ ∀ x ∈ c.take coinbaseMaturity.toNat,
      counted pk mature x = 0 := by
    constructor
    · intro hzero x hx
      refine List.all_zero_of_le_zero_le_of_sum_eq_zero (fun a ha => ?_) hzero
        (List.mem_map_of_mem hx)
      obtain ⟨y, hy, rfl⟩ := List.mem_map.mp ha
      exact (counted_bounds (h.mem_wellFormed (List.mem_of_mem_take hy)) pk mature).1
    · intro hall
      refine List.sum_eq_zero fun a ha => ?_
      obtain ⟨y, hy, rfl⟩ := List.mem_map.mp ha
      exact hall y hy
  rw [hsum]
  simp only [h.mem_take_iff, counted, ite_eq_right_iff, and_imp]
  rfl

/-- **History replays to the recorded balance.** -/
theorem balance_replays (h : LedgerRun crypto false s l) (hpk : pk.length = publicKeySize)
    {tipID : BlockID} {height : Int} (htip : l.chainTip = some (tipID, height)) :
    ∃ balance, l.getPublicKeyBalanceAt crypto s pk height = .ok balance ∧
      l.getPublicKeyBalance pk = .ok balance := by
  obtain ⟨c, K, hc⟩ := h.invariant
  obtain ⟨y, d, rfl⟩ := hc.exists_head
  obtain ⟨-, rfl⟩ := Prod.mk.inj (Option.some.inj (hc.describes.chainTip.symm.trans htip))
  have hnone : early pk ((([] ++ y :: d : Chain).length : Int) - 101) (y :: d) = 0 := by
    rw [hc.valid.early_eq_zero]
    intro x hx hlow hhigh
    simp only [List.nil_append] at hhigh
    omega
  refine ⟨balances (y :: d) pk, ?_, hc.describes.getPublicKeyBalance pk⟩
  have hat : _ = Except.ok (balances (y :: d) pk + early pk _ (y :: d)) :=
    OnChain.balanceAt_eq (d := []) hc hpk (List.cons_ne_nil y d)
  rwa [hnone, add_zero] at hat

end Replay

/-- After a hundred blocks the recipient of the genesis coinbase has spent part
of it. -/
theorem balance_replays_after_transfer : ∃ s l, LedgerRun Sample.crypto false s l ∧
    l.getPublicKeyBalanceAt Sample.crypto s genesisCoinbase.recipient 100 = .ok 3999000000 := by
  obtain ⟨l₀, s, l, hrun, -, hsteps, hc⟩ :=
    Sample.exists_run 100 (by decide)
  have htip : l.chainTip = some ((Sample.entry 0 100).1, 100) := by
    rw [hc.describes.chainTip, Sample.chain_length]
    rfl
  obtain ⟨balance, hat, hbalance⟩ := balance_replays (hsteps.run hrun)
    (show genesisCoinbase.recipient.length = publicKeySize by decide) htip
  rw [hc.describes.getPublicKeyBalance, Sample.balance_hundred] at hbalance
  exact ⟨s, l, hsteps.run hrun, hat.trans hbalance.symm⟩

/-! ### At an earlier height -/

section Historical

variable {crypto : Crypto} {s : BlockStorage} {l : Ledger} {pk : PublicKey}

theorem coinbaseReceived_eq_zero {x : BlockID × Block} (hx : x.2.WellFormed crypto) :
    coinbaseReceived pk x = 0 ↔ ∀ coinbase ∈ x.2.transactions.head?, coinbase.recipient ≠ pk := by
  obtain ⟨coinbase, transfers, hshape, -⟩ := hx.shape
  have hpos := (hx.checked coinbase (by simp [hshape])).amount_pos
  simp [coinbaseReceived, hshape, Transaction.received, hpos.ne']

/-- **Historical balances.**  The replay at height `X` of a chain of height `H`
agrees with the balance at the time when the block at `X` was the tip if and
only if no coinbase pays the key that was less than 100 blocks deep then and is
at least 100 blocks deep now. -/
theorem balanceAt_iff (h : LedgerRun crypto false s l) (hpk : pk.length = publicKeySize)
    {tipID : BlockID} {X H : Nat} (htip : l.chainTip = some (tipID, (H : Int))) (hX : X < H) :
    ∃ x, mainBlock s l X = some x ∧
      (∃ s₀ l₀, LedgerRun crypto false s₀ l₀ ∧ LedgerSteps crypto false s₀ l₀ s l ∧
        l₀.chainTip = some (x.1, (X : Int))) ∧
      ∀ s₀ l₀, LedgerRun crypto false s₀ l₀ → LedgerSteps crypto false s₀ l₀ s l →
        l₀.chainTip = some (x.1, (X : Int)) →
        (l.getPublicKeyBalanceAt crypto s pk X = l₀.getPublicKeyBalance pk ↔
          ∀ n y, mainBlock s l n = some y → X < n + 100 → n ≤ X → n + 100 ≤ H →
            ∀ coinbase ∈ y.2.transactions.head?, coinbase.recipient ≠ pk) := by
  obtain ⟨c, K, hc⟩ := h.invariant
  have hlen : (c.length : Int) = H + 1 := by
    obtain ⟨y, d, rfl⟩ := hc.exists_head
    have := (Prod.mk.inj (Option.some.inj (hc.describes.chainTip.symm.trans htip))).2
    omega
  obtain ⟨x, hx⟩ : ∃ x, blockAt c X = some x := by
    have hlt : X < c.reverse.length := by
      rw [List.length_reverse]
      omega
    exact ⟨_, List.getElem?_eq_getElem hlt⟩
  have hmain : mainBlock s l X = some x := (hc.mainBlock_eq X).trans hx
  refine ⟨x, hmain, h.exists_tip hmain, fun s₀ l₀ h₀ hsteps htip₀ => ?_⟩
  -- the chain of that time is the lower part of the chain
  obtain ⟨e, K₀, he⟩ := h₀.invariant
  have hid : l.getBlockIDForHeight X = some x.1 :=
    (hc.tables.heightIndex _ _).mpr ⟨X, rfl, by rw [hx, Option.map_some]⟩
  obtain ⟨d, rfl⟩ := hsteps.exists_append h₀ he hc htip₀ hid
  have helen : e.length = X + 1 := by
    obtain ⟨y, e, rfl⟩ := he.exists_head
    have := (Prod.mk.inj (Option.some.inj (he.describes.chainTip.symm.trans htip₀))).2
    omega
  have hX' : (X : Int) = (e.length : Int) - 1 := by omega
  have hne : e ≠ [] := List.ne_nil_of_length_pos (by omega)
  have hblock : ∀ n y, n ≤ X → (mainBlock s l n = some y ↔ y ∈ e ∧ y.2.header.height = n) :=
    fun n y hn => by rw [hc.mainBlock_eq, blockAt_append (by omega), he.valid.blockAt_iff]
  rw [hX', hc.balanceAt_eq hpk hne, he.describes.getPublicKeyBalance pk, Except.ok.injEq,
    add_eq_left, he.valid.early_eq_zero]
  constructor
  · intro hzero n y hy hlow hn hhigh
    obtain ⟨hmem, hheight⟩ := (hblock n y hn).mp hy
    rw [← coinbaseReceived_eq_zero (he.valid.mem_wellFormed hmem)]
    exact hzero y hmem (by omega) (by omega)
  · intro hnone y hmem hlow hhigh
    have hlt := he.valid.height_lt hmem
    have hwf := he.valid.mem_wellFormed hmem
    obtain ⟨n, hn⟩ := Int.eq_ofNat_of_zero_le hwf.height_nonneg
    rw [coinbaseReceived_eq_zero hwf]
    exact hnone n y ((hblock n y (by omega)).mpr ⟨hmem, hn⟩) (by omega) (by omega) (by omega)

end Historical

/-- All coinbases of the sample chain pay the recipient of the genesis coinbase. -/
theorem Sample.recipient_of_head {n : Nat} {tx : Transaction}
    (h : tx ∈ (entry 0 n).2.transactions.head?) : tx.recipient = genesisCoinbase.recipient := by
  cases n with
  | zero => rw [← (Option.some.inj h : genesisCoinbase = tx)]
  | succ n => rw [← (Option.some.inj h : coinbase 0 (n + 1) = tx), coinbase_recipient]

/-- The key that is paid in block 100 has 10 cruz, says the replay one block
later, and so it was. -/
theorem balanceAt_of_payee : ∃ s₀ l₀ s l, LedgerRun Sample.crypto false s₀ l₀ ∧
    LedgerSteps Sample.crypto false s₀ l₀ s l ∧ (l.chainTip.map Prod.snd) = some 101 ∧
    l₀.getPublicKeyBalance Sample.payee = .ok 1000000000 ∧
    l.getPublicKeyBalanceAt Sample.crypto s Sample.payee (100 : Nat) = .ok 1000000000 := by
  obtain ⟨l₁, s₀, l₀, hrun, -, hsteps, hc₀⟩ := Sample.exists_run 100 (by decide)
  have hrun₀ := hsteps.run hrun
  have hnodup : (Sample.chain 0 101).ids.Nodup := Sample.chain_nodup le_rfl
  have hfollows : Follows Sample.crypto false ancestorTarget (Sample.chain 0 100)
      (Sample.entry 0 101) := Sample.follows false (by decide) (Or.inl rfl) (by decide)
  obtain ⟨s, l, hnext, hc⟩ := hc₀.follow hfollows (List.nodup_cons.mp hnodup).1
  change OnChain Sample.crypto false s l (Sample.chain 0 101) _ at hc
  have htip : l.chainTip = some ((Sample.entry 0 101).1, ((101 : Nat) : Int)) := by
    rw [hc.describes.chainTip, Sample.chain_length]
    rfl
  have hbalance : l₀.getPublicKeyBalance Sample.payee = .ok 1000000000 := by
    rw [hc₀.describes.getPublicKeyBalance, Sample.balance_payee]
  obtain ⟨x, hx, -, hiff⟩ := balanceAt_iff (hnext.run hrun₀)
    (show Sample.payee.length = publicKeySize by decide) htip (show 100 < 101 by decide)
  obtain rfl : Sample.entry 0 100 = x := by
    rw [hc.mainBlock_eq, Sample.blockAt_chain (by decide)] at hx
    exact Option.some.inj hx
  have htip₀ : l₀.chainTip = some ((Sample.entry 0 100).1, ((100 : Nat) : Int)) := by
    rw [hc₀.describes.chainTip, Sample.chain_length]
    rfl
  refine ⟨s₀, l₀, s, l, hrun₀, hnext, by rw [htip]; rfl, hbalance,
    ((hiff s₀ l₀ hrun₀ hnext htip₀).mpr ?_).trans hbalance⟩
  intro n y hy _ _ _ coinbase hcoinbase
  rw [hc.mainBlock_eq] at hy
  obtain ⟨k, -, rfl⟩ := Sample.mem_chain.mp (hc.valid.blockAt_iff.mp hy).1
  rw [Sample.recipient_of_head hcoinbase]
  decide

/-- The recipient of the genesis coinbase had 50 cruz at genesis, says the replay
after a hundred blocks; at the time they had nothing. -/
theorem balanceAt_genesis : ∃ s₀ l₀ s l, LedgerRun Sample.crypto false s₀ l₀ ∧
    LedgerSteps Sample.crypto false s₀ l₀ s l ∧
    l₀.chainTip = some (genesisBlock.id Sample.crypto, 0) ∧
    l.getBlockIDForHeight 0 = some (genesisBlock.id Sample.crypto) ∧
    (l.chainTip.map Prod.snd) = some 100 ∧
    l₀.getPublicKeyBalance genesisCoinbase.recipient = .ok 0 ∧
    l.getPublicKeyBalanceAt Sample.crypto s genesisCoinbase.recipient 0 = .ok 5000000000 := by
  obtain ⟨l₀, s, l, hrun, hon₀, hsteps, hc⟩ :=
    Sample.exists_run 100 (by decide)
  obtain ⟨d, hd, hlen⟩ := Sample.chain_split 0 100
  have hnothing : balances [genesisEntry Sample.crypto] genesisCoinbase.recipient = 0 := by
    have hzero : balances (Sample.chain 0 0) = 0 := Sample.balances_eq_zero (by decide)
    exact congrArg (· genesisCoinbase.recipient) hzero
  rw [hd] at hc
  refine ⟨_, l₀, s, l, hrun, hsteps, hon₀.describes.chainTip, ?_, ?_, ?_, ?_⟩
  · refine (hc.tables.heightIndex 0 _).mpr ⟨0, rfl, ?_⟩
    rw [blockAt_append (by simp)]
    rfl
  · rw [hc.describes.chainTip, ← hd, Sample.chain_length]
    rfl
  · rw [hon₀.describes.getPublicKeyBalance, hnothing]
  · refine (hc.balanceAt_eq (by decide) (List.cons_ne_nil _ _)).trans ?_
    rw [hnothing, List.length_append, hlen]
    decide

end Cruzbit

/-
Cruzbit/QueueRefusal.lean

What a refused transaction leaves behind in the queue (`Add` of
`transaction_queue_memory.go`, `Apply` of `balance_cache.go`).

`Apply` debits the sender in the cache before it looks the recipient up.  A
refusal before the debit changes nothing.  If the ledger fails to return the
recipient's balance, the debit stays although the transaction is not queued:
`StrandsDebit` is that case, and the only one in which a refusal shows
(`add_refused_unchanged_iff`).

Every lookup of the call may fail on its own, so the reads of the call are a
function that returns the ledger's balance or an error.
-/
import Cruzbit.Queue

namespace Cruzbit

open Word

namespace BalanceCache

/-- The balance seen through the cache, `balance` being what the ledger records. -/
def view (balance : PublicKey → Int) (b : BalanceCache) (pk : PublicKey) : Int :=
  (b.cache[pubKeyArray pk]?).getD (balance pk)

/-- The sender can pay, and is left with `remaining`. -/
structure Debits (getPublicKeyBalance : PublicKey → Res Int) (b : BalanceCache) (tx : Transaction)
    (remaining : Int) : Prop where
  transfer : tx.isCoinbase = false
  pays : ∃ senderBalance, b.lookup getPublicKeyBalance tx.sender = .ok senderBalance ∧
    int64 (tx.amount + tx.fee) ≤ senderBalance ∧
    remaining = int64 (senderBalance - int64 (tx.amount + tx.fee))
  no_dust : ¬ (remaining > 0 ∧ remaining < b.minBalance)

section Apply

variable {get : PublicKey → Res Int} {balance : PublicKey → Int} {b : BalanceCache}
  {tx : Transaction} {remaining : Int} {pk : PublicKey}

theorem view_put (v : Int) (pk' : PublicKey) : (b.put pk v).view balance pk' =
    if pubKeyArray pk' = pubKeyArray pk then v else b.view balance pk' := by
  unfold view put
  rw [Table.get_insert]
  simp only [eq_comm (a := pubKeyArray pk)]
  split_ifs <;> rfl

theorem lookup_put_eq_error (v : Int) {e : Err} {pk' : PublicKey} :
    (b.put pk v).lookup get pk' = .error e ↔
      pubKeyArray pk' ≠ pubKeyArray pk ∧ b.lookup get pk' = .error e := by
  unfold lookup put
  simp only [Table.get_insert, eq_comm (a := pubKeyArray pk)]
  split_ifs with h
  · simp [h]
  · simp [h]

theorem credit_cases (get : PublicKey → Res Int) (b : BalanceCache) (tx : Transaction) :
    (∃ e, b.lookup get tx.recipient = .error e ∧ b.credit get tx = (b, .error e)) ∨
      (b.credit get tx).2 = .ok true := by
  unfold credit
  cases b.lookup get tx.recipient with
  | error e => exact Or.inl ⟨e, rfl, rfl⟩
  | ok v => exact Or.inr rfl

/-- A transfer is refused with the cache as it was, or debited and then
credited. -/
theorem apply_transfer_cases (hcb : tx.isCoinbase = false) :
    (∃ r, r ≠ .ok true ∧ b.apply get tx = (b, r)) ∨
      ∃ remaining, b.Debits get tx remaining ∧
        b.apply get tx = (b.put tx.sender remaining).credit get tx := by
  unfold apply
  rw [if_neg (by rw [hcb]; exact Bool.false_ne_true)]
  cases hlook : b.lookup get tx.sender with
  | error e => exact Or.inl ⟨.error e, by simp, rfl⟩
  | ok senderBalance =>
    simp only
    split_ifs with hspent hdust
    · exact Or.inl ⟨.ok false, by simp, rfl⟩
    · exact Or.inl ⟨.ok false, by simp, rfl⟩
    · exact Or.inr ⟨_, ⟨hcb, ⟨senderBalance, hlook, not_lt.mp hspent, rfl⟩, hdust⟩, rfl⟩

theorem Debits.apply_eq (h : b.Debits get tx remaining) :
    b.apply get tx = (b.put tx.sender remaining).credit get tx := by
  obtain ⟨hcb, ⟨senderBalance, hlook, hspent, rfl⟩, hdust⟩ := h
  unfold apply
  rw [if_neg (by rw [hcb]; exact Bool.false_ne_true), hlook]
  simp only
  rw [if_neg (not_lt.mpr hspent), if_neg hdust]

end Apply

end BalanceCache

namespace TransactionQueue

/-- The same queue contents, and the same balances seen through the cache. -/
structure SameAs (balance : PublicKey → Int) (q q' : TransactionQueue) : Prop where
  txMap : q'.txMap = q.txMap
  txQueue : q'.txQueue = q.txQueue
  view : ∀ pk, q'.balanceCache.view balance pk = q.balanceCache.view balance pk

/-- The sender of a new transfer can pay, this changes a balance that is seen
under the sender's key, and the recipient's balance cannot be read. -/
def StrandsDebit (getPublicKeyBalance : PublicKey → Res Int) (balance : PublicKey → Int)
    (q : TransactionQueue) (id : TransactionID) (tx : Transaction) : Prop :=
  q.txMap.contains id = false ∧
    (∃ remaining, q.balanceCache.Debits getPublicKeyBalance tx remaining ∧
      ∃ pk, pubKeyArray pk = pubKeyArray tx.sender ∧
        q.balanceCache.view balance pk ≠ remaining) ∧
    pubKeyArray tx.recipient ≠ pubKeyArray tx.sender ∧
    ∃ e, q.balanceCache.lookup getPublicKeyBalance tx.recipient = .error e

section Refusal

variable {get : PublicKey → Res Int} {balance : PublicKey → Int} {q : TransactionQueue}
  {id : TransactionID} {tx : Transaction} {b : BalanceCache}

theorem sameAs_cache (h : ∀ pk, b.view balance pk = q.balanceCache.view balance pk) :
    q.SameAs balance { q with balanceCache := b } :=
  ⟨rfl, rfl, h⟩

/-- A refusal by the cache leaves the cache that `Apply` left. -/
theorem add_of_apply (hnew : q.txMap.contains id = false) {r : Res Bool} (hr : r ≠ .ok true)
    (h : q.balanceCache.apply get tx = (b, r)) :
    (q.add get id tx).1 = { q with balanceCache := b } ∧ (q.add get id tx).2 ≠ .ok true := by
  unfold add
  rw [if_neg (by rw [hnew]; exact Bool.false_ne_true), h]
  match r, hr with
  | .error e, _ => exact ⟨rfl, by simp⟩
  | .ok false, _ => exact ⟨rfl, by simp⟩

theorem add_of_credit (hnew : q.txMap.contains id = false)
    (h : (q.balanceCache.apply get tx).2 = .ok true) : (q.add get id tx).2 = .ok true := by
  unfold add
  rw [if_neg (by rw [hnew]; exact Bool.false_ne_true)]
  generalize q.balanceCache.apply get tx = applied at h
  obtain ⟨b, r⟩ := applied
  obtain rfl : r = .ok true := h
  rfl

/-- A stranded debit shows. -/
theorem StrandsDebit.add (h : StrandsDebit get balance q id tx) :
    (q.add get id tx).2 ≠ .ok true ∧ ¬ q.SameAs balance (q.add get id tx).1 := by
  obtain ⟨hnew, ⟨remaining, hdebits, pk, hpk, hview⟩, hne, e, he⟩ := h
  have happly : q.balanceCache.apply get tx =
      (q.balanceCache.put tx.sender remaining, .error e) := by
    rw [hdebits.apply_eq]
    unfold BalanceCache.credit
    rw [(BalanceCache.lookup_put_eq_error remaining).mpr ⟨hne, he⟩]
  obtain ⟨hq, hrefused⟩ := add_of_apply hnew (by simp) happly
  refine ⟨hrefused, fun hsame => hview ?_⟩
  have := hsame.view pk
  rw [hq] at this
  rw [← this]
  exact (BalanceCache.view_put remaining pk).trans (if_pos hpk)

/-- Any other refusal leaves no trace. -/
theorem sameAs_add (h : ¬ StrandsDebit get balance q id tx)
    (hrefused : (q.add get id tx).2 ≠ .ok true) : q.SameAs balance (q.add get id tx).1 := by
  cases hnew : q.txMap.contains id with
  | true =>
    unfold add
    rw [if_pos hnew]
    exact ⟨rfl, rfl, fun _ => rfl⟩
  | false =>
    -- the cache refused: it is as it was, or the sender is debited in it
    have hcredit (b : BalanceCache) (happly : q.balanceCache.apply get tx = b.credit get tx) :
        ∃ e, b.lookup get tx.recipient = .error e ∧
          q.balanceCache.apply get tx = (b, .error e) := by
      rcases BalanceCache.credit_cases get b tx with ⟨e, he, hb⟩ | hb
      · exact ⟨e, he, happly.trans hb⟩
      · exact absurd (add_of_credit hnew ((congrArg Prod.snd happly).trans hb)) hrefused
    cases hcb : tx.isCoinbase with
    | true =>
      obtain ⟨e, -, happly⟩ := hcredit q.balanceCache (by
        unfold BalanceCache.apply
        rw [if_pos hcb])
      rw [(add_of_apply hnew (by simp) happly).1]
      exact sameAs_cache fun _ => rfl
    | false =>
      rcases BalanceCache.apply_transfer_cases hcb with ⟨r, hr, happly⟩ | ⟨remaining, hd, happly⟩
      · rw [(add_of_apply hnew hr happly).1]
        exact sameAs_cache fun _ => rfl
      · obtain ⟨e, he, happly⟩ := hcredit _ happly
        rw [(add_of_apply hnew (by simp) happly).1]
        refine sameAs_cache fun pk => ?_
        obtain ⟨hne, he⟩ := (BalanceCache.lookup_put_eq_error remaining).mp he
        rw [BalanceCache.view_put]
        split_ifs with hpk
        · by_contra hview
          exact h ⟨hnew, ⟨remaining, hd, pk, hpk, fun heq => hview heq.symm⟩, hne, e, he⟩
        · rfl

/-- **A refused transaction leaves no trace**, except when its debit strands. -/
theorem add_refused_unchanged_iff :
    ((q.add get id tx).2 ≠ .ok true → q.SameAs balance (q.add get id tx).1) ↔
      ¬ StrandsDebit get balance q id tx :=
  ⟨fun h hstrands => hstrands.add.2 (h hstrands.add.1), sameAs_add⟩

/-- An empty queue refuses a transfer because the recipient's balance cannot be
read, and from then on shows the sender without the amount and the fee. -/
theorem add_strands_debit :
    ∃ (get : PublicKey → Res Int) (tx : Transaction),
      (∀ pk v, get pk = .ok v → v = 1000000000) ∧ tx.sender = List.replicate 32 1 ∧
      (new.add get 0 tx).2 = .error .unexpectedEOF ∧
      new.balanceCache.view (fun _ => 1000000000) tx.sender = 1000000000 ∧
      (new.add get 0 tx).1.balanceCache.view (fun _ => 1000000000) tx.sender = 994000000 ∧
      ¬ new.SameAs (fun _ => 1000000000) (new.add get 0 tx).1 := by
  refine ⟨fun pk => if pk = List.replicate 32 1 then .ok 1000000000 else .error .unexpectedEOF,
    newTransaction 0 0 (some (List.replicate 32 1)) (some (List.replicate 32 2)) 5000000 1000000
      0 0 0 [], ?_, rfl, rfl, rfl, rfl, fun h => absurd (h.view (List.replicate 32 1)) (by decide)⟩
  intro pk v h
  beta_reduce at h
  split_ifs at h
  exact (Except.ok.inj h).symm

end Refusal

end TransactionQueue

end Cruzbit

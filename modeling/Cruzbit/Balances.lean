/-
Cruzbit/Balances.lean

The balance cache in exact arithmetic.  `Shows v b w` says that the cache `b`
over recorded accounts `v` shows the accounts `w`.  As long as the accounts
shown are nonnegative and within the money supply (`Solvent`), applying a
transaction succeeds exactly when its payment is covered and then makes that
payment (`apply_transfer`, `apply_coinbase`), and undoing it takes the
payment back (`undo_payment`).

The machine arithmetic is exact throughout: `applySums` and `undoSums` list
the exact results of the additions and subtractions that `Apply` and `Undo`
carry out, and all of them fit in 64 bits.
-/
import Cruzbit.Chain

namespace Cruzbit

open Accounts Word

/-! ### Accounts shown by a cache -/

/-- The accounts are nonnegative and hold no more than the money supply. -/
structure Solvent (w : PublicKey →₀ ℤ) : Prop where
  nonneg : ∀ pk, 0 ≤ w pk
  total_le : total w ≤ maxMoney

theorem Solvent.le {w : PublicKey →₀ ℤ} (h : Solvent w) (pk : PublicKey) : w pk ≤ maxMoney :=
  (le_total h.nonneg pk).trans h.total_le

theorem Solvent.pay {w : PublicKey →₀ ℤ} (h : Solvent w) {p : Payment PublicKey} (hs : p.Sound)
    (hc : p.CoveredBy w) (hi : total w + p.issued ≤ maxMoney) : Solvent (w + p.delta) := by
  refine ⟨Payment.nonneg_add_delta h.nonneg hs hc, ?_⟩
  rw [total_add, Payment.total_delta]
  exact hi

/-- The cache over recorded accounts `v` shows the accounts `w`. -/
structure Shows (v : PublicKey →₀ ℤ) (b : BalanceCache) (w : PublicKey →₀ ℤ) : Prop where
  cached : ∀ pk a, b.cache[pk]? = some a → pk.length = publicKeySize ∧ w pk = a
  uncached : ∀ pk, b.cache[pk]? = none → w pk = v pk

theorem pubKeyArray_eq {pk : PublicKey} (h : pk.length = publicKeySize) : pubKeyArray pk = pk := by
  simp [pubKeyArray, ← h]

namespace BalanceCache

section Spec

variable {get : PublicKey → Res Int} {v w : PublicKey →₀ ℤ} {b : BalanceCache}
  {tx : Transaction} {pk : PublicKey}

theorem shows_empty (h : b.cache = ∅) : Shows v b v := by
  constructor
  · intro pk a ha
    simp [h] at ha
  · intro pk _
    rfl

theorem shows_new (m : Int) : Shows v (BalanceCache.new m) v := shows_empty rfl

theorem lookup_eq (hget : ∀ pk, get pk = .ok (v pk)) (hs : Shows v b w)
    (hl : pk.length = publicKeySize) : b.lookup get pk = .ok (w pk) := by
  unfold lookup
  rw [pubKeyArray_eq hl]
  cases hc : b.cache[pk]? with
  | none => rw [hs.uncached pk hc, hget pk]
  | some a => rw [(hs.cached pk a hc).2]

theorem shows_put (hs : Shows v b w) (hl : pk.length = publicKeySize) {a d : Int}
    (ha : a = w pk + d) : Shows v (b.put pk a) (w + Finsupp.single pk d) := by
  classical
  simp only [BalanceCache.put, pubKeyArray_eq hl]
  constructor
  · intro k a' hk
    simp only [Table.get_insert] at hk
    split_ifs at hk with hkk
    · subst hkk
      simp only [Option.some.injEq] at hk
      exact ⟨hl, by simp [← hk, ha]⟩
    · obtain ⟨hlen, hval⟩ := hs.cached k a' hk
      exact ⟨hlen, by simp [hkk, hval]⟩
  · intro k hk
    simp only [Table.get_insert] at hk
    split_ifs at hk with hkk
    simp [hkk, hs.uncached k hk]

/-! ### Apply -/

/-- The exact results of the additions of the second half of `Apply`. -/
def creditSums (get : PublicKey → Res Int) (b : BalanceCache) (tx : Transaction) : List Int :=
  match b.lookup get tx.recipient with
  | .error _ => []
  | .ok recipientBalance => [recipientBalance + tx.amount]

/-- The exact results of the additions and subtractions of `Apply`. -/
def applySums (get : PublicKey → Res Int) (b : BalanceCache) (tx : Transaction) : List Int :=
  if tx.isCoinbase then b.creditSums get tx
  else
    match b.lookup get tx.sender with
    | .error _ => []
    | .ok senderBalance =>
      let totalSpent := int64 (tx.amount + tx.fee)
      (tx.amount + tx.fee) ::
      if totalSpent > senderBalance then []
      else
        let remaining := int64 (senderBalance - totalSpent)
        (senderBalance - totalSpent) ::
        if remaining > 0 ∧ remaining < b.minBalance then []
        else (b.put tx.sender remaining).creditSums get tx

theorem fits_of_le {x : Int} (h₀ : -maxMoney ≤ x) (h : x ≤ 3 * maxMoney) : Fits64 x := by
  simp only [maxMoney, cruzbitsPerCruz] at h₀ h
  unfold Fits64
  omega

/-- Crediting the recipient of a checked transaction is exact. -/
theorem credit_eq (hget : ∀ pk, get pk = .ok (v pk)) (hs : Shows v b w) (ht : tx.Checked)
    (h₀ : 0 ≤ w tx.recipient) (hle : w tx.recipient ≤ maxMoney) :
    (∃ b', b.credit get tx = (b', .ok true) ∧ b'.minBalance = b.minBalance ∧
      Shows v b' (w + Finsupp.single tx.recipient tx.amount)) ∧
    ∀ x ∈ b.creditSums get tx, Fits64 x := by
  have hlook := lookup_eq hget hs ht.recipient_length
  have hpos := ht.amount_pos
  have hamt := ht.amount_le
  have hfit : Fits64 (w tx.recipient + tx.amount) := by
    refine fits_of_le ?_ ?_ <;> simp only [maxMoney, cruzbitsPerCruz] at * <;> omega
  refine ⟨⟨b.put tx.recipient (int64 (w tx.recipient + tx.amount)),
    by simp only [credit, hlook], rfl, ?_⟩, by simpa [creditSums, hlook] using hfit⟩
  exact shows_put hs ht.recipient_length (int64_of_fits hfit)

theorem delta_coinbase (hcb : tx.isCoinbase = true) :
    tx.payment.delta = Finsupp.single tx.recipient tx.amount := by
  simp [Payment.delta, Payment.charge, Transaction.payment,
    Transaction.isCoinbase_eq_true_iff.mp hcb]

/-- **Applying a coinbase** pays it out. -/
theorem apply_coinbase (hget : ∀ pk, get pk = .ok (v pk)) (hs : Shows v b w) (hw : Solvent w)
    (ht : tx.Checked) (hcb : tx.isCoinbase = true) :
    (∃ b', b.apply get tx = (b', .ok true) ∧ b'.minBalance = b.minBalance ∧
      Shows v b' (w + tx.payment.delta)) ∧
    ∀ x ∈ b.applySums get tx, Fits64 x := by
  obtain ⟨⟨b', hb', hmin, hshow⟩, hfit⟩ :=
    credit_eq hget hs ht (hw.nonneg tx.recipient) (hw.le tx.recipient)
  refine ⟨⟨b', by simp [apply, hcb, hb'], hmin, delta_coinbase hcb ▸ hshow⟩, ?_⟩
  simpa [applySums, hcb] using hfit

theorem coveredBy_iff (hcb : tx.isCoinbase = false) :
    tx.payment.CoveredBy w ↔ tx.amount + tx.fee ≤ w tx.sender := by
  have hfrom := Transaction.isCoinbase_eq_false_iff.mp hcb
  simp [Payment.CoveredBy, Transaction.payment, hfrom]

theorem delta_transfer (hcb : tx.isCoinbase = false) :
    tx.payment.delta = Finsupp.single tx.sender (-(tx.amount + tx.fee)) +
      Finsupp.single tx.recipient tx.amount := by
  have hfrom := Transaction.isCoinbase_eq_false_iff.mp hcb
  simp only [Payment.delta, Payment.charge, Transaction.payment, hfrom, Finsupp.single_neg]
  abel

theorem checked_sum_fits (ht : tx.Checked) : Fits64 (tx.amount + tx.fee) := by
  have := ht.amount_pos
  have := ht.amount_le
  have := ht.fee_nonneg
  have := ht.fee_le
  refine fits_of_le ?_ ?_ <;> simp only [maxMoney, cruzbitsPerCruz] at * <;> omega

/-- **Applying a transfer** makes its payment if it is covered and leaves no
dust, and changes nothing otherwise. -/
theorem apply_transfer (hget : ∀ pk, get pk = .ok (v pk)) (hs : Shows v b w) (hw : Solvent w)
    (ht : tx.Checked) (hcb : tx.isCoinbase = false) :
    ((∃ b', b.apply get tx = (b', .ok true) ∧ b'.minBalance = b.minBalance ∧
        tx.payment.CoveredBy w ∧ Shows v b' (w + tx.payment.delta)) ∨
      (b.apply get tx = (b, .ok false) ∧ (b.minBalance ≤ 0 → ¬ tx.payment.CoveredBy w))) ∧
    ∀ x ∈ b.applySums get tx, Fits64 x := by
  have hlook := lookup_eq hget hs (ht.signed hcb).1
  have hspent := checked_sum_fits ht
  rw [coveredBy_iff hcb, delta_transfer hcb]
  simp only [apply, applySums, hcb, Bool.false_eq_true, if_false, hlook, int64_of_fits hspent,
    gt_iff_lt]
  have hle := hw.le tx.sender
  have hpos := ht.amount_pos
  have hfee := ht.fee_nonneg
  by_cases hcov : w tx.sender < tx.amount + tx.fee
  · simp only [if_pos hcov]
    exact ⟨Or.inr ⟨trivial, fun _ => by omega⟩, by simpa using hspent⟩
  · have hrem : Fits64 (w tx.sender - (tx.amount + tx.fee)) := by
      refine fits_of_le ?_ ?_ <;> simp only [maxMoney, cruzbitsPerCruz] at * <;> omega
    simp only [if_neg hcov, int64_of_fits hrem]
    by_cases hdust : 0 < w tx.sender - (tx.amount + tx.fee) ∧
        w tx.sender - (tx.amount + tx.fee) < b.minBalance
    · simp only [if_pos hdust]
      exact ⟨Or.inr ⟨trivial, fun _ => by omega⟩, by simp [hspent, hrem]⟩
    · simp only [if_neg hdust]
      -- the sender is debited; the recipient is somebody else
      have hdebit : Shows v (b.put tx.sender (w tx.sender - (tx.amount + tx.fee)))
          (w + Finsupp.single tx.sender (-(tx.amount + tx.fee))) :=
        shows_put hs (ht.signed hcb).1 (by ring)
      have hrec : (w + Finsupp.single tx.sender (-(tx.amount + tx.fee))) tx.recipient =
          w tx.recipient := by
        simp [ht.not_self]
      obtain ⟨⟨b', hb', hmin, hshow⟩, hfit⟩ := credit_eq hget hdebit ht
        (hrec ▸ hw.nonneg tx.recipient) (hrec ▸ hw.le tx.recipient)
      rw [add_assoc] at hshow
      exact ⟨Or.inl ⟨b', hb', hmin, by omega, hshow⟩, by simpa [hspent, hrem] using hfit⟩

/-! ### Undo -/

/-- The exact results of the subtractions of the second half of `Undo`. -/
def debitSums (get : PublicKey → Res Int) (b : BalanceCache) (tx : Transaction) : List Int :=
  match b.lookup get tx.recipient with
  | .error _ => []
  | .ok recipientBalance =>
    if recipientBalance < tx.amount then [] else [recipientBalance - tx.amount]

/-- The exact results of the additions and subtractions of `Undo`. -/
def undoSums (get : PublicKey → Res Int) (b : BalanceCache) (tx : Transaction) : List Int :=
  if tx.isCoinbase then b.debitSums get tx
  else
    match b.lookup get tx.sender with
    | .error _ => []
    | .ok senderBalance =>
      let totalSpent := int64 (tx.amount + tx.fee)
      (tx.amount + tx.fee) :: (senderBalance + totalSpent) ::
        (b.put tx.sender (int64 (senderBalance + totalSpent))).debitSums get tx

theorem debit_eq (hget : ∀ pk, get pk = .ok (v pk)) (hs : Shows v b w) (ht : tx.Checked)
    (hge : tx.amount ≤ w tx.recipient) (hle : w tx.recipient ≤ 2 * maxMoney) :
    (∃ b', b.debit get tx = .ok b' ∧ b'.minBalance = b.minBalance ∧
      Shows v b' (w + Finsupp.single tx.recipient (-tx.amount))) ∧
    ∀ x ∈ b.debitSums get tx, Fits64 x := by
  have hlook := lookup_eq hget hs ht.recipient_length
  have hpos := ht.amount_pos
  have hfit : Fits64 (w tx.recipient - tx.amount) := by
    refine fits_of_le ?_ ?_ <;> simp only [maxMoney, cruzbitsPerCruz] at * <;> omega
  have hnot : ¬ w tx.recipient < tx.amount := by omega
  refine ⟨⟨b.put tx.recipient (int64 (w tx.recipient - tx.amount)), ?_, rfl, ?_⟩,
    by simpa [debitSums, hlook, hnot] using hfit⟩
  · simp only [debit, hlook, Res.bind_eq_ok, Res.exists_unit, failIf_eq_ok]
    exact ⟨_, rfl, hnot, rfl⟩
  refine shows_put hs ht.recipient_length ?_
  rw [int64_of_fits hfit]
  ring

/-- **Undoing a transaction** takes its payment back. -/
theorem undo_payment (hget : ∀ pk, get pk = .ok (v pk)) (hw : Solvent w) (ht : tx.Checked)
    (hs : Shows v b (w + tx.payment.delta)) :
    (∃ b', b.undo get tx = .ok b' ∧ b'.minBalance = b.minBalance ∧ Shows v b' w) ∧
    ∀ x ∈ b.undoSums get tx, Fits64 x := by
  have hpos := ht.amount_pos
  have hamt := ht.amount_le
  have hrec₀ := hw.nonneg tx.recipient
  have hrec := hw.le tx.recipient
  have hval : (w + Finsupp.single tx.recipient tx.amount) tx.recipient =
      w tx.recipient + tx.amount := by simp
  have hback : w + Finsupp.single tx.recipient tx.amount +
      Finsupp.single tx.recipient (-tx.amount) = w := by
    rw [add_assoc, ← Finsupp.single_add]
    simp
  cases hcb : tx.isCoinbase with
  | true =>
    rw [delta_coinbase hcb] at hs
    obtain ⟨⟨b', hb', hmin, hshow⟩, hfit⟩ := debit_eq hget hs ht (by omega) (by omega)
    exact ⟨⟨b', by simp [undo, hcb, hb'], hmin, hback ▸ hshow⟩,
      by simpa [undoSums, hcb] using hfit⟩
  | false =>
    have hspent := checked_sum_fits ht
    have hlook := lookup_eq hget hs (ht.signed hcb).1
    rw [delta_transfer hcb] at hs hlook
    have hsender : (w + (Finsupp.single tx.sender (-(tx.amount + tx.fee)) +
        Finsupp.single tx.recipient tx.amount)) tx.sender =
        w tx.sender - (tx.amount + tx.fee) := by
      simp [Ne.symm ht.not_self]
      ring
    rw [hsender] at hlook
    have hcredit : Fits64 (w tx.sender - (tx.amount + tx.fee) + (tx.amount + tx.fee)) := by
      have := hw.nonneg tx.sender
      have := hw.le tx.sender
      refine fits_of_le ?_ ?_ <;> simp only [maxMoney, cruzbitsPerCruz] at * <;> omega
    -- the sender is credited first, the recipient is somebody else
    have hput : Shows v (b.put tx.sender
        (int64 (w tx.sender - (tx.amount + tx.fee) + (tx.amount + tx.fee))))
        (w + Finsupp.single tx.recipient tx.amount) := by
      have := shows_put hs (ht.signed hcb).1
        ((int64_of_fits hcredit).trans (congrArg (· + (tx.amount + tx.fee)) hsender.symm))
      convert this using 1
      rw [Finsupp.single_neg]
      abel
    obtain ⟨⟨b', hb', hmin, hshow⟩, hfit⟩ := debit_eq hget hput ht (by omega) (by omega)
    refine ⟨⟨b', ?_, hmin, hback ▸ hshow⟩, ?_⟩
    · simp only [undo, hcb, Bool.false_eq_true, if_false, hlook, int64_of_fits hspent]
      exact hb'
    · simp only [undoSums, hcb, Bool.false_eq_true, if_false, hlook, int64_of_fits hspent,
        List.forall_mem_cons]
      exact ⟨hspent, hcredit, hfit⟩

end Spec

end BalanceCache

end Cruzbit

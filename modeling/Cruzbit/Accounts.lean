/-
Cruzbit/Accounts.lean

Accounts and payments in exact arithmetic.  Accounts are finitely supported
integer balances `K →₀ ℤ`; a payment moves `amount` to its payee and takes
`amount + fee` from its payer, or takes nothing when it issues new money
(`payer = none`).  A fee is destroyed: nobody receives it.

`Covered v ps` says the payments `ps`, made one after the other from `v`,
never ask a payer for more than the account holds at that point.  Two facts
follow and are used everywhere: covered payments keep all accounts
nonnegative (`nonneg_settle`), and the total moves by exactly what is issued
minus what is destroyed (`total_settle`).
-/
import Cruzbit.Table

namespace Accounts

variable {K : Type}

/-! ### Totals -/

/-- The sum of all balances. -/
noncomputable def total (v : K →₀ ℤ) : ℤ := v.sum fun _ a => a

@[simp] theorem total_zero : total (0 : K →₀ ℤ) = 0 := Finsupp.sum_zero_index

@[simp] theorem total_single (k : K) (a : ℤ) : total (Finsupp.single k a) = a :=
  Finsupp.sum_single_index rfl

theorem total_add (v w : K →₀ ℤ) : total (v + w) = total v + total w := by
  classical
  exact Finsupp.sum_add_index' (fun _ => rfl) (fun _ _ _ => rfl)

theorem total_neg (v : K →₀ ℤ) : total (-v) = -total v := by
  have h := total_add v (-v)
  rw [add_neg_cancel, total_zero] at h
  omega

theorem total_sub (v w : K →₀ ℤ) : total (v - w) = total v - total w := by
  rw [sub_eq_add_neg, total_add, total_neg]
  ring

theorem total_list_sum (l : List (K →₀ ℤ)) : total l.sum = (l.map total).sum := by
  induction l with
  | nil => simp
  | cons v l ih => simp [total_add, ih]

/-- In nonnegative accounts nobody holds more than the total. -/
theorem le_total {v : K →₀ ℤ} (hv : ∀ k, 0 ≤ v k) (k : K) : v k ≤ total v := by
  by_cases hk : k ∈ v.support
  · exact Finset.single_le_sum (f := fun k => v k) (fun k _ => hv k) hk
  · rw [Finsupp.notMem_support_iff.mp hk]
    exact Finset.sum_nonneg fun k _ => hv k

theorem total_nonneg {v : K →₀ ℤ} (hv : ∀ k, 0 ≤ v k) : 0 ≤ total v :=
  Finset.sum_nonneg fun k _ => hv k

/-! ### Payments -/

/-- A payment of `amount` to `payee`.  The payer also pays the fee; a payment
without a payer issues new money. -/
structure Payment (K : Type) where
  payer : Option K
  payee : K
  amount : ℤ
  fee : ℤ

/-- What the payer is charged. -/
noncomputable def Payment.charge (p : Payment K) : K →₀ ℤ :=
  match p.payer with
  | none => 0
  | some k => Finsupp.single k (p.amount + p.fee)

/-- The change a payment makes to the accounts. -/
noncomputable def Payment.delta (p : Payment K) : K →₀ ℤ :=
  Finsupp.single p.payee p.amount - p.charge

/-- The money a payment issues, or minus the fee it destroys. -/
def Payment.issued (p : Payment K) : ℤ :=
  match p.payer with
  | none => p.amount
  | some _ => -p.fee

/-- The payer's account covers the payment. -/
def Payment.CoveredBy (p : Payment K) (v : K →₀ ℤ) : Prop :=
  ∀ k, p.payer = some k → p.amount + p.fee ≤ v k

/-- No negative amounts, and nobody pays themselves. -/
structure Payment.Sound (p : Payment K) : Prop where
  amount_nonneg : 0 ≤ p.amount
  fee_nonneg : 0 ≤ p.fee
  payer_ne : p.payer ≠ some p.payee

theorem Payment.total_delta (p : Payment K) : total p.delta = p.issued := by
  unfold Payment.delta Payment.charge Payment.issued
  rw [total_sub, total_single]
  cases p.payer with
  | none => simp
  | some k => rw [total_single]; ring

theorem Payment.delta_payee {p : Payment K} (h : p.payer ≠ some p.payee) :
    p.delta p.payee = p.amount := by
  unfold Payment.delta Payment.charge
  rcases hp : p.payer with - | k
  · simp
  · have : k ≠ p.payee := by
      rintro rfl
      exact h hp
    simp [this]

theorem Payment.delta_payer {p : Payment K} {k : K} (hp : p.payer = some k)
    (h : k ≠ p.payee) : p.delta k = -(p.amount + p.fee) := by
  unfold Payment.delta Payment.charge
  simp [hp, h.symm]

theorem Payment.delta_other {p : Payment K} {k : K} (hp : p.payer ≠ some k)
    (h : k ≠ p.payee) : p.delta k = 0 := by
  unfold Payment.delta Payment.charge
  rcases hq : p.payer with - | q
  · simp [h.symm]
  · have : q ≠ k := by
      rintro rfl
      exact hp hq
    simp [h.symm, this]

theorem Payment.nonneg_add_delta {p : Payment K} {v : K →₀ ℤ} (hv : ∀ k, 0 ≤ v k)
    (hs : p.Sound) (hc : p.CoveredBy v) (k : K) : 0 ≤ (v + p.delta) k := by
  classical
  have hvk := hv k
  rw [Finsupp.add_apply]
  by_cases hk : k = p.payee
  · subst hk
    rw [Payment.delta_payee hs.payer_ne]
    have := hs.amount_nonneg
    omega
  · by_cases hp : p.payer = some k
    · rw [Payment.delta_payer hp hk]
      have := hc k hp
      omega
    · rw [Payment.delta_other hp hk]
      omega

/-! ### Sequences of payments -/

/-- The accounts after a sequence of payments. -/
noncomputable def settle (v : K →₀ ℤ) (ps : List (Payment K)) : K →₀ ℤ :=
  v + (ps.map Payment.delta).sum

@[simp] theorem settle_nil (v : K →₀ ℤ) : settle v [] = v := by simp [settle]

@[simp] theorem settle_cons (v : K →₀ ℤ) (p : Payment K) (ps : List (Payment K)) :
    settle v (p :: ps) = settle (v + p.delta) ps := by
  simp [settle, add_assoc]

theorem settle_append (v : K →₀ ℤ) (ps qs : List (Payment K)) :
    settle v (ps ++ qs) = settle (settle v ps) qs := by
  simp [settle, add_assoc]

/-- Each payment is covered when its turn comes. -/
def Covered : (K →₀ ℤ) → List (Payment K) → Prop
  | _, [] => True
  | v, p :: ps => p.CoveredBy v ∧ Covered (v + p.delta) ps

theorem covered_append (v : K →₀ ℤ) (ps qs : List (Payment K)) :
    Covered v (ps ++ qs) ↔ Covered v ps ∧ Covered (settle v ps) qs := by
  induction ps generalizing v with
  | nil => simp [Covered]
  | cons p ps ih => simp [Covered, ih, and_assoc]

/-- Payments that nobody makes are covered. -/
theorem covered_of_payer_none {ps : List (Payment K)} (h : ∀ p ∈ ps, p.payer = none)
    (v : K →₀ ℤ) : Covered v ps := by
  induction ps generalizing v with
  | nil => trivial
  | cons p ps ih =>
    obtain ⟨hp, hps⟩ := List.forall_mem_cons.mp h
    refine ⟨fun k hk => ?_, ih hps _⟩
    rw [hp] at hk
    cases hk

/-- Richer accounts cover the same payments. -/
theorem Covered.mono {v w : K →₀ ℤ} {ps : List (Payment K)} (h : Covered v ps)
    (hle : ∀ k, v k ≤ w k) : Covered w ps := by
  induction ps generalizing v w with
  | nil => trivial
  | cons p ps ih =>
    refine ⟨fun k hk => (h.1 k hk).trans (hle k), ih h.2 fun k => ?_⟩
    rw [Finsupp.add_apply, Finsupp.add_apply]
    exact add_le_add_left (hle k) _

/-- **Covered payments keep every account nonnegative.** -/
theorem nonneg_settle {v : K →₀ ℤ} {ps : List (Payment K)} (hv : ∀ k, 0 ≤ v k)
    (hs : ∀ p ∈ ps, p.Sound) (hc : Covered v ps) : ∀ k, 0 ≤ settle v ps k := by
  induction ps generalizing v with
  | nil => simpa using hv
  | cons p ps ih =>
    rw [settle_cons]
    refine ih ?_ (fun q hq => hs q (List.mem_cons_of_mem _ hq)) hc.2
    exact Payment.nonneg_add_delta hv (hs p List.mem_cons_self) hc.1

/-- **Conservation**: the total moves by what the payments issue, net of the
fees they destroy. -/
theorem total_settle (v : K →₀ ℤ) (ps : List (Payment K)) :
    total (settle v ps) = total v + (ps.map Payment.issued).sum := by
  rw [settle, total_add, total_list_sum, List.map_map]
  congr 2
  exact List.map_congr_left fun p _ => p.total_delta

/-! ### Accounts recorded in a table -/

section Recorded

variable [Ord K] [Std.TransOrd K] [Std.LawfulEqOrd K]

/-- The table records exactly the nonzero balances of `v`. -/
def Records (t : Table K ℤ) (v : K →₀ ℤ) : Prop :=
  ∀ k, t[k]? = if v k = 0 then none else some (v k)

omit [Std.LawfulEqOrd K] in
theorem Records.getD {t : Table K ℤ} {v : K →₀ ℤ} (h : Records t v) (k : K) :
    (t[k]?).getD 0 = v k := by
  rw [h k]
  split_ifs with h0
  · exact h0.symm
  · rfl

/-- The recorded balances add up to the total of the accounts. -/
theorem Records.sum_eq_total {t : Table K ℤ} {v : K →₀ ℤ} (h : Records t v) :
    (t.toList.map Prod.snd).sum = total v := by
  classical
  -- list the keys instead of the entries, then compare key sets
  have hval : t.toList.map Prod.snd = (t.toList.map Prod.fst).map v := by
    rw [List.map_map]
    refine List.map_congr_left fun e he => ?_
    have hget := (Table.mem_toList t e.1 e.2).mp he
    rw [h e.1] at hget
    split_ifs at hget
    exact (Option.some.inj hget).symm
  have hkeys : (t.toList.map Prod.fst).toFinset = v.support := by
    ext k
    simp only [List.mem_toFinset, List.mem_map, Finsupp.mem_support_iff]
    constructor
    · rintro ⟨e, he, rfl⟩ h0
      have hget := (Table.mem_toList t e.1 e.2).mp he
      rw [h e.1, if_pos h0] at hget
      exact absurd hget (by simp)
    · intro h0
      exact ⟨(k, v k), (Table.mem_toList t k (v k)).mpr (by rw [h k, if_neg h0]), rfl⟩
  rw [hval, ← List.sum_toFinset v (Table.nodup_keys t), hkeys]
  rfl

end Recorded

end Accounts

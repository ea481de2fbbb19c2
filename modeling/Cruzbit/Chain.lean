/-
Cruzbit/Chain.lean

What the ledger is for: the money of a chain of blocks, in exact arithmetic
and without tables.

A chain is a list of blocks, newest first.  Its accounts (`Chain.balances`)
are the outcome of the payments of its blocks, where a block pays the
coinbase of the block 100 below it and then its own transfers, and fees are
destroyed to come back in the coinbase.  `Chain.Extends` lists what a block
must satisfy to go on top of a chain, and a chain is valid when each of its
blocks extends what is below it.

Main results, for every valid chain:
  * `balances_nonneg`: no account is negative;
  * `total_add_pending`: accounts and immature coinbases together hold
    exactly the rewards issued so far;
  * `issued_le_maxMoney`: the reward schedule never issues more than 21
    million cruz.
-/
import Cruzbit.Ledger

namespace Cruzbit

open Accounts

/-! ### The reward schedule -/

theorem blockCreationReward_natCast (n : Nat) :
    blockCreationReward n = 5000000000 / 2 ^ (n / 210000) := by
  have hh : (n : Int).tdiv blocksUntilRewardHalving = ((n / 210000 : Nat) : Int) := by
    rw [Int.tdiv_eq_ediv_of_nonneg (by omega), blocksUntilRewardHalving]
    omega
  simp only [blockCreationReward, hh]
  set k := n / 210000
  split_ifs with hk
  · -- the reward has been shifted away long before the 64th halving
    have hpow : (2 : Int) ^ 64 ≤ 2 ^ k := pow_le_pow_right₀ (by norm_num) (by omega)
    rw [Int.ediv_eq_zero_of_lt (by norm_num) (by norm_num at hpow ⊢; omega)]
  · rw [Word.unsigned_of_nonneg (by omega) (by norm_num; omega), Int.toNat_natCast,
      Int.shiftRight_eq_div_pow]
    rfl

theorem blockCreationReward_nonneg (n : Nat) : 0 ≤ blockCreationReward n := by
  rw [blockCreationReward_natCast]
  positivity

/-- The rewards of the first `n` heights. -/
def issued (n : Nat) : Int := ((List.range n).map fun i : Nat => blockCreationReward i).sum

@[simp] theorem issued_zero : issued 0 = 0 := rfl

theorem issued_succ (n : Nat) : issued (n + 1) = issued n + blockCreationReward n := by
  simp [issued, List.range_succ]

/-- What is left to issue is at most the rest of this era and another era at
the current reward. -/
theorem issued_add_rest_le (n : Nat) :
    issued n + (420000 - (n % 210000 : Nat)) * blockCreationReward n ≤ maxMoney := by
  induction n with
  | zero => decide
  | succ n ih =>
    rw [issued_succ]
    have hr := blockCreationReward_nonneg n
    have hr' := blockCreationReward_nonneg (n + 1)
    by_cases hera : (n + 1) % 210000 = 0
    · -- the reward halves here
      have hhalf : 2 * blockCreationReward ((n + 1 : Nat) : Int) ≤ blockCreationReward n := by
        have hdiv : (n + 1) / 210000 = n / 210000 + 1 := by omega
        rw [blockCreationReward_natCast, blockCreationReward_natCast, hdiv, pow_succ,
          ← Int.ediv_ediv_of_nonneg (by positivity)]
        omega
      have hrem : n % 210000 = 209999 := by omega
      rw [hrem] at ih
      rw [hera]
      push_cast at ih hhalf ⊢
      linarith
    · have hsame : blockCreationReward ((n + 1 : Nat) : Int) = blockCreationReward n := by
        have hdiv : (n + 1) / 210000 = n / 210000 := by omega
        rw [blockCreationReward_natCast, blockCreationReward_natCast, hdiv]
      have hrem : ((n + 1) % 210000 : Nat) = n % 210000 + 1 := by omega
      rw [hsame, hrem]
      push_cast at ih ⊢
      linarith

/-- **The schedule never issues more than `maxMoney`.** -/
theorem issued_le_maxMoney (n : Nat) : issued n ≤ maxMoney := by
  have h := issued_add_rest_le n
  have hr := blockCreationReward_nonneg n
  have hrem : (n % 210000 : Nat) < 210000 := Nat.mod_lt _ (by norm_num)
  have : 0 ≤ (420000 - (n % 210000 : Nat) : Int) * blockCreationReward n :=
    mul_nonneg (by omega) hr
  linarith

/-! ### Blocks and chains -/

/-- The amount of a block's coinbase. -/
def Block.coinbaseAmount (b : Block) : Int := (b.transactions.head?.map Transaction.amount).getD 0

/-- The fees of a block's transfers. -/
def Block.fees (b : Block) : Int := (b.transactions.tail.map Transaction.fee).sum

/-- The fees of all transactions of a block in machine arithmetic, as
`acceptBlock` adds them up. -/
def Block.wrappedFees (b : Block) : Int :=
  b.transactions.foldl (fun fees tx => Word.int64 (fees + tx.fee)) 0

/-- A chain of blocks with the IDs they are filed under, newest first. -/
abbrev Chain := List (BlockID × Block)

namespace Chain

def ids (c : Chain) : List BlockID := c.map Prod.fst

/-- The coinbase that matures in the next block. -/
def matured (c : Chain) : Option Transaction :=
  (c.drop (coinbaseMaturity.toNat - 1)).head?.bind fun x => x.2.transactions.head?

/-- The transactions whose effects are due in the next block. -/
def dues (c : Chain) (b : Block) : List Transaction := (matured c).toList ++ b.transactions.tail

/-- The accounts of a chain. -/
noncomputable def balances : Chain → PublicKey →₀ ℤ
  | [] => 0
  | x :: c => settle (balances c) ((dues c x.2).map Transaction.payment)

/-- The coinbases that have not matured yet. -/
def pending (c : Chain) : Int := ((c.take coinbaseMaturity.toNat).map fun x => x.2.coinbaseAmount).sum

/-- The number of blocks whose transactions stay indexed when pruning. -/
def pruneWindow : Nat := 2 * blocksUntilNewSeries.toNat

/-- The blocks whose transactions are indexed. -/
def indexed (prune : Bool) (c : Chain) : Chain := Table.window prune pruneWindow c

/-- What the ledger requires of a block on top of the chain: none of its
transactions is indexed, and all payments are covered. -/
structure Connects (crypto : Crypto) (prune : Bool) (c : Chain) (b : Block) : Prop where
  unconfirmed : ∀ y ∈ indexed prune c, ∀ id ∈ b.txIDs crypto, id ∉ y.2.txIDs crypto
  covered : Covered (balances c) ((dues c b).map Transaction.payment)

/-- The block fits on top of the chain, before any look at its transactions'
effects. -/
structure Fits (crypto : Crypto) (c : Chain) (x : BlockID × Block) : Prop where
  wellFormed : x.2.WellFormed crypto
  fresh : x.1 ∉ c.ids
  height : x.2.header.height = c.length
  linked : ∀ y ∈ c.head?, x.2.header.previous = y.1

/-- The block extends the chain. -/
structure Extends (crypto : Crypto) (prune : Bool) (c : Chain) (x : BlockID × Block) : Prop
    extends Fits crypto c x, Connects crypto prune c x.2 where
  reward : x.2.coinbaseAmount = blockCreationReward c.length + x.2.fees

/-- Each block extends the chain below it. -/
inductive Valid (crypto : Crypto) (prune : Bool) : Chain → Prop
  | nil : Valid crypto prune []
  | cons {c : Chain} {x : BlockID × Block} : Valid crypto prune c →
      Extends crypto prune c x → Valid crypto prune (x :: c)

section Facts

variable {crypto : Crypto} {prune : Bool} {c : Chain} {x : BlockID × Block}

theorem Valid.tail (h : Valid crypto prune (x :: c)) : Valid crypto prune c := by
  cases h with
  | cons h _ => exact h

theorem Valid.head (h : Valid crypto prune (x :: c)) : Extends crypto prune c x := by
  cases h with
  | cons _ h => exact h

theorem Valid.drop (h : Valid crypto prune c) (n : Nat) : Valid crypto prune (c.drop n) := by
  induction n generalizing c with
  | zero => exact h
  | succ n ih =>
    cases c with
    | nil => exact h
    | cons x c => exact ih h.tail

/-- Every block of a valid chain extends what is below it. -/
theorem Valid.extends_of_append {d : Chain} (h : Valid crypto prune (d ++ x :: c)) :
    Extends crypto prune c x := by
  induction d with
  | nil => exact h.head
  | cons y d ih => exact ih h.tail

theorem Valid.mem_wellFormed (h : Valid crypto prune c) (hx : x ∈ c) : x.2.WellFormed crypto := by
  obtain ⟨d, c', rfl⟩ := List.append_of_mem hx
  exact h.extends_of_append.wellFormed

theorem Valid.ids_nodup (h : Valid crypto prune c) : c.ids.Nodup := by
  induction h with
  | nil => exact List.nodup_nil
  | cons _ hx ih => exact List.nodup_cons.mpr ⟨hx.fresh, ih⟩

/-! ### What is due -/

theorem Valid.matured_coinbase (h : Valid crypto prune c) {tx : Transaction}
    (htx : tx ∈ matured c) : tx.Checked ∧ tx.isCoinbase = true := by
  obtain ⟨y, hy, hhead⟩ := Option.bind_eq_some_iff.mp htx
  have hmem : y ∈ c := List.mem_of_mem_drop (List.mem_of_mem_head? hy)
  have hwf := h.mem_wellFormed hmem
  obtain ⟨coinbase, transfers, hshape, hcb, -⟩ := hwf.shape
  rw [hshape, List.head?_cons, Option.some.injEq] at hhead
  subst hhead
  exact ⟨hwf.checked _ (by simp [hshape]), hcb⟩

theorem Valid.dues_checked (h : Valid crypto prune c) {b : Block} (hb : b.WellFormed crypto) :
    ∀ tx ∈ dues c b, tx.Checked := by
  intro tx htx
  rcases List.mem_append.mp htx with htx | htx
  · exact (h.matured_coinbase (Option.mem_toList.mp htx)).1
  · exact hb.checked tx (List.mem_of_mem_tail htx)

theorem Valid.dues_sound (h : Valid crypto prune c) {b : Block} (hb : b.WellFormed crypto) :
    ∀ p ∈ (dues c b).map Transaction.payment, p.Sound := by
  intro p hp
  obtain ⟨tx, htx, rfl⟩ := List.mem_map.mp hp
  exact (h.dues_checked hb tx htx).sound

/-- The amount of the coinbase that matures in the next block. -/
def maturedAmount (c : Chain) : Int := ((matured c).map Transaction.amount).getD 0

/-- The next block issues the matured coinbase and destroys its fees. -/
theorem Valid.issued_dues (h : Valid crypto prune c) {b : Block} (hb : b.WellFormed crypto) :
    (((dues c b).map Transaction.payment).map Payment.issued).sum =
      maturedAmount c - b.fees := by
  have hmat : (((matured c).toList.map Transaction.payment).map Payment.issued).sum =
      maturedAmount c := by
    unfold maturedAmount
    cases hm : matured c with
    | none => rfl
    | some tx =>
      have hcb := Transaction.isCoinbase_eq_true_iff.mp (h.matured_coinbase hm).2
      simp [Payment.issued, Transaction.payment, hcb]
  have htr : ((b.transactions.tail.map Transaction.payment).map Payment.issued).sum = -b.fees := by
    obtain ⟨coinbase, transfers, hshape, -, hsigned⟩ := hb.shape
    rw [Block.fees, hshape, List.tail_cons, List.map_map, List.sum_neg]
    congr 1
    rw [List.map_map]
    refine List.map_congr_left fun tx htx => ?_
    have hfrom := Transaction.isCoinbase_eq_false_iff.mp (hsigned tx htx)
    simp [Payment.issued, Transaction.payment, hfrom]
  rw [dues, List.map_append, List.map_append, List.sum_append, hmat, htr]
  ring

/-! ### Conservation -/

/-- The coinbase about to mature is the oldest of the pending ones. -/
theorem pending_eq (c : Chain) :
    pending c = ((c.take (coinbaseMaturity.toNat - 1)).map fun y => y.2.coinbaseAmount).sum +
      maturedAmount c := by
  have htake : c.take coinbaseMaturity.toNat = c.take (coinbaseMaturity.toNat - 1) ++
      (c.drop (coinbaseMaturity.toNat - 1)).head?.toList := by
    rw [List.head?_drop]
    exact List.take_add_one
  rw [pending, htake, List.map_append, List.sum_append, maturedAmount, matured]
  congr 1
  cases (c.drop (coinbaseMaturity.toNat - 1)).head? with
  | none => rfl
  | some y => simp [Block.coinbaseAmount]

/-- A new block's coinbase becomes pending and the matured one stops to be. -/
theorem pending_cons (x : BlockID × Block) (c : Chain) :
    pending (x :: c) + maturedAmount c = x.2.coinbaseAmount + pending c := by
  have hx : pending (x :: c) = x.2.coinbaseAmount +
      ((c.take (coinbaseMaturity.toNat - 1)).map fun y => y.2.coinbaseAmount).sum := rfl
  rw [hx, pending_eq c]
  ring

/-- **No account of a valid chain is negative.** -/
theorem Valid.balances_nonneg (h : Valid crypto prune c) : ∀ pk, 0 ≤ balances c pk := by
  induction h with
  | nil => simp [balances]
  | cons hc hx ih => exact nonneg_settle ih (hc.dues_sound hx.wellFormed) hx.covered

/-- **Conservation**: the accounts and the immature coinbases together hold
the rewards issued so far. -/
theorem Valid.total_add_pending (h : Valid crypto prune c) :
    total (balances c) + pending c = issued c.length := by
  induction h with
  | nil => simp [balances, pending]
  | @cons c x hc hx ih =>
    have hp := pending_cons x c
    rw [balances, total_settle, hc.issued_dues hx.wellFormed, List.length_cons, issued_succ]
    have hr := hx.reward
    omega

theorem Valid.coinbaseAmount_nonneg (h : Valid crypto prune c) (hx : x ∈ c) :
    0 ≤ x.2.coinbaseAmount := by
  have hwf := h.mem_wellFormed hx
  obtain ⟨coinbase, transfers, htx, -⟩ := hwf.shape
  have hc : coinbase ∈ x.2.transactions := by simp [htx]
  simpa [Block.coinbaseAmount, htx] using (hwf.checked coinbase hc).amount_pos.le

/-- Accounts and the coinbase about to mature stay within the money supply. -/
theorem Valid.total_add_matured_le (h : Valid crypto prune c) :
    total (balances c) + maturedAmount c ≤ maxMoney := by
  have hsum := h.total_add_pending
  have hmax := issued_le_maxMoney c.length
  have hpend := pending_eq c
  have hnonneg : 0 ≤ ((c.take (coinbaseMaturity.toNat - 1)).map
      fun y => y.2.coinbaseAmount).sum := by
    refine List.sum_nonneg fun a ha => ?_
    obtain ⟨y, hy, rfl⟩ := List.mem_map.mp ha
    exact h.coinbaseAmount_nonneg (List.mem_of_mem_take hy)
  omega

/-! ### The reward check -/

theorem wrappedFees_eq {b : Block} (hb : b.WellFormed crypto) :
    b.wrappedFees = Word.int64 b.fees := by
  obtain ⟨coinbase, transfers, hshape, hcb, -⟩ := hb.shape
  have hfee : coinbase.fee = 0 := (hb.checked coinbase (by simp [hshape])).coinbase_fee hcb
  have h := Word.foldl_int64 Transaction.fee b.transactions 0
  rw [Word.int64_of_fits (by decide)] at h
  rw [Block.wrappedFees, h, Block.fees, hshape]
  simp [hfee]

theorem fees_nonneg {b : Block} (hb : b.WellFormed crypto) : 0 ≤ b.fees := by
  refine List.sum_nonneg fun a ha => ?_
  obtain ⟨tx, htx, rfl⟩ := List.mem_map.mp ha
  exact (hb.checked tx (List.mem_of_mem_tail htx)).fee_nonneg

/-- A block that connects pays no more fees than there is money to pay them. -/
theorem Valid.fees_le (h : Valid crypto prune c) {b : Block} (hb : b.WellFormed crypto)
    (hc : Connects crypto prune c b) : b.fees ≤ total (balances c) + maturedAmount c := by
  have hnonneg := total_nonneg (nonneg_settle h.balances_nonneg (h.dues_sound hb) hc.covered)
  rw [total_settle, h.issued_dues hb] at hnonneg
  omega

/-- **No inflation through wraparound**: for a block that connects, the reward
check modulo `2 ^ 64` is exact. -/
theorem Valid.reward_exact (h : Valid crypto prune c) {b : Block} (hb : b.WellFormed crypto)
    (hc : Connects crypto prune c b)
    (hr : b.coinbaseAmount = Word.int64 (blockCreationReward c.length + b.wrappedFees)) :
    b.coinbaseAmount = blockCreationReward c.length + b.fees := by
  have hfees := (h.fees_le hb hc).trans h.total_add_matured_le
  have hfees₀ := fees_nonneg hb
  have hreward₀ := blockCreationReward_nonneg c.length
  have hreward : blockCreationReward c.length ≤ maxMoney := by
    have h₁ := issued_le_maxMoney (c.length + 1)
    have h₂ : 0 ≤ issued c.length := by
      refine List.sum_nonneg fun a ha => ?_
      obtain ⟨i, -, rfl⟩ := List.mem_map.mp ha
      exact blockCreationReward_nonneg i
    rw [issued_succ] at h₁
    omega
  rw [hr, wrappedFees_eq hb]
  have hfits : ∀ {x : Int}, 0 ≤ x → x ≤ 2 * maxMoney → Word.Fits64 x := by
    intro x hx₀ hx
    simp only [maxMoney, cruzbitsPerCruz] at hx
    unfold Word.Fits64
    omega
  rw [Word.int64_of_fits (hfits hfees₀ (by omega)),
    Word.int64_of_fits (hfits (by omega) (by omega))]

end Facts

end Chain

end Cruzbit

/-
Cruzbit/Signatures.lean

Signatures are sound although `acceptBlock` does not verify a transaction
that is in the queue with the same ID and signature (`Call.Within.vouches`).

Transactions flow from the queue into blocks and, when blocks are
disconnected, back into the queue without being verified again.  So the
statement about the queue and the one about known blocks go through only
together: both are the property `P` of `Settled`, here that the transaction
is one of those delivered and verifies.  The shortcut preserves it as long
as the hash does not collide: the same ID then means the same sender.
-/
import Cruzbit.BestChain

namespace Cruzbit

open Chain

/-- The transactions a call delivers. -/
def Call.transactions : Call → List Transaction
  | .block b _ _ => b.transactions
  | .transaction tx => [tx]

/-- The call delivers no transactions but these. -/
def Call.Within (U : Set Transaction) (call : Call) : Prop := ∀ tx ∈ call.transactions, tx ∈ U

/-- A delivered transaction that verifies. -/
def Verified (crypto : Crypto) (U : Set Transaction) (tx : Transaction) : Prop :=
  tx ∈ U ∧ tx.verify crypto = true

section Signatures

variable {crypto : Crypto} {prune : Bool} {P : Transaction → Prop} {Q : Processor → Prop}
  {U : Set Transaction} {s : Processor} {c : Chain} {K : Set BlockID}

/-- The same ID and signature verify alike. -/
theorem CollisionFree.verify_eq (hU : CollisionFree crypto U) {tx tx' : Transaction} (htx : tx ∈ U)
    (htx' : tx' ∈ U) (hid : tx'.id crypto = tx.id crypto) (hsig : tx'.signature = tx.signature) :
    tx'.verify crypto = tx.verify crypto := by
  have hsender := (Transaction.idJson_inj (hU.idJson_eq htx' htx hid)).1
  rw [Transaction.verify, Transaction.verify, hsender, hid, hsig]

/-- Every call establishes that its transactions verify. -/
theorem Call.Within.vouches (hU : CollisionFree crypto U) {call : Call} (h : call.Within U) :
    call.Vouches crypto (Verified crypto U) := by
  cases call with
  | transaction tx => exact fun hverify => ⟨h tx (by simp [Call.transactions]), hverify⟩
  | block b now source =>
    intro tx htx _ hsigned
    have hmem : tx ∈ U := h tx (List.mem_of_mem_tail htx)
    refine ⟨hmem, ?_⟩
    rcases hsigned with hverify | ⟨tx', ⟨htx', hverify⟩, hid, hsig⟩
    · exact hverify
    · rw [← hU.verify_eq hmem htx' hid hsig]
      exact hverify

/-- The transfers of known blocks satisfy `P`. -/
theorem Placed.vouched_known (h : Placed crypto prune P Q s c K) {id : BlockID} (hid : id ∈ K)
    {e : StoredBlock} (he : s.blockStore[id]? = some e) {tx : Transaction}
    (htx : tx ∈ e.block.transactions) (hcb : tx.isCoinbase = false) : P tx := by
  obtain ⟨d, hadm, -⟩ := h.tree.line hid he
  obtain ⟨coinbase, transfers, hshape, hcoinbase, -⟩ := (hadm.wellFormed _ List.mem_cons_self).shape
  refine hadm.vouched _ List.mem_cons_self tx ?_
  rw [hshape, List.tail_cons]
  rw [show e.block.transactions = coinbase :: transfers from hshape] at htx
  rcases List.mem_cons.mp htx with rfl | htx
  · exact absurd (hcb.symm.trans hcoinbase) Bool.false_ne_true
  · exact htx

/-- The transactions of the sample chain. -/
def Sample.transactions : Set Transaction :=
  {tx | ∃ n ≤ 100, tx ∈ (Sample.entry 0 n).2.transactions}

theorem Sample.mem_transactions {tx : Transaction} (h : tx ∈ Sample.transactions) :
    tx = genesisCoinbase ∨ (∃ n, 1 ≤ n ∧ n ≤ 100 ∧ tx = Sample.coinbase 0 n) ∨
      tx = Sample.transfer 0 := by
  obtain ⟨n, hn, htx⟩ := h
  cases n with
  | zero => exact Or.inl (List.mem_singleton.mp htx)
  | succ n =>
    rcases List.mem_cons.mp htx with rfl | htx
    · exact Or.inr (Or.inl ⟨n + 1, by omega, hn, rfl⟩)
    · exact Or.inr (Or.inr (Sample.mem_transfers htx).2)

/-- The sample hash does not collide on transactions with different times. -/
theorem Sample.collisionFree_of_times
    (htime : ∀ tx ∈ U, 0 ≤ tx.time ∧ tx.time < 2 ^ 31)
    (hinj : ∀ tx ∈ U, ∀ tx' ∈ U, tx.time = tx'.time → tx = tx') :
    CollisionFree Sample.crypto U := by
  rintro _ ⟨tx, h, rfl⟩ _ ⟨tx', h', rfl⟩ hid
  have h₁ := htime tx h
  have h₂ := htime tx' h'
  have hid' : tx.id Sample.crypto = tx'.id Sample.crypto := hid
  rw [Sample.transaction_id h₁.1, Sample.transaction_id h₂.1] at hid'
  have := Sample.ofNat_inj (by omega) (by omega) hid'
  rw [hinj tx h tx' h' (by omega)]

theorem Sample.transactions_time {tx : Transaction} (h : tx ∈ Sample.transactions) :
    0 ≤ tx.time ∧ tx.time ≤ Sample.time 100 + 1 := by
  rcases Sample.mem_transactions h with rfl | ⟨n, -, hn, rfl⟩ | rfl
  · decide
  · show 0 ≤ Sample.time n ∧ Sample.time n ≤ Sample.time 100 + 1
    simp only [Sample.time, genesisBlock]
    omega
  · decide

theorem Sample.transactions_inj {tx tx' : Transaction} (h : tx ∈ Sample.transactions)
    (h' : tx' ∈ Sample.transactions) (ht : tx.time = tx'.time) : tx = tx' := by
  have hcb (n : Nat) : (Sample.coinbase 0 n).time = 1561173156 + 600 * n := rfl
  have hg : genesisCoinbase.time = 1561173126 := rfl
  have htr : (Sample.transfer 0).time = 1561173156 + 600 * 100 + 1 := rfl
  rcases Sample.mem_transactions h with rfl | ⟨n, hn, -, rfl⟩ | rfl <;>
    rcases Sample.mem_transactions h' with rfl | ⟨n', hn', -, rfl⟩ | rfl <;>
    simp only [hcb, hg, htr] at ht <;>
    first
      | rfl
      | omega
      | rw [show n = n' by omega]

theorem Sample.collisionFree : CollisionFree Sample.crypto Sample.transactions := by
  refine Sample.collisionFree_of_times (fun tx h => ?_) fun _ h _ h' => Sample.transactions_inj h h'
  have := Sample.transactions_time h
  simp only [Sample.time, genesisBlock] at this
  omega

theorem Sample.run_within : Run Sample.crypto false (Call.Within Sample.transactions)
    (Sample.state false 0 100) := by
  refine (Sample.settled false le_rfl (Or.inl rfl) (by decide)).1.mono ?_
  rintro _ ⟨n, hn, rfl⟩ tx htx
  exact ⟨n, hn, htx⟩

end Signatures

end Cruzbit

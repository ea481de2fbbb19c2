/-
Cruzbit/TimeLocks.lean

Time locks on the main chain.  A transaction can be limited from below
(`Matures`), from above (`Expires`) and by its series.  The last two are
enforced.  `IsMature` compares the wrong way round: it lets a transaction
with `Matures` set be mined at heights up to `Matures`, not from there on.

So the time locks hold in every run in which no delivered block contains a
transfer whose `Matures` lies above the block (`time_locks_respected`).
-/
import Cruzbit.BestChain

namespace Cruzbit

open Chain

/-- The transaction may be mined at the height: not before `Matures`, not after
`Expires`, and in the period of its series or in the following one. -/
structure Transaction.InTime (tx : Transaction) (height : Int) : Prop where
  matures : tx.matures = 0 ∨ tx.matures ≤ height
  expires : tx.expires = 0 ∨ height ≤ tx.expires
  series : (tx.series - 1) * blocksUntilNewSeries ≤ height ∧
    height < (tx.series + 1) * blocksUntilNewSeries

/-- No transfer of the block is mined before it matures. -/
def Block.Matured (b : Block) : Prop :=
  ∀ tx ∈ b.transactions, tx.isCoinbase = false → tx.matures = 0 ∨ tx.matures ≤ b.header.height

/-- A delivered block contains no transfer that matures later. -/
def Call.Matured : Call → Prop
  | .block b _ _ => b.Matured
  | .transaction _ => True

section TimeLocks

variable {crypto : Crypto} {prune : Bool} {P : Transaction → Prop} {Q : Processor → Prop}
  {A : Call → Prop} {s : Processor} {c : Chain} {K : Set BlockID}

theorem series_period {tx : Transaction} {height : Int} (h₀ : 0 ≤ height)
    (hcb : tx.isCoinbase = false) (h : checkTransactionSeries tx height = true) :
    (tx.series - 1) * blocksUntilNewSeries ≤ height ∧
      height < (tx.series + 1) * blocksUntilNewSeries := by
  have hseries := (checkTransactionSeries_user hcb h₀).mp h
  simp only [blocksUntilNewSeries] at hseries ⊢
  omega

/-- **Time locks are respected** in every run without a transfer that is
delivered in a block below its `Matures`. -/
theorem time_locks_respected (h : Run crypto prune Call.Matured s) {id : BlockID} {e : StoredBlock}
    {tx : Transaction} (hmain : s.ledger.getBranchType id = .main)
    (he : s.blockStore[id]? = some e) (htx : tx ∈ e.block.transactions)
    (hcb : tx.isCoinbase = false) : tx.InTime e.block.header.height := by
  obtain ⟨c, K, hs⟩ := h.settled fun call _ => vouches_true call
  have hid : id ∈ K := (hs.describes.known_iff id).mp (Or.inl hmain)
  obtain ⟨d, hadm, -⟩ := hs.tree.line hid he
  have hheight := (hadm.wellFormed _ List.mem_cons_self).height_nonneg
  obtain ⟨q, hacc⟩ := hadm.acceptable htx
  have hmatured : e.block.Matured := by
    have hgenesis : genesisBlock.Matured := by
      intro tx htx hcb
      obtain rfl : tx = genesisCoinbase := List.mem_singleton.mp htx
      exact absurd hcb (by decide)
    exact (h.stored (fun _ _ _ hcall _ => hcall) hgenesis he).1
  refine ⟨hmatured tx htx hcb, ?_, series_period hheight hcb hacc.series⟩
  have hexpired := hacc.unexpired hcb
  unfold Transaction.isExpired at hexpired
  split_ifs at hexpired with h0
  · exact Or.inl h0
  · exact Or.inr (not_lt.mp (of_decide_eq_false hexpired))

/-- A transfer that may not be mined before height 1000 is on the main chain
at height 100. -/
theorem immature_transfer_mined :
    Reachable Sample.crypto false (Sample.state false 1000 100) ∧
      (Sample.state false 1000 100).ledger.getBranchType (Sample.entry 1000 100).1 = .main ∧
      ∃ e, (Sample.state false 1000 100).blockStore[(Sample.entry 1000 100).1]? = some e ∧
        e.block.header.height = 100 ∧ Sample.transfer 1000 ∈ e.block.transactions ∧
        (Sample.transfer 1000).isCoinbase = false ∧ (Sample.transfer 1000).matures = 1000 ∧
        ¬ (Sample.transfer 1000).InTime e.block.header.height := by
  have hm : (1000 : Int) = 0 ∨ 100 ≤ (1000 : Int) := by decide
  have hrun : Reachable Sample.crypto false (Sample.state false 1000 100) :=
    Sample.reachable false le_rfl hm (by decide)
  obtain ⟨hmain, storedAt, hst⟩ := Sample.state_block false le_rfl hm (by decide) (le_refl 100)
  refine ⟨hrun, hmain, _, hst, rfl, List.mem_cons_of_mem _ List.mem_cons_self, rfl, rfl, ?_⟩
  intro hin
  exact absurd (show (1000 : Int) = 0 ∨ (1000 : Int) ≤ 100 from hin.matures) (by decide)

/-- A transfer that matures at height 100 and is mined there. -/
theorem mature_transfer_in_time :
    Run Sample.crypto false Call.Matured (Sample.state false 100 100) ∧
      (Sample.transfer 100).InTime 100 := by
  have hm : (100 : Int) = 0 ∨ 100 ≤ (100 : Int) := by decide
  have hrun : Run Sample.crypto false Call.Matured (Sample.state false 100 100) := by
    refine (Sample.settled false le_rfl hm (by decide)).1.mono ?_
    rintro _ ⟨n, hn, rfl⟩ tx htx hcb
    cases n with
    | zero =>
      obtain rfl : tx = genesisCoinbase := List.mem_singleton.mp htx
      exact absurd hcb (by decide)
    | succ n =>
      rcases List.mem_cons.mp htx with rfl | htx
      · exact absurd (show (true : Bool) = false from hcb) (by decide)
      · obtain ⟨hn', rfl⟩ := Sample.mem_transfers htx
        rw [hn']
        exact Or.inr (le_refl (100 : Int))
  obtain ⟨hmain, storedAt, hst⟩ := Sample.state_block false le_rfl hm (by decide) (le_refl 100)
  exact ⟨hrun, time_locks_respected hrun hmain hst
    (List.mem_cons_of_mem _ List.mem_cons_self) rfl⟩

end TimeLocks

end Cruzbit

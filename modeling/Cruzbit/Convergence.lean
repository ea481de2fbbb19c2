/-
Cruzbit/Convergence.lean

Two nodes that receive the same blocks agree.

The blocks are delivered to each node in an order of its own, parents before
children, with repeats and with transactions in between (`Schedule`).  Side
branch blocks are let in without a look at balances, invalid ones make the
two nodes fail at different moments, and signature checks are skipped
depending on each node's queue.  None of it matters: what a node knows at
the end contains every block whose whole ancestry is valid
(`Delivered.known`), its tip is one of them, and no known block has more
work.  So both tips have the most work among these blocks, and if only one
block has it, the nodes have the same main chain and the same tables
(`convergence`).
-/
import Cruzbit.Signatures

namespace Cruzbit

open Chain Lineage Word

/-! ### Schedules -/

/-- The call delivers a block of `B` or a transaction of `T`. -/
def Call.Among (B : Set Block) (T : Set Transaction) : Call → Prop
  | .block b _ _ => b ∈ B
  | .transaction tx => tx ∈ T

/-- The transactions that calls among `B` and `T` deliver. -/
def deliverable (B : Set Block) (T : Set Transaction) : Set Transaction :=
  {tx | tx ∈ T ∨ ∃ b ∈ B, tx ∈ b.transactions}

/-- The calls deliver the blocks of `B`, each of them after its parent if that
is one of them, and never so early that its time lies too far ahead. -/
structure Schedule (crypto : Crypto) (B : Set Block) (T : Set Transaction) (calls : List Call) :
    Prop where
  among : ∀ call ∈ calls, call.Among B T
  complete : ∀ b ∈ B, ∃ now source, Call.block b now source ∈ calls
  ordered : ∀ pre b now source post, calls = pre ++ Call.block b now source :: post →
    ∀ p ∈ B, p.id crypto = b.header.previous → ∃ now' source', Call.block p now' source' ∈ pre
  late : ∀ b now source, Call.block b now source ∈ calls →
    b.header.time ≤ int64 (now + maxFutureSeconds)

/-- The state of a node after genesis and the calls of a schedule. -/
structure Delivered (crypto : Crypto) (prune : Bool) (B : Set Block) (T : Set Transaction)
    (calls : List Call) (s : Processor) : Prop where
  schedule : Schedule crypto B T calls
  state : ∃ s₀ now source,
    Processor.new.step crypto prune (.block genesisBlock now source) = (s₀, .ok ()) ∧
    s = s₀.carryOut crypto prune calls

/-- The block has a valid ancestry among the blocks of `B` and genesis. -/
def HasAncestry (crypto : Crypto) (prune : Bool) (target : Chain → Res BlockID) (B : Set Block)
    (x : BlockID × Block) : Prop :=
  ∃ c, Ancestry crypto prune target (x :: c) ∧ ∀ y ∈ x :: c, y.2 ∈ insert genesisBlock B

/-- What is assumed of the hash and of the target.  The blocks have distinct
IDs, none the null ID; the transactions have distinct IDs; and the target
required of a block is a function of its ancestors. -/
structure Setting (crypto : Crypto) (prune : Bool) (target : Chain → Res BlockID) (B : Set Block)
    (T : Set Transaction) : Prop where
  distinct : Set.InjOn (Block.id crypto) (insert genesisBlock B)
  nonnull : ∀ b ∈ insert genesisBlock B, b.id crypto ≠ genesisBlock.header.previous
  collisionFree : CollisionFree crypto (deliverable B T)
  target : ∀ s, Run crypto prune (Call.Among B T) s → TargetOf crypto target s

section Convergence

variable {crypto : Crypto} {prune : Bool} {target : Chain → Res BlockID} {B : Set Block}
  {T : Set Transaction} {calls pre : List Call} {s s₀ : Processor} {c : Chain}
  {x : BlockID × Block} {now : Int} {source : String}

theorem Call.Among.within {call : Call} (h : call.Among B T) : call.Within (deliverable B T) := by
  cases call with
  | block b now source => exact fun tx htx => Or.inr ⟨b, h, htx⟩
  | transaction tx =>
    intro tx' htx'
    obtain rfl : tx' = tx := List.mem_singleton.mp htx'
    exact Or.inl h

/-! ### One node -/

theorem Run.among_stored (hrun : Run crypto prune (Call.Among B T) s) {id : BlockID} {e : StoredBlock}
    (he : s.blockStore[id]? = some e) :
    e.block ∈ insert genesisBlock B ∧ e.block.id crypto = id :=
  hrun.stored (R := fun b => b ∈ insert genesisBlock B)
    (fun _ _ _ hb _ => Set.mem_insert_of_mem _ hb) (Set.mem_insert _ _) he

theorem Setting.agrees (h : Setting crypto prune target B T)
    (hrun : Run crypto prune (Call.Among B T) s) : Agrees crypto target s := by
  refine ⟨h.target s hrun, ?_⟩
  cases hnull : s.blockStore[genesisBlock.header.previous]? with
  | none => rfl
  | some e =>
    obtain ⟨hmem, hid⟩ := hrun.among_stored hnull
    exact absurd hid (h.nonnull _ hmem)

theorem Setting.vouches (h : Setting crypto prune target B T) {call : Call}
    (hcall : call.Among B T) : call.Vouches crypto (Verified crypto (deliverable B T)) :=
  hcall.within.vouches h.collisionFree

theorem Setting.settled (h : Setting crypto prune target B T)
    (hrun : Run crypto prune (Call.Among B T) s) :
    ∃ c K, Settled crypto prune (Verified crypto (deliverable B T))
      (Run crypto prune (Call.Among B T)) s c K :=
  hrun.settled fun _ hcall => h.vouches hcall

/-- Known blocks among those delivered are stored. -/
theorem Setting.stored_known (h : Setting crypto prune target B T)
    (hrun : Run crypto prune (Call.Among B T) s) (hid : ∀ y ∈ c, y.1 = y.2.id crypto)
    (hB : ∀ y ∈ c, y.2 ∈ insert genesisBlock B) (hknown : ∀ y ∈ c, s.ledger.Known y.1) :
    Stored s.blockStore c := by
  intro y hy
  obtain ⟨c', K, hs⟩ := h.settled hrun
  obtain ⟨e, he, -⟩ := hs.tree.stored ((hs.describes.known_iff _).mp (hknown y hy))
  obtain ⟨hmem, hide⟩ := hrun.among_stored he
  have heq : e.block = y.2 := h.distinct hmem (hB y hy) (hide.trans (hid y hy))
  exact ⟨e.storedAt, by rw [he, ← heq]⟩

/-- A delivered block whose ancestry is valid and known becomes known. -/
theorem Setting.learns (h : Setting crypto prune target B T)
    (hrun : Run crypto prune (Call.Among B T) s) {b : Block} (hb : b ∈ B)
    (hc : Ancestry crypto prune target ((b.id crypto, b) :: c)) (hne : c ≠ [])
    (hB : ∀ y ∈ c, y.2 ∈ insert genesisBlock B) (hknown : ∀ y ∈ c, s.ledger.Known y.1)
    (hlate : b.header.time ≤ int64 (now + maxFutureSeconds)) :
    (s.step crypto prune (.block b now source)).1.ledger.Known (b.id crypto) := by
  have hcall : (Call.block b now source).Among B T := hb
  obtain ⟨c', K, hs⟩ := h.settled hrun
  by_cases hid : b.id crypto ∈ K
  · exact hs.step_known hrun (h.vouches hcall) ((hs.describes.known_iff _).mpr hid)
  have hc' := hc.tail hne
  have hK : ∀ y ∈ c, y.1 ∈ K := fun y hy => (hs.describes.known_iff _).mp (hknown y hy)
  have hst := h.stored_known hrun hc'.1.id_eq hB hknown
  have hnd : (Chain.ids ((b.id crypto, b) :: c)).Nodup := by
    refine List.nodup_cons.mpr ⟨fun hmem => ?_, BlockLine.ids_nodup (hc'.1.line hst) hst⟩
    obtain ⟨y, hy, heq⟩ := List.mem_map.mp hmem
    have hyid : y.1 = b.id crypto := heq
    exact hid (hyid ▸ hK y hy)
  exact hs.learns hrun source (h.vouches hcall)
    (hs.passes (h.agrees hrun) hc'.1 hc'.2.toProposed hst hK hid hlate) (hc.valid hnd)

/-! ### The whole schedule -/

/-- The block was delivered, or is genesis. -/
def DeliveredIn (calls : List Call) (b : Block) : Prop :=
  b = genesisBlock ∨ ∃ now source, Call.block b now source ∈ calls

/-- The parent of a delivered block was delivered before. -/
theorem Schedule.parent (h : Schedule crypto B T calls) {p : BlockID × Block} {post : List Call}
    (hsplit : calls = pre ++ Call.block x.2 now source :: post)
    (hc : Ancestry crypto prune target (x :: p :: c)) (hp : p.2 ∈ insert genesisBlock B) :
    DeliveredIn pre p.2 := by
  obtain ⟨hc', hx⟩ := hc.tail (by simp)
  have hprev : p.2.id crypto = x.2.header.previous := by
    rw [(hx.parent p rfl).1, hc'.id_eq p List.mem_cons_self]
  rcases hp with hp | hp
  · exact Or.inl hp
  · exact Or.inr (h.ordered pre x.2 now source post hsplit p.2 hp hprev)

/-- A block above genesis is not genesis. -/
theorem Ancestry.ne_genesis {p : BlockID × Block} (h : Ancestry crypto prune target (x :: p :: c)) :
    x.2 ≠ genesisBlock := by
  obtain ⟨hc, hx⟩ := h.tail (by simp)
  intro heq
  have hnonneg := (hc.wellFormed p List.mem_cons_self).height_nonneg
  have hheight := (hx.parent p rfl).2.1
  rw [heq, show genesisBlock.header.height = 0 from rfl] at hheight
  omega

/-- The ancestors of a delivered block were delivered before. -/
theorem Schedule.ancestors (h : Schedule crypto B T calls)
    (hpre : pre <+: calls) (hc : Ancestry crypto prune target (x :: c))
    (hB : ∀ y ∈ c, y.2 ∈ insert genesisBlock B) (hx : DeliveredIn pre x.2) :
    ∀ y ∈ c, DeliveredIn pre y.2 := by
  induction c generalizing x with
  | nil => simp
  | cons p c ih =>
    obtain ⟨hpB, hcB⟩ := List.forall_mem_cons.mp hB
    have hp : DeliveredIn pre p.2 := by
      obtain ⟨now, source, hmem⟩ := hx.resolve_left hc.ne_genesis
      obtain ⟨a, b, rfl⟩ := List.append_of_mem hmem
      obtain ⟨post, hpost⟩ := hpre
      have hsplit : calls = a ++ Call.block x.2 now source :: (b ++ post) := by
        rw [← hpost]
        simp
      refine (h.parent hsplit hc hpB).imp_right ?_
      rintro ⟨now', source', hmem'⟩
      exact ⟨now', source', List.mem_append_left _ hmem'⟩
    exact List.forall_mem_cons.mpr ⟨hp, ih (hc.tail (by simp)).1 hcB hp⟩

/-- **What a node knows.**  After any part of a schedule the node knows every
delivered block that has a valid ancestry. -/
theorem Schedule.known (h : Schedule crypto B T calls) (hset : Setting crypto prune target B T)
    (hrun : Run crypto prune (Call.Among B T) s₀) (hg : s₀.ledger.Known (genesisBlock.id crypto))
    (hpre : pre <+: calls) (hc : Ancestry crypto prune target c)
    (hB : ∀ y ∈ c, y.2 ∈ insert genesisBlock B) (hdel : ∀ y ∈ c, DeliveredIn pre y.2) :
    ∀ y ∈ c, (s₀.carryOut crypto prune pre).ledger.Known y.1 := by
  induction pre using List.reverseRecOn generalizing c with
  | nil =>
    intro y hy
    rcases hdel y hy with heq | ⟨now, source, hmem⟩
    · rw [hc.id_eq y hy, heq]
      exact hg
    · exact absurd hmem List.not_mem_nil
  | append_singleton pre call ih =>
    have hpre' : pre <+: calls := (List.prefix_append pre [call]).trans hpre
    have hcalls : ∀ call' ∈ pre, call'.Among B T :=
      fun call' hmem => h.among call' (hpre'.subset hmem)
    have hcall : call.Among B T := h.among call (hpre.subset (by simp))
    have hrun' := hrun.carryOut hcalls
    rw [carryOut_append]
    -- what was known before the last call is still known
    have hkeep {d : Chain} (hd : Ancestry crypto prune target d)
        (hdB : ∀ y ∈ d, y.2 ∈ insert genesisBlock B) (hdel' : ∀ y ∈ d, DeliveredIn pre y.2) :
        ∀ y ∈ d, ((s₀.carryOut crypto prune pre).step crypto prune call).1.ledger.Known y.1 := by
      intro y hy
      obtain ⟨c', K, hs⟩ := hset.settled hrun'
      exact hs.step_known hrun' (hset.vouches hcall) (ih hpre' hd hdB hdel' y hy)
    cases c with
    | nil => simp
    | cons x c =>
      obtain ⟨hxB, hcB⟩ := List.forall_mem_cons.mp hB
      obtain ⟨hxdel, hcdel⟩ := List.forall_mem_cons.mp hdel
      by_cases hx : DeliveredIn pre x.2
      · exact hkeep hc hB (List.forall_mem_cons.mpr ⟨hx, h.ancestors hpre' hc hcB hx⟩)
      -- the last call delivers `x`
      obtain ⟨now, source, hmem⟩ := hxdel.resolve_left fun heq => hx (Or.inl heq)
      obtain rfl : Call.block x.2 now source = call := by
        rcases List.mem_append.mp hmem with hmem | hmem
        · exact absurd (Or.inr ⟨now, source, hmem⟩) hx
        · exact List.mem_singleton.mp hmem
      cases c with
      | nil =>
        exact absurd (Or.inl (congrArg Prod.snd hc.eq_genesis)) hx
      | cons p c =>
        obtain ⟨post, hpost⟩ := hpre
        have hsplit : calls = pre ++ Call.block x.2 now source :: post := by
          rw [← hpost]
          simp
        have hp := h.parent hsplit hc (hcB p List.mem_cons_self)
        obtain ⟨hc', hfollows⟩ := hc.tail (by simp)
        have hpc : ∀ y ∈ p :: c, DeliveredIn pre y.2 :=
          List.forall_mem_cons.mpr
            ⟨hp, h.ancestors hpre' hc' (fun y hy => hcB y (List.mem_cons_of_mem _ hy)) hp⟩
        refine List.forall_mem_cons.mpr ⟨?_, hkeep hc' hcB hpc⟩
        have hxid : x = (x.2.id crypto, x.2) := Prod.ext hfollows.id_eq rfl
        rw [hxid] at hc ⊢
        exact hset.learns hrun' hcall hc (by simp) hcB (ih hpre' hc' hcB hpc)
          (h.late x.2 now source (by rw [hsplit]; simp))

/-- **The tip of a node** that received all blocks has a valid ancestry and the
most work of all blocks that have one, and all of these are known. -/
theorem Delivered.outcome (h : Delivered crypto prune B T calls s)
    (hset : Setting crypto prune target B T) :
    ∃ t c K, Settled crypto prune (Verified crypto (deliverable B T))
        (Run crypto prune (Call.Among B T)) s (t :: c) K ∧
      Ancestry crypto prune target (t :: c) ∧ (∀ y ∈ t :: c, y.2 ∈ insert genesisBlock B) ∧
      ∀ x d, Ancestry crypto prune target (x :: d) → (∀ y ∈ x :: d, y.2 ∈ insert genesisBlock B) →
        Stored s.blockStore (x :: d) ∧
          x.2.header.chainWork.toNat ≤ t.2.header.chainWork.toNat := by
  obtain ⟨s₀, now, source, hg, rfl⟩ := h.state
  have hrun₀ : Run crypto prune (Call.Among B T) s₀ := .genesis now source hg
  have hrun := hrun₀.carryOut h.schedule.among
  obtain ⟨c, K, hs⟩ := hset.settled hrun
  obtain ⟨t, c, rfl⟩ := List.exists_cons_of_ne_nil hs.admitted.ne_nil
  refine ⟨t, c, K, hs, ?_, ?_, ?_⟩
  · exact hs.admitted.ancestry (fun _ htx => htx.2) (fun _ hrun' => hset.agrees hrun') hs.valid
  · intro y hy
    obtain ⟨storedAt, hget⟩ := hs.stored y hy
    exact (hrun.among_stored hget).1
  · intro x d hx hB
    have hg₀ : s₀.ledger.Known (genesisBlock.id crypto) := by
      obtain ⟨c₀, K₀, hs₀⟩ := hset.settled hrun₀
      exact (hs₀.describes.known_iff _).mpr hs₀.genesis_mem
    have hknown := h.schedule.known hset hrun₀ hg₀ (List.prefix_refl calls) hx hB fun y hy =>
      (hB y hy).imp_right (h.schedule.complete y.2)
    have hst := hset.stored_known hrun hx.id_eq hB hknown
    refine ⟨hst, ?_⟩
    by_cases heq : x.1 = t.1
    · rw [hst.eq_of_fst_eq hs.stored List.mem_cons_self List.mem_cons_self heq]
    · obtain ⟨u, hu⟩ := hst x List.mem_cons_self
      obtain ⟨v, hv⟩ := hs.stored t List.mem_cons_self
      have hK := (hs.describes.known_iff _).mp (hknown x List.mem_cons_self)
      exact (hs.best t rfl x.1 hK heq).work_le hv hu

/-- **Convergence.** -/
theorem convergence {calls₁ calls₂ : List Call} {s₁ s₂ : Processor}
    (hset : Setting crypto prune target B T) (h₁ : Delivered crypto prune B T calls₁ s₁)
    (h₂ : Delivered crypto prune B T calls₂ s₂) :
    ∃ t₁ c₁ t₂ c₂, MainPath crypto s₁ t₁ c₁ ∧ MainPath crypto s₂ t₂ c₂ ∧
      t₁.2.header.chainWork = t₂.2.header.chainWork ∧
      IsGreatest ((fun x => x.2.header.chainWork.toNat) '' {x | HasAncestry crypto prune target B x})
        t₁.2.header.chainWork.toNat ∧
      ((∀ x, HasAncestry crypto prune target B x →
          x.2.header.chainWork = t₁.2.header.chainWork → x = t₁) →
        t₂ = t₁ ∧ c₂ = c₁ ∧ s₂.ledger.chainTip = s₁.ledger.chainTip ∧
          s₂.ledger.heightIndex = s₁.ledger.heightIndex ∧ s₂.ledger.txIndex = s₁.ledger.txIndex ∧
          s₂.ledger.pubKeyTxIndex = s₁.ledger.pubKeyTxIndex ∧
          s₂.ledger.balances = s₁.ledger.balances) := by
  obtain ⟨t₁, c₁, K₁, hs₁, hanc₁, hB₁, hmax₁⟩ := h₁.outcome hset
  obtain ⟨t₂, c₂, K₂, hs₂, hanc₂, hB₂, hmax₂⟩ := h₂.outcome hset
  have hwork : t₁.2.header.chainWork = t₂.2.header.chainWork :=
    BitVec.eq_of_toNat_eq
      (le_antisymm (hmax₂ t₁ c₁ hanc₁ hB₁).2 (hmax₁ t₂ c₂ hanc₂ hB₂).2)
  refine ⟨t₁, c₁, t₂, c₂, hs₁.mainPath, hs₂.mainPath, hwork, ⟨⟨t₁, ⟨c₁, hanc₁, hB₁⟩, rfl⟩, ?_⟩, ?_⟩
  · rintro _ ⟨x, ⟨d, hx, hB⟩, rfl⟩
    exact (hmax₁ x d hx hB).2
  · intro hunique
    obtain rfl := hunique t₂ ⟨c₂, hanc₂, hB₂⟩ hwork.symm
    have hst₂ := (hmax₁ t₂ c₂ hanc₂ hB₂).1
    obtain rfl := BlockLine.ext (hanc₁.line hs₁.stored) (hanc₂.line hst₂)
    have hd₁ := hs₁.describes
    have hd₂ := hs₂.describes
    refine ⟨rfl, rfl, hd₂.chainTip.trans hd₁.chainTip.symm, hd₂.heightIndex.unique hd₁.heightIndex,
      hd₂.txIndex.unique hd₁.txIndex, hd₂.pubKeyTxIndex.unique hd₁.pubKeyTxIndex, ?_⟩
    exact Std.ExtTreeMap.ext_getElem? fun {pk} => (hd₂.balances pk).trans (hd₁.balances pk).symm

end Convergence

/-! ### Two blocks in either order -/

namespace Sample

/-- Two blocks on top of genesis. -/
def pair : Set Block := {block 0 1, sibling}

theorem of_mem_pair {b : Block} (h : b ∈ pair) :
    b.id crypto = BitVec.ofNat 256 b.header.time.natAbs ∧
      (b.header.time = 1561173756 ∨ b.header.time = 1561173763) ∧ b.header.height = 1 ∧
      b.header.previous = BitVec.ofNat 256 1561173156 ∧ b.transactions = [coinbase 0 1] := by
  rcases h with rfl | rfl
  · exact ⟨header_id (by decide), Or.inl rfl, rfl, rfl, rfl⟩
  · exact ⟨header_id (by decide), Or.inr rfl, rfl, rfl, rfl⟩

theorem setting_pair : Setting crypto false ancestorTarget pair ∅ where
  distinct := by
    have hne {b : Block} (hb : b ∈ pair) : b.id crypto ≠ genesisBlock.id crypto := by
      intro hid
      obtain ⟨hb', htime, -⟩ := of_mem_pair hb
      rw [hb', genesis_id] at hid
      have := ofNat_inj (by omega) (by omega) hid
      omega
    rintro b (rfl | hb) b' (rfl | hb') hid
    · rfl
    · exact absurd hid.symm (hne hb')
    · exact absurd hid (hne hb)
    · obtain ⟨h₁, ht₁, -⟩ := of_mem_pair hb
      obtain ⟨h₂, ht₂, -⟩ := of_mem_pair hb'
      rw [h₁, h₂] at hid
      have htime := ofNat_inj (by omega) (by omega) hid
      have hb₁ : (block 0 1).header.time = 1561173756 := rfl
      have hb₂ : sibling.header.time = 1561173763 := rfl
      rcases hb with rfl | rfl <;> rcases hb' with rfl | rfl
      · rfl
      · omega
      · omega
      · rfl
  nonnull := by
    rintro b (rfl | hb) hid
    · rw [genesis_id] at hid
      have := ofNat_inj (b := 0) (by omega) (by omega) hid
      omega
    · obtain ⟨hb', htime, -⟩ := of_mem_pair hb
      rw [hb'] at hid
      have := ofNat_inj (b := 0) (by omega) (by omega) hid
      omega
  collisionFree := by
    have hmem : ∀ tx ∈ deliverable pair ∅, tx = coinbase 0 1 := by
      rintro tx (htx | ⟨b, hb, htx⟩)
      · exact absurd htx (Set.notMem_empty _)
      · rw [(of_mem_pair hb).2.2.2.2] at htx
        exact List.mem_singleton.mp htx
    rintro _ ⟨tx, htx, rfl⟩ _ ⟨tx', htx', rfl⟩ _
    rw [hmem tx htx, hmem tx' htx']
  target := by
    intro s hs
    refine targetOf_ancestorTarget fun id e he => ?_
    rcases (hs.among_stored he).1 with heq | hb
    · rw [heq]
      decide
    · rw [(of_mem_pair hb).2.2.1]
      decide

theorem schedule_pair {b b' : Block} (hb : ({b, b'} : Set Block) = pair) :
    Schedule crypto pair ∅ [b.call, b'.call] := by
  have hmem {d : Block} {now : Int} {source : String}
      (h : Call.block d now source ∈ [b.call, b'.call]) : d ∈ pair ∧ now = d.header.time := by
    rw [← hb]
    rcases List.mem_cons.mp h with heq | h
    · cases heq
      exact ⟨Or.inl rfl, rfl⟩
    · cases List.mem_singleton.mp h
      exact ⟨Or.inr rfl, rfl⟩
  refine ⟨?_, ?_, ?_, ?_⟩
  · intro call hcall
    cases call with
    | block d now source => exact (hmem hcall).1
    | transaction tx => simp [Block.call] at hcall
  · intro d hd
    rw [← hb] at hd
    rcases hd with rfl | rfl
    · exact ⟨_, "", List.mem_cons_self⟩
    · exact ⟨_, "", List.mem_cons_of_mem _ List.mem_cons_self⟩
  · -- neither block is the parent of the other
    intro pre d now source post hsplit p hp hprev
    have hcall : Call.block d now source ∈ [b.call, b'.call] := by
      rw [hsplit]
      simp
    have hd : d ∈ pair := (hmem hcall).1
    obtain ⟨hid, htime, -⟩ := of_mem_pair hp
    rw [hid, (of_mem_pair hd).2.2.2.1] at hprev
    have := ofNat_inj (by omega) (by omega) hprev
    omega
  · intro d now source h
    obtain ⟨hd, rfl⟩ := hmem h
    obtain ⟨-, htime, -⟩ := of_mem_pair hd
    rw [int64_of_fits (by simp only [Fits64, maxFutureSeconds]; omega)]
    simp only [maxFutureSeconds]
    omega

theorem delivered_pair (b b' : Block) (hb : ({b, b'} : Set Block) = pair) :
    ∃ s, Delivered crypto false pair ∅ [b.call, b'.call] s :=
  ⟨_, schedule_pair hb, _, _, _, Prod.ext rfl (genesis_ok false), rfl⟩

theorem convergence_of_pair :
    ∃ s₁ s₂, Delivered crypto false pair ∅ [(block 0 1).call, sibling.call] s₁ ∧
      Delivered crypto false pair ∅ [sibling.call, (block 0 1).call] s₂ ∧
      ∃ t₁ c₁ t₂ c₂, MainPath crypto s₁ t₁ c₁ ∧ MainPath crypto s₂ t₂ c₂ ∧
        t₁.2.header.chainWork = t₂.2.header.chainWork := by
  obtain ⟨s₁, h₁⟩ := delivered_pair (block 0 1) sibling rfl
  obtain ⟨s₂, h₂⟩ := delivered_pair sibling (block 0 1) (Set.pair_comm _ _)
  obtain ⟨t₁, c₁, t₂, c₂, hpath₁, hpath₂, hwork, -⟩ := convergence setting_pair h₁ h₂
  exact ⟨s₁, s₂, h₁, h₂, t₁, c₁, t₂, c₂, hpath₁, hpath₂, hwork⟩

end Sample

end Cruzbit

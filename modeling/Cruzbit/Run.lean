/-
Cruzbit/Run.lean

Runs of the processor: genesis is processed on empty databases, and then
blocks and transactions are delivered in any order, at any clock times.

`Settled.processBlock_cases` and `Settled.processTransaction_settled` say
what one call does to a settled processor.  It follows by induction that
every run is settled (`Run.settled`).  All results about reachable states
rest on this one theorem.
-/
import Cruzbit.Settled

namespace Cruzbit

open Accounts Chain Lineage Word

/-! ### Calls and runs -/

/-- A call to the processor. -/
inductive Call
  | block (block : Block) (now : Int) (source : String)
  | transaction (tx : Transaction)

/-- Carry out a call.  Blocks and transactions come with their IDs. -/
def Processor.step (crypto : Crypto) (prune : Bool) (s : Processor) : Call → Processor × Res Unit
  | .block b now source =>
    Processor.processBlock crypto prune (genesisBlock.id crypto) s (b.id crypto) b now source
  | .transaction tx => s.processTransaction crypto (tx.id crypto) tx

/-- The states reached by calls that satisfy `A`, whether they succeed or fail. -/
inductive Run (crypto : Crypto) (prune : Bool) (A : Call → Prop) : Processor → Prop
  | genesis {s : Processor} (now : Int) (source : String) :
      Processor.new.step crypto prune (.block genesisBlock now source) = (s, .ok ()) →
      Run crypto prune A s
  | call {s : Processor} (call : Call) : Run crypto prune A s → A call →
      Run crypto prune A (s.step crypto prune call).1

/-- The reachable states. -/
abbrev Reachable (crypto : Crypto) (prune : Bool) : Processor → Prop :=
  Run crypto prune fun _ => True

/-- Carry out calls in order. -/
def Processor.carryOut (crypto : Crypto) (prune : Bool) (s : Processor) (calls : List Call) :
    Processor :=
  calls.foldl (fun s call => (s.step crypto prune call).1) s

/-- The property `P` of transactions is established by the call's checks: by a
good signature, or by a transaction with the same ID and signature that had
it before. -/
def Call.Vouches (crypto : Crypto) (P : Transaction → Prop) : Call → Prop
  | .block b _ _ => ∀ tx ∈ b.transactions.tail, tx.isCoinbase = false →
      (tx.verify crypto = true ∨
        ∃ tx', P tx' ∧ tx'.id crypto = tx.id crypto ∧ tx'.signature = tx.signature) → P tx
  | .transaction tx => tx.verify crypto = true → P tx

/-! ### Delivering a block -/

section Block

variable {crypto : Crypto} {prune : Bool} {P : Transaction → Prop} {Q : Processor → Prop}
  {s : Processor} {c d : Chain} {K : Set BlockID} {b : Block} {now : Int}

/-- The block is new and passes all checks on top of the line `d` of its
parent. -/
structure Passes (crypto : Crypto) (P : Transaction → Prop) (Q : Processor → Prop) (s : Processor)
    (K : Set BlockID) (b : Block) (now : Int) (d : Chain) : Prop where
  unknown : b.id crypto ∉ K
  checked : checkBlock crypto (b.id crypto) b now = .ok ()
  admitted : Admitted crypto P Q d
  stored : Stored s.blockStore d
  known : ∀ y ∈ d, y.1 ∈ K
  parent : ∃ p, d.head? = some p ∧ b.header.previous = p.1 ∧
    b.header.height = p.2.header.height + 1 ∧
    acceptBlockChecks crypto s.txQueue s.blockStore s.ledger (b.id crypto) b p.2.header = .ok ()

/-- What a delivered block can bring about. -/
inductive Outcome (crypto : Crypto) (prune : Bool) (P : Transaction → Prop) (Q : Processor → Prop)
    (source : String) (s : Processor) (c : Chain) (K : Set BlockID) (b : Block) (now : Int) :
    Processor → Res Unit → Prop
  | known : b.id crypto ∈ K → Outcome crypto prune P Q source s c K b now s (.ok ())
  | refused {e : Err} : b.id crypto ∉ K → (∀ d, ¬ Passes crypto P Q s K b now d) →
      Outcome crypto prune P Q source s c K b now s (.error e)
  | judged {d : Chain} {s' : Processor} {r : Res Unit} : Passes crypto P Q s K b now d →
      Admitted crypto P Q ((b.id crypto, b) :: d) →
      s'.blockStore = s.blockStore.store (b.id crypto) b now →
      Verdict crypto prune P Q source s c d K (b.id crypto, b) s' r →
      Outcome crypto prune P Q source s c K b now s' r

/-- The signature check establishes `P`. -/
theorem Placed.vouches (h : Placed crypto prune P Q s c K) {source : String}
    (hP : (Call.block b now source).Vouches crypto P) (hb : b.WellFormed crypto)
    (hacc : ∀ tx ∈ b.transactions, Acceptable crypto s.txQueue b.header.height tx) :
    ∀ tx ∈ b.transactions.tail, P tx := by
  intro tx htx
  obtain ⟨coinbase, transfers, hshape, -, hsigned⟩ := hb.shape
  have hcb : tx.isCoinbase = false := by
    rw [hshape, List.tail_cons] at htx
    exact hsigned tx htx
  refine hP tx htx hcb (((hacc tx (List.mem_of_mem_tail htx)).signed hcb).symm.imp_right ?_)
  intro hq
  unfold TransactionQueue.existsSigned at hq
  cases hmap : s.txQueue.txMap[tx.id crypto]? with
  | none => simp [hmap] at hq
  | some e =>
    obtain ⟨he, hid⟩ := (h.queue.map_iff _ _).mp hmap
    exact ⟨e.value, h.vouched e he, hid, by simpa [hmap] using hq⟩

/-- A block that passes all checks on the line of its parent is admitted. -/
theorem Placed.admitted_cons (h : Placed crypto prune P Q s c K) (hQ : Q s) {source : String}
    (hP : (Call.block b now source).Vouches crypto P) (hd : Passes crypto P Q s K b now d) :
    Admitted crypto P Q ((b.id crypto, b) :: d) := by
  obtain ⟨p, hp, hprev, hheight, hchecks⟩ := hd.parent
  refine .cons s hd.admitted hQ ⟨rfl, ⟨now, hd.checked⟩, hd.stored,
    fun y hy => (h.describes.known_iff y.1).mpr (hd.known y hy), ?_, ?_⟩
  · intro p' hp'
    obtain rfl : p = p' := Option.some.inj (hp.symm.trans hp')
    exact ⟨hprev, hheight, hchecks⟩
  · exact h.vouches hP (.of_checkBlock hd.checked) (acceptBlockChecks_ok_iff.mp hchecks).2.2.2.1

/-- **Accepting a block** whose parent is known. -/
theorem Settled.acceptBlock_cases (h : Settled crypto prune P Q s c K) (hQ : Q s)
    (source : String) (hP : (Call.block b now source).Vouches crypto P) (hid : b.id crypto ∉ K)
    (hchk : checkBlock crypto (b.id crypto) b now = .ok ()) (hprev : b.header.previous ∈ K) :
    Outcome crypto prune P Q source s c K b now
      (s.acceptBlock crypto prune (b.id crypto) b now source).1
      (s.acceptBlock crypto prune (b.id crypto) b now source).2 := by
  obtain ⟨p, d, hadm, hst, hd⟩ := h.tree _ hprev
  obtain ⟨storedAt, hp⟩ := hst _ List.mem_cons_self
  have hderef : s.blockStore.derefHeader b.header.previous = .ok p.header := by
    simp [BlockStorage.derefHeader, BlockStorage.getBlockHeader, hp]
  -- the line of the parent is the only one the block can be on
  have hline : ∀ {e : Chain}, Passes crypto P Q s K b now e →
      b.header.height = p.header.height + 1 ∧ acceptBlockChecks crypto s.txQueue s.blockStore
        s.ledger (b.id crypto) b p.header = .ok () := by
    intro e he
    obtain ⟨q, hq, hqprev, hheight, hchecks⟩ := he.parent
    have hqp := he.stored.eq_of_fst_eq hst (List.mem_of_mem_head? hq) List.mem_cons_self
      hqprev.symm
    rw [hqp] at hheight hchecks
    exact ⟨hheight, hchecks⟩
  have hunknown : s.ledger.getBranchType (b.id crypto) = .unknown :=
    (h.describes.getBranchType_eq_unknown _).mpr hid
  simp only [Processor.acceptBlock, hderef]
  by_cases hheight : b.header.height = p.header.height + 1
  swap
  · rw [if_pos hheight]
    exact .refused hid fun e he => hheight (hline he).1
  rw [if_neg (not_not.mpr hheight), if_neg (not_not.mpr hunknown)]
  cases hchecks : acceptBlockChecks crypto s.txQueue s.blockStore s.ledger (b.id crypto) b
      p.header with
  | error err =>
    refine .refused hid fun e he => ?_
    rw [(hline he).2] at hchecks
    exact absurd hchecks (by simp)
  | ok u =>
    have hpasses : Passes crypto P Q s K b now ((b.header.previous, p) :: d) :=
      ⟨hid, hchk, hadm, hst, List.forall_mem_cons.mpr ⟨hprev, hd⟩, _, rfl, rfl, hheight, hchecks⟩
    have hcons := h.admitted_cons hQ hP hpasses
    obtain ⟨t, e, rfl⟩ := List.exists_cons_of_ne_nil h.admitted.ne_nil
    obtain ⟨s', r, heq, hstore, hverdict⟩ := h.acceptCheckedBlock_cases
      (x := (b.id crypto, b)) hid hcons hst hpasses.known rfl now source
    simp only at heq
    rw [heq]
    exact .judged hpasses hcons hstore hverdict

theorem Placed.genesis_mem (h : Placed crypto prune P Q s c K) : genesisBlock.id crypto ∈ K :=
  h.describes.known _ (List.mem_map.mpr ⟨_, List.mem_of_getLast? h.admitted.getLast, rfl⟩)

/-- **Delivering a block.** -/
theorem Settled.processBlock_cases (h : Settled crypto prune P Q s c K) (hQ : Q s) (source : String)
    (hP : (Call.block b now source).Vouches crypto P) :
    Outcome crypto prune P Q source s c K b now
      (s.step crypto prune (.block b now source)).1
      (s.step crypto prune (.block b now source)).2 := by
  simp only [Processor.step, Processor.processBlock]
  by_cases hid : b.id crypto ∈ K
  · rw [if_pos ((h.describes.getBranchType_eq_unknown _).not.mpr (not_not.mpr hid))]
    exact .known hid
  rw [if_neg (not_not.mpr ((h.describes.getBranchType_eq_unknown _).mpr hid))]
  cases hchk : checkBlock crypto (b.id crypto) b now with
  | error e =>
    refine .refused hid fun d hd => ?_
    rw [hd.checked] at hchk
    exact absurd hchk (by simp)
  | ok u =>
    have hknown := h.describes.known_iff b.header.previous
    by_cases hprev : b.header.previous ∈ K
    · simp only
      rw [if_neg]
      · exact h.acceptBlock_cases hQ source hP hid hchk hprev
      · rw [not_and_or, not_not, not_not]
        exact hknown.mpr hprev
    · have hgen : b.id crypto ≠ genesisBlock.id crypto := by
        intro heq
        rw [heq] at hid
        exact hid h.genesis_mem
      simp only
      rw [if_pos, if_neg hgen]
      · refine .refused hid fun d hd => hprev ?_
        obtain ⟨p, hp, hpp, -⟩ := hd.parent
        rw [hpp]
        exact hd.known p (List.mem_of_mem_head? hp)
      · rw [← not_or]
        exact hknown.not.mpr hprev

/-- Whatever a delivered block brings about, the processor is settled. -/
theorem Outcome.settled {source : String} {s' : Processor} {r : Res Unit}
    (h : Settled crypto prune P Q s c K)
    (ho : Outcome crypto prune P Q source s c K b now s' r) :
    ∃ c' K', Settled crypto prune P Q s' c' K' := by
  cases ho with
  | known _ => exact ⟨c, K, h⟩
  | refused _ _ => exact ⟨c, K, h⟩
  | judged _ _ _ hv =>
    cases hv with
    | side hs _ => exact ⟨_, _, hs⟩
    | moved hs _ => exact ⟨_, _, hs⟩
    | rejected _ _ hs _ _ => exact ⟨_, _, hs⟩

end Block

/-! ### Delivering a transaction -/

section Transaction

variable {crypto : Crypto} {prune : Bool} {P : Transaction → Prop} {Q : Processor → Prop}
  {s : Processor} {c : Chain} {K : Set BlockID} {tx : Transaction}

/-- What the checks of `processTransaction` establish. -/
structure Queueable (crypto : Crypto) (s : Processor) (tx : Transaction) : Prop where
  checked : tx.Checked
  transfer : tx.isCoinbase = false
  verified : tx.verify crypto = true
  unindexed : ((s.ledger.getTransactionIndex (tx.id crypto)).bind Prod.fst).isSome = false
  current : ∃ tip, s.ledger.chainTip = some tip ∧ TransactionQueue.invalidated tx tip.2 = false

theorem Queueable.of_checks
    (h : s.processTransactionChecks crypto (tx.id crypto) tx = .ok ()) : Queueable crypto s tx := by
  simp only [Processor.processTransactionChecks, Res.bind_eq_ok, Res.exists_unit, failIf_eq_ok,
    Transaction.checkTransaction_ok_iff, Bool.not_eq_true] at h
  obtain ⟨hfee, hamount, hchecked, hcb, -, hunindexed, h⟩ := h
  cases htip : s.ledger.chainTip with
  | none => simp [htip] at h
  | some tip =>
    rw [htip] at h
    simp only [Res.bind_eq_ok, Res.exists_unit, failIf_eq_ok, Bool.not_eq_false,
      Bool.not_eq_true] at h
    obtain ⟨hseries, hmature, hexpired, hverify⟩ := h
    refine ⟨hchecked, hcb, hverify, hunindexed, tip, htip, ?_⟩
    exact TransactionQueue.invalidated_eq_false_iff.mpr
      ⟨hseries, hmature, hexpired, not_lt.mp hfee, not_lt.mp hamount⟩

/-- A transaction that may be queued is not confirmed on the main chain. -/
theorem Settled.queueable_unconfirmed (h : Settled crypto prune P Q s c K)
    (htx : Queueable crypto s tx) {U : Set Transaction}
    (hU : Separates crypto P s.blockStore K U) (hmem : tx ∈ U) :
    ∀ y ∈ c, tx.id crypto ∉ y.2.txIDs crypto := by
  obtain ⟨tip, htip, hcurrent⟩ := htx.current
  have hseries : checkTransactionSeries tx c.length = true := by
    rw [h.describes.chainTip, Option.map_eq_some_iff] at htip
    obtain ⟨t, -, rfl⟩ := htip
    rw [TransactionQueue.invalidated_eq_false_iff, sub_add_cancel] at hcurrent
    exact hcurrent.1
  have hunindexed : ∀ y ∈ c.indexed prune, tx.id crypto ∉ y.2.txIDs crypto := by
    intro y hy hid
    have := h.describes.getTransactionIndex_isSome hy hid
    rw [htx.unindexed] at this
    exact absurd this (by simp)
  exact h.valid.unconfirmed hU.collisionFree (h.inSeries hU) hmem hseries hunindexed

/-- **Delivering a transaction** leaves the chain alone and the queue replayed. -/
theorem Settled.processTransaction_settled (h : Settled crypto prune P Q s c K)
    (hP : (Call.transaction tx).Vouches crypto P) :
    Settled crypto prune P Q (s.step crypto prune (.transaction tx)).1 c K ∧
      (s.step crypto prune (.transaction tx)).1.ledger = s.ledger ∧
      (s.step crypto prune (.transaction tx)).1.blockStore = s.blockStore ∧
      (s.step crypto prune (.transaction tx)).1.tipChanges = s.tipChanges := by
  simp only [Processor.step, Processor.processTransaction]
  cases hchecks : s.processTransactionChecks crypto (tx.id crypto) tx with
  | error e => exact ⟨h, rfl, rfl, rfl⟩
  | ok u =>
    have htx := Queueable.of_checks hchecks
    obtain ⟨⟨q, r, hadd, hwf, hreplays, hmem⟩, hfits⟩ := h.queue.add_cases
      h.describes.getPublicKeyBalance h.valid.solvent h.fresh.replays ⟨htx.checked, htx.transfer⟩
    have hvouched : ∀ e ∈ q.txQueue, P e.value := by
      intro e he
      rcases hmem e he with he | heq
      · exact h.vouched e he
      · rw [heq]
        exact hP htx.verified
    have hunconfirmed : ∀ U, Separates crypto P s.blockStore K U → Unconfirmed crypto q c := by
      intro U hU e he
      rcases hmem e he with he | heq
      · exact h.unconfirmed U hU e he
      · rw [heq]
        exact h.queueable_unconfirmed htx hU (hU.vouched tx (hP htx.verified))
    have hcurrent : ∀ tip ∈ s.ledger.chainTip, ∀ e ∈ q.txQueue,
        TransactionQueue.invalidated e.value tip.2 = false := by
      intro tip htip e he
      rcases hmem e he with he | heq
      · exact h.fresh.current tip htip e he
      · obtain ⟨tip', htip', hcurrent⟩ := htx.current
        obtain rfl := Option.some.inj (htip.symm.trans htip')
        rw [heq]
        exact hcurrent
    have hexact := h.exact.append (e := .add s.ledger s.txQueue tx) hfits
    simp only [hadd]
    cases r <;> exact ⟨⟨⟨⟨h.describes, h.valid, h.stored, hwf, hvouched, hexact, h.mirrored,
      hunconfirmed⟩, h.admitted, h.tree⟩, h.best, hreplays, hcurrent⟩, rfl, rfl, rfl⟩

end Transaction

/-! ### Whole runs -/

section Run

variable {crypto : Crypto} {prune : Bool} {P : Transaction → Prop} {Q : Processor → Prop}
  {A : Call → Prop} {s s' : Processor} {c : Chain} {K : Set BlockID}

/-- The processor on empty databases. -/
theorem sync_new : Sync crypto prune P Processor.new [] ∅ :=
  ⟨describes_empty, .nil, by simp [Stored], TransactionQueue.wellFormed_new,
    by simp [Processor.new, TransactionQueue.new], by simp [Exact, Processor.new], rfl,
    by simp [Unconfirmed]⟩

/-- With an empty ledger nothing depends on what is stored. -/
theorem Sync.setBlockStore (h : Sync crypto prune P s [] ∅) (blockStore : BlockStorage) :
    Sync crypto prune P { s with blockStore := blockStore } [] ∅ :=
  ⟨h.describes, h.valid, by simp [Stored], h.queue, h.vouched, h.exact, h.mirrored,
    by simp [Unconfirmed]⟩

/-- The genesis block on an empty ledger, if it passes `checkBlock`. -/
theorem Sync.genesis_step (h : Sync crypto prune P s [] ∅) {now : Int} (source : String)
    (hg : checkBlock crypto (genesisBlock.id crypto) genesisBlock now = .ok ()) :
    ∃ s', s.step crypto prune (.block genesisBlock now source) = (s', .ok ()) ∧
      Settled crypto prune P Q s' [genesisEntry crypto] {genesisBlock.id crypto} ∧
      s'.blockStore = s.blockStore.store (genesisBlock.id crypto) genesisBlock now ∧
      s'.tipChanges = s.tipChanges ++ [.up source false (genesisEntry crypto)] := by
  have hext : Extends crypto prune [] (genesisEntry crypto) := extends_genesis
  have h₀ := h.setBlockStore (s.blockStore.store (genesisBlock.id crypto) genesisBlock now)
  generalize hs₀ : { s with
    blockStore := s.blockStore.store (genesisBlock.id crypto) genesisBlock now } = s₀ at h₀
  have hstore : s₀.blockStore = s.blockStore.store (genesisBlock.id crypto) genesisBlock now := by
    rw [← hs₀]
  have hready : Ready crypto s₀.blockStore [] (genesisEntry crypto) := by
    refine ⟨hext.toFits, ⟨now, ?_⟩, ?_⟩
    · rw [hstore, BlockStorage.get_store]
      exact if_pos rfl
    · show genesisBlock.coinbaseAmount =
        int64 (blockCreationReward genesisBlock.header.height + genesisBlock.wrappedFees)
      decide
  have hstep : s.step crypto prune (.block genesisBlock now source) =
      s₀.connectBlock crypto prune (genesisEntry crypto).1 (genesisEntry crypto).2 source false := by
    have hunknown (id : BlockID) : s.ledger.getBranchType id = .unknown :=
      (h.describes.getBranchType_eq_unknown id).mpr (Set.notMem_empty id)
    rw [Processor.step, Processor.processBlock, if_neg (not_not.mpr (hunknown _)), hg]
    simp only [hunknown, ne_eq, reduceCtorEq, not_false_eq_true, and_self, if_true]
    rw [← hs₀]
    rfl
  rcases h₀.connectBlock_cases source hready false with
    ⟨-, s', hok, hsync, hst, htips, hfresh⟩ | ⟨hnot, -⟩
  · rw [insert_empty_eq] at hsync
    refine ⟨s', hstep.trans hok, ⟨⟨hsync, .genesis, ?_⟩, ?_, hfresh rfl⟩, hst.trans hstore,
      by rw [htips, ← hs₀]⟩
    · rintro id rfl
      exact ⟨genesisBlock, [], .genesis, hsync.stored, by simp⟩
    · intro t ht id hid hne
      obtain rfl : genesisEntry crypto = t := Option.some.inj ht
      exact absurd hid hne
  · exact absurd hext.toConnects hnot

/-- If the genesis block is processed on an empty ledger, the node is settled on
it. -/
theorem Sync.settled_genesis (h : Sync crypto prune P s [] ∅) {now : Int} {source : String}
    (hok : s.step crypto prune (.block genesisBlock now source) = (s', .ok ())) :
    Settled crypto prune P Q s' [genesisEntry crypto] {genesisBlock.id crypto} ∧
      s'.blockStore = s.blockStore.store (genesisBlock.id crypto) genesisBlock now ∧
      s'.tipChanges = s.tipChanges ++ [.up source false (genesisEntry crypto)] := by
  have hg : checkBlock crypto (genesisBlock.id crypto) genesisBlock now = .ok () := by
    have hunknown : s.ledger.getBranchType (genesisBlock.id crypto) = .unknown :=
      (h.describes.getBranchType_eq_unknown _).mpr (Set.notMem_empty _)
    rw [Processor.step, Processor.processBlock, if_neg (not_not.mpr hunknown)] at hok
    cases hchk : checkBlock crypto (genesisBlock.id crypto) genesisBlock now with
    | error e =>
      rw [hchk] at hok
      exact absurd (congrArg Prod.snd hok) (by simp)
    | ok u => rfl
  obtain ⟨s'', hok', hs'', hstore⟩ := h.genesis_step (Q := Q) source hg
  obtain rfl : s'' = s' := congrArg Prod.fst (hok'.symm.trans hok)
  exact ⟨hs'', hstore⟩

/-- The genesis block on empty databases, if it passes `checkBlock`. -/
theorem genesis_step {now : Int} (source : String)
    (hg : checkBlock crypto (genesisBlock.id crypto) genesisBlock now = .ok ()) :
    ∃ s, Processor.new.step crypto prune (.block genesisBlock now source) = (s, .ok ()) ∧
      Settled crypto prune P Q s [genesisEntry crypto] {genesisBlock.id crypto} ∧
      s.blockStore = BlockStorage.store ∅ (genesisBlock.id crypto) genesisBlock now ∧
      s.tipChanges = [.up source false (genesisEntry crypto)] :=
  sync_new.genesis_step source hg

theorem settled_genesis {now : Int} {source : String}
    (h : Processor.new.step crypto prune (.block genesisBlock now source) = (s, .ok ())) :
    Settled crypto prune P Q s [genesisEntry crypto] {genesisBlock.id crypto} ∧
      s.blockStore = BlockStorage.store ∅ (genesisBlock.id crypto) genesisBlock now ∧
      s.tipChanges = [.up source false (genesisEntry crypto)] :=
  sync_new.settled_genesis h

/-- **Every run is settled.** -/
theorem Run.settled (hA : ∀ call, A call → call.Vouches crypto P) (h : Run crypto prune A s) :
    ∃ c K, Settled crypto prune P (Run crypto prune A) s c K := by
  induction h with
  | genesis now source hok => exact ⟨_, _, (settled_genesis hok).1⟩
  | @call s call hrun hcall ih =>
    obtain ⟨c, K, hs⟩ := ih
    cases call with
    | block b now source => exact (hs.processBlock_cases hrun source (hA _ hcall)).settled hs
    | transaction tx => exact ⟨c, K, (hs.processTransaction_settled (hA _ hcall)).1⟩

/-- A run stays a run when more calls are allowed. -/
theorem Run.mono {A' : Call → Prop} (hA : ∀ call, A call → A' call) (h : Run crypto prune A s) :
    Run crypto prune A' s := by
  induction h with
  | genesis now source hok => exact .genesis now source hok
  | call call _ hcall ih => exact .call call ih (hA call hcall)

theorem vouches_true (call : Call) : call.Vouches crypto fun _ => True := by
  cases call with
  | block b now source => exact fun _ _ _ _ => trivial
  | transaction tx => exact fun _ => trivial

/-- Every reachable state is settled. -/
theorem Reachable.settled (h : Reachable crypto prune s) :
    ∃ c K, Settled crypto prune (fun _ => True) (Reachable crypto prune) s c K :=
  Run.settled (fun call _ => vouches_true call) h

/-- A step stores at most the delivered block, under its ID, if it is sane and
not known. -/
theorem Settled.step_blockStore (h : Settled crypto prune (fun _ => True) Q s c K) (hQ : Q s)
    (call : Call) :
    (s.step crypto prune call).1.blockStore = s.blockStore ∨
      ∃ b now source, call = .block b now source ∧ b.Sane crypto (b.id crypto) now ∧
        b.id crypto ∉ K ∧
        (s.step crypto prune call).1.blockStore = s.blockStore.store (b.id crypto) b now := by
  cases call with
  | transaction tx => exact Or.inl (h.processTransaction_settled (vouches_true _)).2.2.1
  | block b now source =>
    have hout := h.processBlock_cases hQ source (vouches_true (.block b now source))
    generalize (s.step crypto prune (.block b now source)).1 = s',
      (s.step crypto prune (.block b now source)).2 = r at hout ⊢
    cases hout with
    | known _ => exact Or.inl rfl
    | refused _ _ => exact Or.inl rfl
    | judged hd _ hstore _ =>
      exact Or.inr ⟨b, now, source, rfl, checkBlock_ok_iff.mp hd.checked, hd.unknown, hstore⟩

/-- **Stored blocks** are genesis or were delivered and sane, and are filed under
their IDs. -/
theorem Run.stored {R : Block → Prop}
    (hA : ∀ b now source, A (.block b now source) → b.Sane crypto (b.id crypto) now → R b)
    (hg : R genesisBlock) (h : Run crypto prune A s) {id : BlockID} {e : StoredBlock}
    (he : s.blockStore[id]? = some e) : R e.block ∧ e.block.id crypto = id := by
  induction h with
  | genesis now source hok =>
    have hstore := (settled_genesis (P := fun _ => True) (Q := fun _ => True) hok).2.1
    rw [hstore, BlockStorage.get_store] at he
    split_ifs at he with hid
    · obtain rfl := Option.some.inj he
      exact ⟨hg, hid⟩
    · simp at he
  | @call s call hrun hcall ih =>
    obtain ⟨c, K, hs⟩ := Run.settled (fun call _ => vouches_true call) hrun
    rcases hs.step_blockStore hrun call with hstore | ⟨b, now, source, rfl, hsane, -, hstore⟩
    · exact ih (hstore ▸ he)
    · rw [hstore, BlockStorage.get_store] at he
      split_ifs at he with hid
      · obtain rfl := Option.some.inj he
        exact ⟨hA b now source hcall hsane, hid⟩
      · exact ih he

theorem Run.carryOut {calls : List Call} (h : Run crypto prune A s)
    (hA : ∀ call ∈ calls, A call) : Run crypto prune A (s.carryOut crypto prune calls) := by
  induction calls generalizing s with
  | nil => exact h
  | cons call calls ih =>
    exact ih (.call call h (hA call List.mem_cons_self)) fun c hc => hA c (List.mem_cons_of_mem _ hc)

theorem carryOut_append (s : Processor) (calls : List Call) (call : Call) :
    s.carryOut crypto prune (calls ++ [call]) =
      ((s.carryOut crypto prune calls).step crypto prune call).1 := by
  rw [Processor.carryOut, List.foldl_append]
  rfl

theorem Placed.onChain (h : Placed crypto prune P Q s c K) :
    OnChain crypto prune s.blockStore s.ledger c K :=
  ⟨h.describes, h.valid, h.stored, h.admitted.getLast⟩

end Run

end Cruzbit

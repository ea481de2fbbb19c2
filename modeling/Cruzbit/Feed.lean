/-
Cruzbit/Feed.lean

What reaches the writer loop of a peer (`peer.go`) from the processor.

The loop registers a channel for tip changes and one for new transactions.
The databases it reads in between are those the processor is writing, so
there are two lines of news that may be out of step: what the loop reads may
be ahead of the messages it has taken, and for a moment behind them as well.

`Trail` compares the two along a call: the messages only grow, and a state
that has all of them has the tip, the main chain and the queue of the last.
So once nothing is under way, what the loop reads is what the messages say
(`Feed.Sound.alike`), and the last message it took, if it took any, named the
current tip (`Feed.Sound.tip_of_last`).
-/
import Cruzbit.Deadlock
import Cruzbit.Moves

namespace Cruzbit

open Chain

/-! ### Messages and states along a call -/

/-- The ledger answers every question about a balance. -/
theorem BalanceCache.apply_ne_error (ledger : Ledger) (b b' : BalanceCache) (tx : Transaction)
    (e : Err) : b.apply ledger.getPublicKeyBalance tx ≠ (b', .error e) := by
  have hlookup (b : BalanceCache) (pk : PublicKey) :
      ∃ x, b.lookup ledger.getPublicKeyBalance pk = .ok x := by
    unfold lookup Ledger.getPublicKeyBalance
    split <;> exact ⟨_, rfl⟩
  have hcredit (b : BalanceCache) : b.credit ledger.getPublicKeyBalance tx ≠ (b', .error e) := by
    obtain ⟨x, hx⟩ := hlookup b tx.recipient
    simp [credit, hx]
  obtain ⟨x, hx⟩ := hlookup b tx.sender
  simp only [apply, hx]
  split_ifs
  · exact hcredit b
  · simp
  · simp
  · exact hcredit _

namespace TransactionQueue

theorem removeID_error {q : TransactionQueue} {id : TransactionID} {e : Err}
    (h : q.removeID id = .error e) : e.isPanic = true := by
  unfold removeID at h
  split at h
  · cases h
    rfl
  · cases h

/-- Rebuilding the queue fails only with a panic. -/
theorem reprocess_error {crypto : Crypto} {ledger : Ledger} {height : Int}
    {txs : List Transaction} {q q' : TransactionQueue} {e : Err}
    (h : reprocess crypto ledger.getPublicKeyBalance height txs q = (q', .error e)) :
    e.isPanic = true := by
  induction txs generalizing q with
  | nil => simp [reprocess] at h
  | cons tx txs ih =>
    unfold reprocess at h
    split_ifs at h
    · split at h
      · next herr =>
        cases h
        exact removeID_error herr
      · exact ih h
    · split at h
      · next herr => exact absurd herr (BalanceCache.apply_ne_error _ _ _ _ _)
      · split at h
        · next herr =>
          cases h
          exact removeID_error herr
        · exact ih h
      · exact ih h

theorem removeBatch_error {crypto : Crypto} {ledger : Ledger} {height : Int} {more : Bool}
    {ids : List TransactionID} {q q' : TransactionQueue} {e : Err}
    (h : q.removeBatch crypto ledger.getPublicKeyBalance ids height more = (q', .error e)) :
    e.isPanic = true := by
  unfold removeBatch at h
  dsimp only at h
  split_ifs at h
  · cases h
  · exact reprocess_error h

end TransactionQueue

namespace Processor

/-- Tip, main chain and queue are the same. -/
structure Alike (s s' : Processor) : Prop where
  chainTip : s.ledger.chainTip = s'.ledger.chainTip
  heightIndex : s.ledger.heightIndex = s'.ledger.heightIndex
  txQueue : s.txQueue = s'.txQueue

/-- Along the states passed messages are only added, all with the source of the
call, and a state that has all of them is like the last one. -/
structure Trail (source : String) (s : Processor) (ms : List Processor) (s' : Processor) :
    Prop where
  growing : (s :: ms).Pairwise fun p q => p.tipChanges <+: q.tipChanges
  upTo : ∀ p ∈ s :: ms, p.tipChanges <+: s'.tipChanges
  alike : ∀ p ∈ s :: ms, p.tipChanges = s'.tipChanges → p.Alike s'
  sources : ∀ m ∈ s.sent s', m.source = source

/-- The call did not panic. -/
def Survives (r : Res Unit) : Prop := ∀ e, r = .error e → e.isPanic = false

section Trail

variable {source : String} {s s' s₁ s₂ : Processor} {ms ms' : List Processor}

theorem Alike.rfl : s.Alike s := ⟨Eq.refl _, Eq.refl _, Eq.refl _⟩

theorem Alike.trans (h : s.Alike s₁) (h' : s₁.Alike s₂) : s.Alike s₂ :=
  ⟨h.chainTip.trans h'.chainTip, h.heightIndex.trans h'.heightIndex, h.txQueue.trans h'.txQueue⟩

theorem Trail.nil : Trail source s [] s where
  growing := List.pairwise_singleton _ _
  upTo p hp := by rw [List.mem_singleton.mp hp]
  alike p hp _ := by
    rw [List.mem_singleton.mp hp]
    exact .rfl
  sources := by simp [sent]

/-- What was sent before a later state and after it. -/
theorem sent_append (h : s.tipChanges <+: s₁.tipChanges) (h' : s₁.tipChanges <+: s₂.tipChanges) :
    s.sent s₂ = s.sent s₁ ++ s₁.sent s₂ := by
  obtain ⟨ms, hms⟩ := h
  obtain ⟨ms', hms'⟩ := h'
  simp [sent, ← hms', ← hms]

theorem Trail.append (h : Trail source s ms s₁) (h' : Trail source s₁ ms' s₂) :
    Trail source s (ms ++ ms') s₂ := by
  have hlast : s₁.tipChanges <+: s₂.tipChanges := h'.upTo s₁ List.mem_cons_self
  refine ⟨?_, fun p hp => ?_, fun p hp hall => ?_, fun m hm => ?_⟩
  · rw [← List.cons_append, List.pairwise_append]
    obtain ⟨hfirst, hrest⟩ := List.pairwise_cons.mp h'.growing
    exact ⟨h.growing, hrest, fun p hp q hq => (h.upTo p hp).trans (hfirst q hq)⟩
  · rw [← List.cons_append] at hp
    rcases List.mem_append.mp hp with hp | hp
    · exact (h.upTo p hp).trans hlast
    · exact h'.upTo p (List.mem_cons_of_mem _ hp)
  · rw [← List.cons_append] at hp
    rcases List.mem_append.mp hp with hp | hp
    · -- nothing was sent after the first part
      have hupTo := h.upTo p hp
      have hmid : s₁.tipChanges = s₂.tipChanges :=
        hlast.eq_of_length_le (by rw [← hall]; exact hupTo.length_le)
      exact (h.alike p hp (hall.trans hmid.symm)).trans
        (h'.alike s₁ List.mem_cons_self hmid)
    · exact h'.alike p (List.mem_cons_of_mem _ hp) hall
  · rw [sent_append (h.upTo s List.mem_cons_self) hlast] at hm
    exact (List.mem_append.mp hm).elim (h.sources m) (h'.sources m)

/-- A step without a message that changes neither chain nor queue. -/
theorem Trail.quiet (h : s.Alike s') (hsent : s'.tipChanges = s.tipChanges) :
    Trail source s [s'] s' where
  growing := by simp [hsent]
  upTo p hp := by
    rcases List.mem_cons.mp hp with rfl | hp
    · rw [hsent]
    · rw [List.mem_singleton.mp hp]
  alike p hp _ := by
    rcases List.mem_cons.mp hp with rfl | hp
    · exact h
    · rw [List.mem_singleton.mp hp]
      exact .rfl
  sources := by simp [sent, hsent]

/-- The databases are written in two steps, and then a message is sent. -/
theorem Trail.announced {p : Processor} (hp : p.tipChanges = s.tipChanges) {m : TipChange}
    (hsent : s'.tipChanges = s.tipChanges ++ [m]) (hm : m.source = source) :
    Trail source s [p, s'] s' := by
  have hne : s.tipChanges ≠ s'.tipChanges := by
    rw [hsent]
    exact fun h => absurd (congrArg List.length h) (by simp)
  refine ⟨?_, fun q hq => ?_, fun q hq hall => ?_, ?_⟩
  · simp [hp, hsent]
  · simp only [List.mem_cons, List.not_mem_nil, or_false] at hq
    rcases hq with rfl | rfl | rfl
    · simp [hsent]
    · simp [hp, hsent]
    · exact List.prefix_rfl
  · simp only [List.mem_cons, List.not_mem_nil, or_false] at hq
    rcases hq with rfl | rfl | rfl
    · exact absurd hall hne
    · exact absurd (hp.symm.trans hall) hne
    · exact .rfl
  · simp [sent, hsent, hm]

variable (crypto : Crypto) (prune : Bool)

theorem disconnectBlock_trail (s : Processor) (id : BlockID) (block : Block) (source : String) :
    Trail source s (s.disconnectBlockMoves crypto prune id block source)
      (s.disconnectBlock crypto prune id block source).1 := by
  unfold disconnectBlockMoves disconnectBlock
  dsimp only
  cases s.ledger.disconnectBlock crypto prune s.blockStore id block with
  | error e => exact .quiet ⟨rfl, rfl, rfl⟩ rfl
  | ok r => exact .announced rfl rfl rfl

theorem connectBlock_trail (s : Processor) (id : BlockID) (block : Block) (source : String)
    (more : Bool) (h : Survives (s.connectBlock crypto prune id block source more).2) :
    Trail source s (s.connectBlockMoves crypto prune id block source more)
      (s.connectBlock crypto prune id block source more).1 := by
  unfold connectBlockMoves
  unfold connectBlock at h ⊢
  dsimp only at h ⊢
  generalize s.ledger.connectBlock crypto prune s.blockStore id block = r at h ⊢
  obtain e | ⟨ledger, txIDs⟩ := r
  · exact .quiet ⟨rfl, rfl, rfl⟩ rfl
  · dsimp only at h ⊢
    generalize hq : s.txQueue.removeBatch crypto ledger.getPublicKeyBalance txIDs.tail
      block.header.height more = q at h ⊢
    obtain ⟨q, e | _⟩ := q
    · exact absurd (h e rfl) (by simp [TransactionQueue.removeBatch_error hq])
    · exact .announced rfl rfl rfl

theorem disconnectBlocks_trail (s : Processor) (source : String) (ids : List BlockID) :
    Trail source s (s.disconnectBlocksMoves crypto prune source ids)
      (s.disconnectBlocks crypto prune source ids).1 := by
  induction ids generalizing s with
  | nil => exact .nil
  | cons id ids ih =>
    unfold disconnectBlocksMoves disconnectBlocks
    cases s.blockStore.getBlock id with
    | error e => exact .nil
    | ok block =>
      have hfirst := disconnectBlock_trail crypto prune s id block source
      dsimp only
      generalize s.disconnectBlock crypto prune id block source = r at hfirst ⊢
      obtain ⟨s₁, e | _⟩ := r
      · exact hfirst.append .nil
      · exact hfirst.append (ih s₁)

theorem connectBlocks_trail (s : Processor) (source : String) (ids : List BlockID)
    (h : Survives (s.connectBlocks crypto prune source ids).2) :
    Trail source s (s.connectBlocksMoves crypto prune source ids)
      (s.connectBlocks crypto prune source ids).1 := by
  induction ids generalizing s with
  | nil => exact .nil
  | cons id ids ih =>
    unfold connectBlocksMoves
    unfold connectBlocks at h ⊢
    generalize s.blockStore.getBlock id = block at h ⊢
    obtain e | block := block
    · exact .nil
    · have hfirst := connectBlock_trail crypto prune s id block source true
      dsimp only at h ⊢
      generalize s.connectBlock crypto prune id block source true = r at h hfirst ⊢
      obtain ⟨s₁, e | _⟩ := r
      · exact (hfirst h).append .nil
      · exact (hfirst (fun _ he => by cases he)).append (ih s₁ h)

theorem acceptBlockContinue_trail (s : Processor) (id : BlockID) (block : Block) (blockWhen : Int)
    (prevHeader : Option BlockHeader) (source : String)
    (h : Survives (s.acceptBlockContinue crypto prune id block blockWhen prevHeader source).2) :
    Trail source s (s.acceptBlockContinueMoves crypto prune id block blockWhen prevHeader source)
      (s.acceptBlockContinue crypto prune id block blockWhen prevHeader source).1 := by
  unfold acceptBlockContinueMoves
  unfold acceptBlockContinue at h ⊢
  generalize s.getChainTipHeader = tip at h ⊢
  obtain e | tip := tip
  · exact .nil
  · dsimp only at h ⊢
    split_ifs at h ⊢
    · exact .nil
    · exact .quiet ⟨rfl, rfl, rfl⟩ rfl
    · cases prevHeader with
      | none => exact .nil
      | some prevHeader =>
        dsimp only at h ⊢
        generalize findFork s.blockStore tip.1 tip.2.1 block.header.previous prevHeader = fork
          at h ⊢
        obtain e | ⟨tips, news⟩ := fork
        · exact .nil
        · dsimp only at h ⊢
          have hdown := disconnectBlocks_trail crypto prune s source tips
          generalize s.disconnectBlocks crypto prune source tips = r at h hdown ⊢
          obtain ⟨s₁, e | _⟩ := r
          · exact hdown.append .nil
          · refine hdown.append ?_
            dsimp only at h ⊢
            have hup := connectBlocks_trail crypto prune s₁ source news
            generalize s₁.connectBlocks crypto prune source news = r at h hup ⊢
            obtain ⟨s₂, e | _⟩ := r
            · exact (hup h).append .nil
            · exact (hup (fun _ he => by cases he)).append
                (connectBlock_trail crypto prune s₂ id block source false h)

theorem reconnectTip_trail (s : Processor) (id : BlockID) (source : String)
    (h : Survives (s.reconnectTip crypto prune id source).2) :
    Trail source s (s.reconnectTipMoves crypto prune id source)
      (s.reconnectTip crypto prune id source).1 := by
  unfold reconnectTipMoves
  unfold reconnectTip at h ⊢
  generalize s.blockStore.getBlock id = block at h ⊢
  obtain e | block := block
  · exact .nil
  · exact acceptBlockContinue_trail crypto prune s id block _ _ source h

theorem acceptCheckedBlock_trail (s : Processor) (id : BlockID) (block : Block) (now : Int)
    (prevHeader : BlockHeader) (source : String)
    (h : Survives (s.acceptCheckedBlock crypto prune id block now prevHeader source).2) :
    Trail source s (s.acceptCheckedBlockMoves crypto prune id block now prevHeader source)
      (s.acceptCheckedBlock crypto prune id block now prevHeader source).1 := by
  have hstore : Trail source s [{ s with blockStore := s.blockStore.store id block now }]
      { s with blockStore := s.blockStore.store id block now } := .quiet ⟨rfl, rfl, rfl⟩ rfl
  unfold acceptCheckedBlockMoves
  unfold acceptCheckedBlock at h ⊢
  dsimp only at h ⊢
  refine hstore.append ?_
  have hfirst := acceptBlockContinue_trail crypto prune
    { s with blockStore := s.blockStore.store id block now } id block now (some prevHeader) source
  generalize acceptBlockContinue crypto prune
    { s with blockStore := s.blockStore.store id block now } id block now (some prevHeader) source =
      r at h hfirst ⊢
  obtain ⟨s₁, e | _⟩ := r
  · dsimp only at h hfirst ⊢
    split_ifs at h ⊢ with hpanic
    · exact (hfirst h).append .nil
    · have hfirst' := hfirst fun e' he' => by
        obtain rfl := Except.error.inj he'
        exact Bool.eq_false_iff.mpr hpanic
      generalize s.ledger.chainTip.map Prod.fst = tip at h ⊢
      obtain - | tipID := tip
      · exact hfirst'.append .nil
      · dsimp only at h ⊢
        have hback := reconnectTip_trail crypto prune s₁ tipID source
        generalize s₁.reconnectTip crypto prune tipID source = r at h hback ⊢
        obtain ⟨s₂, e' | _⟩ := r
        · refine hfirst'.append (hback fun e'' he'' => ?_)
          obtain rfl := Except.error.inj he''
          by_contra hpanic'
          have := h e' (by simp [Bool.not_eq_false _ ▸ hpanic'])
          exact hpanic' this
        · exact hfirst'.append (hback fun _ he => by cases he)
  · exact (hfirst fun _ he => by cases he).append .nil

end Trail

end Processor

section Settled

variable {crypto : Crypto} {prune : Bool} {P : Transaction → Prop} {Q : Processor → Prop}
  {s s' : Processor} {c d : Chain} {K : Set BlockID} {b : Block} {now : Int} {source : String}

theorem Outcome.survives {r : Res Unit} (h : Outcome crypto prune P Q source s c K b now s' r)
    (hd : Passes crypto P Q s K b now d) : Processor.Survives r := by
  cases h with
  | known hid => exact absurd hid hd.unknown
  | refused _ hnot => exact absurd hd (hnot d)
  | judged _ _ _ hv =>
    cases hv with
    | side _ _ => exact fun _ he => by cases he
    | moved _ _ => exact fun _ he => by cases he
    | rejected _ hpanic _ _ _ =>
      intro e he
      obtain rfl := Except.error.inj he
      exact hpanic

theorem Settled.acceptBlock_trail (h : Settled crypto prune P Q s c K) (hQ : Q s)
    (source : String) (hP : (Call.block b now source).Vouches crypto P) (hid : b.id crypto ∉ K)
    (hchk : checkBlock crypto (b.id crypto) b now = .ok ()) (hprev : b.header.previous ∈ K) :
    Processor.Trail source s (s.acceptBlockMoves crypto prune (b.id crypto) b now source)
      (s.acceptBlock crypto prune (b.id crypto) b now source).1 := by
  have hout := h.acceptBlock_cases hQ source hP hid hchk hprev
  obtain ⟨p, d, hadm, hst, hd⟩ := h.tree _ hprev
  obtain ⟨storedAt, hp⟩ := hst _ List.mem_cons_self
  have hderef : s.blockStore.derefHeader b.header.previous = .ok p.header := by
    simp [BlockStorage.derefHeader, BlockStorage.getBlockHeader, hp]
  unfold Processor.acceptBlockMoves
  simp only [Processor.acceptBlock, hderef] at hout ⊢
  by_cases hheight : b.header.height = p.header.height + 1
  swap
  · rw [if_pos hheight, if_pos hheight]
    exact .nil
  have hunknown := not_not.mpr ((h.describes.getBranchType_eq_unknown _).mpr hid)
  rw [if_neg (not_not.mpr hheight), if_neg hunknown] at hout ⊢
  rw [if_neg (not_not.mpr hheight), if_neg hunknown]
  cases hchecks : acceptBlockChecks crypto s.txQueue s.blockStore s.ledger (b.id crypto) b
      p.header with
  | error e => exact .nil
  | ok =>
    rw [hchecks] at hout
    have hpasses : Passes crypto P Q s K b now ((b.header.previous, p) :: d) :=
      ⟨hid, hchk, hadm, hst, List.forall_mem_cons.mpr ⟨hprev, hd⟩, _, rfl, rfl, hheight, hchecks⟩
    exact Processor.acceptCheckedBlock_trail crypto prune s _ b now p.header source
      (hout.survives hpasses)

/-- **Along a call** of a settled processor. -/
theorem Settled.blockMoves_trail (h : Settled crypto prune P Q s c K) (hQ : Q s) (source : String)
    (hP : (Call.block b now source).Vouches crypto P) :
    Processor.Trail source s (s.blockMoves crypto prune b now source)
      (s.step crypto prune (.block b now source)).1 := by
  have hunknown := h.describes.getBranchType_eq_unknown (b.id crypto)
  have hknown := h.describes.known_iff b.header.previous
  simp only [Processor.step, Processor.processBlock, Processor.blockMoves,
    Processor.processBlockMoves]
  by_cases hid : b.id crypto ∈ K
  · rw [if_pos (hunknown.not.mpr (not_not.mpr hid)), if_pos (hunknown.not.mpr (not_not.mpr hid))]
    exact .nil
  rw [if_neg (not_not.mpr (hunknown.mpr hid)), if_neg (not_not.mpr (hunknown.mpr hid))]
  cases hchk : checkBlock crypto (b.id crypto) b now with
  | error e => exact .nil
  | ok =>
    dsimp only
    by_cases hprev : b.header.previous ∈ K
    · have hparent : ¬ (s.ledger.getBranchType b.header.previous ≠ .main ∧
          s.ledger.getBranchType b.header.previous ≠ .side) := by
        rw [not_and_or, not_not, not_not]
        exact hknown.mpr hprev
      rw [if_neg hparent, if_neg hparent]
      exact h.acceptBlock_trail hQ source hP hid hchk hprev
    · have hparent : s.ledger.getBranchType b.header.previous ≠ .main ∧
          s.ledger.getBranchType b.header.previous ≠ .side := by
        rw [← not_or]
        exact hknown.not.mpr hprev
      have hgenesis : b.id crypto ≠ genesisBlock.id crypto := by
        intro heq
        rw [heq] at hid
        exact hid h.genesis_mem
      rw [if_pos hparent, if_pos hparent, if_neg hgenesis, if_neg hgenesis]
      exact .nil

end Settled

/-! ### The channels of a peer -/

/-- The processor and the channels of one peer.  While the processor works on
a block, `rest` are the states it has still to pass. -/
structure Feed where
  /-- The processor after the call. -/
  processor : Processor
  /-- What the peer's loops can read now. -/
  view : Processor
  rest : List Processor
  /-- What the processor sends next. -/
  outbox : List Notice
  tipChangeChan : List TipChange
  newTxChan : List NewTx

/-- What the processor does. -/
inductive FeedStep
  /-- The processor takes up a block. -/
  | block (b : Block) (now : Int) (source : String)
  /-- The processor takes up a transaction and queues it or not. -/
  | transaction (tx : Transaction) (source : String)
  /-- The processor goes on with its block. -/
  | move
  /-- The processor sends a message to the peer's loop. -/
  | notify

namespace Feed

section Step

variable (crypto : Crypto) (prune : Bool)

def step (f : Feed) : FeedStep → Option Feed
  | .block b now source =>
    match f.rest, f.outbox with
    | [], [] =>
      some
        { f with
          processor := (f.processor.step crypto prune (.block b now source)).1
          rest := f.processor.blockMoves crypto prune b now source }
    | _, _ => none
  | .transaction tx source =>
    match f.rest, f.outbox with
    | [], [] =>
      let processor := (f.processor.step crypto prune (.transaction tx)).1
      some
        { f with
          processor := processor
          view := processor
          outbox := (Live.newTx crypto f.processor processor tx source).toList.map .newTx }
    | _, _ => none
  | .move =>
    match f.rest, f.outbox with
    | p :: ps, [] =>
      some { f with view := p, rest := ps, outbox := (f.view.sent p).map .tipChange }
    | _, _ => none
  | .notify =>
    match f.outbox with
    | .tipChange m :: ms =>
      if f.tipChangeChan.length < ListenerKind.peer.capacity .tipChange then
        some { f with outbox := ms, tipChangeChan := f.tipChangeChan ++ [m] }
      else none
    | .newTx m :: ms =>
      if f.newTxChan.length < ListenerKind.peer.capacity .newTx then
        some { f with outbox := ms, newTxChan := f.newTxChan ++ [m] }
      else none
    | [] => none

/-- The peer has registered, the processor has been running. -/
def Start (A : Call → Prop) (f : Feed) : Prop :=
  Run crypto prune A f.processor ∧ f = ⟨f.processor, f.processor, [], [], [], []⟩

/-- Blocks and transactions meet the condition on calls. -/
def Meets (A : Call → Prop) : FeedStep → Prop
  | .block b now source => A (.block b now source)
  | .transaction tx _ => A (.transaction tx)
  | _ => True

end Step

/-- The messages about tips in the outbox. -/
def outboxTips (f : Feed) : List TipChange :=
  f.outbox.filterMap fun
    | .tipChange m => some m
    | .newTx _ => none

/-- The messages about tips that the loop has not taken yet, those that are
still to be sent in the current call included. -/
def underWay (f : Feed) : List TipChange :=
  f.tipChangeChan ++ f.outboxTips ++ f.view.sent f.processor

/-- The messages about tips up to the last one the loop has taken. -/
def taken (f : Feed) : List TipChange :=
  f.processor.tipChanges.take (f.processor.tipChanges.length - f.underWay.length)

/-- What holds of the processor and the messages under way. -/
structure Sound (crypto : Crypto) (prune : Bool) (A : Call → Prop) (f : Feed) : Prop where
  run : Run crypto prune A f.processor
  last : f.rest.getLastD f.view = f.processor
  trail : ∃ source, Processor.Trail source f.view f.rest f.processor
  stored : ∀ p ∈ f.view :: f.rest, p.tipChanges = f.processor.tipChanges →
    Stored p.blockStore f.processor.mainChain
  suffix : f.underWay <:+ f.processor.tipChanges
  /-- After the last message the loop has a tip to build on. -/
  concluded : ∀ m ∈ f.underWay.getLast?, m.connect = true ∧ m.more = false

section Sound

variable {crypto : Crypto} {prune : Bool} {A : Call → Prop} {f f' : Feed} {l : FeedStep}

theorem taken_eq {done : List TipChange} (h : f.processor.tipChanges = done ++ f.underWay) :
    f.taken = done := by
  rw [taken, h, List.length_append, Nat.add_sub_cancel, List.take_left]

theorem Sound.tipChanges_eq (h : f.Sound crypto prune A) :
    f.processor.tipChanges = f.taken ++ f.underWay := by
  obtain ⟨done, hdone⟩ := h.suffix
  rw [taken_eq hdone.symm, hdone]

theorem Sound.reachable (h : f.Sound crypto prune A) : Reachable crypto prune f.processor :=
  h.run.mono fun _ _ => trivial

/-- Between two calls others see the processor itself. -/
theorem Sound.view_eq (h : f.Sound crypto prune A) (hrest : f.rest = []) :
    f.view = f.processor := by
  have hlast := h.last
  rwa [hrest] at hlast

/-- **Nothing under way**: what the loop reads is like the processor. -/
theorem Sound.alike (h : f.Sound crypto prune A) (hquiet : f.underWay = []) :
    f.view.Alike f.processor ∧ Stored f.view.blockStore f.processor.mainChain := by
  obtain ⟨source, htrail⟩ := h.trail
  have hsame : f.view.tipChanges = f.processor.tipChanges := by
    have hsent : f.view.sent f.processor = [] := (List.append_eq_nil_iff.mp hquiet).2
    rw [Processor.sent, List.drop_eq_nil_iff] at hsent
    exact (htrail.upTo f.view List.mem_cons_self).eq_of_length_le hsent
  exact ⟨htrail.alike f.view List.mem_cons_self hsame, h.stored f.view List.mem_cons_self hsame⟩

/-- What was taken leads to some chain, and what is under way on to the main
chain. -/
theorem Sound.leads (h : f.Sound crypto prune A) :
    ∃ c, Leads [] f.taken c ∧ Leads c f.underWay f.processor.mainChain := by
  have hall := h.reachable.mirrored
  rw [h.tipChanges_eq, Leads, List.foldlM_append] at hall
  obtain ⟨c, hc, hrest⟩ := Option.bind_eq_some_iff.mp hall
  exact ⟨c, hc, hrest⟩

theorem Start.sound (h : Start crypto prune A f) : f.Sound crypto prune A := by
  obtain ⟨hrun, hf⟩ := h
  have hnothing : f.underWay = [] := by
    rw [hf]
    simp [underWay, outboxTips, Processor.sent]
  have hreachable : Reachable crypto prune f.processor := hrun.mono fun _ _ => trivial
  obtain ⟨c, K, hs⟩ := hreachable.settled
  refine ⟨hrun, ?_, ?_, ?_, ?_, ?_⟩
  · rw [hf]
    rfl
  · rw [hf]
    exact ⟨"", .nil⟩
  · rw [hf]
    intro p hp _
    rw [List.mem_singleton.mp hp, hs.mainChain_eq]
    exact hs.stored
  · rw [hnothing]
    exact List.nil_suffix
  · rw [hnothing]
    simp

/-- What a step that leaves the processor alone may do. -/
theorem Sound.of_eq (h : f.Sound crypto prune A) (hprocessor : f'.processor = f.processor)
    (hview : f'.view = f.view) (hrest : f'.rest = f.rest)
    (hunder : f'.underWay <:+ f.underWay) : f'.Sound crypto prune A := by
  refine ⟨by rw [hprocessor]; exact h.run, by rw [hprocessor, hview, hrest]; exact h.last,
    by rw [hprocessor, hview, hrest]; exact h.trail,
    by rw [hprocessor, hview, hrest]; exact h.stored,
    by rw [hprocessor]; exact hunder.trans h.suffix, fun m hm => h.concluded m ?_⟩
  obtain ⟨done, hdone⟩ := hunder
  rw [← hdone, List.getLast?_append_of_ne_nil]
  · exact hm
  · rintro hnil
    rw [hnil] at hm
    exact absurd hm (by simp)

/-- All states of a call that have its messages have the blocks of its chain. -/
theorem stored_of_tipChanges_eq {s p : Processor} (h : Reachable crypto prune s) {b : Block}
    {now : Int} {source : String} (hp : p ∈ s :: s.blockMoves crypto prune b now source)
    (hsent : p.tipChanges = (s.step crypto prune (.block b now source)).1.tipChanges) :
    Stored p.blockStore (s.step crypto prune (.block b now source)).1.mainChain := by
  have hnext : Reachable crypto prune (s.step crypto prune (.block b now source)).1 :=
    .call _ h trivial
  obtain ⟨c, K, hsettled⟩ := h.settled
  obtain ⟨c', K', hsettled'⟩ := hnext.settled
  rw [hsettled'.mainChain_eq]
  obtain ⟨hlast, hmoves⟩ := Processor.blockMoves_spec crypto prune s b now source
  rcases List.mem_cons.mp hp with rfl | hp
  · -- without a message the chain is the old one
    have hleads := hsettled.mirrored
    rw [hsent] at hleads
    obtain rfl : c = c' := Option.some.inj (hleads.symm.trans hsettled'.mirrored)
    exact hsettled.stored
  · have hfinal : (s.step crypto prune (.block b now source)).1 ∈
        s.blockMoves crypto prune b now source := by
      rw [← hlast, List.getLastD_eq_getLast?,
        List.getLast?_eq_some_getLast (List.ne_nil_of_mem hp), Option.getD_some]
      exact List.getLast_mem _
    rw [(hmoves p hp).2, ← (hmoves _ hfinal).2]
    exact hsettled'.stored

/-- The processor takes up a block: its messages come behind the others. -/
theorem Sound.block (h : f.Sound crypto prune A) {b : Block} {now : Int} {source : String}
    (hA : A (.block b now source)) (hs : f.step crypto prune (.block b now source) = some f') :
    f'.Sound crypto prune A ∧ f'.taken = f.taken ∧
      f'.underWay = f.underWay ++ f.processor.sent f'.processor ∧
      ∀ m ∈ f.processor.sent f'.processor, m.source = source := by
  simp only [step] at hs
  split at hs
  swap
  · cases hs
  next hrest houtbox =>
  obtain ⟨c, K, hsettled⟩ := h.reachable.settled
  obtain ⟨t, c', K', hsettled', hannounced⟩ :=
    hsettled.step_announced h.reachable (vouches_true (.block b now source))
  obtain ⟨hlast, -⟩ := Processor.blockMoves_spec crypto prune f.processor b now source
  have hstored : ∀ p ∈ f.processor :: f.processor.blockMoves crypto prune b now source,
      p.tipChanges = (f.processor.step crypto prune (.block b now source)).1.tipChanges →
      Stored p.blockStore (f.processor.step crypto prune (.block b now source)).1.mainChain :=
    fun p hp hsent => stored_of_tipChanges_eq h.reachable hp hsent
  have htrail := hsettled.blockMoves_trail h.reachable source (vouches_true (.block b now source))
  have hrun : Run crypto prune A (f.processor.step crypto prune (.block b now source)).1 :=
    .call _ h.run hA
  have hview := h.view_eq hrest
  generalize (f.processor.step crypto prune (.block b now source)).1 = s' at *
  generalize f.processor.blockMoves crypto prune b now source = ms at *
  obtain rfl := Option.some.inj hs
  have hunder : ({ f with processor := s', rest := ms } : Feed).underWay =
      f.underWay ++ f.processor.sent s' := by
    simp [underWay, outboxTips, houtbox, hview, Processor.sent]
  have hall : s'.tipChanges = f.taken ++ (f.underWay ++ f.processor.sent s') := by
    rw [hannounced.tipChanges_eq, h.tipChanges_eq, List.append_assoc]
  refine ⟨⟨hrun, ?_, ?_, ?_, ?_, ?_⟩, taken_eq (hall.trans (by rw [hunder])), hunder,
    htrail.sources⟩
  · show ms.getLastD f.view = _
    rw [hview]
    exact hlast
  · show ∃ source, Processor.Trail source f.view _ _
    rw [hview]
    exact ⟨source, htrail⟩
  · show ∀ p ∈ f.view :: ms, _
    rw [hview]
    exact hstored
  · rw [hunder]
    exact ⟨f.taken, hall.symm⟩
  · rw [hunder]
    intro m hm
    rcases hannounced.concludes hsettled' with hnone | ⟨quiet, last, hsent, hlast, -, -⟩
    · rw [hnone, List.append_nil] at hm
      exact h.concluded m hm
    · rw [hsent, ← List.append_assoc, List.getLast?_append_cons, List.getLast?_singleton] at hm
      obtain rfl := Option.some.inj hm
      exact hlast

/-- A transaction is queued or not, and nothing happens to the chain. -/
theorem Sound.transaction (h : f.Sound crypto prune A) {tx : Transaction} {source : String}
    (hA : A (.transaction tx)) (hs : f.step crypto prune (.transaction tx source) = some f') :
    f'.Sound crypto prune A ∧ f'.taken = f.taken ∧ f'.underWay = f.underWay := by
  simp only [step] at hs
  split at hs
  swap
  · cases hs
  next hrest houtbox =>
  obtain rfl := Option.some.inj hs
  have hview := h.view_eq hrest
  have hrun : Run crypto prune A (f.processor.step crypto prune (.transaction tx)).1 :=
    .call _ h.run hA
  obtain ⟨c, K, hsettled⟩ := h.reachable.settled
  obtain ⟨hsettled', -, -, htips⟩ :=
    hsettled.processTransaction_settled (vouches_true (.transaction tx))
  have hnoTips (o : Option NewTx) : (o.toList.map Notice.newTx).filterMap (fun
      | .tipChange m => some m
      | .newTx _ => none) = ([] : List TipChange) := by
    cases o <;> rfl
  have hunder : ({ f with
      processor := (f.processor.step crypto prune (.transaction tx)).1
      view := (f.processor.step crypto prune (.transaction tx)).1
      outbox := (Live.newTx crypto f.processor
        (f.processor.step crypto prune (.transaction tx)).1 tx source).toList.map .newTx } :
      Feed).underWay = f.underWay := by
    simp only [underWay, outboxTips, hnoTips, houtbox, hview]
    simp [Processor.sent]
  have hall : (f.processor.step crypto prune (.transaction tx)).1.tipChanges =
      f.taken ++ f.underWay := htips.trans h.tipChanges_eq
  refine ⟨⟨hrun, ?_, ?_, ?_, ?_, ?_⟩, taken_eq (hall.trans (by rw [hunder])), hunder⟩
  · show f.rest.getLastD _ = _
    rw [hrest]
    rfl
  · show ∃ source, Processor.Trail source _ f.rest _
    rw [hrest]
    exact ⟨source, .nil⟩
  · show ∀ p ∈ _ :: f.rest, _
    rw [hrest]
    intro p hp _
    rw [List.mem_singleton.mp hp, hsettled'.mainChain_eq]
    exact hsettled'.stored
  · rw [hunder]
    exact ⟨f.taken, hall.symm⟩
  · rw [hunder]
    exact h.concluded

/-- The messages of a move are taken from those still to be sent. -/
theorem Sound.move (h : f.Sound crypto prune A) (hs : f.step crypto prune .move = some f') :
    f'.Sound crypto prune A ∧ f'.taken = f.taken ∧ f'.underWay = f.underWay := by
  simp only [step] at hs
  split at hs
  swap
  · cases hs
  next p ps hrest houtbox =>
  obtain rfl := Option.some.inj hs
  obtain ⟨source, htrail⟩ := h.trail
  rw [hrest] at htrail
  obtain ⟨hfirst, hgrowing⟩ := List.pairwise_cons.mp htrail.growing
  have hunder : ({ f with
      view := p, rest := ps, outbox := (f.view.sent p).map .tipChange } : Feed).underWay =
      f.underWay := by
    have htips (ms : List TipChange) : (ms.map Notice.tipChange).filterMap (fun
        | .tipChange m => some m
        | .newTx _ => none) = ms := by
      induction ms with
      | nil => rfl
      | cons m ms ih => rw [List.map_cons, List.filterMap_cons, ih]
    simp only [underWay, outboxTips, htips, houtbox, List.append_assoc, List.filterMap_nil,
      List.nil_append]
    rw [Processor.sent_append (hfirst p List.mem_cons_self) (htrail.upTo p (by simp))]
  have hlast := h.last
  rw [hrest, List.getLastD_cons] at hlast
  have hall : f.processor.tipChanges = f.taken ++ f.underWay := h.tipChanges_eq
  have hsources : ∀ m ∈ p.sent f.processor, m.source = source := by
    intro m hm
    refine htrail.sources m ?_
    rw [Processor.sent_append (hfirst p List.mem_cons_self) (htrail.upTo p (by simp))]
    exact List.mem_append_right _ hm
  refine ⟨⟨h.run, hlast, ⟨source, hgrowing, fun q hq => ?_, fun q hq => ?_, hsources⟩,
    fun q hq => ?_, ?_, ?_⟩, taken_eq (hall.trans (by rw [hunder])), hunder⟩
  · exact htrail.upTo q (List.mem_cons_of_mem _ hq)
  · exact htrail.alike q (List.mem_cons_of_mem _ hq)
  · refine h.stored q ?_
    rw [hrest]
    exact List.mem_cons_of_mem _ hq
  · rw [hunder]
    exact h.suffix
  · rw [hunder]
    exact h.concluded

/-- A message stays under way when it is put into its channel. -/
theorem Sound.notify (h : f.Sound crypto prune A) (hs : f.step crypto prune .notify = some f') :
    f'.Sound crypto prune A ∧ f'.taken = f.taken ∧ f'.underWay = f.underWay ∧
      f'.processor = f.processor := by
  have hmain : f'.processor = f.processor ∧ f'.view = f.view ∧ f'.rest = f.rest ∧
      f'.underWay = f.underWay := by
    simp only [step] at hs
    split at hs
    · next m ms houtbox =>
      split_ifs at hs
      obtain rfl := Option.some.inj hs
      exact ⟨rfl, rfl, rfl, by simp [underWay, outboxTips, houtbox]⟩
    · next m ms houtbox =>
      split_ifs at hs
      obtain rfl := Option.some.inj hs
      exact ⟨rfl, rfl, rfl, by simp [underWay, outboxTips, houtbox]⟩
    · cases hs
  obtain ⟨hprocessor, hview, hrest, hunder⟩ := hmain
  refine ⟨h.of_eq hprocessor hview hrest (by rw [hunder]), ?_, hunder, hprocessor⟩
  rw [taken, taken, hprocessor, hunder]

/-- **One step of the processor.** -/
theorem Sound.step (h : f.Sound crypto prune A) (hl : Meets A l)
    (hs : f.step crypto prune l = some f') :
    f'.Sound crypto prune A ∧ f'.taken = f.taken ∧ f.underWay <+: f'.underWay := by
  cases l with
  | block b now source =>
    obtain ⟨h', htaken, hunder, -⟩ := h.block hl hs
    exact ⟨h', htaken, hunder ▸ List.prefix_append _ _⟩
  | transaction tx source =>
    obtain ⟨h', htaken, hunder⟩ := h.transaction hl hs
    exact ⟨h', htaken, by rw [hunder]⟩
  | move =>
    obtain ⟨h', htaken, hunder⟩ := h.move hs
    exact ⟨h', htaken, by rw [hunder]⟩
  | notify =>
    obtain ⟨h', htaken, hunder, -⟩ := h.notify hs
    exact ⟨h', htaken, by rw [hunder]⟩

/-- **The loop takes a message about a tip.** -/
theorem Sound.takeTip (h : f.Sound crypto prune A) {m : TipChange} {ms : List TipChange}
    (hchan : f.tipChangeChan = m :: ms) :
    ({ f with tipChangeChan := ms } : Feed).Sound crypto prune A ∧
      ({ f with tipChangeChan := ms } : Feed).taken = f.taken ++ [m] ∧
      f.underWay = m :: ({ f with tipChangeChan := ms } : Feed).underWay := by
  have hunder : f.underWay = m :: ({ f with tipChangeChan := ms } : Feed).underWay := by
    simp [underWay, outboxTips, hchan]
  refine ⟨h.of_eq rfl rfl rfl ?_, taken_eq ?_, hunder⟩
  · rw [hunder]
    exact List.suffix_cons _ _
  · rw [List.append_assoc, List.singleton_append, ← hunder]
    exact h.tipChanges_eq

/-- **The last message** about a tip names it. -/
theorem Sound.tip_of_last (h : f.Sound crypto prune A) {m : TipChange} {ms : List TipChange}
    (htaken : f.taken = ms ++ [m]) (hm : m.connect = true) (hquiet : f.underWay = []) :
    f.processor.mainChain.head? = some (m.blockID, m.block) := by
  obtain ⟨c, hc, hrest⟩ := h.leads
  rw [hquiet] at hrest
  obtain rfl : c = f.processor.mainChain := Option.some.inj hrest
  rw [htaken, Leads, List.foldlM_append] at hc
  obtain ⟨d, -, hd⟩ := Option.bind_eq_some_iff.mp hc
  rw [List.foldlM_cons] at hd
  obtain ⟨d', hd', hnil⟩ := Option.bind_eq_some_iff.mp hd
  obtain rfl := Option.some.inj hnil
  unfold TipChange.replay at hd'
  rw [if_pos hm] at hd'
  split_ifs at hd'
  rw [← Option.some.inj hd']
  rfl

end Sound

end Feed

end Cruzbit

/-
Cruzbit/Moves.lean

What others see while the processor works on a block.

The miner and the peers read block storage, ledger and transaction queue
while the processor's goroutine writes them, one after the other.  Beside
every function that moves the tip stands the list of the states it passes,
down to the point between a ledger batch and the update of the queue that
follows it.

`Leg` says that such a list ends in the function's result and touches no
stored block; legs compose.  For a whole call (`blockMoves_spec`), the block
itself is the only one stored, and only if it was not known.
-/
import Cruzbit.Run

namespace Cruzbit

namespace Processor

variable (crypto : Crypto) (prune : Bool)

/-! ### The states passed -/

/-- The ledger is written first, then the queue. -/
def disconnectBlockMoves (s : Processor) (id : BlockID) (block : Block) (source : String) :
    List Processor :=
  let final := (s.disconnectBlock crypto prune id block source).1
  match s.ledger.disconnectBlock crypto prune s.blockStore id block with
  | .error _ => [final]
  | .ok (ledger, _) => [{ s with ledger := ledger }, final]

def connectBlockMoves (s : Processor) (id : BlockID) (block : Block) (source : String)
    (more : Bool) : List Processor :=
  let final := (s.connectBlock crypto prune id block source more).1
  match s.ledger.connectBlock crypto prune s.blockStore id block with
  | .error _ => [final]
  | .ok (ledger, _) => [{ s with ledger := ledger }, final]

def disconnectBlocksMoves (s : Processor) (source : String) : List BlockID → List Processor
  | [] => []
  | id :: ids =>
    match s.blockStore.getBlock id with
    | .error _ => []
    | .ok block =>
      s.disconnectBlockMoves crypto prune id block source ++
        match s.disconnectBlock crypto prune id block source with
        | (_, .error _) => []
        | (s, .ok ()) => s.disconnectBlocksMoves source ids

def connectBlocksMoves (s : Processor) (source : String) : List BlockID → List Processor
  | [] => []
  | id :: ids =>
    match s.blockStore.getBlock id with
    | .error _ => []
    | .ok block =>
      s.connectBlockMoves crypto prune id block source true ++
        match s.connectBlock crypto prune id block source true with
        | (_, .error _) => []
        | (s, .ok ()) => s.connectBlocksMoves source ids

def acceptBlockContinueMoves (s : Processor) (id : BlockID) (block : Block) (blockWhen : Int)
    (prevHeader : Option BlockHeader) (source : String) : List Processor :=
  match s.getChainTipHeader with
  | .error _ => []
  | .ok (tipID, tipHeader, tipWhen) =>
    if id = tipID then []
    else if block.header.compare crypto tipHeader blockWhen tipWhen = false then
      [{ s with ledger := s.ledger.setBranchType id .side }]
    else
      match prevHeader with
      | none => []
      | some prevHeader =>
        match findFork s.blockStore tipID tipHeader block.header.previous prevHeader with
        | .error _ => []
        | .ok (blocksToDisconnect, blocksToConnect) =>
          s.disconnectBlocksMoves crypto prune source blocksToDisconnect ++
            match s.disconnectBlocks crypto prune source blocksToDisconnect with
            | (_, .error _) => []
            | (s, .ok ()) =>
              s.connectBlocksMoves crypto prune source blocksToConnect ++
                match s.connectBlocks crypto prune source blocksToConnect with
                | (_, .error _) => []
                | (s, .ok ()) => s.connectBlockMoves crypto prune id block source false

def reconnectTipMoves (s : Processor) (id : BlockID) (source : String) : List Processor :=
  match s.blockStore.getBlock id with
  | .error _ => []
  | .ok block =>
    let storedAt := ((s.blockStore.getBlockHeader id).map Prod.snd).getD 0
    let prevHeader := (s.blockStore.getBlockHeader block.header.previous).map Prod.fst
    s.acceptBlockContinueMoves crypto prune id block storedAt prevHeader source

def acceptCheckedBlockMoves (s : Processor) (id : BlockID) (block : Block) (now : Int)
    (prevHeader : BlockHeader) (source : String) : List Processor :=
  let s := { s with blockStore := s.blockStore.store id block now }
  s :: (s.acceptBlockContinueMoves crypto prune id block now (some prevHeader) source ++
    match s.acceptBlockContinue crypto prune id block now (some prevHeader) source with
    | (_, .ok ()) => []
    | (s', .error e) =>
      if e.isPanic = true then []
      else
        match s.ledger.chainTip.map Prod.fst with
        | none => []
        | some tipID => s'.reconnectTipMoves crypto prune tipID source)

def acceptBlockMoves (s : Processor) (id : BlockID) (block : Block) (now : Int)
    (source : String) : List Processor :=
  match s.blockStore.derefHeader block.header.previous with
  | .error _ => []
  | .ok prevHeader =>
    if block.header.height ≠ prevHeader.height + 1 then []
    else if s.ledger.getBranchType id ≠ .unknown then []
    else
      match acceptBlockChecks crypto s.txQueue s.blockStore s.ledger id block prevHeader with
      | .error _ => []
      | .ok () => s.acceptCheckedBlockMoves crypto prune id block now prevHeader source

/-- The states passed while a block is processed. -/
def processBlockMoves (genesisID : BlockID) (s : Processor) (id : BlockID) (block : Block)
    (now : Int) (source : String) : List Processor :=
  if s.ledger.getBranchType id ≠ .unknown then []
  else
    match checkBlock crypto id block now with
    | .error _ => []
    | .ok () =>
      if s.ledger.getBranchType block.header.previous ≠ .main ∧
          s.ledger.getBranchType block.header.previous ≠ .side then
        if id = genesisID then
          let s := { s with blockStore := s.blockStore.store id block now }
          s :: s.connectBlockMoves crypto prune id block source false
        else []
      else s.acceptBlockMoves crypto prune id block now source

/-- The states passed in a call for a block. -/
def blockMoves (s : Processor) (b : Block) (now : Int) (source : String) : List Processor :=
  processBlockMoves crypto prune (genesisBlock.id crypto) s (b.id crypto) b now source

/-! ### Legs -/

variable {s s₁ s₂ : Processor} {ms ms' : List Processor}

/-- The states passed lead from one to the other and leave block storage alone. -/
structure Leg (s : Processor) (ms : List Processor) (s' : Processor) : Prop where
  last : ms.getLastD s = s'
  stored : ∀ p ∈ ms, p.blockStore = s.blockStore

theorem Leg.nil : Leg s [] s := ⟨rfl, fun _ h => absurd h List.not_mem_nil⟩

theorem Leg.blockStore_eq (h : Leg s ms s₁) : s₁.blockStore = s.blockStore := by
  rw [← h.last]
  rcases List.mem_cons.mp (List.getLastD_mem_cons (l := ms) (a := s)) with heq | hmem
  · rw [heq]
  · exact h.stored _ hmem

theorem Leg.append (h : Leg s ms s₁) (h' : Leg s₁ ms' s₂) : Leg s (ms ++ ms') s₂ := by
  refine ⟨?_, fun p hp => ?_⟩
  · rw [List.getLastD_eq_getLast?, List.getLast?_append, Option.getD_or,
      ← List.getLastD_eq_getLast?, ← List.getLastD_eq_getLast?, h.last, h'.last]
  · rcases List.mem_append.mp hp with hp | hp
    · exact h.stored p hp
    · rw [h'.stored p hp, h.blockStore_eq]

theorem disconnectBlock_leg (s : Processor) (id : BlockID) (block : Block) (source : String) :
    Leg s (s.disconnectBlockMoves crypto prune id block source)
      (s.disconnectBlock crypto prune id block source).1 := by
  have hstore : (s.disconnectBlock crypto prune id block source).1.blockStore = s.blockStore := by
    unfold disconnectBlock
    dsimp only
    split <;> rfl
  unfold disconnectBlockMoves
  dsimp only
  split
  · exact ⟨rfl, by simpa using hstore⟩
  · exact ⟨rfl, by simpa using hstore⟩

theorem connectBlock_leg (s : Processor) (id : BlockID) (block : Block) (source : String)
    (more : Bool) :
    Leg s (s.connectBlockMoves crypto prune id block source more)
      (s.connectBlock crypto prune id block source more).1 := by
  have hstore : (s.connectBlock crypto prune id block source more).1.blockStore =
      s.blockStore := by
    unfold connectBlock
    dsimp only
    split
    · rfl
    · split <;> rfl
  unfold connectBlockMoves
  dsimp only
  split
  · exact ⟨rfl, by simpa using hstore⟩
  · exact ⟨rfl, by simpa using hstore⟩

theorem disconnectBlocks_leg (s : Processor) (source : String) (ids : List BlockID) :
    Leg s (s.disconnectBlocksMoves crypto prune source ids)
      (s.disconnectBlocks crypto prune source ids).1 := by
  induction ids generalizing s with
  | nil => exact .nil
  | cons id ids ih =>
    unfold disconnectBlocksMoves disconnectBlocks
    cases s.blockStore.getBlock id with
    | error e => exact .nil
    | ok block =>
      have hfirst := disconnectBlock_leg crypto prune s id block source
      dsimp only
      generalize s.disconnectBlock crypto prune id block source = r at hfirst ⊢
      obtain ⟨s₁, e | _⟩ := r
      · exact hfirst.append .nil
      · exact hfirst.append (ih s₁)

theorem connectBlocks_leg (s : Processor) (source : String) (ids : List BlockID) :
    Leg s (s.connectBlocksMoves crypto prune source ids)
      (s.connectBlocks crypto prune source ids).1 := by
  induction ids generalizing s with
  | nil => exact .nil
  | cons id ids ih =>
    unfold connectBlocksMoves connectBlocks
    cases s.blockStore.getBlock id with
    | error e => exact .nil
    | ok block =>
      have hfirst := connectBlock_leg crypto prune s id block source true
      dsimp only
      generalize s.connectBlock crypto prune id block source true = r at hfirst ⊢
      obtain ⟨s₁, e | _⟩ := r
      · exact hfirst.append .nil
      · exact hfirst.append (ih s₁)

theorem acceptBlockContinue_leg (s : Processor) (id : BlockID) (block : Block) (blockWhen : Int)
    (prevHeader : Option BlockHeader) (source : String) :
    Leg s (s.acceptBlockContinueMoves crypto prune id block blockWhen prevHeader source)
      (s.acceptBlockContinue crypto prune id block blockWhen prevHeader source).1 := by
  unfold acceptBlockContinueMoves acceptBlockContinue
  cases s.getChainTipHeader with
  | error e => exact .nil
  | ok tip =>
    dsimp only
    split_ifs
    · exact .nil
    · exact ⟨rfl, by simp⟩
    · cases prevHeader with
      | none => exact .nil
      | some prevHeader =>
        dsimp only
        cases findFork s.blockStore tip.1 tip.2.1 block.header.previous prevHeader with
        | error e => exact .nil
        | ok fork =>
          obtain ⟨tips, news⟩ := fork
          dsimp only
          have hdown := disconnectBlocks_leg crypto prune s source tips
          generalize s.disconnectBlocks crypto prune source tips = r at hdown ⊢
          obtain ⟨s₁, e | _⟩ := r
          · exact hdown.append .nil
          · refine hdown.append ?_
            dsimp only
            have hup := connectBlocks_leg crypto prune s₁ source news
            generalize s₁.connectBlocks crypto prune source news = r at hup ⊢
            obtain ⟨s₂, e | _⟩ := r
            · exact hup.append .nil
            · exact hup.append (connectBlock_leg crypto prune s₂ id block source false)

theorem reconnectTip_leg (s : Processor) (id : BlockID) (source : String) :
    Leg s (s.reconnectTipMoves crypto prune id source)
      (s.reconnectTip crypto prune id source).1 := by
  unfold reconnectTipMoves reconnectTip
  cases s.blockStore.getBlock id with
  | error e => exact .nil
  | ok block => exact acceptBlockContinue_leg crypto prune s id block _ _ source

/-- The block is stored first, and nothing after it. -/
theorem acceptCheckedBlock_leg (s : Processor) (id : BlockID) (block : Block) (now : Int)
    (prevHeader : BlockHeader) (source : String) :
    ∃ ms, s.acceptCheckedBlockMoves crypto prune id block now prevHeader source =
        { s with blockStore := s.blockStore.store id block now } :: ms ∧
      Leg { s with blockStore := s.blockStore.store id block now } ms
        (s.acceptCheckedBlock crypto prune id block now prevHeader source).1 := by
  refine ⟨_, rfl, ?_⟩
  unfold acceptCheckedBlock
  dsimp only
  have hfirst := acceptBlockContinue_leg crypto prune
    { s with blockStore := s.blockStore.store id block now } id block now (some prevHeader) source
  generalize acceptBlockContinue crypto prune
    { s with blockStore := s.blockStore.store id block now } id block now (some prevHeader) source =
      r at hfirst ⊢
  obtain ⟨s₁, e | _⟩ := r
  · dsimp only
    split_ifs
    · exact hfirst.append .nil
    · cases s.ledger.chainTip.map Prod.fst with
      | none => exact hfirst.append .nil
      | some tipID =>
        dsimp only
        have hback := reconnectTip_leg crypto prune s₁ tipID source
        generalize s₁.reconnectTip crypto prune tipID source = r at hback ⊢
        obtain ⟨s₂, e' | _⟩ := r
        · exact hfirst.append hback
        · exact hfirst.append hback
  · exact hfirst.append .nil

/-- **The states passed in a call** lead to its result, and all of them have the
stored blocks of before, but for the block itself if it was not known. -/
theorem blockMoves_spec (s : Processor) (b : Block) (now : Int) (source : String) :
    (s.blockMoves crypto prune b now source).getLastD s =
        (s.step crypto prune (.block b now source)).1 ∧
      ∀ p ∈ s.blockMoves crypto prune b now source,
        s.ledger.getBranchType (b.id crypto) = .unknown ∧
          p.blockStore = s.blockStore.store (b.id crypto) b now := by
  have hnone : ([] : List Processor).getLastD s = s ∧ ∀ p ∈ ([] : List Processor),
      s.ledger.getBranchType (b.id crypto) = .unknown ∧
        p.blockStore = s.blockStore.store (b.id crypto) b now :=
    ⟨rfl, fun _ h => absurd h List.not_mem_nil⟩
  -- a leg from the state with the block stored
  have hstored {ms : List Processor} {s' : Processor}
      (hunknown : s.ledger.getBranchType (b.id crypto) = .unknown)
      (h : Leg { s with blockStore := s.blockStore.store (b.id crypto) b now } ms s') :
      ({ s with blockStore := s.blockStore.store (b.id crypto) b now } :: ms).getLastD s = s' ∧
        ∀ p ∈ { s with blockStore := s.blockStore.store (b.id crypto) b now } :: ms,
          s.ledger.getBranchType (b.id crypto) = .unknown ∧
            p.blockStore = s.blockStore.store (b.id crypto) b now := by
    refine ⟨(List.getLastD_cons ..).trans h.last, List.forall_mem_cons.mpr ⟨⟨hunknown, rfl⟩, ?_⟩⟩
    exact fun p hp => ⟨hunknown, h.stored p hp⟩
  show _ = (processBlock crypto prune (genesisBlock.id crypto) s (b.id crypto) b now source).1 ∧ _
  unfold blockMoves processBlockMoves processBlock
  by_cases hknown : s.ledger.getBranchType (b.id crypto) ≠ .unknown
  · rw [if_pos hknown, if_pos hknown]
    exact hnone
  · rw [if_neg hknown, if_neg hknown]
    have hunknown := not_not.mp hknown
    cases checkBlock crypto (b.id crypto) b now with
    | error e => exact hnone
    | ok =>
      dsimp only
      split_ifs
      · exact hstored hunknown (connectBlock_leg crypto prune _ _ _ _ _)
      · exact hnone
      · unfold acceptBlockMoves acceptBlock
        cases s.blockStore.derefHeader b.header.previous with
        | error e => exact hnone
        | ok prevHeader =>
          dsimp only
          split_ifs
          · exact hnone
          · cases acceptBlockChecks crypto s.txQueue s.blockStore s.ledger (b.id crypto) b
              prevHeader with
            | error e => exact hnone
            | ok =>
              obtain ⟨ms, hms, hleg⟩ := acceptCheckedBlock_leg crypto prune s
                (b.id crypto) b now prevHeader source
              dsimp only
              rw [hms]
              exact hstored hunknown hleg

end Processor

end Cruzbit

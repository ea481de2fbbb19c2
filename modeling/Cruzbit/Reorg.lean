/-
Cruzbit/Reorg.lean

The moves of the processor during a call.  `Sync` is what holds at every
moment, also in the middle of a reorganisation: the ledger describes a valid
chain in storage, the transaction queue is well-formed and holds nothing that
is confirmed on that chain, the messages sent replay to it, and no machine
arithmetic recorded in the history has wrapped.

A move is one `disconnectBlock` or `connectBlock` of the processor.  Moving
down always succeeds; moving up succeeds exactly when the block connects, and
otherwise changes nothing but the history (`Sync.disconnectBlock_eq`,
`Sync.connectBlock_cases`).  Runs of moves follow by induction on the segment
(`Sync.disconnectBlocks_eq`, `Sync.connectBlocks_cases`).
-/
import Cruzbit.Fork
import Cruzbit.Pruning
import Cruzbit.QueueSpec

namespace Cruzbit

open Accounts Chain Lineage Word

/-! ### Machine arithmetic of recorded calls -/

/-- The exact results of the additions and subtractions on balances that a
recorded call carried out. -/
def Event.sums (crypto : Crypto) : Event → List Int
  | .connectBlock blockStore ledger block =>
    ledger.connectSums crypto blockStore block.header.height 0 block.transactions Pass.start
  | .disconnectBlock blockStore ledger block =>
    ledger.disconnectSums crypto blockStore block.header.height 0 block.transactions Pass.start
  | .reprocessQueue ledger txQueue height =>
    TransactionQueue.reprocessSums crypto ledger.getPublicKeyBalance height txQueue.transactions
      { txQueue with balanceCache := txQueue.balanceCache.reset }
  | .add ledger txQueue tx => txQueue.balanceCache.applySums ledger.getPublicKeyBalance tx

/-- No recorded call wrapped. -/
def Exact (crypto : Crypto) (events : List Event) : Prop :=
  ∀ e ∈ events, ∀ x ∈ e.sums crypto, Fits64 x

theorem Exact.append {crypto : Crypto} {events : List Event} {e : Event} (h : Exact crypto events)
    (he : ∀ x ∈ e.sums crypto, Fits64 x) : Exact crypto (events ++ [e]) := by
  intro e' he'
  rcases List.mem_append.mp he' with he' | he'
  · exact h e' he'
  · rw [List.mem_singleton.mp he']
    exact he

/-! ### Messages -/

/-- The message about a disconnected block. -/
def TipChange.down (source : String) (x : BlockID × Block) : TipChange :=
  ⟨x.1, x.2, source, false, false⟩

/-- The message about a connected block. -/
def TipChange.up (source : String) (more : Bool) (x : BlockID × Block) : TipChange :=
  ⟨x.1, x.2, source, true, more⟩

/-- Follow a message: connect a block on the tip reached so far, or disconnect
that tip. -/
def TipChange.replay (c : Chain) (m : TipChange) : Option Chain :=
  if m.connect then
    if ∀ t ∈ c.head?, m.block.header.previous = t.1 then some ((m.blockID, m.block) :: c) else none
  else
    match c with
    | [] => none
    | t :: c => if t = (m.blockID, m.block) then some c else none

/-- The messages lead from one chain to another. -/
def Leads (c : Chain) (messages : List TipChange) (c' : Chain) : Prop :=
  messages.foldlM TipChange.replay c = some c'

theorem Leads.append {c c' c'' : Chain} {ms ms' : List TipChange} (h : Leads c ms c')
    (h' : Leads c' ms' c'') : Leads c (ms ++ ms') c'' := by
  rw [Leads, List.foldlM_append, show ms.foldlM TipChange.replay c = some c' from h]
  exact h'

theorem Leads.down (source : String) (x : BlockID × Block) (c : Chain) :
    Leads (x :: c) [.down source x] c := by
  simp [Leads, TipChange.replay, TipChange.down]

theorem Leads.up (source : String) (more : Bool) {x : BlockID × Block} {c : Chain}
    (hx : ∀ t ∈ c.head?, x.2.header.previous = t.1) : Leads c [.up source more x] (x :: c) := by
  simp only [Leads, TipChange.replay, TipChange.up, List.foldlM_cons, List.foldlM_nil, if_true]
  rw [if_pos hx]
  rfl

/-! ### What holds at every moment -/

/-- No queued transaction is confirmed on the chain. -/
def Unconfirmed (crypto : Crypto) (q : TransactionQueue) (c : Chain) : Prop :=
  ∀ e ∈ q.txQueue, ∀ y ∈ c, e.value.id crypto ∉ y.2.txIDs crypto

/-- The hash tells the transactions in `U` apart.  All transactions at hand are
among them, and those of known blocks are valid for the block's height. -/
structure Separates (crypto : Crypto) (P : Transaction → Prop) (blockStore : BlockStorage)
    (K : Set BlockID) (U : Set Transaction) : Prop where
  collisionFree : CollisionFree crypto U
  vouched : ∀ tx, P tx → tx ∈ U
  inSeries : ∀ id ∈ K, ∀ e, blockStore[id]? = some e → InSeries U e.block

/-- The processor's parts agree on the main chain `c` and the known blocks `K`.
All queued transactions satisfy `P`. -/
structure Sync (crypto : Crypto) (prune : Bool) (P : Transaction → Prop) (s : Processor) (c : Chain)
    (K : Set BlockID) : Prop where
  describes : Describes crypto prune s.ledger c K
  valid : Valid crypto prune c
  stored : Stored s.blockStore c
  queue : s.txQueue.WellFormed crypto
  vouched : ∀ e ∈ s.txQueue.txQueue, P e.value
  exact : Exact crypto s.events
  mirrored : Leads [] s.tipChanges c
  unconfirmed : ∀ U, Separates crypto P s.blockStore K U → Unconfirmed crypto s.txQueue c

/-- The queue is up to date with the ledger: its balance cache is what applying
the queue to the ledger's balances leaves, and the next block may hold all of
its transactions. -/
structure Fresh (s : Processor) : Prop where
  replays : s.txQueue.Replays s.ledger.getPublicKeyBalance
  current : ∀ tip ∈ s.ledger.chainTip, ∀ e ∈ s.txQueue.txQueue,
    TransactionQueue.invalidated e.value tip.2 = false

/-- The block can be offered to the ledger on top of the chain: it fits, lies in
storage and its coinbase passed the reward check. -/
structure Ready (crypto : Crypto) (blockStore : BlockStorage) (c : Chain) (x : BlockID × Block) :
    Prop extends Fits crypto c x where
  stored : ∃ storedAt, blockStore[x.1]? = some ⟨x.2, storedAt⟩
  reward : x.2.coinbaseAmount = int64 (blockCreationReward x.2.header.height + x.2.wrappedFees)

section Moves

variable {crypto : Crypto} {prune : Bool} {P : Transaction → Prop} {s : Processor} {c : Chain}
  {K : Set BlockID} {x : BlockID × Block} (source : String)

/-! ### One move -/

theorem Separates.mono {blockStore : BlockStorage} {K' : Set BlockID} {U : Set Transaction}
    (h : Separates crypto P blockStore K' U) (hK : K ⊆ K') : Separates crypto P blockStore K U :=
  ⟨h.collisionFree, h.vouched, fun id hid => h.inSeries id (hK hid)⟩

theorem Sync.inSeries (h : Sync crypto prune P s c K) {U : Set Transaction}
    (hU : Separates crypto P s.blockStore K U) : ∀ y ∈ c, InSeries U y.2 := by
  intro y hy
  obtain ⟨storedAt, hst⟩ := h.stored y hy
  exact hU.inSeries y.1 (h.describes.known _ (List.mem_map_of_mem hy)) _ hst

/-- The transactions of the tip are not confirmed below it. -/
theorem Sync.tip_unconfirmed (h : Sync crypto prune P s (x :: c) K) {U : Set Transaction}
    (hU : Separates crypto P s.blockStore K U) {tx : Transaction} (htx : tx ∈ x.2.transactions) :
    ∀ y ∈ c, tx.id crypto ∉ y.2.txIDs crypto := by
  have hs := h.inSeries hU
  obtain ⟨hmem, hseries⟩ := hs x List.mem_cons_self tx htx
  rw [h.valid.head.height] at hseries
  exact h.valid.tail.unconfirmed hU.collisionFree (fun y hy => hs y (List.mem_cons_of_mem _ hy))
    hmem hseries fun y hy => h.valid.head.unconfirmed y hy _ (List.mem_map_of_mem htx)

/-- What is left in the queue when the transfers of a block are removed is not
in the block: the hash also tells transfers from coinbases. -/
theorem Sync.removed_unconfirmed (h : Sync crypto prune P s c K) (hx : x.2.WellFormed crypto)
    {U : Set Transaction} (hU : Separates crypto P s.blockStore K U) (hs : InSeries U x.2)
    {e : Element} (he : e ∈ ((x.2.txIDs crypto).tail.foldl
      TransactionQueue.removeIfQueued s.txQueue).txQueue) :
    ∀ y ∈ x :: c, e.value.id crypto ∉ y.2.txIDs crypto := by
  have hmem := TransactionQueue.mem_removeAll he
  refine List.forall_mem_cons.mpr ⟨fun hid => ?_, h.unconfirmed U hU e hmem⟩
  have htail := h.queue.id_notMem_of_removeAll he
  obtain ⟨coinbase, transfers, hshape, hcb, -⟩ := hx.shape
  simp only [Block.txIDs, hshape, List.map_cons, List.tail_cons, List.mem_cons] at hid htail
  have hcoinbase : coinbase ∈ x.2.transactions := by simp [hshape]
  obtain ⟨hchecked, htransfer⟩ := h.queue.checked e hmem
  exact hU.collisionFree.id_ne_coinbase (hU.vouched _ (h.vouched e hmem))
    (hs coinbase hcoinbase).1 hchecked htransfer hcb (hid.resolve_right htail)

/-- **Moving down** to the parent. -/
theorem Sync.disconnectBlock_eq (h : Sync crypto prune P s (x :: c) K) (hc : c ≠ [])
    (hP : ∀ tx ∈ x.2.transactions.tail, P tx) :
    ∃ s', s.disconnectBlock crypto prune x.1 x.2 source = (s', .ok ()) ∧
      Sync crypto prune P s' c K ∧ s'.blockStore = s.blockStore ∧
      s'.tipChanges = s.tipChanges ++ [.down source x] := by
  obtain ⟨l', hok, hd⟩ := h.describes.disconnectBlock_eq h.valid h.stored hc
  obtain ⟨coinbase, transfers, hshape, -, hsigned⟩ := h.valid.head.wellFormed.shape
  have htail : (x.2.txIDs crypto).tail = x.2.transactions.tail.map (Transaction.id crypto) :=
    (List.map_tail ..).symm
  have hchecked : ∀ tx ∈ x.2.transactions.tail, tx.Checked ∧ tx.isCoinbase = false := by
    intro tx htx
    refine ⟨h.valid.head.wellFormed.checked tx (List.mem_of_mem_tail htx), hsigned tx ?_⟩
    rwa [hshape, List.tail_cons] at htx
  have hexact := h.exact.append (e := .disconnectBlock s.blockStore s.ledger x.2)
    (h.describes.disconnectTransactions_eq h.valid h.stored).2
  simp only [Processor.disconnectBlock, hok]
  refine ⟨_, rfl, ⟨hd, h.valid.tail, fun y hy => h.stored y (List.mem_cons_of_mem _ hy), ?_, ?_,
    hexact, h.mirrored.append (.down source x c), fun U hU e he => ?_⟩, rfl, rfl⟩
  · rw [htail]
    exact h.queue.addBatch hchecked
  · intro e he
    exact (TransactionQueue.mem_addBatch he).elim (hP e.value) (h.vouched e)
  · rcases TransactionQueue.mem_addBatch he with he | he
    · exact h.tip_unconfirmed hU (List.mem_of_mem_tail he)
    · exact fun y hy => h.unconfirmed U hU e he y (List.mem_cons_of_mem _ hy)

/-- **Moving up** to a block that is ready. -/
theorem Sync.connectBlock_cases (h : Sync crypto prune P s c K)
    (hx : Ready crypto s.blockStore c x) (more : Bool) :
    (Connects crypto prune c x.2 ∧
      ∃ s', s.connectBlock crypto prune x.1 x.2 source more = (s', .ok ()) ∧
        Sync crypto prune P s' (x :: c) (insert x.1 K) ∧ s'.blockStore = s.blockStore ∧
        s'.tipChanges = s.tipChanges ++ [.up source more x] ∧
        (more = false → Fresh s')) ∨
    (¬ Connects crypto prune c x.2 ∧
      ∃ s' e, s.connectBlock crypto prune x.1 x.2 source more = (s', .error e) ∧
        e.isPanic = false ∧ Sync crypto prune P s' c K ∧ s'.blockStore = s.blockStore ∧
        s'.ledger = s.ledger ∧ s'.txQueue = s.txQueue ∧ s'.tipChanges = s.tipChanges) := by
  have hexact := h.exact.append (e := .connectBlock s.blockStore s.ledger x.2)
    (h.describes.connectTransactions_cases h.valid h.stored hx.toFits).2
  simp only [Processor.connectBlock]
  rcases h.describes.connectBlock_cases h.valid h.stored hx.toFits with
    ⟨hconn, l', hok, hd⟩ | ⟨hnot, e, herr, hpanic⟩
  swap
  · simp only [herr]
    exact Or.inr ⟨hnot, _, e, rfl, hpanic,
      ⟨h.describes, h.valid, h.stored, h.queue, h.vouched, hexact, h.mirrored, h.unconfirmed⟩,
      rfl, rfl, rfl, rfl⟩
  have hvalid : Valid crypto prune (x :: c) :=
    h.valid.cons ⟨hx.toFits, hconn,
      h.valid.reward_exact hx.wellFormed hconn (hx.height ▸ hx.reward)⟩
  have hstored : Stored s.blockStore (x :: c) := List.forall_mem_cons.mpr ⟨hx.stored, h.stored⟩
  have hremoved := h.queue.removeAll (x.2.txIDs crypto).tail
  have hmirrored := h.mirrored.append (.up source more hx.linked)
  have hleft : ∀ U, Separates crypto P s.blockStore (insert x.1 K) U → ∀ e ∈
      ((x.2.txIDs crypto).tail.foldl TransactionQueue.removeIfQueued s.txQueue).txQueue,
      ∀ y ∈ x :: c, e.value.id crypto ∉ y.2.txIDs crypto := by
    intro U hU e he
    obtain ⟨storedAt, hst⟩ := hx.stored
    exact h.removed_unconfirmed hx.wellFormed (hU.mono (Set.subset_insert _ _))
      (hU.inSeries x.1 (Set.mem_insert _ _) _ hst) he
  refine Or.inl ⟨hconn, ?_⟩
  cases more with
  | true =>
    simp only [hok, TransactionQueue.removeBatch, if_true]
    refine ⟨_, rfl, ⟨hd, hvalid, hstored, hremoved, ?_, hexact, hmirrored, hleft⟩, rfl, rfl, by simp⟩
    exact fun e he => h.vouched e (TransactionQueue.mem_removeAll he)
  | false =>
    obtain ⟨⟨q', hq', hwf', hreplays, hmem⟩, hfits⟩ := hremoved.reprocessQueue_eq
      x.2.header.height hd.getPublicKeyBalance hvalid.solvent
    have hexact' := hexact.append (e := .reprocessQueue l' _ x.2.header.height) hfits
    simp only [hok, TransactionQueue.removeBatch, Bool.false_eq_true, if_false, hq']
    refine ⟨_, rfl, ⟨hd, hvalid, hstored, hwf', ?_, hexact', hmirrored, ?_⟩, rfl, rfl,
      fun _ => ⟨hreplays, ?_⟩⟩
    · exact fun e he => h.vouched e (TransactionQueue.mem_removeAll (hmem e he).1)
    · exact fun U hU e he => hleft U hU e (hmem e he).1
    · intro tip htip e he
      rw [hd.chainTip] at htip
      obtain rfl := Option.some.inj htip
      show TransactionQueue.invalidated e.value (((x :: c).length : Int) - 1) = false
      rw [List.length_cons, Nat.cast_succ, add_sub_cancel_right, ← hx.height]
      exact (hmem e he).2

/-! ### Runs of moves -/

theorem Stored.getBlock {blockStore : BlockStorage} (h : Stored blockStore c) (hx : x ∈ c) :
    blockStore.getBlock x.1 = .ok x.2 := by
  obtain ⟨t, ht⟩ := h x hx
  rw [BlockStorage.getBlock, ht]

/-- **Moving down** a segment. -/
theorem Sync.disconnectBlocks_eq {cs : Chain} (h : Sync crypto prune P s (cs ++ c) K)
    (hc : c ≠ []) (hP : ∀ x ∈ cs, ∀ tx ∈ x.2.transactions.tail, P tx) :
    ∃ s', s.disconnectBlocks crypto prune source cs.ids = (s', .ok ()) ∧
      Sync crypto prune P s' c K ∧ s'.blockStore = s.blockStore ∧
      s'.tipChanges = s.tipChanges ++ cs.map (TipChange.down source) := by
  induction cs generalizing s with
  | nil => exact ⟨s, rfl, h, rfl, by simp⟩
  | cons x cs ih =>
    obtain ⟨s₁, hok₁, h₁, hst₁, htip₁⟩ := h.disconnectBlock_eq source (by simp [hc])
      (hP x List.mem_cons_self)
    obtain ⟨s₂, hok₂, h₂, hst₂, htip₂⟩ := ih h₁ fun y hy => hP y (List.mem_cons_of_mem _ hy)
    refine ⟨s₂, ?_, h₂, hst₂.trans hst₁, ?_⟩
    · have hget := h.stored.getBlock (x := x) List.mem_cons_self
      simp only [ids, List.map_cons, Processor.disconnectBlocks, hget, hok₁]
      exact hok₂
    · rw [htip₂, htip₁, List.append_assoc, List.map_cons, List.singleton_append]

/-- **Moving up** a segment, oldest block first: all the way if the blocks give
a valid chain, and otherwise up to the first one that does not connect. -/
theorem Sync.connectBlocks_cases {ds : Chain} (h : Sync crypto prune P s c K)
    (hds : ∀ a x b, ds = a ++ x :: b → x.1 ∈ K ∧ Ready crypto s.blockStore (b ++ c) x) :
    (Valid crypto prune (ds ++ c) ∧
      ∃ s', s.connectBlocks crypto prune source ds.ids.reverse = (s', .ok ()) ∧
        Sync crypto prune P s' (ds ++ c) K ∧ s'.blockStore = s.blockStore ∧
        s'.tipChanges = s.tipChanges ++ ds.reverse.map (TipChange.up source true)) ∨
    (¬ Valid crypto prune (ds ++ c) ∧
      ∃ s' e a b, ds = a ++ b ∧
        s.connectBlocks crypto prune source ds.ids.reverse = (s', .error e) ∧
        e.isPanic = false ∧ Sync crypto prune P s' (b ++ c) K ∧ s'.blockStore = s.blockStore ∧
        (b = [] → s'.ledger = s.ledger ∧ s'.txQueue = s.txQueue) ∧
        s'.tipChanges = s.tipChanges ++ b.reverse.map (TipChange.up source true)) := by
  -- the oldest block is the last one of the segment
  induction ds using List.reverseRecOn generalizing s c with
  | nil => exact Or.inl ⟨h.valid, s, rfl, h, rfl, by simp⟩
  | append_singleton ds x ih =>
    obtain ⟨hK, hx⟩ := hds ds x [] rfl
    have hget : s.blockStore.getBlock x.1 = .ok x.2 := by
      obtain ⟨t, ht⟩ := hx.stored
      rw [BlockStorage.getBlock, ht]
    have hids : (ids (ds ++ [x])).reverse = x.1 :: (ids ds).reverse := by simp [ids]
    simp only [hids, Processor.connectBlocks, hget, List.append_assoc, List.singleton_append]
    rcases h.connectBlock_cases source hx true with
      ⟨-, s₁, hok₁, h₁, hst₁, htip₁, -⟩ | ⟨hnot, s₁, e, herr, hpanic, h₁, hst₁, hl₁, hq₁, htip₁⟩
    swap
    · rw [herr]
      exact Or.inr ⟨fun hv => hnot hv.extends_of_append.toConnects, s₁, e, ds ++ [x], [], by simp,
        rfl, hpanic, h₁, hst₁, fun _ => ⟨hl₁, hq₁⟩, by simp [htip₁]⟩
    rw [Set.insert_eq_of_mem hK] at h₁
    rw [hok₁]
    refine (ih h₁ ?_).imp ?_ ?_
    · intro a y b hab
      obtain ⟨hyK, hy⟩ := hds a y (b ++ [x]) (by simp [hab])
      rw [hst₁]
      exact ⟨hyK, by simpa using hy⟩
    · rintro ⟨hv, s₂, hok₂, h₂, hst₂, htip₂⟩
      exact ⟨hv, s₂, hok₂, h₂, hst₂.trans hst₁, by simp [htip₂, htip₁]⟩
    · rintro ⟨hv, s₂, e, a, b, rfl, herr₂, hpanic, h₂, hst₂, -, htip₂⟩
      exact ⟨hv, s₂, e, a, b ++ [x], by simp, herr₂, hpanic, by simpa using h₂, hst₂.trans hst₁,
        by simp, by simp [htip₂, htip₁]⟩

end Moves

end Cruzbit

/-
Cruzbit/PeerWork.lean

The work that a node hands out to a mining peer.

A peer that asked for work is sent a header to solve, a new one for every new
tip and now and then one with more transactions.  It never sees the
transactions: it sends the header back, and the node puts it on the block it
keeps for the peer.  While the writer loop puts a block together, it reads
tip, median, queue and target one after the other, and the processor may move
in between.  Work that was put together from pieces that do not belong
together is of no use, and nobody notices.

The block is the one that went to the processor and on to the listeners when
the peer submitted before, so the peer has to wait for new work before it
submits again (`Proper`); otherwise the loop reads the wrong header off a tip
change (`overwrite_cons`).

Work of no use does not stay.  If anything changed the tip meanwhile, a message
about that is still under way and the loop starts again (`Working.step`).  Once
nothing is under way, what the peer was sent last is built on the tip, with a
beginning of the queue (`Working.issued`), and any solution that keeps the
minimum time is accepted and becomes the tip (`solved_work_accepted`).
-/
import Cruzbit.FilterView
import Cruzbit.MedianTime
import Cruzbit.Miner

namespace Cruzbit

open Accounts Chain Encoding Transition Word

/-! ### What is read off the databases -/

/-- A reader of the databases sees the chain. -/
structure Processor.Shows (p : Processor) (c : Chain) : Prop where
  chainTip : p.ledger.chainTip = c.head?.map fun x => (x.1, (c.length : Int) - 1)
  heightIndex : Table.Holds p.ledger.heightIndex (c.map heightEntry)
  stored : Stored p.blockStore c
  /-- No block is stored as the parent of genesis. -/
  orphan : p.blockStore[genesisBlock.header.previous]? = none

section Shows

variable {crypto : Crypto} {prune : Bool} {P : Transaction → Prop} {Q : Processor → Prop}
  {s p p' : Processor} {c : Chain} {t : BlockID × Block} {K : Set BlockID}

theorem Settled.shows (h : Settled crypto prune P Q s c K)
    (horphan : s.blockStore[genesisBlock.header.previous]? = none) : s.Shows c :=
  ⟨h.describes.chainTip, h.describes.heightIndex, h.stored, horphan⟩

theorem Processor.Shows.of_alike (h : p.Shows c) (halike : p'.Alike p)
    (hstored : Stored p'.blockStore c)
    (horphan : p'.blockStore[genesisBlock.header.previous]? = none) : p'.Shows c :=
  ⟨halike.chainTip.trans h.chainTip, by rw [halike.heightIndex]; exact h.heightIndex, hstored,
    horphan⟩

theorem Processor.Shows.getChainTipHeader (h : p.Shows (t :: c)) :
    ∃ tipWhen, p.getChainTipHeader = .ok (t.1, t.2.header, tipWhen) := by
  obtain ⟨storedAt, ht⟩ := h.stored t List.mem_cons_self
  refine ⟨storedAt, ?_⟩
  simp [Processor.getChainTipHeader, h.chainTip, BlockStorage.getBlockHeader, ht]

/-- **The next target** is the same for all readers of a chain. -/
theorem Processor.Shows.computeTarget_eq (h : p.Shows (t :: c)) (h' : p'.Shows (t :: c))
    (hv : Valid crypto prune (t :: c)) (hadm : Admitted crypto P Q (t :: c)) :
    computeTarget t.2.header p.blockStore p.ledger =
      computeTarget t.2.header p'.blockStore p'.ledger := by
  have hline := hadm.line h.stored
  by_cases hheight : bitcoinCashRetargetAlgorithmHeight ≤ t.2.header.height
  · -- the first block of the window is on the chain
    have hlen := hline.height_eq
    obtain ⟨y, d, hd⟩ : ∃ y d, (t :: c).drop retargetSmaWindow.toNat = y :: d := by
      refine List.exists_cons_of_ne_nil fun hnil => ?_
      rw [List.drop_eq_nil_iff, List.length_cons] at hnil
      simp only [bitcoinCashRetargetAlgorithmHeight, retargetSmaWindow] at hheight hnil
      omega
    have hdlen : (d.length : Int) = t.2.header.height - retargetSmaWindow := by
      have := congrArg List.length hd
      rw [List.length_drop, List.length_cons, List.length_cons] at this
      simp only [bitcoinCashRetargetAlgorithmHeight, retargetSmaWindow] at hheight this ⊢
      omega
    have hy : y ∈ t :: c := List.mem_of_mem_drop (hd ▸ List.mem_cons_self)
    obtain ⟨storedAt, hget⟩ := h.stored y hy
    obtain ⟨storedAt', hget'⟩ := h'.stored y hy
    rw [computeTarget_of_lookup hheight
        (by rw [← hdlen]; exact hv.getBlockIDForHeight h.heightIndex hd) hget,
      computeTarget_of_lookup hheight
        (by rw [← hdlen]; exact hv.getBlockIDForHeight h'.heightIndex hd) hget']
  · rw [computeTarget, computeTarget, if_neg hheight, if_neg hheight]
    exact computeTargetBitcoin_congr hline (hline.of_stored h'.stored)

/-- **The median timestamp** is the same for all readers of a chain. -/
theorem Processor.Shows.computeMedianTimestamp_eq (h : p.Shows (t :: c)) (h' : p'.Shows (t :: c))
    (hadm : Admitted crypto P Q (t :: c)) :
    computeMedianTimestamp t.2.header p.blockStore =
      computeMedianTimestamp t.2.header p'.blockStore := by
  rw [Cruzbit.computeMedianTimestamp_eq (hadm.line h.stored) rfl h.orphan,
    Cruzbit.computeMedianTimestamp_eq (hadm.line h'.stored) rfl h'.orphan]

end Shows

/-! ### Work that is up to date -/

/-- The call delivers no transactions but these, and no block that would pass for
the parent of genesis. -/
def Call.Ordinary (crypto : Crypto) (U : Set Transaction) (call : Call) : Prop :=
  call.Within U ∧ call.NonNull crypto

/-- The tip of the main chain has this ID and header. -/
def Processor.AtTip (p : Processor) (tipID : BlockID) (tipHeader : BlockHeader) : Prop :=
  ∃ t, p.mainChain.head? = some t ∧ t.1 = tipID ∧ t.2.header = tipHeader

/-- What a block is made of. -/
structure Recipe where
  tipID : BlockID
  tipHeader : BlockHeader
  draw : Draw
  pubKey : PublicKey
  memo : List UInt8
  txQueue : TransactionQueue

/-- The block is what `createNextBlock` makes of the tip and a beginning of the
queue, and it may not be earlier than the median. -/
structure UpToDate (crypto : Crypto) (p : Processor) (r : Recipe) (b : Block) (minTime : Int) :
    Prop where
  tip : p.AtTip r.tipID r.tipHeader
  draw : r.draw.Possible
  pubKey : r.pubKey.length = publicKeySize
  memo : validUTF8 0 r.memo = true ∧ r.memo.length ≤ maxMemoLength
  queue : r.txQueue.transactions <+: p.txQueue.transactions
  created : createNextBlock crypto r.draw r.tipID r.tipHeader r.txQueue p.blockStore p.ledger
    r.pubKey r.memo = .ok b
  minTime : minTime = int64 (computeMedianTimestamp r.tipHeader p.blockStore + 1)

/-- The processor went on without a new tip. -/
structure Unmoved (p p' : Processor) : Prop where
  mainChain : p'.mainChain = p.mainChain
  queue : p.txQueue.transactions <+: p'.txQueue.transactions

section Unmoved

variable {crypto : Crypto} {prune : Bool} {U : Set Transaction} {p p' : Processor} {b : Block}
  {minTime : Int} {tipID : BlockID} {tipHeader : BlockHeader} {r : Recipe}

theorem Unmoved.rfl : Unmoved p p := ⟨.refl _, List.prefix_rfl⟩

theorem Unmoved.atTip (h : Unmoved p p') (ht : p.AtTip tipID tipHeader) :
    p'.AtTip tipID tipHeader := by
  rw [Processor.AtTip, h.mainChain]
  exact ht

/-- All readers of the chain compute the same. -/
theorem Reachable.reads_eq (hp : Reachable crypto prune p) (h : p.Shows p.mainChain)
    (h' : p'.Shows p.mainChain) (ht : p.AtTip tipID tipHeader) :
    computeTarget tipHeader p'.blockStore p'.ledger =
        computeTarget tipHeader p.blockStore p.ledger ∧
      computeMedianTimestamp tipHeader p'.blockStore =
        computeMedianTimestamp tipHeader p.blockStore := by
  obtain ⟨c, K, hs⟩ := hp.settled
  obtain ⟨t, ht, -, rfl⟩ := ht
  rw [hs.mainChain_eq] at h h' ht
  obtain ⟨t', d, rfl⟩ := List.exists_cons_of_ne_nil hs.admitted.ne_nil
  obtain rfl := Option.some.inj ht
  exact ⟨h'.computeTarget_eq h hs.valid hs.admitted, h'.computeMedianTimestamp_eq h hs.admitted⟩

theorem createNextBlock_congr {draw : Draw} {q : TransactionQueue} {pubKey : PublicKey}
    {memo : List UInt8} {blockStore blockStore' : BlockStorage} {ledger ledger' : Ledger}
    (h : computeTarget tipHeader blockStore' ledger' = computeTarget tipHeader blockStore ledger) :
    createNextBlock crypto draw tipID tipHeader q blockStore' ledger' pubKey memo =
      createNextBlock crypto draw tipID tipHeader q blockStore ledger pubKey memo := by
  simp only [createNextBlock, h]

/-- **Work stays up to date** until there is a new tip. -/
theorem UpToDate.of_unmoved (h : UpToDate crypto p r b minTime) (hp : Reachable crypto prune p)
    (hshows : p.Shows p.mainChain) (hshows' : p'.Shows p'.mainChain) (hu : Unmoved p p') :
    UpToDate crypto p' r b minTime := by
  rw [hu.mainChain] at hshows'
  obtain ⟨htarget, hmedian⟩ := hp.reads_eq hshows hshows' h.tip
  refine ⟨hu.atTip h.tip, h.draw, h.pubKey, h.memo, h.queue.trans hu.queue, ?_, ?_⟩
  · rw [createNextBlock_congr htarget]
    exact h.created
  · rw [hmedian]
    exact h.minTime

end Unmoved

/-! ### The processor's side -/

namespace Feed

variable {crypto : Crypto} {prune : Bool} {A : Call → Prop} {f f' : Feed} {l : FeedStep}

theorem mainChain_eq_of_tipChanges_eq {p p' : Processor} (h : Reachable crypto prune p)
    (h' : Reachable crypto prune p') (heq : p'.tipChanges = p.tipChanges) :
    p'.mainChain = p.mainChain := by
  have hleads := h'.mirrored
  rw [heq] at hleads
  exact Option.some.inj (hleads.symm.trans h.mirrored)

/-- **Without a message there is no new tip.** -/
theorem Sound.unmoved (h : f.Sound crypto prune A) (hl : Meets A l)
    (hs : f.step crypto prune l = some f') (hquiet : f'.underWay = []) :
    Unmoved f.processor f'.processor := by
  cases l with
  | block b now source =>
    obtain ⟨h', -, hunder, -⟩ := h.block hl hs
    simp only [Feed.step] at hs
    split at hs
    swap
    · cases hs
    next hrest _ =>
    have hview : f'.view = f.processor := by
      obtain rfl := Option.some.inj hs
      exact h.view_eq hrest
    obtain ⟨halike, -⟩ := h'.alike hquiet
    rw [hview] at halike
    have hsent : f.processor.sent f'.processor = [] :=
      (List.append_eq_nil_iff.mp (hunder.symm.trans hquiet)).2
    obtain ⟨source, htrail⟩ := h'.trail
    have hupTo := htrail.upTo f'.view List.mem_cons_self
    rw [hview] at hupTo
    rw [Processor.sent, List.drop_eq_nil_iff] at hsent
    refine ⟨mainChain_eq_of_tipChanges_eq h.reachable h'.reachable
      (hupTo.eq_of_length_le hsent).symm, ?_⟩
    rw [halike.txQueue]
  | transaction tx source =>
    simp only [Feed.step] at hs
    split at hs
    swap
    · cases hs
    obtain rfl := Option.some.inj hs
    obtain ⟨c, K, hsettled⟩ := h.reachable.settled
    obtain ⟨-, -, -, htips⟩ :=
      hsettled.processTransaction_settled (vouches_true (.transaction tx))
    refine ⟨mainChain_eq_of_tipChanges_eq h.reachable (.call _ h.reachable trivial) htips, ?_⟩
    rcases newTx_cases crypto prune f.processor tx source with ⟨hsame, -⟩ | ⟨hmore, -⟩
    · rw [hsame]
    · rw [hmore]
      exact List.prefix_append _ _
  | move =>
    simp only [Feed.step] at hs
    split at hs
    · obtain rfl := Option.some.inj hs
      exact .rfl
    · cases hs
  | notify =>
    obtain ⟨-, -, -, hprocessor⟩ := h.notify hs
    rw [hprocessor]
    exact .rfl

/-- No block is stored as the parent of genesis, in whatever state the loop may
read. -/
def NoOrphans (f : Feed) : Prop :=
  ∀ p ∈ f.view :: f.rest, p.blockStore[genesisBlock.header.previous]? = none

theorem Sound.noOrphan (h : f.Sound crypto prune A) (hf : f.NoOrphans) :
    f.processor.blockStore[genesisBlock.header.previous]? = none := by
  have hlast := h.last
  refine hf _ ?_
  rw [← hlast, List.getLastD_eq_getLast?]
  cases hrest : f.rest.getLast? with
  | none => exact List.mem_cons_self
  | some p => exact List.mem_cons_of_mem _ (List.mem_of_getLast? hrest)

theorem NoOrphans.step (hf : f.NoOrphans) (h : f.Sound crypto prune A)
    (hA : ∀ call, A call → call.NonNull crypto) (hl : Meets A l)
    (hs : f.step crypto prune l = some f') : f'.NoOrphans := by
  have hprocessor := h.noOrphan hf
  cases l with
  | block b now source =>
    have hnull : b.id crypto ≠ genesisBlock.header.previous := hA _ hl
    simp only [Feed.step] at hs
    split at hs
    swap
    · cases hs
    next hrest _ =>
    obtain rfl := Option.some.inj hs
    intro p hp
    rcases List.mem_cons.mp hp with rfl | hp
    · exact hf _ List.mem_cons_self
    · obtain ⟨-, hmoves⟩ := Processor.blockMoves_spec crypto prune f.processor b now source
      rw [(hmoves p hp).2]
      simpa [BlockStorage.store, hnull] using hprocessor
  | transaction tx source =>
    simp only [Feed.step] at hs
    split at hs
    swap
    · cases hs
    next hrest _ =>
    obtain rfl := Option.some.inj hs
    intro p hp
    rw [hrest] at hp
    rw [List.mem_singleton.mp hp]
    obtain ⟨c, K, hsettled⟩ := h.reachable.settled
    obtain ⟨-, -, hstore, -⟩ :=
      hsettled.processTransaction_settled (vouches_true (.transaction tx))
    rw [hstore]
    exact hprocessor
  | move =>
    simp only [Feed.step] at hs
    split at hs
    swap
    · cases hs
    next hrest _ =>
    obtain rfl := Option.some.inj hs
    intro p hp
    refine hf p ?_
    rw [hrest]
    exact List.mem_cons_of_mem _ hp
  | notify =>
    have hsame : f'.view = f.view ∧ f'.rest = f.rest := by
      simp only [Feed.step] at hs
      split at hs
      · split_ifs at hs
        obtain rfl := Option.some.inj hs
        exact ⟨rfl, rfl⟩
      · split_ifs at hs
        obtain rfl := Option.some.inj hs
        exact ⟨rfl, rfl⟩
      · cases hs
    rw [NoOrphans, hsame.1, hsame.2]
    exact hf

end Feed

/-! ### The loop's side -/

/-- The work in a message. -/
def PeerMessage.toWork : PeerMessage → Option (Int × BlockHeader × Int)
  | .work workID (.ok (header, minTime)) => some (workID, header, minTime)
  | _ => none

/-- The stages of `createNewWorkBlock`. -/
def Stage.isBuilding : Stage → Bool
  | .median .. => true
  | .queue .. => true
  | .target .. => true
  | _ => false

namespace PeerLoop

/-- The last work that was sent. -/
def lastWork (s : PeerLoop) : Option (Int × BlockHeader × Int) :=
  (s.sent.filterMap PeerMessage.toWork).getLast?

/-- The transactions belong to the work that was sent last, and it is up to date. -/
def Issued (crypto : Crypto) (s : PeerLoop) (txs : List Transaction) : Prop :=
  ∃ header minTime r, s.lastWork = some (s.workID, header, minTime) ∧
    UpToDate crypto s.feed.processor r ⟨header, txs⟩ minTime

/-- What the writer loop has read so far is up to date, and so is the work that
is out if it is not about to be replaced. -/
def Prepared (crypto : Crypto) (s : PeerLoop) : Prop :=
  match s.stage with
  | .median tipID tipHeader _ => s.feed.processor.AtTip tipID tipHeader
  | .queue tipID tipHeader pubKey _ =>
    s.feed.processor.AtTip tipID tipHeader ∧ pubKey.length = publicKeySize ∧
      s.medianTimestamp = computeMedianTimestamp tipHeader s.feed.processor.blockStore
  | .target tipID tipHeader pubKey q _ =>
    s.feed.processor.AtTip tipID tipHeader ∧ pubKey.length = publicKeySize ∧
      s.medianTimestamp = computeMedianTimestamp tipHeader s.feed.processor.blockStore ∧
      q.transactions <+: s.feed.processor.txQueue.transactions
  | _ => ∀ txs, s.workBlock.map Block.transactions = some txs → s.Issued crypto txs

/-- **The condition on a step.**  The peer gives proper keys and memos, and does not submit again
before the loop has taken the tip change for its last submission. -/
def Proper (crypto : Crypto) (U : Set Transaction) (s : PeerLoop) : PeerEvent → Prop
  | .getWork pubKeys memo =>
    (∀ pubKey ∈ pubKeys, pubKey.length = publicKeySize) ∧ validUTF8 0 memo = true
  | .create draw => draw.Possible
  | l => s.Meets (Call.Ordinary crypto U) l

/-- **What holds in every state.** -/
structure Working (crypto : Crypto) (prune : Bool) (U : Set Transaction) (s : PeerLoop) :
    Prop where
  sound : s.feed.Sound crypto prune (Call.Ordinary crypto U)
  noOrphans : s.feed.NoOrphans
  keys : ∀ pubKey ∈ s.pubKeys, pubKey.length = publicKeySize
  memo : validUTF8 0 s.memo = true ∧ s.memo.length ≤ maxMemoLength
  /-- The peer asked for the work. -/
  wanted : s.workBlock.isSome = true ∨ s.stage.isBuilding = true → s.pubKeys ≠ []
  prepared : s.feed.underWay = [] → s.Prepared crypto

/-- A step that has nothing to do with work. -/
structure Indifferent (s s' : PeerLoop) : Prop where
  feed : ∃ txs, s'.feed = { s.feed with newTxChan := txs }
  pubKeys : s'.pubKeys = s.pubKeys
  memo : s'.memo = s.memo
  workID : s'.workID = s.workID
  /-- The header may be another. -/
  workBlock : s'.workBlock.map Block.transactions = s.workBlock.map Block.transactions
  medianTimestamp : s'.medianTimestamp = s.medianTimestamp
  lastWork : s'.lastWork = s.lastWork
  stage : s'.stage = s.stage ∨ s.stage.isBuilding = false ∧ s'.stage.isBuilding = false

section Steps

variable {hash64 : List UInt8 → UInt64 → UInt64} {crypto : Crypto} {prune : Bool}
  {U : Set Transaction} {s s' : PeerLoop} {l : PeerEvent}

@[simp] theorem send_lastWork (s : PeerLoop) (m : PeerMessage) :
    (s.send m).lastWork = m.toWork.or s.lastWork := by
  simp only [lastWork, send_sent, List.filterMap_append]
  cases hm : m.toWork <;> simp [hm]

theorem prepared_iff_of_isBuilding_eq_false (h : s.stage.isBuilding = false) :
    s.Prepared crypto ↔ ∀ txs, s.workBlock.map Block.transactions = some txs →
      s.Issued crypto txs := by
  unfold Prepared
  cases hstage : s.stage <;> rw [hstage] at h <;> first | exact Iff.rfl | cases h

/-- What is known of the processor. -/
theorem Working.shows (h : s.Working crypto prune U) :
    s.feed.processor.Shows s.feed.processor.mainChain := by
  obtain ⟨c, K, hs⟩ := h.sound.reachable.settled
  rw [hs.mainChain_eq]
  exact hs.shows (h.sound.noOrphan h.noOrphans)

/-- What the loop reads while nothing is under way. -/
theorem Working.view_shows (h : s.Working crypto prune U) (hquiet : s.feed.underWay = []) :
    s.feed.view.Shows s.feed.processor.mainChain := by
  obtain ⟨halike, hstored⟩ := h.sound.alike hquiet
  exact h.shows.of_alike halike hstored (h.noOrphans _ List.mem_cons_self)

theorem Indifferent.issued (h : Indifferent s s') {txs : List Transaction}
    (htxs : s.Issued crypto txs) : s'.Issued crypto txs := by
  obtain ⟨header, minTime, r, hlast, hfresh⟩ := htxs
  obtain ⟨ms, hfeed⟩ := h.feed
  refine ⟨header, minTime, r, ?_, ?_⟩
  · rw [h.lastWork, h.workID]
    exact hlast
  · rw [hfeed]
    exact hfresh

theorem Indifferent.prepared (h : Indifferent s s') (hs : s.Prepared crypto) :
    s'.Prepared crypto := by
  rcases h.stage with hstage | ⟨hbefore, hafter⟩
  · obtain ⟨ms, hfeed⟩ := h.feed
    have hissued (hs : ∀ txs, s.workBlock.map Block.transactions = some txs →
        s.Issued crypto txs) : ∀ txs, s'.workBlock.map Block.transactions = some txs →
        s'.Issued crypto txs :=
      fun txs htxs => h.issued (hs txs (h.workBlock ▸ htxs))
    unfold Prepared at hs ⊢
    rw [hstage]
    rw [hfeed, h.medianTimestamp]
    cases hcase : s.stage <;> rw [hcase] at hs <;> first | exact hs | exact hissued hs
  · rw [prepared_iff_of_isBuilding_eq_false hbefore] at hs
    rw [prepared_iff_of_isBuilding_eq_false hafter]
    exact fun txs htxs => h.issued (hs txs (h.workBlock ▸ htxs))

theorem Working.indifferent (h : s.Working crypto prune U) (hs : Indifferent s s') :
    s'.Working crypto prune U := by
  obtain ⟨txs, hfeed⟩ := hs.feed
  refine ⟨?_, ?_, by rw [hs.pubKeys]; exact h.keys, by rw [hs.memo]; exact h.memo, ?_, ?_⟩
  · rw [hfeed]
    exact h.sound.of_eq rfl rfl rfl List.suffix_rfl
  · rw [hfeed]
    exact h.noOrphans
  · intro hwork
    rw [hs.pubKeys]
    refine h.wanted (hwork.imp (fun hsome => ?_) fun hbuilding => ?_)
    · have := congrArg Option.isSome hs.workBlock
      rwa [Option.isSome_map, Option.isSome_map, hsome, eq_comm] at this
    · rcases hs.stage with hstage | ⟨-, hafter⟩
      · rwa [hstage] at hbuilding
      · rw [hafter] at hbuilding
        exact absurd hbuilding Bool.false_ne_true
  · intro hquiet
    rw [hfeed] at hquiet
    exact hs.prepared (h.prepared hquiet)

/-- **The processor goes on.** -/
theorem Working.feed (h : s.Working crypto prune U) {l : FeedStep} {f : Feed}
    (hl : Feed.Meets (Call.Ordinary crypto U) l) (hf : s.feed.step crypto prune l = some f) :
    ({ s with feed := f } : PeerLoop).Working crypto prune U := by
  obtain ⟨hsound, -, hunder⟩ := h.sound.step hl hf
  have hno := h.noOrphans.step h.sound (fun _ hcall => hcall.2) hl hf
  refine ⟨hsound, hno, h.keys, h.memo, h.wanted, fun hquiet => ?_⟩
  -- nothing has been sent, so nothing has moved
  have hmoved : Unmoved s.feed.processor f.processor := h.sound.unmoved hl hf hquiet
  have hold := h.prepared (List.prefix_nil.mp (hquiet ▸ hunder))
  have hshows' : f.processor.Shows f.processor.mainChain := by
    obtain ⟨c, K, hs⟩ := hsound.reachable.settled
    rw [hs.mainChain_eq]
    exact hs.shows (hsound.noOrphan hno)
  have hmedian {tipID : BlockID} {tipHeader : BlockHeader}
      (ht : s.feed.processor.AtTip tipID tipHeader) :
      computeMedianTimestamp tipHeader f.processor.blockStore =
        computeMedianTimestamp tipHeader s.feed.processor.blockStore :=
    (h.sound.reachable.reads_eq h.shows (hmoved.mainChain ▸ hshows') ht).2
  have hissued (hs : ∀ txs, s.workBlock.map Block.transactions = some txs →
      s.Issued crypto txs) : ∀ txs, s.workBlock.map Block.transactions = some txs →
      ({ s with feed := f } : PeerLoop).Issued crypto txs := by
    intro txs htxs
    obtain ⟨header, minTime, r, hlast, hfresh⟩ := hs txs htxs
    exact ⟨header, minTime, r, hlast,
      hfresh.of_unmoved h.sound.reachable h.shows hshows' hmoved⟩
  unfold Prepared at hold ⊢
  cases hstage : s.stage with
  | median tipID tipHeader change =>
    simp only [hstage] at hold ⊢
    exact hmoved.atTip hold
  | queue tipID tipHeader pubKey change =>
    simp only [hstage] at hold ⊢
    obtain ⟨ht, hkey, htime⟩ := hold
    exact ⟨hmoved.atTip ht, hkey, by rw [hmedian ht]; exact htime⟩
  | target tipID tipHeader pubKey q change =>
    simp only [hstage] at hold ⊢
    obtain ⟨ht, hkey, htime, hq⟩ := hold
    exact ⟨hmoved.atTip ht, hkey, by rw [hmedian ht]; exact htime, hq.trans hmoved.queue⟩
  | _ =>
    simp only [hstage] at hold ⊢
    exact hissued hold

/-- The tip that the loop reads is the current one. -/
theorem Working.atTip_of_getChainTipHeader (h : s.Working crypto prune U) {tipID : BlockID}
    {tipHeader : BlockHeader} {tipWhen : Int}
    (htip : s.feed.view.getChainTipHeader = .ok (tipID, tipHeader, tipWhen))
    (hquiet : s.feed.underWay = []) : s.feed.processor.AtTip tipID tipHeader := by
  have hshows := h.view_shows hquiet
  obtain ⟨c, K, hs⟩ := h.sound.reachable.settled
  obtain ⟨t, d, rfl⟩ := List.exists_cons_of_ne_nil hs.admitted.ne_nil
  rw [hs.mainChain_eq] at hshows
  obtain ⟨tipWhen', ht⟩ := hshows.getChainTipHeader
  obtain ⟨rfl, rfl, -⟩ : t.1 = tipID ∧ t.2.header = tipHeader ∧ tipWhen' = tipWhen := by
    simpa using ht.symm.trans htip
  exact ⟨t, by rw [hs.mainChain_eq]; rfl, rfl, rfl⟩

/-- New work is started on the tip. -/
theorem working_createNewWorkBlock (hsound : s.feed.Sound crypto prune (Call.Ordinary crypto U))
    (hno : s.feed.NoOrphans) (hkeys : ∀ pubKey ∈ s.pubKeys, pubKey.length = publicKeySize)
    (hmemo : validUTF8 0 s.memo = true ∧ s.memo.length ≤ maxMemoLength)
    (hwanted : s.workBlock.isSome = true → s.pubKeys ≠ []) {tipID : BlockID}
    {tipHeader : BlockHeader} (change : Option TipChange)
    (htip : s.feed.underWay = [] → s.feed.processor.AtTip tipID tipHeader) :
    (s.createNewWorkBlock tipID tipHeader change).Working crypto prune U := by
  unfold createNewWorkBlock
  split_ifs with hnone
  · -- the peer doesn't want work, and has none
    have hblock : s.workBlock = none := by
      cases hblock : s.workBlock with
      | none => rfl
      | some b => exact absurd hnone (hwanted (by rw [hblock]; rfl))
    cases change <;>
      exact ⟨hsound, hno, hkeys, hmemo,
        fun hwork => by simp [resume, hblock, Stage.isBuilding] at hwork,
        fun _ txs htxs => by simp [resume, hblock] at htxs⟩
  · exact ⟨hsound, hno, hkeys, hmemo, fun _ => hnone, htip⟩

/-- **A tip change is taken.**  If it is the last one, it names the tip. -/
theorem Working.onTipChange (h : s.Working crypto prune U) {m : TipChange} {ms : List TipChange}
    (hchan : s.feed.tipChangeChan = m :: ms) :
    (({ s with feed := { s.feed with tipChangeChan := ms } } : PeerLoop).onTipChange m).Working
      crypto prune U := by
  obtain ⟨hsound, htaken, hunder⟩ := h.sound.takeTip hchan
  have hwanted (hsome : s.workBlock.isSome = true) : s.pubKeys ≠ [] := h.wanted (.inl hsome)
  unfold PeerLoop.onTipChange
  split_ifs with hlast
  · exact working_createNewWorkBlock
      (s := { s with feed := { s.feed with tipChangeChan := ms } }) hsound h.noOrphans h.keys
      h.memo hwanted (some m) fun hquiet => ⟨_, hsound.tip_of_last htaken hlast.1 hquiet, rfl, rfl⟩
  · refine ⟨hsound, h.noOrphans, h.keys, h.memo, ?_, fun hquiet => ?_⟩
    · exact fun hwork => hwanted (hwork.resolve_right (by simp [Stage.isBuilding]))
    · -- the last message is not of this kind
      refine absurd (h.sound.concluded m ?_) hlast
      rw [hunder, show ({ s.feed with tipChangeChan := ms } : Feed).underWay = [] from hquiet]
      rfl

theorem Working.onGetWork (h : s.Working crypto prune U) {pubKeys : List PublicKey}
    {memo : List UInt8} (hl : s.Proper crypto U (.getWork pubKeys memo))
    (hs : s.onGetWork pubKeys memo = some s') : s'.Working crypto prune U := by
  have hrefused (e : WorkErr) : (s.send (.work 0 (.error e))).Working crypto prune U :=
    h.indifferent ⟨⟨_, rfl⟩, rfl, rfl, rfl, rfl, rfl, by simp [PeerMessage.toWork], .inl rfl⟩
  unfold PeerLoop.onGetWork at hs
  split_ifs at hs with hwork hnone hmemo
  · obtain rfl := Option.some.inj hs
    exact hrefused _
  · obtain rfl := Option.some.inj hs
    exact hrefused _
  · obtain rfl := Option.some.inj hs
    exact hrefused _
  · split at hs
    · split_ifs at hs
      obtain rfl := Option.some.inj hs
      exact hrefused _
    · next tipID tipHeader tipWhen htip =>
      obtain rfl := Option.some.inj hs
      exact working_createNewWorkBlock (s := { s with pubKeys := pubKeys, memo := memo }) h.sound
        h.noOrphans hl.1 ⟨hl.2, not_lt.mp hmemo⟩ (fun hsome => absurd hsome hwork) none
        (h.atTip_of_getChainTipHeader htip)

theorem Working.updateWorkCheck (h : s.Working crypto prune U)
    (hs : s.updateWorkCheck = some s') : s'.Working crypto prune U := by
  unfold PeerLoop.updateWorkCheck at hs
  split at hs
  · obtain rfl := Option.some.inj hs
    exact h
  · split_ifs at hs
    · obtain rfl := Option.some.inj hs
      exact h
    · split at hs
      · split_ifs at hs
        obtain rfl := Option.some.inj hs
        exact h
      · next tipID tipHeader tipWhen htip =>
        obtain rfl := Option.some.inj hs
        exact working_createNewWorkBlock h.sound h.noOrphans h.keys h.memo
          (fun hsome => h.wanted (.inl hsome)) none (h.atTip_of_getChainTipHeader htip)
    · obtain rfl := Option.some.inj hs
      exact h

/-- Reading the median. -/
theorem Working.median (h : s.Working crypto prune U) {tipID : BlockID} {tipHeader : BlockHeader}
    {change : Option TipChange} {pubKey : PublicKey}
    (hstage : s.stage = .median tipID tipHeader change) (hkey : pubKey ∈ s.pubKeys)
    (workID : Int) :
    ({ s with
      medianTimestamp := computeMedianTimestamp tipHeader s.feed.view.blockStore
      workID := workID
      stage := .queue tipID tipHeader pubKey change } : PeerLoop).Working crypto prune U := by
  refine ⟨h.sound, h.noOrphans, h.keys, h.memo, fun _ => List.ne_nil_of_mem hkey,
    fun hquiet => ?_⟩
  have htip := h.prepared hquiet
  simp only [Prepared, hstage] at htip
  exact ⟨htip, h.keys pubKey hkey,
    (h.sound.reachable.reads_eq h.shows (h.view_shows hquiet) htip).2⟩

/-- Reading the queue. -/
theorem Working.readQueue (h : s.Working crypto prune U) {tipID : BlockID}
    {tipHeader : BlockHeader} {change : Option TipChange} {pubKey : PublicKey}
    (hstage : s.stage = .queue tipID tipHeader pubKey change) :
    ({ s with stage := .target tipID tipHeader pubKey s.feed.view.txQueue change } :
      PeerLoop).Working crypto prune U := by
  refine ⟨h.sound, h.noOrphans, h.keys, h.memo,
    fun _ => h.wanted (.inr (by rw [hstage]; rfl)), fun hquiet => ?_⟩
  have hread := h.prepared hquiet
  simp only [Prepared, hstage] at hread
  obtain ⟨htip, hkey, htime⟩ := hread
  refine ⟨htip, hkey, htime, ?_⟩
  rw [(h.sound.alike hquiet).1.txQueue]

/-- A state after `createNewWorkBlock`. -/
theorem working_resume (change : Option TipChange)
    (h : ({ s with stage := .idle } : PeerLoop).Working crypto prune U) :
    (s.resume change).Working crypto prune U := by
  cases change with
  | none => exact h
  | some m => exact ⟨h.sound, h.noOrphans, h.keys, h.memo, h.wanted, h.prepared⟩

/-- **Work is sent**: it is up to date, or a message is under way. -/
theorem Working.create (h : s.Working crypto prune U) {tipID : BlockID}
    {tipHeader : BlockHeader} {change : Option TipChange} {pubKey : PublicKey}
    {q : TransactionQueue} (hstage : s.stage = .target tipID tipHeader pubKey q change)
    {draw : Draw} (hdraw : draw.Possible) {b : Block}
    (hb : createNextBlock crypto draw tipID tipHeader q s.feed.view.blockStore
      s.feed.view.ledger pubKey s.memo = .ok b) :
    ((s.issueWork (.ok b)).resume change).Working crypto prune U := by
  refine working_resume change ⟨h.sound, h.noOrphans, h.keys, h.memo,
    fun _ => h.wanted (.inr (by rw [hstage]; rfl)), fun hquiet => ?_⟩
  have hread := h.prepared hquiet
  simp only [Prepared, hstage] at hread
  obtain ⟨htip, hkey, htime, hq⟩ := hread
  obtain ⟨htarget, -⟩ := h.sound.reachable.reads_eq h.shows (h.view_shows hquiet) htip
  rintro _ ⟨⟩
  refine ⟨b.header, int64 (s.medianTimestamp + 1), ⟨tipID, tipHeader, draw, pubKey, s.memo, q⟩,
    (send_lastWork _ _).trans rfl, htip, hdraw, hkey, h.memo, hq, ?_, ?_⟩
  · rw [createNextBlock_congr htarget] at hb
    exact hb
  · rw [htime]
    rfl

/-- There is no work. -/
theorem Working.createFailed (h : s.Working crypto prune U) (change : Option TipChange) (e : Err) :
    ((s.issueWork (.error e)).resume change).Working crypto prune U := by
  refine working_resume change ⟨h.sound, h.noOrphans, h.keys, h.memo, fun hwork => ?_,
    fun _ txs htxs => ?_⟩
  · exact absurd hwork (by simp [issueWork, send, Stage.isBuilding])
  · exact absurd htxs (by simp [issueWork, send])

/-! ### Steps that have nothing to do with work -/

theorem indifferent_announce {m : TipChange} (hstage : s.stage = .announce m)
    (hs : s.announce hash64 m = some s') : Indifferent s s' := by
  have hidle : s.stage.isBuilding = false := by rw [hstage]; rfl
  simp only [announce] at hs
  split_ifs at hs
  · obtain rfl := Option.some.inj hs
    exact ⟨⟨_, rfl⟩, rfl, rfl, rfl, rfl, rfl, rfl, .inr ⟨hidle, rfl⟩⟩
  all_goals
    obtain ⟨fb, -, hs⟩ := Option.bind_eq_some_iff.mp hs
    obtain rfl := Option.some.inj hs
    cases fb <;>
      exact ⟨⟨_, rfl⟩, rfl, rfl, rfl, rfl, rfl, by simp [PeerMessage.toWork]; rfl,
        .inr ⟨hidle, rfl⟩⟩

theorem indifferent_onNewTx {m : NewTx} {ms : List NewTx}
    (hs : ({ s with feed := { s.feed with newTxChan := ms } } : PeerLoop).onNewTx hash64 m =
      some s') : Indifferent s s' := by
  unfold onNewTx at hs
  split_ifs at hs
  · obtain rfl := Option.some.inj hs
    exact ⟨⟨ms, rfl⟩, rfl, rfl, rfl, rfl, rfl, rfl, .inl rfl⟩
  · obtain ⟨interested, -, hs⟩ := Option.bind_eq_some_iff.mp hs
    obtain rfl := Option.some.inj hs
    cases interested with
    | false => exact ⟨⟨ms, rfl⟩, rfl, rfl, rfl, rfl, rfl, rfl, .inl rfl⟩
    | true =>
      exact ⟨⟨ms, rfl⟩, rfl, rfl, rfl, rfl, rfl, (send_lastWork _ _).trans rfl, .inl rfl⟩

theorem indifferent_onSubmitWork {workID : Int} {header : BlockHeader} (hstage : s.stage = .idle)
    (htaken : workID = s.workID → ∀ i ∈ s.shared, i < s.feed.taken.length)
    (hs : s.onSubmitWork workID header = some s') : Indifferent s s' := by
  rcases onSubmitWork_eq_some hs with ⟨e, rfl⟩ | ⟨hid, b, hb, rfl⟩
  · exact ⟨⟨_, rfl⟩, rfl, rfl, rfl, rfl, rfl, (send_lastWork _ _).trans rfl, .inl rfl⟩
  · exact ⟨⟨_, overwrite_eq (htaken hid) header⟩, rfl, rfl, rfl, by simp [hb], rfl, rfl,
      .inr ⟨by rw [hstage]; rfl, rfl⟩⟩

/-- **One step.** -/
theorem Working.step (h : s.Working crypto prune U) (hl : s.Proper crypto U l)
    (hs : s.step hash64 crypto prune l = some s') : s'.Working crypto prune U := by
  cases l with
  | feed l =>
    obtain ⟨f, hf, rfl⟩ := feed_eq_some hs
    exact h.feed hl hf
  | filterLoad filterType filterBytes =>
    obtain ⟨-, rfl⟩ := filterLoad_eq_some hs
    exact h.indifferent ⟨⟨_, rfl⟩, rfl, rfl, rfl, rfl, rfl, rfl, .inl rfl⟩
  | filterAdd keys =>
    obtain ⟨-, filter, a, -, rfl⟩ := filterAdd_eq_some hs
    exact h.indifferent ⟨⟨_, rfl⟩, rfl, rfl, rfl, rfl, rfl, rfl, .inl rfl⟩
  | getFilterTransactionQueue =>
    obtain ⟨-, a, -, rfl⟩ := getFilterTransactionQueue_eq_some hs
    exact h.indifferent ⟨⟨_, rfl⟩, rfl, rfl, rfl, rfl, rfl, rfl, .inl rfl⟩
  | reply =>
    obtain ⟨a, -, -, rfl⟩ := reply_eq_some hs
    exact h.indifferent ⟨⟨_, rfl⟩, rfl, rfl, rfl, rfl, rfl, rfl, .inl rfl⟩
  | write =>
    obtain ⟨-, a, -, rfl⟩ := write_eq_some hs
    exact h.indifferent
      ⟨⟨_, rfl⟩, rfl, rfl, rfl, rfl, rfl, (send_lastWork _ _).trans rfl, .inl rfl⟩
  | takeTip =>
    obtain ⟨-, m, ms, hchan, rfl⟩ := takeTip_eq_some hs
    exact h.onTipChange hchan
  | takeTx =>
    obtain ⟨-, m, ms, -, hnew⟩ := takeTx_eq_some hs
    exact h.indifferent (indifferent_onNewTx hnew)
  | announce =>
    obtain ⟨m, hstage, hannounce⟩ := announce_eq_some hs
    exact h.indifferent (indifferent_announce hstage hannounce)
  | getWork pubKeys memo => exact h.onGetWork hl (getWork_eq_some hs).2
  | updateWorkCheck => exact h.updateWorkCheck (updateWorkCheck_eq_some hs).2
  | median keyIndex workID =>
    obtain ⟨tipID, tipHeader, change, pubKey, hstage, hkey, rfl⟩ := median_eq_some hs
    exact h.median hstage (List.mem_of_getElem? hkey) workID
  | readQueue =>
    obtain ⟨tipID, tipHeader, pubKey, change, hstage, rfl⟩ := readQueue_eq_some hs
    exact h.readQueue hstage
  | create draw =>
    obtain ⟨tipID, tipHeader, pubKey, txQueue, change, hstage, rfl⟩ := create_eq_some hs
    generalize hr : createNextBlock crypto draw tipID tipHeader txQueue s.feed.view.blockStore
      s.feed.view.ledger pubKey s.memo = r
    cases r with
    | ok b => exact h.create hstage hl hr
    | error e => exact h.createFailed change e
  | submitWork workID header =>
    obtain ⟨hstage, hsubmit⟩ := submitWork_eq_some hs
    exact h.indifferent (indifferent_onSubmitWork hstage hl hsubmit)
  | process now =>
    obtain ⟨workID, block, f, hstage, hf, rfl⟩ := process_eq_some hs
    have hfed := h.feed (l := .block block now s.addr) (hl _ _ hstage) hf
    exact hfed.indifferent ⟨⟨_, rfl⟩, rfl, rfl, rfl, rfl, rfl, rfl,
      .inr ⟨by rw [hstage]; rfl, rfl⟩⟩
  | submitted =>
    obtain ⟨workID, result, hstage, rfl⟩ := submitted_eq_some hs
    refine h.indifferent ⟨⟨_, rfl⟩, rfl, rfl, rfl, rfl, rfl, ?_,
      .inr ⟨by rw [hstage]; rfl, rfl⟩⟩
    cases result <;> exact (send_lastWork _ _).trans rfl

theorem Start.working (hg : genesisBlock.id crypto ≠ genesisBlock.header.previous)
    (h : Start crypto prune (Call.Ordinary crypto U) s) : s.Working crypto prune U := by
  obtain ⟨hfeed, hs⟩ := h
  obtain ⟨hrun, hf⟩ := id hfeed
  have hno : s.feed.NoOrphans := by
    rw [hf]
    intro p hp
    rw [List.mem_singleton.mp hp]
    exact hrun.orphan (fun _ _ _ hcall => hcall.2) hg
  refine ⟨hfeed.sound, hno, ?_, ?_, ?_, fun _ => ?_⟩
  · rw [hs]
    simp
  · rw [hs]
    exact ⟨rfl, Nat.zero_le _⟩
  · rw [hs]
    rintro (hwork | hwork) <;> exact absurd hwork (by simp [Stage.isBuilding])
  · rw [hs]
    exact fun txs htxs => absurd htxs (by simp)

end Steps

end PeerLoop

/-! ### A solution -/

section Accepted

variable {crypto : Crypto} {prune : Bool} {U : Set Transaction} {p : Processor} {r : Recipe}
  {b : Block} {minTime time nonce now : Int}

/-- The minimum time does not overflow. -/
theorem UpToDate.lt_time (h : UpToDate crypto p r b minTime)
    (hrun : Run crypto prune (Call.Ordinary crypto U) p) (hshows : p.Shows p.mainChain)
    (htime : minTime ≤ time) : computeMedianTimestamp r.tipHeader p.blockStore < time := by
  have hreach : Reachable crypto prune p := hrun.mono fun _ _ => trivial
  obtain ⟨c, K, hs⟩ := hreach.settled
  obtain ⟨t, ht, -, htip⟩ := h.tip
  rw [hs.mainChain_eq] at ht hshows
  have hline := hs.admitted.line hs.stored
  have hle : computeMedianTimestamp t.2.header p.blockStore ≤ maxNumber := by
    rw [computeMedianTimestamp_eq hline ht hshows.orphan]
    refine medianTime_le (by decide) fun x hx => ?_
    obtain ⟨storedAt, hx⟩ := hs.stored x hx
    refine (hrun.stored (R := fun b => b.header.time ≤ maxNumber) ?_ (by decide) hx).1
    exact fun b now source _ hsane => hsane.time_range.2
  have hnonneg : 0 ≤ computeMedianTimestamp t.2.header p.blockStore := by
    obtain ⟨storedAt, ht⟩ := hs.stored t (List.mem_of_mem_head? ht)
    refine hrun.computeMedianTimestamp_nonneg (hrun.stored (R := fun b => 0 ≤ b.header.time) ?_
      (by decide) ht).1
    exact fun b now source _ hsane => hsane.time_range.1
  have hmin := h.minTime
  rw [← htip] at hmin ⊢
  simp only [maxNumber] at hle
  rw [int64_of_fits ⟨by omega, by omega⟩] at hmin
  omega

/-- **A solution of work that is up to date is accepted.** -/
theorem UpToDate.accepted (h : UpToDate crypto p r b minTime) (time nonce : Int)
    (hU : CollisionFree crypto U) (hgU : genesisCoinbase ∈ U)
    (hrun : Run crypto prune (Call.Ordinary crypto U) p)
    (hreward : 0 < blockCreationReward b.header.height)
    (hwork : b.header.chainWork.toNat < 2 ^ 128)
    (hcheckpoint : checkpoints b.header.height = none)
    (hcoinbase : ∀ coinbase ∈ b.transactions.head?,
      coinbase ∈ U ∧ p.ledger.getTransactionIndex (coinbase.id crypto) = none)
    (hsolves : Solves crypto p r.tipHeader (b.solved time nonce) now)
    (hfree : Set.InjOn crypto.sum256 (insert (b.solved time nonce).header.json p.headerTexts))
    (source : String) :
    (p.step crypto prune (.block (b.solved time nonce) now source)).2 = .ok () ∧
      (p.step crypto prune (.block (b.solved time nonce) now source)).1.ledger.chainTip =
        some ((b.solved time nonce).id crypto, b.header.height) := by
  have hwithin : Run crypto prune (Call.Within U) p := hrun.mono fun _ hcall => hcall.1
  obtain ⟨c, K, hs⟩ := hwithin.settled fun call hcall => hcall.vouches hU
  have hsep := hwithin.separates hU hgU (fun tx htx => htx.1) hs.toPlaced
  obtain ⟨t, ht, htipID, htipHeader⟩ := h.tip
  rw [hs.mainChain_eq] at ht
  obtain ⟨t', d, rfl⟩ := List.exists_cons_of_ne_nil hs.admitted.ne_nil
  obtain rfl := Option.some.inj ht
  have hcreated := h.created
  rw [← htipID, ← htipHeader] at hcreated
  rw [← htipHeader] at hsolves
  obtain ⟨htarget, hchain, hroot, hprev, hheight, -, -, hcount, hshape⟩ :=
    (createNextBlock_ok_iff (s := { p with txQueue := r.txQueue })).mp hcreated
  have hlength : t'.2.header.height + 1 = ((t' :: d).length : Int) := by
    rw [hs.valid.head.height, List.length_cons]
    omega
  have hle := computeChainWork_eq_ok hchain
  have hwork' : t'.2.header.chainWork.toNat < 2 ^ 128 := by omega
  have hpos := hs.admitted.target_pos hwork'
  have hincl := hs.includable hsep
    ((r.txQueue.get_prefix (maxTransactionsToIncludePerBlock - 1).toNat).trans h.queue)
  have hlen := r.txQueue.get_length_le
    (show (maxTransactionsToIncludePerBlock - 1).toNat ≠ 0 by decide)
  dsimp only at hshape htarget
  generalize r.txQueue.get (maxTransactionsToIncludePerBlock - 1).toNat = txs at hincl hlen hshape
  rw [hlength] at hheight hshape
  rw [hheight] at hreward hcheckpoint ⊢
  obtain ⟨hmem, hindex⟩ := hcoinbase _ (by rw [hshape]; rfl)
  have hchecked := hincl.createCoinbase_checked hs.valid h.draw h.pubKey h.memo.1 h.memo.2 hreward
  have hmedian : 0 ≤ computeMedianTimestamp t'.2.header p.blockStore := by
    obtain ⟨storedAt, ht⟩ := hs.stored t' List.mem_cons_self
    refine hrun.computeMedianTimestamp_nonneg (hrun.stored (R := fun b => 0 ≤ b.header.time) ?_
      (by decide) ht).1
    exact fun b now source _ hsane => hsane.time_range.1
  have hsane : (b.solved time nonce).Sane crypto ((b.solved time nonce).id crypto) now :=
    hincl.sane (lt_of_le_of_lt (Int.ofNat_le.mpr hlen) (by decide)) hshape hchecked rfl hU hmem
      hheight hreward hcheckpoint hcount hroot hmedian hsolves
  have hmore : t'.2.header.chainWork.toNat < (b.solved time nonce).header.chainWork.toNat := by
    have := computeBlockWork_pos (computeTarget_pos hpos.1 hpos.2 hwork' htarget)
    show t'.2.header.chainWork.toNat < b.header.chainWork.toNat
    omega
  exact hs.extend_includable (b := b.solved time nonce) hwithin hU hincl hshape hsane
    (hs.unknown_of_work hfree hmore) hprev hheight htarget hchain hsolves.time_gt hmem hindex hmore
    source

end Accepted

/-- What a peer has to see to, at the time `now` of its submission.  It does not
choose the coinbase: there must be none like it on the chain. -/
structure Solution (crypto : Crypto) (U : Set Transaction) (p : Processor) (minTime : Int)
    (b : Block) (now : Int) : Prop where
  time_ge : minTime ≤ b.header.time
  time_le : b.header.time ≤ now + maxFutureSeconds
  now_range : 0 ≤ now ∧ now + maxFutureSeconds ≤ maxNumber
  nonce_range : 0 ≤ b.header.nonce ∧ b.header.nonce ≤ maxNumber
  pow : b.checkPOW (b.id crypto) = true
  reward : 0 < blockCreationReward b.header.height
  work : b.header.chainWork.toNat < 2 ^ 128
  checkpoint : checkpoints b.header.height = none
  coinbase : ∀ coinbase ∈ b.transactions.head?,
    coinbase ∈ U ∧ p.ledger.getTransactionIndex (coinbase.id crypto) = none
  distinct : Set.InjOn crypto.sum256 (insert b.header.json p.headerTexts)

namespace PeerLoop

variable {hash64 : List UInt8 → UInt64 → UInt64} {crypto : Crypto} {prune : Bool}
  {U : Set Transaction} {s : PeerLoop}

/-- **The work that is out is up to date** once nothing is under way. -/
theorem Working.issued (h : s.Working crypto prune U) (hidle : s.stage = .idle)
    (hquiet : s.feed.underWay = []) {b : Block} (hb : s.workBlock = some b) :
    s.Issued crypto b.transactions := by
  have hprepared := h.prepared hquiet
  rw [prepared_iff_of_isBuilding_eq_false (by rw [hidle]; rfl)] at hprepared
  exact hprepared _ (by rw [hb]; rfl)

/-- **Solved work is accepted.**  At a point where the loop and the processor
are at rest, the last work that a peer was sent is for a block on the tip.  With
any time and nonce that solve it, the peer gets the block accepted as the new
tip, though it has never seen the transactions. -/
theorem solved_work_accepted (hU : CollisionFree crypto U) (hgU : genesisCoinbase ∈ U)
    (hg : genesisBlock.id crypto ≠ genesisBlock.header.previous)
    (h : Reach (Start crypto prune (Call.Ordinary crypto U)) (step hash64 crypto prune)
      (Proper crypto U) s)
    (hidle : s.stage = .idle) (hrest : s.feed.rest = []) (hout : s.feed.outbox = [])
    (hchan : s.feed.tipChangeChan = []) {b : Block} (hb : s.workBlock = some b)
    (hid : s.workID ≠ 0) :
    ∃ header minTime, s.lastWork = some (s.workID, header, minTime) ∧
      s.feed.processor.ledger.chainTip = some (header.previous, header.height - 1) ∧
      ∀ time nonce now,
        Solution crypto U s.feed.processor minTime
          ⟨{ header with time := time, nonce := nonce }, b.transactions⟩ now →
        ∃ s₁ s₂, s.step hash64 crypto prune
            (.submitWork s.workID { header with time := time, nonce := nonce }) = some s₁ ∧
          s₁.step hash64 crypto prune (.process now) = some s₂ ∧
          s₂.stage = .awaiting s.workID (.ok ()) ∧
          s₂.feed.processor.ledger.chainTip =
            some (({ header with time := time, nonce := nonce } : BlockHeader).id crypto,
              header.height) := by
  have hworking : s.Working crypto prune U :=
    h.invariant (fun _ hs => hs.working hg) fun _ _ _ h hl hs => h.step hl hs
  have hquiet : s.feed.underWay = [] := by
    simp [Feed.underWay, Feed.outboxTips, hchan, hout, hworking.sound.view_eq hrest,
      Processor.sent]
  obtain ⟨header, minTime, r, hlast, hfresh⟩ := hworking.issued hidle hquiet hb
  have htip : s.feed.processor.ledger.chainTip = some (header.previous, header.height - 1) := by
    obtain ⟨t, ht, htipID, htipHeader⟩ := hfresh.tip
    obtain ⟨-, -, -, hprev, hheight, -⟩ := (createNextBlock_ok_iff
      (s := { s.feed.processor with txQueue := r.txQueue })).mp hfresh.created
    obtain ⟨c, K, hs⟩ := hworking.sound.reachable.settled
    rw [hs.mainChain_eq] at ht
    obtain ⟨t', d, rfl⟩ := List.exists_cons_of_ne_nil hs.admitted.ne_nil
    obtain rfl := Option.some.inj ht
    have htall := hs.valid.head.height
    rw [← htipHeader] at hheight
    simp only at hprev hheight
    rw [hs.describes.chainTip, hprev, hheight, ← htipID, List.length_cons]
    simp [htall]
  refine ⟨header, minTime, hlast, htip, fun time nonce now hsol => ?_⟩
  have haccepted := hfresh.accepted time nonce hU hgU hworking.sound.run hsol.reward hsol.work
    hsol.checkpoint hsol.coinbase
    ⟨hfresh.lt_time hworking.sound.run hworking.shows hsol.time_ge, hsol.time_le, hsol.now_range,
      hsol.nonce_range, hsol.pow⟩ hsol.distinct s.addr
  generalize hsolved : Block.solved ⟨header, b.transactions⟩ time nonce = solved at haccepted
  obtain ⟨hok, hnew⟩ := haccepted
  have hsubmit : s.step hash64 crypto prune (.submitWork s.workID solved.header) =
      some { s with workBlock := some solved, stage := .submitting s.workID solved } := by
    rw [← hsolved]
    simp only [step, hidle, onSubmitWork, if_neg hid, ne_eq, not_true_eq_false, if_false, hb,
      overwrite_of_chan hchan]
    rfl
  have hprocess : ({ s with workBlock := some solved, stage := .submitting s.workID solved } :
      PeerLoop).step hash64 crypto prune (.process now) =
      some { s with
        workBlock := some solved
        feed := { s.feed with
          processor := (s.feed.processor.step crypto prune (.block solved now s.addr)).1
          rest := s.feed.processor.blockMoves crypto prune solved now s.addr }
        shared := s.shared ++ sharedBy s.feed.processor
          (s.feed.processor.step crypto prune (.block solved now s.addr)).1 (solved.id crypto)
        stage := .awaiting s.workID
          (s.feed.processor.step crypto prune (.block solved now s.addr)).2 } := by
    simp only [step, Feed.step, hrest, hout]
    rfl
  have hheader : ({ header with time := time, nonce := nonce } : BlockHeader) = solved.header := by
    rw [← hsolved]
    rfl
  rw [hheader]
  exact ⟨_, _, hsubmit, hprocess, by rw [hok], hnew⟩

end PeerLoop

/-! ### A peer mines the queued transfer -/

namespace Sample

/-- A mining peer that was sent its first work. -/
def worker (p : Processor) (b : Block) : PeerLoop :=
  ⟨⟨p, p, [], [], [], []⟩, "miner", none, none, none, [miner], [], 7, some b, [],
    computeMedianTimestamp (entry 0 100).2.header p.blockStore, .idle,
    [.work 7 (.ok (b.header,
      int64 (computeMedianTimestamp (entry 0 100).2.header p.blockStore + 1)))]⟩

/-- The peer asks for work and is sent some. -/
theorem worker_reached {p : Processor} {b : Block} {tipWhen : Int}
    (hp : Run crypto false (Call.Ordinary crypto mined) p)
    (htip : p.getChainTipHeader = .ok ((entry 0 100).1, (entry 0 100).2.header, tipWhen))
    (hb : createNextBlock crypto draw (entry 0 100).1 (entry 0 100).2.header p.txQueue
      p.blockStore p.ledger miner [] = .ok b) :
    Reach (PeerLoop.Start crypto false (Call.Ordinary crypto mined))
      (PeerLoop.step Cuckoo.Sample.hash64 crypto false) (PeerLoop.Proper crypto mined)
      (worker p b) := by
  generalize (entry 0 100).1 = tipID at htip hb
  unfold worker
  generalize (entry 0 100).2.header = tipHeader at htip hb ⊢
  have hkey : ∀ pubKey ∈ [miner], pubKey.length = publicKeySize := by decide
  have hstart : PeerLoop.Start crypto false (Call.Ordinary crypto mined)
      ⟨⟨p, p, [], [], [], []⟩, "miner", none, none, none, [], [], 0, none, [], 0, .idle, []⟩ :=
    ⟨⟨hp, rfl⟩, rfl⟩
  have hasked : PeerLoop.step Cuckoo.Sample.hash64 crypto false
      ⟨⟨p, p, [], [], [], []⟩, "miner", none, none, none, [], [], 0, none, [], 0, .idle, []⟩
      (.getWork [miner] []) = some
      ⟨⟨p, p, [], [], [], []⟩, "miner", none, none, none, [miner], [], 0, none, [], 0,
        .median tipID tipHeader none, []⟩ := by
    simp only [PeerLoop.step, PeerLoop.onGetWork, htip]
    rfl
  have hmedian : Reach (PeerLoop.Start crypto false (Call.Ordinary crypto mined))
      (PeerLoop.step Cuckoo.Sample.hash64 crypto false) (PeerLoop.Proper crypto mined) _ :=
    Reach.next (l := PeerEvent.median 0 7)
      (.next (l := .getWork [miner] []) (.init hstart) ⟨hkey, rfl⟩ hasked) trivial rfl
  have hqueue := Reach.next (l := PeerEvent.readQueue) hmedian trivial rfl
  refine Reach.next (l := PeerEvent.create draw) hqueue
    (show draw.Possible from ⟨by decide, by decide⟩) ?_
  simp only [PeerLoop.step, hb]
  rfl

theorem ordinary_of_offers {p : Processor} (hrun : Run crypto false Offers p) :
    Run crypto false (Call.Ordinary crypto mined) p := by
  refine hrun.mono fun call hcall => ⟨fun tx htx => Or.inr (hcall.within tx htx), ?_⟩
  rcases hcall with ⟨n, hn, rfl⟩ | rfl
  · show (entry 0 n).2.id crypto ≠ _
    rw [entry_id]
    exact entry_ne_null hn
  · trivial

theorem genesis_ne_null : genesisBlock.id crypto ≠ genesisBlock.header.previous := by
  have hid := entry_id 0 0
  rw [show (entry 0 0).2 = genesisBlock from rfl] at hid
  rw [hid]
  exact entry_ne_null (by omega)

/-- The block that is created on top of the sample chain. -/
structure Created (p : Processor) (b : Block) : Prop where
  ok : createNextBlock crypto draw (entry 0 100).1 (entry 0 100).2.header p.txQueue p.blockStore
    p.ledger miner [] = .ok b
  height : b.header.height = 101
  target : b.header.target = genesisBlock.header.target
  chainWork : b.header.chainWork.toNat < 2 ^ 128
  transactions : b.transactions = [minedCoinbase, offer]

theorem exists_created {p : Processor} (hqueue : p.txQueue.transactions = [offer]) :
    ∃ b, Created p b := by
  have htarget := computeTarget_hundred p.blockStore p.ledger
  have hless : (entry 0 100).2.header.chainWork.toNat < 2 ^ 128 := by
    rw [entry_chainWork]
    decide
  have hpos : 0 < genesisBlock.header.target.toNat := by decide
  obtain ⟨work, hwork⟩ := computeChainWork_ok hpos hless
  obtain ⟨b, hb⟩ : ∃ b, createNextBlock crypto draw (entry 0 100).1 (entry 0 100).2.header
      p.txQueue p.blockStore p.ledger miner [] = .ok b := exists_createNextBlock htarget hwork
  obtain ⟨htarget', hwork', -, -, hheight, -, -, -, hshape⟩ := createNextBlock_ok_iff.mp hb
  rw [get_offer hqueue, entry_height] at hshape
  rw [entry_height] at hheight
  have heq : genesisBlock.header.target = b.header.target :=
    Except.ok.inj (htarget.symm.trans htarget')
  refine ⟨b, hb, hheight, heq.symm, ?_, hshape⟩
  rw [computeChainWork_eq_ok hwork', ← heq, entry_chainWork]
  decide

theorem solved_id (header : BlockHeader) :
    ({ header with time := time 101, nonce := 0 } : BlockHeader).id crypto =
      BitVec.ofNat 256 (time 101).natAbs :=
  header_id (show 0 ≤ time 101 by decide)

/-- With the time of the next block it is solved. -/
theorem Created.solution {p : Processor} {b : Block} (hb : Created p b)
    (hrun : Run crypto false Offers p)
    (hs : Settled crypto false (fun _ => True) (Run crypto false (Delivers 0)) p (chain 0 100)
      {id | id ∈ (chain 0 100).ids}) :
    Solution crypto mined p (int64 (computeMedianTimestamp (entry 0 100).2.header p.blockStore + 1))
      ⟨{ b.header with time := time 101, nonce := 0 }, b.transactions⟩ (time 101) where
  time_ge := by
    have hmedian := median_lt hrun hs
    have hmedian₀ : 0 ≤ computeMedianTimestamp (entry 0 100).2.header p.blockStore :=
      hrun.computeMedianTimestamp_nonneg (by rw [entry_time]; decide)
    have hbound : time 101 < 2 ^ 31 := by decide
    rw [int64_of_fits ⟨by omega, by omega⟩]
    exact hmedian
  time_le := show time 101 ≤ time 101 + maxFutureSeconds by decide
  now_range := by decide
  nonce_range := ⟨le_rfl, show 0 ≤ maxNumber by decide⟩
  pow := by
    show decide (BitVec.toNat (BlockHeader.id crypto _) ≤ b.header.target.toNat) = true
    rw [solved_id, hb.target]
    decide
  reward := by
    show 0 < blockCreationReward b.header.height
    rw [hb.height]
    decide
  work := hb.chainWork
  checkpoint := by
    show checkpoints b.header.height = none
    rw [hb.height]
    decide
  coinbase := by
    rw [hb.transactions]
    rintro _ ⟨⟩
    exact ⟨Or.inl rfl, minedCoinbase_unindexed hs⟩
  distinct := headerTexts_injOn hrun rfl

end Sample

/-- **A peer's solution confirms the queued transfer.** -/
theorem submitted_block_of_offered_transfer :
    ∃ (s s₁ s₂ : PeerLoop) (header : BlockHeader),
      s.lastWork = some (7, header, int64 (computeMedianTimestamp (Sample.entry 0 100).2.header
        s.feed.processor.blockStore + 1)) ∧
      s.workBlock.map Block.transactions = some [Sample.minedCoinbase, Sample.offer] ∧
      s.step Cuckoo.Sample.hash64 Sample.crypto false
        (.submitWork 7 { header with time := Sample.time 101, nonce := 0 }) = some s₁ ∧
      s₁.step Cuckoo.Sample.hash64 Sample.crypto false (.process (Sample.time 101)) = some s₂ ∧
      s₂.stage = .awaiting 7 (.ok ()) ∧
      s₂.feed.processor.ledger.chainTip =
        some (BitVec.ofNat 256 (Sample.time 101).natAbs, 101) := by
  obtain ⟨p, hrun, hs, hqueue⟩ := Sample.exists_offered
  obtain ⟨b, hb⟩ := Sample.exists_created hqueue
  obtain ⟨storedAt, ht⟩ := hs.stored (Sample.entry 0 100) List.mem_cons_self
  have hgU : genesisCoinbase ∈ Sample.mined :=
    Or.inr (Or.inr ⟨0, by omega, List.mem_singleton.mpr rfl⟩)
  have hreached := Sample.worker_reached (Sample.ordinary_of_offers hrun)
    (hs.getChainTipHeader ht) hb.ok
  obtain ⟨header, minTime, hlast, -, hsolved⟩ :=
    PeerLoop.solved_work_accepted Sample.mined_collisionFree hgU Sample.genesis_ne_null hreached
      rfl rfl rfl rfl rfl (show (7 : Int) ≠ 0 by decide)
  obtain ⟨rfl, rfl⟩ : b.header = header ∧
      int64 (computeMedianTimestamp (Sample.entry 0 100).2.header p.blockStore + 1) = minTime := by
    simpa [Sample.worker, PeerLoop.lastWork, PeerMessage.toWork] using hlast
  obtain ⟨s₁, s₂, hsubmit, hprocess, hstage, htip⟩ :=
    hsolved (Sample.time 101) 0 (Sample.time 101) (hb.solution hrun hs)
  rw [Sample.solved_id, hb.height] at htip
  exact ⟨Sample.worker p b, s₁, s₂, b.header, hlast, congrArg some hb.transactions, hsubmit,
    hprocess, hstage, htip⟩

end Cruzbit

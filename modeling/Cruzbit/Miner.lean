/-
Cruzbit/Miner.lean

The miner's main loop (`miner.go`) next to the processor.

A transaction reaches the miner twice: in the queue that it reads when it
starts a block, and in a message that it takes some time later.  The messages
about tips and about transactions come through two channels, and the queue,
the ledger and the block storage change while it reads them.

If a block is started only while no call and no message about a transaction
is under way and on the current tip, and if transactions are added to it only
until the processor moves again, the block stays clean: what it holds and
what the messages bring is in the queue, each once (`Drafting.undisturbed`).
Then it never holds a transaction twice or one that is confirmed below it
(`draft_clean`).  The code does none of this.  A block started between the
queueing of a transaction and the message about it gets it twice
(`offer_included_twice`).
-/
import Cruzbit.Checkpoints
import Cruzbit.Deadlock
import Cruzbit.Mining
import Cruzbit.Moves
import Cruzbit.WorkBlock

namespace Cruzbit

open Chain Transition Word

/-! ### The two goroutines -/

/-- The processor and a miner.  While the processor works on a block, `rest` are
the states it has still to pass. -/
structure Workshop where
  /-- The processor after the call. -/
  processor : Processor
  /-- What the miner can read now. -/
  view : Processor
  rest : List Processor
  /-- What the processor sends next. -/
  outbox : List Notice
  tipChangeChan : List TipChange
  newTxChan : List NewTx
  /-- The tip that the miner is about to build on. -/
  tip : Option (BlockID × BlockHeader)
  /-- The block under construction. -/
  work : Option WorkBlock
  /-- History: the processor has moved since the block was started. -/
  disturbed : Bool

inductive WorkStep
  /-- The processor takes up a block. -/
  | block (b : Block) (now : Int) (source : String)
  /-- The processor takes up a transaction and queues it or not. -/
  | transaction (tx : Transaction) (source : String)
  /-- The processor goes on with its block. -/
  | move
  /-- The processor sends a message to the miner. -/
  | notify
  /-- The miner takes a message about a tip. -/
  | takeTip
  /-- The miner takes a message about a transaction. -/
  | takeTx
  /-- The miner looks for the tip to start working off of. -/
  | readTip
  /-- The miner starts a new block. -/
  | build (draw : Draw) (pubKey : PublicKey) (memo : List UInt8)
  /-- The miner changes time or nonce. -/
  | update (time nonce : Int)
  /-- The miner has found a solution, and gives the block away. -/
  | submit

namespace Workshop

variable (crypto : Crypto) (prune : Bool)

/-- Add a transaction to the block under construction. -/
def includeTx (s : Workshop) (m : NewTx) : Workshop :=
  match s.work with
  -- we're not working on a block yet
  | none => s
  | some w =>
    if maxTransactionsToIncludePerBlock ≠ 0 ∧
        (w.block.transactions.length : Int) ≥ maxTransactionsToIncludePerBlock then
      s
    else
      match w.addTransaction crypto m.transactionID m.transaction with
      | .ok w => { s with work := some w }
      -- abandon the block
      | .error _ => { s with work := none }

def step (s : Workshop) : WorkStep → Option Workshop
  | .block b now source =>
    match s.rest, s.outbox with
    | [], [] =>
      some
        { s with
          processor := (s.processor.step crypto prune (.block b now source)).1
          rest := s.processor.blockMoves crypto prune b now source }
    | _, _ => none
  | .transaction tx source =>
    match s.rest, s.outbox with
    | [], [] =>
      let processor := (s.processor.step crypto prune (.transaction tx)).1
      some
        { s with
          processor := processor
          view := processor
          outbox := (Live.newTx crypto s.processor processor tx source).toList.map .newTx }
    | _, _ => none
  | .move =>
    match s.rest, s.outbox with
    | p :: ps, [] =>
      some
        { s with
          view := p
          rest := ps
          outbox := (s.view.sent p).map .tipChange
          disturbed := true }
    | _, _ => none
  | .notify =>
    match s.outbox with
    | .tipChange m :: ms =>
      if s.tipChangeChan.length < ListenerKind.miner.capacity .tipChange then
        some { s with outbox := ms, tipChangeChan := s.tipChangeChan ++ [m] }
      else none
    | .newTx m :: ms =>
      if s.newTxChan.length < ListenerKind.miner.capacity .newTx then
        some { s with outbox := ms, newTxChan := s.newTxChan ++ [m] }
      else none
    | [] => none
  | .takeTip =>
    match s.tip, s.tipChangeChan with
    | none, m :: ms =>
      -- only build off newly connected tip blocks
      if m.connect = false ∨ m.more = true then some { s with tipChangeChan := ms }
      else some { s with tipChangeChan := ms, tip := some (m.blockID, m.block.header) }
    | _, _ => none
  | .takeTx =>
    match s.tip, s.newTxChan with
    | none, m :: ms => some ({ s with newTxChan := ms }.includeTx crypto m)
    | _, _ => none
  | .readTip =>
    match s.tip, s.work, s.view.getChainTipHeader with
    | none, none, .ok (tipID, tipHeader, _) => some { s with tip := some (tipID, tipHeader) }
    | _, _, _ => none
  | .build draw pubKey memo =>
    match s.tip with
    | some (tipID, tipHeader) =>
      match createNextBlock crypto draw tipID tipHeader s.view.txQueue s.view.blockStore
          s.view.ledger pubKey memo with
      | .ok b =>
        some
          { s with
            tip := none
            work := some ⟨b, hashedIDs crypto b.transactions.tail⟩
            disturbed := false }
      | .error _ => none
    | none => none
  | .update time nonce =>
    match s.tip, s.work with
    | none, some w => some { s with work := some { w with block := w.block.solved time nonce } }
    | _, _ => none
  | .submit =>
    match s.tip, s.work with
    | none, some _ => some { s with work := none }
    | _, _ => none

/-- The miner has registered, the processor has been running. -/
def Start (U : Set Transaction) (s : Workshop) : Prop :=
  Run crypto prune (Call.Within U) s.processor ∧
    s = ⟨s.processor, s.processor, [], [], [], [], none, none, false⟩

/-- The transactions that messages are under way about. -/
def pendingTxs (s : Workshop) : List Transaction :=
  s.newTxChan.map NewTx.transaction ++ s.outbox.filterMap fun
    | .newTx m => some m.transaction
    | .tipChange _ => none

/-- **What the block under construction should be**: on a path of stored blocks,
without a transaction twice or one confirmed on the path. -/
def Clean (s : Workshop) : Prop :=
  ∀ w, s.work = some w → ∃ c, PreviousPath crypto s.view.blockStore c ∧
    c.head?.map Prod.fst = some w.block.header.previous ∧
    (w.block.txIDs crypto).Nodup ∧
    ∀ y ∈ c, ∀ id ∈ w.block.txIDs crypto, id ∉ y.2.txIDs crypto

/-- **The condition on a step.**  The hash tells the transactions in `U` apart,
and all transactions are among them. -/
def Careful (U : Set Transaction) (s : Workshop) : WorkStep → Prop
  | .block b now source => (Call.block b now source).Within U
  | .transaction tx _ => (Call.transaction tx).Within U
  | .build draw pubKey memo =>
    -- no call and no message about a transaction is under way
    s.rest = [] ∧ s.pendingTxs = [] ∧
    ∀ tipID tipHeader, s.tip = some (tipID, tipHeader) →
      -- the tip is the current one
      s.view.ledger.chainTip.map Prod.fst = some tipID ∧
      -- no coinbase of the chain was drawn alike
      (∀ y ∈ s.view.mainChain, ∀ tx ∈ y.2.transactions, tx.isCoinbase = true →
        ¬ (tx.time = draw.txTime ∧ tx.nonce = draw.txNonce)) ∧
      createCoinbase draw (tipHeader.height + 1) pubKey memo
        (s.view.txQueue.get (maxTransactionsToIncludePerBlock - 1).toNat) ∈ U
  | .takeTx =>
    ∀ w, s.work = some w →
      -- the processor has not moved since the block was started
      s.disturbed = false ∧
      ∀ m ∈ s.newTxChan.head?, ∀ coinbase ∈ w.block.transactions.head?,
        { coinbase with amount := int64 (coinbase.amount + m.transaction.fee) } ∈ U
  | _ => True

end Workshop

/-! ### A draft -/

section Draft

variable {crypto : Crypto} {U : Set Transaction} {c : Chain} {coinbase tx : Transaction}
  {txs : List Transaction}

/-- A coinbase and transactions for a block on top of the chain. -/
structure Draft (crypto : Crypto) (U : Set Transaction) (c : Chain) (coinbase : Transaction)
    (txs : List Transaction) : Prop where
  coinbase_mem : coinbase ∈ U
  isCoinbase : coinbase.isCoinbase = true
  mem : ∀ tx ∈ txs, tx ∈ U
  checked : ∀ tx ∈ txs, tx.Checked ∧ tx.isCoinbase = false
  nodup : (txs.map (Transaction.id crypto)).Nodup
  unconfirmed : ∀ tx ∈ txs, ∀ y ∈ c, tx.id crypto ∉ y.2.txIDs crypto
  chain_mem : ∀ y ∈ c, ∀ tx ∈ y.2.transactions, tx ∈ U ∧ tx.Checked
  fresh : ∀ y ∈ c, ∀ tx ∈ y.2.transactions, tx.isCoinbase = true →
    ¬ (tx.time = coinbase.time ∧ tx.nonce = coinbase.nonce)

theorem Transaction.time_nonce_of_idJson {tx tx' : Transaction} (h : tx.idJson = tx'.idJson) :
    tx.time = tx'.time ∧ tx.nonce = tx'.nonce := by
  obtain ⟨htime, hrest⟩ := decimal_append_inj (List.append_cancel_left h)
  obtain ⟨hnonce, -⟩ := decimal_append_inj (List.append_cancel_left hrest)
  exact ⟨htime, hnonce⟩

/-- **A draft is clean.** -/
theorem Draft.clean (h : Draft crypto U c coinbase txs) (hU : CollisionFree crypto U) :
    ((coinbase :: txs).map (Transaction.id crypto)).Nodup ∧
      ∀ y ∈ c, ∀ id ∈ (coinbase :: txs).map (Transaction.id crypto), id ∉ y.2.txIDs crypto := by
  refine ⟨nodup_ids_cons hU h.coinbase_mem h.isCoinbase h.mem h.checked h.nodup, ?_⟩
  intro y hy id hid
  rcases List.mem_cons.mp hid with rfl | hid
  · intro hconfirmed
    obtain ⟨tx, htx, heq⟩ := List.mem_map.mp hconfirmed
    obtain ⟨hmem, hchecked⟩ := h.chain_mem y hy tx htx
    cases hcb : tx.isCoinbase with
    | true =>
      exact h.fresh y hy tx htx hcb
        (Transaction.time_nonce_of_idJson (hU.idJson_eq hmem h.coinbase_mem heq))
    | false => exact hU.id_ne_coinbase hmem h.coinbase_mem hchecked hcb h.isCoinbase heq
  · obtain ⟨tx, htx, rfl⟩ := List.mem_map.mp hid
    exact h.unconfirmed tx htx y hy

variable {prune : Bool} {Q : Processor → Prop} {s : Processor} {K : Set BlockID}

/-- What is queued can go into a block on the main chain, in the order of the
queue. -/
theorem Settled.draft (h : Settled crypto prune (Verified crypto U) Q s c K)
    (hsep : Separates crypto (Verified crypto U) s.blockStore K U)
    (htxs : txs.Sublist s.txQueue.transactions) (hmem : coinbase ∈ U)
    (hcb : coinbase.isCoinbase = true)
    (hfresh : ∀ y ∈ c, ∀ tx ∈ y.2.transactions, tx.isCoinbase = true →
      ¬ (tx.time = coinbase.time ∧ tx.nonce = coinbase.nonce)) :
    Draft crypto U c coinbase txs where
  coinbase_mem := hmem
  isCoinbase := hcb
  mem tx htx := by
    obtain ⟨e, he, rfl⟩ := List.mem_map.mp (htxs.subset htx)
    exact (h.vouched e he).1
  checked tx htx := h.queue.transactions_checked tx (htxs.subset htx)
  nodup := (htxs.map _).nodup h.queue.ids_nodup
  unconfirmed tx htx := by
    obtain ⟨e, he, rfl⟩ := List.mem_map.mp (htxs.subset htx)
    exact h.unconfirmed U hsep e he
  chain_mem y hy tx htx := by
    obtain ⟨storedAt, hstored⟩ := h.stored y hy
    have hknown := h.describes.known _ (List.mem_map_of_mem hy)
    exact ⟨(hsep.inSeries y.1 hknown _ hstored tx htx).1,
      (h.valid.mem_wellFormed hy).checked tx htx⟩
  fresh := hfresh

end Draft

/-! ### What holds in every state -/

/-- A path goes on being one while its blocks stay in storage. -/
theorem PreviousPath.of_stored {crypto : Crypto} {blockStore blockStore' : BlockStorage} {c : Chain}
    (h : PreviousPath crypto blockStore c)
    (hsame : ∀ y ∈ c, blockStore'[y.1]? = blockStore[y.1]?) : PreviousPath crypto blockStore' c := by
  refine ⟨fun y hy => ?_, h.linked, h.genesis⟩
  obtain ⟨storedAt, hy'⟩ := h.stored y hy
  exact ⟨storedAt, (hsame y hy).trans hy'⟩

/-- Adding a transaction appends it and enters its ID, or leaves both alone. -/
theorem TransactionQueue.add_cases (getPublicKeyBalance : PublicKey → Res Int)
    (q : TransactionQueue) (id : TransactionID) (tx : Transaction) :
    ((q.add getPublicKeyBalance id tx).1.transactions = q.transactions ∧
      (q.add getPublicKeyBalance id tx).1.txMap = q.txMap) ∨
    (q.txMap.contains id = false ∧
      (q.add getPublicKeyBalance id tx).1.transactions = q.transactions ++ [tx] ∧
      (q.add getPublicKeyBalance id tx).1.txMap.contains id = true) := by
  unfold add
  cases hid : q.txMap.contains id with
  | true => exact .inl ⟨rfl, rfl⟩
  | false =>
    rcases q.balanceCache.apply getPublicKeyBalance tx with ⟨b, e | added⟩
    · exact .inl ⟨rfl, rfl⟩
    · cases added with
      | false => exact .inl ⟨rfl, rfl⟩
      | true =>
        refine .inr ⟨rfl, ?_, ?_⟩
        · simp [transactions, pushBack]
        · simp [pushBack]

/-- A transaction is queued at the end and announced, or nothing happens to
the queue. -/
theorem newTx_cases (crypto : Crypto) (prune : Bool) (s : Processor) (tx : Transaction)
    (source : String) :
    ((s.step crypto prune (.transaction tx)).1.txQueue.transactions = s.txQueue.transactions ∧
      Live.newTx crypto s (s.step crypto prune (.transaction tx)).1 tx source = none) ∨
    ((s.step crypto prune (.transaction tx)).1.txQueue.transactions =
        s.txQueue.transactions ++ [tx] ∧
      Live.newTx crypto s (s.step crypto prune (.transaction tx)).1 tx source =
        some ⟨tx.id crypto, tx, source⟩) := by
  have hsame {s' : Processor} (h : s'.txQueue.txMap = s.txQueue.txMap) :
      Live.newTx crypto s s' tx source = none := by
    rw [Live.newTx, if_neg]
    rintro ⟨hbefore, hafter⟩
    rw [h, hbefore] at hafter
    exact absurd hafter Bool.false_ne_true
  simp only [Processor.step, Processor.processTransaction]
  cases s.processTransactionChecks crypto (tx.id crypto) tx with
  | error e => exact .inl ⟨rfl, hsame rfl⟩
  | ok =>
    have hcases := TransactionQueue.add_cases s.ledger.getPublicKeyBalance s.txQueue
      (tx.id crypto) tx
    dsimp only
    generalize s.txQueue.add s.ledger.getPublicKeyBalance (tx.id crypto) tx = r at hcases ⊢
    obtain ⟨q, e | added⟩ := r
    · rcases hcases with ⟨htxs, hmap⟩ | ⟨hbefore, htxs, hafter⟩
      · exact .inl ⟨htxs, hsame hmap⟩
      · exact .inr ⟨htxs, if_pos ⟨hbefore, hafter⟩⟩
    · rcases hcases with ⟨htxs, hmap⟩ | ⟨hbefore, htxs, hafter⟩
      · exact .inl ⟨htxs, hsame hmap⟩
      · exact .inr ⟨htxs, if_pos ⟨hbefore, hafter⟩⟩

namespace Workshop

variable {crypto : Crypto} {prune : Bool} {U : Set Transaction} {s s' : Workshop}
  {w : WorkBlock} {c : Chain} {l : WorkStep}

/-- The block under construction is a draft on a path of known blocks.  Until
the processor moves, the path is the main chain, and what the block holds and
what messages are under way about is in the queue, in this order. -/
structure Drafting (crypto : Crypto) (U : Set Transaction) (s : Workshop) (w : WorkBlock)
    (c : Chain) : Prop where
  draft : ∃ coinbase txs, w.block.transactions = coinbase :: txs ∧ Draft crypto U c coinbase txs
  previous : c.head?.map Prod.fst = some w.block.header.previous
  path : PreviousPath crypto s.view.blockStore c
  later : ∀ p ∈ s.rest, PreviousPath crypto p.blockStore c
  known : ∀ y ∈ c, s.processor.ledger.Known y.1
  undisturbed : s.disturbed = false → s.view.mainChain = c ∧
    (w.block.transactions.tail ++ s.pendingTxs).Sublist s.view.txQueue.transactions

structure Orderly (crypto : Crypto) (prune : Bool) (U : Set Transaction) (s : Workshop) : Prop where
  run : Cruzbit.Run crypto prune (Call.Within U) s.processor
  last : s.rest.getLastD s.view = s.processor
  settled : s.disturbed = false → Cruzbit.Run crypto prune (Call.Within U) s.view
  drafting : ∀ w, s.work = some w → ∃ c, s.Drafting crypto U w c

theorem Orderly.clean (h : s.Orderly crypto prune U) (hU : CollisionFree crypto U) :
    s.Clean crypto := by
  intro w hw
  obtain ⟨c, hc⟩ := h.drafting w hw
  obtain ⟨coinbase, txs, hshape, hdraft⟩ := hc.draft
  have hclean := hdraft.clean hU
  rw [← hshape] at hclean
  exact ⟨c, hc.path, hc.previous, hclean⟩

/-- Between two calls others see the processor itself. -/
theorem Orderly.view_eq (h : s.Orderly crypto prune U) (hrest : s.rest = []) :
    s.view = s.processor := by
  have hlast := h.last
  rwa [hrest] at hlast

/-- Only what the processor does to the databases matters to a draft. -/
theorem Drafting.of_eq (h : s.Drafting crypto U w c) (hview : s'.view = s.view)
    (hrest : s'.rest = s.rest) (hprocessor : s'.processor = s.processor)
    (hdisturbed : s'.disturbed = s.disturbed) (hpending : s'.pendingTxs = s.pendingTxs) :
    s'.Drafting crypto U w c := by
  refine ⟨h.draft, h.previous, ?_, ?_, ?_, ?_⟩
  · rw [hview]
    exact h.path
  · rw [hrest]
    exact h.later
  · rw [hprocessor]
    exact h.known
  · rw [hview, hdisturbed, hpending]
    exact h.undisturbed

theorem Orderly.of_eq (h : s.Orderly crypto prune U) (hview : s'.view = s.view)
    (hrest : s'.rest = s.rest) (hprocessor : s'.processor = s.processor)
    (hdisturbed : s'.disturbed = s.disturbed) (hpending : s'.pendingTxs = s.pendingTxs)
    (hwork : s'.work = s.work ∨ s'.work = none) : s'.Orderly crypto prune U := by
  refine ⟨by rw [hprocessor]; exact h.run, by rw [hrest, hview, hprocessor]; exact h.last,
    by rw [hdisturbed, hview]; exact h.settled, fun w hw => ?_⟩
  rcases hwork with hwork | hwork
  · obtain ⟨c, hc⟩ := h.drafting w (hwork ▸ hw)
    exact ⟨c, hc.of_eq hview hrest hprocessor hdisturbed hpending⟩
  · rw [hwork] at hw
    exact absurd hw nofun

/-- The processor takes up a block: the states it will pass keep the path. -/
theorem Orderly.block (h : s.Orderly crypto prune U) (hU : CollisionFree crypto U)
    {b : Block} {now : Int} {source : String} (hwithin : (Call.block b now source).Within U)
    (hs : s.step crypto prune (.block b now source) = some s') : s'.Orderly crypto prune U := by
  simp only [step] at hs
  split at hs
  · next hrest _ =>
    obtain rfl := Option.some.inj hs
    obtain ⟨hlast, hmoves⟩ := Processor.blockMoves_spec crypto prune s.processor b now source
    have hview := h.view_eq hrest
    refine ⟨.call _ h.run hwithin, ?_, h.settled, fun w hw => ?_⟩
    · show (s.processor.blockMoves crypto prune b now source).getLastD s.view = _
      rw [hview]
      exact hlast
    · obtain ⟨c, hc⟩ := h.drafting w hw
      obtain ⟨c', K, hsettled⟩ := h.run.settled fun call hcall => hcall.vouches hU
      refine ⟨c, hc.draft, hc.previous, hc.path, fun p hp => ?_, fun y hy => ?_, hc.undisturbed⟩
      · obtain ⟨hunknown, hstore⟩ := hmoves p hp
        refine hc.path.of_stored fun y hy => ?_
        rw [hstore, BlockStorage.get_store, if_neg, hview]
        -- the new block is not one of the path
        intro hid
        rw [hid] at hunknown
        rcases hc.known y hy with hmain | hside
        · exact absurd (hunknown.symm.trans hmain) nofun
        · exact absurd (hunknown.symm.trans hside) nofun
      · exact hsettled.step_known h.run (hwithin.vouches hU) (hc.known y hy)
  · cases hs

/-- A transaction that is queued goes behind all others. -/
theorem Orderly.transaction (h : s.Orderly crypto prune U) (hU : CollisionFree crypto U)
    {tx : Transaction} {source : String} (hwithin : (Call.transaction tx).Within U)
    (hs : s.step crypto prune (.transaction tx source) = some s') : s'.Orderly crypto prune U := by
  simp only [step] at hs
  split at hs
  · next hrest houtbox =>
    obtain rfl := Option.some.inj hs
    have hview := h.view_eq hrest
    have hrun : Cruzbit.Run crypto prune (Call.Within U)
        (s.processor.step crypto prune (.transaction tx)).1 := .call _ h.run hwithin
    refine ⟨hrun, ?_, fun _ => hrun, fun w hw => ?_⟩
    · show s.rest.getLastD _ = _
      rw [hrest]
      rfl
    · obtain ⟨c, hc⟩ := h.drafting w hw
      obtain ⟨c', K, hsettled⟩ := h.run.settled fun call hcall => hcall.vouches hU
      obtain ⟨-, hledger, hstore, -⟩ := hsettled.processTransaction_settled (hwithin.vouches hU)
      refine ⟨c, hc.draft, hc.previous, ?_, ?_, ?_, fun hdisturbed => ?_⟩
      · show PreviousPath crypto (s.processor.step crypto prune (.transaction tx)).1.blockStore c
        rw [hstore, ← hview]
        exact hc.path
      · show ∀ p ∈ s.rest, _
        rw [hrest]
        exact fun _ hp => absurd hp List.not_mem_nil
      · show ∀ y ∈ c, (s.processor.step crypto prune (.transaction tx)).1.ledger.Known y.1
        rw [hledger]
        exact hc.known
      · obtain ⟨hmain, hqueue⟩ := hc.undisturbed hdisturbed
        rw [hview] at hmain hqueue
        rw [pendingTxs, houtbox, List.filterMap_nil, List.append_nil] at hqueue
        constructor
        · show (s.processor.step crypto prune (.transaction tx)).1.mainChain = c
          rw [Processor.mainChain, hledger, hstore]
          exact hmain
        · show (w.block.transactions.tail ++ (s.newTxChan.map NewTx.transaction ++
            List.filterMap _ _)).Sublist _
          rcases newTx_cases crypto prune s.processor tx source with ⟨htxs, hnew⟩ | ⟨htxs, hnew⟩
          · rw [htxs, hnew]
            simpa using hqueue
          · rw [htxs, hnew, ← List.append_assoc]
            exact hqueue.append (List.Sublist.refl [tx])
  · cases hs

theorem Orderly.move (h : s.Orderly crypto prune U)
    (hs : s.step crypto prune .move = some s') : s'.Orderly crypto prune U := by
  simp only [step] at hs
  split at hs
  · next p ps hrest _ =>
    obtain rfl := Option.some.inj hs
    have hlast := h.last
    rw [hrest, List.getLastD_cons] at hlast
    refine ⟨h.run, hlast, fun hdisturbed => absurd hdisturbed nofun, fun w hw => ?_⟩
    obtain ⟨c, hc⟩ := h.drafting w hw
    have hlater := hc.later
    rw [hrest] at hlater
    obtain ⟨hp, hps⟩ := List.forall_mem_cons.mp hlater
    exact ⟨c, hc.draft, hc.previous, hp, hps, hc.known, fun hdisturbed => absurd hdisturbed nofun⟩
  · cases hs

/-- A message stays under way when it is put into its channel. -/
theorem Orderly.notify (h : s.Orderly crypto prune U)
    (hs : s.step crypto prune .notify = some s') : s'.Orderly crypto prune U := by
  simp only [step] at hs
  split at hs
  · next m ms houtbox =>
    split_ifs at hs
    obtain rfl := Option.some.inj hs
    refine h.of_eq rfl rfl rfl rfl ?_ (.inl rfl)
    simp [pendingTxs, houtbox]
  · next m ms houtbox =>
    split_ifs at hs
    obtain rfl := Option.some.inj hs
    refine h.of_eq rfl rfl rfl rfl ?_ (.inl rfl)
    simp [pendingTxs, houtbox]
  · cases hs

/-- **A block started with care is a draft.** -/
theorem Orderly.build (h : s.Orderly crypto prune U) (hU : CollisionFree crypto U)
    (hg : genesisCoinbase ∈ U) {draw : Draw} {pubKey : PublicKey} {memo : List UInt8}
    (hl : s.Careful U (.build draw pubKey memo))
    (hs : s.step crypto prune (.build draw pubKey memo) = some s') : s'.Orderly crypto prune U := by
  obtain ⟨hrest, hpending, htip⟩ := hl
  simp only [step] at hs
  split at hs
  · next tipID tipHeader hbuilding =>
    obtain ⟨hcurrent, hfresh, hcoinbase⟩ := htip tipID tipHeader hbuilding
    split at hs
    · next b hb =>
      obtain rfl := Option.some.inj hs
      have hview := h.view_eq hrest
      have hrun : Cruzbit.Run crypto prune (Call.Within U) s.view := hview ▸ h.run
      refine ⟨h.run, h.last, fun _ => hrun, fun w hw => ?_⟩
      obtain rfl := Option.some.inj hw
      obtain ⟨c, K, hsettled⟩ := hrun.settled fun call hcall => hcall.vouches hU
      have hsep := hrun.separates hU hg (fun tx htx => htx.1) hsettled.toPlaced
      have hmain : s.view.mainChain = c := hsettled.mainChain_eq
      obtain ⟨-, -, -, hprevious, -, -, -, -, hshape⟩ := createNextBlock_ok_iff.mp hb
      have hprefix := s.view.txQueue.get_prefix (maxTransactionsToIncludePerBlock - 1).toNat
      rw [hmain] at hfresh
      refine ⟨c, ⟨_, _, hshape, ?_⟩, ?_, ?_, ?_, ?_, fun _ => ⟨hmain, ?_⟩⟩
      · exact hsettled.draft hsep hprefix.sublist hcoinbase rfl hfresh
      · show c.head?.map Prod.fst = some b.header.previous
        rw [hprevious, ← hcurrent, hsettled.describes.chainTip, Option.map_map]
        rfl
      · obtain ⟨t, d, rfl⟩ := List.exists_cons_of_ne_nil hsettled.admitted.ne_nil
        exact hsettled.mainPath.toPreviousPath
      · show ∀ p ∈ s.rest, _
        rw [hrest]
        exact fun _ hp => absurd hp List.not_mem_nil
      · intro y hy
        show s.processor.ledger.Known y.1
        rw [← hview, hsettled.describes.known_iff]
        exact hsettled.describes.known _ (List.mem_map_of_mem hy)
      · show (b.transactions.tail ++ s.pendingTxs).Sublist s.view.txQueue.transactions
        rw [hpending, List.append_nil, hshape]
        exact hprefix.sublist
    · cases hs
  · cases hs

theorem addTransaction_eq_ok {w' : WorkBlock} {id : TransactionID} {coinbase tx : Transaction}
    {txs : List Transaction} (hshape : w.block.transactions = coinbase :: txs)
    (h : w.addTransaction crypto id tx = .ok w') :
    w'.block.transactions =
        { coinbase with amount := int64 (coinbase.amount + tx.fee) } :: (txs ++ [tx]) ∧
      w'.block.header.previous = w.block.header.previous := by
  unfold WorkBlock.addTransaction at h
  rw [hshape] at h
  obtain rfl := Except.ok.inj h
  exact ⟨rfl, rfl⟩

/-- **A transaction added in time keeps the draft.**  It is in the queue, behind
those that the block holds. -/
theorem Drafting.addTransaction (h : s.Drafting crypto U w c) (hU : CollisionFree crypto U)
    (hg : genesisCoinbase ∈ U) (hrun : Cruzbit.Run crypto prune (Call.Within U) s.view)
    (hdisturbed : s.disturbed = false) {m : NewTx} {ms : List NewTx}
    (hpending : s.pendingTxs =
      m.transaction :: ({ s with newTxChan := ms } : Workshop).pendingTxs)
    (hcoinbase : ∀ coinbase ∈ w.block.transactions.head?,
      { coinbase with amount := int64 (coinbase.amount + m.transaction.fee) } ∈ U)
    {w' : WorkBlock} (hadd : w.addTransaction crypto m.transactionID m.transaction = .ok w') :
    ({ s with newTxChan := ms, work := some w' } : Workshop).Drafting crypto U w' c := by
  obtain ⟨coinbase, txs, hshape, hdraft⟩ := h.draft
  obtain ⟨hshape', hprevious⟩ := addTransaction_eq_ok hshape hadd
  obtain ⟨hmain, hqueue⟩ := h.undisturbed hdisturbed
  rw [hshape, List.tail_cons, hpending] at hqueue
  have hmem := hcoinbase coinbase (by rw [hshape]; rfl)
  obtain ⟨c', K, hsettled⟩ := hrun.settled fun call hcall => hcall.vouches hU
  have hsep := hrun.separates hU hg (fun tx htx => htx.1) hsettled.toPlaced
  obtain rfl : c' = c := hsettled.mainChain_eq.symm.trans hmain
  have hnext : (txs ++ [m.transaction] ++
      ({ s with newTxChan := ms } : Workshop).pendingTxs).Sublist s.view.txQueue.transactions := by
    rw [List.append_assoc]
    exact hqueue
  refine ⟨⟨_, _, hshape', ?_⟩, ?_, h.path, h.later, h.known, fun _ => ⟨hmain, ?_⟩⟩
  · exact hsettled.draft hsep ((List.sublist_append_left _ _).trans hnext) hmem hdraft.isCoinbase
      hdraft.fresh
  · rw [hprevious]
    exact h.previous
  · rw [hshape']
    exact hnext

/-- A message about a transaction is dropped or acted upon. -/
theorem Orderly.includeTx (h : s.Orderly crypto prune U) (hU : CollisionFree crypto U)
    (hg : genesisCoinbase ∈ U) {m : NewTx} {ms : List NewTx} (hchan : s.newTxChan = m :: ms)
    (hl : s.Careful U .takeTx) :
    (({ s with newTxChan := ms } : Workshop).includeTx crypto m).Orderly crypto prune U := by
  have hpending : s.pendingTxs =
      m.transaction :: ({ s with newTxChan := ms } : Workshop).pendingTxs := by
    simp [pendingTxs, hchan]
  -- a block that stays as it is
  have hdropped : ({ s with newTxChan := ms } : Workshop).Orderly crypto prune U := by
    refine ⟨h.run, h.last, h.settled, fun w hw => ?_⟩
    obtain ⟨c, hc⟩ := h.drafting w hw
    refine ⟨c, hc.draft, hc.previous, hc.path, hc.later, hc.known, fun hdisturbed => ?_⟩
    obtain ⟨hmain, hqueue⟩ := hc.undisturbed hdisturbed
    rw [hpending] at hqueue
    refine ⟨hmain, List.Sublist.trans ?_ hqueue⟩
    exact (List.Sublist.refl _).append (List.sublist_cons_self _ _)
  unfold Workshop.includeTx
  split
  · exact hdropped
  · next w hw =>
    have hw' : s.work = some w := hw
    split_ifs
    · exact hdropped
    · split
      · next w' hadd =>
        obtain ⟨hdisturbed, hcoinbase⟩ := hl w hw'
        refine ⟨h.run, h.last, h.settled, fun w'' hw'' => ?_⟩
        obtain rfl : w' = w'' := Option.some.inj hw''
        obtain ⟨c, hc⟩ := h.drafting w hw'
        refine ⟨c, hc.addTransaction hU hg (h.settled hdisturbed) hdisturbed hpending ?_ hadd⟩
        exact hcoinbase m (by rw [hchan]; rfl)
      · exact ⟨h.run, h.last, h.settled, fun w hw => absurd hw nofun⟩

theorem Orderly.step (h : s.Orderly crypto prune U) (hU : CollisionFree crypto U)
    (hg : genesisCoinbase ∈ U) (hl : s.Careful U l) (hs : s.step crypto prune l = some s') :
    s'.Orderly crypto prune U := by
  cases l with
  | block b now source => exact h.block hU hl hs
  | transaction tx source => exact h.transaction hU hl hs
  | move => exact h.move hs
  | notify => exact h.notify hs
  | takeTip =>
    simp only [Workshop.step] at hs
    split at hs
    · split_ifs at hs
      · obtain rfl := Option.some.inj hs
        exact h.of_eq rfl rfl rfl rfl rfl (.inl rfl)
      · obtain rfl := Option.some.inj hs
        exact h.of_eq rfl rfl rfl rfl rfl (.inl rfl)
    · cases hs
  | takeTx =>
    simp only [Workshop.step] at hs
    split at hs
    · next m ms _ hchan =>
      obtain rfl := Option.some.inj hs
      exact h.includeTx hU hg hchan hl
    · cases hs
  | readTip =>
    simp only [Workshop.step] at hs
    split at hs
    · obtain rfl := Option.some.inj hs
      exact h.of_eq rfl rfl rfl rfl rfl (.inl rfl)
    · cases hs
  | build draw pubKey memo => exact h.build hU hg hl hs
  | update time nonce =>
    simp only [Workshop.step] at hs
    split at hs
    · next w _ hw =>
      obtain rfl := Option.some.inj hs
      refine ⟨h.run, h.last, h.settled, fun w' hw' => ?_⟩
      obtain rfl := Option.some.inj hw'
      obtain ⟨c, hc⟩ := h.drafting w hw
      exact ⟨c, hc.draft, hc.previous, hc.path, hc.later, hc.known, hc.undisturbed⟩
    · cases hs
  | submit =>
    simp only [Workshop.step] at hs
    split at hs
    · obtain rfl := Option.some.inj hs
      exact h.of_eq rfl rfl rfl rfl rfl (.inr rfl)
    · cases hs

end Workshop

/-! ### The queued transfer -/

namespace Sample

section Offered

variable {P : Transaction → Prop} {Q : Processor → Prop} {s p : Processor} {K : Set BlockID}

/-- The message about the second transfer. -/
def offerTx : NewTx := ⟨offer.id crypto, offer, ""⟩

/-- A miner beside a processor between two calls. -/
def workshop (p : Processor) (outbox : List Notice) (newTxChan : List NewTx)
    (tip : Option (BlockID × BlockHeader)) (work : Option WorkBlock) : Workshop :=
  ⟨p, p, [], outbox, [], newTxChan, tip, work, false⟩

/-- The tip of the sample chain. -/
def tip : BlockID × BlockHeader := ((entry 0 100).1, (entry 0 100).2.header)

/-- The sample chain before the second transfer arrives. -/
theorem exists_quiet : ∃ s, Run crypto false (Call.Within mined) s ∧
    Settled crypto false (fun _ => True) (Run crypto false (Delivers 0)) s (chain 0 100)
      {id | id ∈ (chain 0 100).ids} ∧ s.txQueue.txQueue = [] :=
  ⟨state false 0 100, run_within.mono fun _ h tx htx => Or.inr (Or.inr (h tx htx)),
    settled_hundred, queue_nil⟩

/-- The second transfer arrives and is queued. -/
theorem offer_step (hs : Settled crypto false P Q s (chain 0 100) K)
    (hq : s.txQueue.txQueue = []) :
    (workshop s [] [] none none).step crypto false (.transaction offer "") =
      some (workshop (s.step crypto false (.transaction offer)).1 [.newTx offerTx] [] none none) := by
  have hnew : Live.newTx crypto s (s.step crypto false (.transaction offer)).1 offer "" =
      some offerTx := by
    rcases newTx_cases crypto false s offer "" with ⟨htxs, -⟩ | ⟨-, hnew⟩
    · rw [queue_offer hs hq, TransactionQueue.transactions, hq] at htxs
      exact absurd htxs (List.cons_ne_nil offer [])
    · exact hnew
  simp only [Workshop.step, workshop, hnew]
  rfl

/-- The processor before and after the second transfer has arrived. -/
theorem exists_announced : ∃ p₀ p₁ K, Run crypto false (Call.Within mined) p₀ ∧
    Settled crypto false (fun _ => True) (Run crypto false (Delivers 0)) p₁ (chain 0 100) K ∧
    p₁.txQueue.transactions = [offer] ∧
    (workshop p₀ [] [] none none).step crypto false (.transaction offer "") =
      some (workshop p₁ [.newTx offerTx] [] none none) := by
  obtain ⟨p₀, hrun, hs, hq⟩ := exists_quiet
  exact ⟨p₀, _, _, hrun, (hs.processTransaction_settled (vouches_true (.transaction offer))).1,
    queue_offer hs hq, offer_step hs hq⟩

theorem readTip_step (hp : Settled crypto false P Q p (chain 0 100) K) (outbox : List Notice)
    (newTxChan : List NewTx) :
    (workshop p outbox newTxChan none none).step crypto false .readTip =
      some (workshop p outbox newTxChan (some tip) none) := by
  obtain ⟨storedAt, ht⟩ := hp.stored (entry 0 100) List.mem_cons_self
  have htip : p.getChainTipHeader = .ok ((entry 0 100).1, (entry 0 100).2.header, storedAt) :=
    hp.getChainTipHeader ht
  simp only [Workshop.step, workshop, htip]
  rfl

/-- The block that the miner starts has the transfer. -/
theorem build_step (hqueue : p.txQueue.transactions = [offer]) (outbox : List Notice)
    (newTxChan : List NewTx) :
    ∃ w : WorkBlock, w.block.transactions = [minedCoinbase, offer] ∧
      (workshop p outbox newTxChan (some tip) none).step crypto false (.build draw miner []) =
        some (workshop p outbox newTxChan none (some w)) := by
  obtain ⟨work, hwork⟩ := computeChainWork_ok (show 0 < genesisBlock.header.target.toNat by decide)
    (show (entry 0 100).2.header.chainWork.toNat < 2 ^ 128 by decide)
  obtain ⟨b, hb⟩ : ∃ b, createNextBlock crypto draw tip.1 tip.2 p.txQueue p.blockStore p.ledger
      miner [] = .ok b :=
    exists_createNextBlock (computeTarget_hundred p.blockStore p.ledger) hwork
  obtain ⟨-, -, -, -, -, -, -, -, hshape⟩ := createNextBlock_ok_iff.mp hb
  rw [get_offer hqueue] at hshape
  refine ⟨⟨b, hashedIDs crypto b.transactions.tail⟩, hshape, ?_⟩
  simp only [Workshop.step, workshop]
  rw [hb]

/-- With no message under way the block is started with care. -/
theorem careful_build (hp : Settled crypto false P Q p (chain 0 100) K)
    (hqueue : p.txQueue.transactions = [offer]) :
    (workshop p [] [] (some tip) none).Careful mined (.build draw miner []) := by
  refine ⟨rfl, rfl, fun tipID tipHeader htip => ?_⟩
  obtain ⟨rfl, rfl⟩ : tip.1 = tipID ∧ tip.2 = tipHeader := Prod.mk.inj (Option.some.inj htip)
  refine ⟨?_, fun y hy tx htx _ => ?_, ?_⟩
  · show p.ledger.chainTip.map Prod.fst = _
    rw [hp.describes.chainTip, Option.map_map, chain_head]
    rfl
  · have hmem : y ∈ chain 0 100 := hp.mainChain_eq ▸ hy
    obtain ⟨n, hn, rfl⟩ := mem_chain.mp hmem
    have htime := transactions_time ⟨n, hn, htx⟩
    rintro ⟨heq, -⟩
    have hlt : time 100 + 1 < draw.txTime := by decide
    omega
  · show createCoinbase _ _ _ _ (p.txQueue.get _) ∈ _
    rw [get_offer hqueue]
    exact Or.inl rfl

end Offered

end Sample

namespace Workshop

variable {crypto : Crypto} {prune : Bool} {U : Set Transaction} {s : Workshop}

/-- **The block under construction stays clean** in every run whose steps are
taken with care. -/
theorem draft_clean (hU : CollisionFree crypto U) (hg : genesisCoinbase ∈ U)
    (h : Reach (Start crypto prune U) (step crypto prune) (Careful U) s) : s.Clean crypto := by
  have horderly : s.Orderly crypto prune U := by
    refine h.invariant ?_ fun _ _ _ h hl hs => h.step hU hg hl hs
    rintro s ⟨hrun, hs⟩
    rw [hs]
    exact ⟨hrun, rfl, fun _ => hrun, fun w hw => absurd hw nofun⟩
  exact horderly.clean hU

/-- A block started after the message about the queued transfer has been taken. -/
theorem draft_clean_offered :
    ∃ s w, Reach (Start Sample.crypto false Sample.mined) (step Sample.crypto false)
        (Careful Sample.mined) s ∧ s.work = some w ∧
      w.block.transactions = [Sample.minedCoinbase, Sample.offer] ∧ s.Clean Sample.crypto := by
  obtain ⟨p₀, p₁, K, hrun₀, hs₁, hqueue, hstep⟩ := Sample.exists_announced
  obtain ⟨w, htxs, hbuild⟩ := Sample.build_step hqueue [] []
  have hwithin : Careful Sample.mined (Sample.workshop p₀ [] [] none none)
      (.transaction Sample.offer "") := by
    rintro tx htx
    exact Or.inr (Or.inl (List.mem_singleton.mp htx))
  have hnotify : Careful Sample.mined (Sample.workshop p₁ [.newTx Sample.offerTx] [] none none)
      .notify := trivial
  have htake : Careful Sample.mined (Sample.workshop p₁ [] [Sample.offerTx] none none) .takeTx :=
    fun w hw => absurd hw nofun
  have hread : Careful Sample.mined (Sample.workshop p₁ [] [] none none) .readTip := trivial
  have hcareful := Sample.careful_build hs₁ hqueue
  have hstart : Reach (Start Sample.crypto false Sample.mined) (step Sample.crypto false)
      (Careful Sample.mined) (Sample.workshop p₀ [] [] none none) := .init ⟨hrun₀, rfl⟩
  have hnotified := (hstart.next hwithin hstep).next hnotify rfl
  have htaken : Reach (Start Sample.crypto false Sample.mined) (step Sample.crypto false)
      (Careful Sample.mined) (Sample.workshop p₁ [] [] none none) := hnotified.next htake rfl
  have hbuilt := (htaken.next hread (Sample.readTip_step hs₁ [] [])).next hcareful hbuild
  have hg : genesisCoinbase ∈ Sample.mined :=
    Or.inr (Or.inr ⟨0, Nat.zero_le _, List.mem_singleton.mpr rfl⟩)
  exact ⟨_, w, hbuilt, rfl, htxs, draft_clean Sample.mined_collisionFree hg hbuilt⟩

/-- **A transaction twice in a block.**  The miner starts a block between the
queueing of a transaction and the message about it. -/
theorem offer_included_twice :
    ∃ s w coinbase, Transition.Run (Start Sample.crypto false Sample.mined)
        (step Sample.crypto false) s ∧ s.work = some w ∧
      w.block.transactions = [coinbase, Sample.offer, Sample.offer] ∧ ¬ s.Clean Sample.crypto := by
  obtain ⟨p₀, p₁, K, hrun₀, hs₁, hqueue, hstep⟩ := Sample.exists_announced
  obtain ⟨w, htxs, hbuild⟩ := Sample.build_step hqueue [.newTx Sample.offerTx] []
  obtain ⟨w', hadd⟩ : ∃ w', w.addTransaction Sample.crypto Sample.offerTx.transactionID
      Sample.offerTx.transaction = .ok w' := by
    unfold WorkBlock.addTransaction
    rw [htxs]
    exact ⟨_, rfl⟩
  obtain ⟨hshape, -⟩ := addTransaction_eq_ok htxs hadd
  have htake : (Sample.workshop p₁ [] [Sample.offerTx] none (some w)).step Sample.crypto false
      .takeTx = some (Sample.workshop p₁ [] [] none (some w')) := by
    have hroom : ¬ (maxTransactionsToIncludePerBlock ≠ 0 ∧
        (w.block.transactions.length : Int) ≥ maxTransactionsToIncludePerBlock) := by
      rw [htxs]
      decide
    simp only [step, Sample.workshop, includeTx, if_neg hroom, hadd]
  have hstart : Transition.Run (Start Sample.crypto false Sample.mined) (step Sample.crypto false)
      (Sample.workshop p₀ [] [] none none) := .init ⟨hrun₀, rfl⟩
  have hread := (hstart.next trivial hstep).next trivial (Sample.readTip_step hs₁ _ _)
  have hbuilt := hread.next trivial hbuild
  have hnotified : Transition.Run (Start Sample.crypto false Sample.mined)
      (step Sample.crypto false) (Sample.workshop p₁ [] [Sample.offerTx] none (some w)) :=
    hbuilt.next trivial (show step Sample.crypto false _ .notify = some _ from rfl)
  refine ⟨_, w', _, hnotified.next trivial htake, rfl, hshape, fun hclean => ?_⟩
  obtain ⟨c, -, -, hnodup, -⟩ := hclean w' rfl
  rw [Block.txIDs, hshape] at hnodup
  exact absurd (List.nodup_cons.mp hnodup).2 (by simp [Sample.offerTx])

end Workshop

end Cruzbit

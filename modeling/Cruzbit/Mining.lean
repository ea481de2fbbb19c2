/-
Cruzbit/Mining.lean

Building the next block (`createNextBlock` of `miner.go`) and what becomes of
it.  The miner and the validator compute target, chain work, series, reward
and fees on separate paths; here they meet.

The queue keeps a stricter view of the balances than the ledger: it leaves
every sender a spendable rest and does not count the coinbase that matures
next.  So what it holds is covered when the ledger's turn comes, and a block
made of any prefix of it connects (`Settled.includable`,
`Includable.connects`).  A new block adds work as long as its target is not
zero, which a chain of less than `2 ^ 128` work cannot reach
(`Admitted.target_pos`, `computeTarget_pos`).
-/
import Cruzbit.Commitment
import Cruzbit.Difficulty
import Cruzbit.QueueInvariant

namespace Cruzbit

open Accounts Chain Encoding Lineage Word

/-! ### The miner's block -/

/-- What the clock and the random source return while a block is built. -/
structure Draw where
  txTime : Int
  txNonce : Int
  time : Int
  nonce : Int

/-- The coinbase of a new block: the reward and the fees of the transactions. -/
def createCoinbase (draw : Draw) (newHeight : Int) (pubKey : PublicKey) (memo : List UInt8)
    (txs : List Transaction) : Transaction :=
  -- calculate total fees
  let fees := txs.foldl (fun fees tx => int64 (fees + tx.fee)) 0
  -- calculate total block reward
  let reward := int64 (blockCreationReward newHeight + fees)
  newTransaction draw.txTime draw.txNonce none (some pubKey) reward 0 0 0 newHeight memo

/-- Create a new block off of the given tip block.  Called by the miner as well
as the peer to support get_work. -/
def createNextBlock (crypto : Crypto) (draw : Draw) (tipID : BlockID) (tipHeader : BlockHeader)
    (txQueue : TransactionQueue) (blockStore : BlockStorage) (ledger : Ledger)
    (pubKey : PublicKey) (memo : List UInt8) : Res Block := do
  -- fetch transactions to confirm from the queue
  let txs := txQueue.get (maxTransactionsToIncludePerBlock - 1).toNat
  let newHeight := tipHeader.height + 1
  -- compute the next target
  let newTarget ← computeTarget tipHeader blockStore ledger
  newBlock crypto draw.time draw.nonce tipID newHeight newTarget tipHeader.chainWork
    (createCoinbase draw newHeight pubKey memo txs :: txs)

/-- The block with the time and the nonce that a miner settled on. -/
def Block.solved (b : Block) (time nonce : Int) : Block :=
  { b with header := { b.header with time := time, nonce := nonce } }

/-! ### Targets are not zero -/

section Target

variable {crypto : Crypto} {P : Transaction → Prop} {Q : Processor → Prop} {c : Chain}
  {x : BlockID × Block} {blockStore : BlockStorage} {ledger : Ledger}
  {prevHeader firstHeader : BlockHeader} {target : BlockID}

/-- Little work means a high target. -/
theorem le_target_of_work (hpos : 0 < target.toNat) (hwork : computeBlockWork target < 2 ^ 128) :
    2 ^ 128 ≤ target.toNat := by
  rw [computeBlockWork, if_neg (by omega), Nat.div_lt_iff_lt_mul (by omega)] at hwork
  omega

/-- One retargeting divides the target by four at most. -/
theorem computeTargetBitcoin_pos (hhigh : 4 ≤ prevHeader.target.toNat)
    (h : computeTargetBitcoin prevHeader blockStore = .ok target) : 0 < target.toNat := by
  unfold computeTargetBitcoin at h
  by_cases hinterval : (prevHeader.height + 1).tmod retargetInterval ≠ 0
  · rw [if_pos hinterval] at h
    cases h
    omega
  · rw [if_neg hinterval] at h
    obtain ⟨firstHeader, -, htarget⟩ := Res.bind_eq_ok.mp h
    rw [setBigInt_eq_ok htarget]
    obtain ⟨hlo, hhi⟩ := clamp_bounds (show retargetTime / 4 ≤ retargetTime * 4 by decide)
      (prevHeader.time - firstHeader.time)
    have hquarter := (retarget_bounds (Int.natCast_nonneg prevHeader.target.toNat) hlo hhi).1
    split_ifs
    · decide
    · exact Int.natAbs_pos.mpr (by omega)

/-- The work per spacing is less than all work. -/
theorem windowWork_lt (hwork : prevHeader.chainWork.toNat < 2 ^ 128) :
    windowWork prevHeader firstHeader < 2 ^ 128 := by
  have hspan := (windowTimespan_bounds prevHeader firstHeader).1
  simp only [targetSpacing] at hspan
  rw [windowWork, targetSpacing]
  refine Int.ediv_lt_of_lt_mul (by omega) ?_
  nlinarith

theorem windowTarget_pos (hwork : prevHeader.chainWork.toNat < 2 ^ 128)
    (h : windowTarget prevHeader firstHeader = .ok target) : 0 < target.toNat := by
  simp only [windowTarget, Res.bind_eq_ok, Res.exists_unit, failIf_eq_ok] at h
  obtain ⟨hne, htarget⟩ := h
  rw [setBigInt_eq_ok htarget]
  have hlt : windowWork prevHeader firstHeader < 2 ^ 128 := windowWork_lt hwork
  generalize windowWork prevHeader firstHeader = work at hne hlt ⊢
  split_ifs
  · decide
  · -- a negative quotient only arises from negative work
    rcases lt_or_gt_of_ne hne with hneg | hpos
    · have : (2 ^ 256 : Int) / work ≤ 0 := Int.ediv_nonpos_of_nonneg_of_nonpos (by norm_num) hneg.le
      omega
    · have : (2 : Int) ≤ 2 ^ 256 / work := by
        refine Int.le_ediv_of_mul_le hpos ?_
        omega
      omega

/-- **The next target is not zero** while the chain work is below `2 ^ 128`. -/
theorem computeTarget_pos (hpos : 0 < prevHeader.target.toNat)
    (hle : computeBlockWork prevHeader.target ≤ prevHeader.chainWork.toNat)
    (hwork : prevHeader.chainWork.toNat < 2 ^ 128)
    (h : computeTarget prevHeader blockStore ledger = .ok target) : 0 < target.toNat := by
  unfold computeTarget computeTargetBitcoinCash at h
  split_ifs at h
  · cases hfirst : ledger.getBlockIDForHeight (prevHeader.height - retargetSmaWindow) with
    | none => simp [hfirst] at h
    | some firstID =>
      simp only [hfirst] at h
      obtain ⟨firstHeader, -, htarget⟩ := Res.bind_eq_ok.mp h
      exact windowTarget_pos hwork htarget
  · have hhigh := le_target_of_work hpos (lt_of_le_of_lt hle hwork)
    exact computeTargetBitcoin_pos (by omega) h

/-- The target of a chain with little work is not zero, and its work is part of
the chain's. -/
theorem Admitted.target_pos (h : Admitted crypto P Q (x :: c))
    (hwork : x.2.header.chainWork.toNat < 2 ^ 128) :
    0 < x.2.header.target.toNat ∧
      computeBlockWork x.2.header.target ≤ x.2.header.chainWork.toNat := by
  generalize hd : x :: c = d at h
  induction h generalizing x c with
  | genesis =>
    obtain ⟨rfl, -⟩ := List.cons.inj hd
    constructor
    · show 0 < genesisBlock.header.target.toNat
      decide
    · show computeBlockWork genesisBlock.header.target ≤ genesisBlock.header.chainWork.toNat
      decide
  | @cons d y s hadm _ hy ih =>
    obtain ⟨rfl, rfl⟩ := List.cons.inj hd
    obtain ⟨p, e, rfl⟩ := List.exists_cons_of_ne_nil hadm.ne_nil
    obtain ⟨htarget, hchain, -⟩ := acceptBlockChecks_ok_iff.mp (hy.parent p rfl).2.2
    have hsum := computeChainWork_eq_ok hchain
    obtain ⟨hpos, hle⟩ := ih (by omega) rfl
    exact ⟨computeTarget_pos hpos hle (by omega) htarget, by omega⟩

end Target

/-! ### The median is a time -/

section Median

variable {crypto : Crypto} {prune : Bool} {A : Call → Prop} {s : Processor}

theorem Run.collectTimestamps_nonneg (h : Run crypto prune A s) (n : Nat) {header : BlockHeader}
    (h₀ : 0 ≤ header.time) : ∀ t ∈ collectTimestamps s.blockStore n header, 0 ≤ t := by
  induction n generalizing header with
  | zero => simp [collectTimestamps]
  | succ n ih =>
    rw [collectTimestamps]
    refine List.forall_mem_cons.mpr ⟨h₀, ?_⟩
    cases hget : s.blockStore[header.previous]? with
    | none => simp [BlockStorage.getBlockHeader, hget]
    | some e =>
      simp only [BlockStorage.getBlockHeader, hget, Option.map_some]
      apply ih
      refine (h.stored (R := fun b => 0 ≤ b.header.time) ?_ (by decide) hget).1
      exact fun b now source _ hsane => hsane.time_range.1

theorem Run.computeMedianTimestamp_nonneg (h : Run crypto prune A s) {header : BlockHeader}
    (h₀ : 0 ≤ header.time) : 0 ≤ computeMedianTimestamp header s.blockStore :=
  getD_insertionSort (p := (0 ≤ ·)) le_rfl (h.collectTimestamps_nonneg _ h₀) _

end Median

/-! ### Transactions to include -/

namespace TransactionQueue

theorem get_prefix (q : TransactionQueue) (limit : Nat) : q.get limit <+: q.transactions := by
  unfold get
  split_ifs
  · exact List.prefix_rfl
  · exact (List.take_prefix _ _).map _

theorem get_length_le (q : TransactionQueue) {limit : Nat} (h : limit ≠ 0) :
    (q.get limit).length ≤ limit := by
  unfold get
  split_ifs with hlen
  · rw [List.length_map]
    omega
  · rw [List.length_map]
    exact List.length_take_le _ _

end TransactionQueue

/-- Transactions that a block on top of the chain may hold after its coinbase. -/
structure Includable (crypto : Crypto) (U : Set Transaction) (c : Chain)
    (txs : List Transaction) : Prop where
  mem : ∀ tx ∈ txs, tx ∈ U
  checked : ∀ tx ∈ txs, tx.Checked ∧ tx.isCoinbase = false
  acceptable : ∀ tx ∈ txs, ∀ q, Acceptable crypto q c.length tx
  nodup : (txs.map (Transaction.id crypto)).Nodup
  unconfirmed : ∀ tx ∈ txs, ∀ y ∈ c, tx.id crypto ∉ y.2.txIDs crypto
  covered : Covered (balances c) (txs.map Transaction.payment)

section Includable

variable {crypto : Crypto} {prune : Bool} {P : Transaction → Prop} {Q : Processor → Prop}
  {U : Set Transaction} {s : Processor} {c : Chain} {K : Set BlockID} {txs : List Transaction}
  {b : Block} {coinbase : Transaction}

/-- What is queued is covered by the ledger's balances, front to back. -/
theorem Settled.covered_prefix (h : Settled crypto prune P Q s c K)
    (htxs : txs <+: s.txQueue.transactions) :
    Covered (balances c) (txs.map Transaction.payment) := by
  obtain ⟨rest, hrest⟩ := htxs
  have hreplays := h.fresh.replays
  rw [TransactionQueue.Replays, ← hrest, BalanceCache.applyAll_append,
    Option.bind_eq_some_iff] at hreplays
  obtain ⟨cache, hcache, -⟩ := hreplays
  refine (BalanceCache.applyAll_shows h.describes.getPublicKeyBalance (BalanceCache.shows_new _)
    h.valid.solvent (fun tx htx => ?_) hcache).2
  exact h.queue.transactions_checked tx (hrest ▸ List.mem_append_left _ htx)

/-- **Any prefix of the queue can be included in the next block.** -/
theorem Settled.includable (h : Settled crypto prune (Verified crypto U) Q s c K)
    (hsep : Separates crypto (Verified crypto U) s.blockStore K U)
    (htxs : txs <+: s.txQueue.transactions) : Includable crypto U c txs where
  mem tx htx := by
    obtain ⟨e, he, rfl⟩ := List.mem_map.mp (htxs.subset htx)
    exact (h.vouched e he).1
  checked tx htx := h.queue.transactions_checked tx (htxs.subset htx)
  acceptable tx htx q := by
    obtain ⟨e, he, rfl⟩ := List.mem_map.mp (htxs.subset htx)
    obtain ⟨t, d, rfl⟩ := List.exists_cons_of_ne_nil h.admitted.ne_nil
    have hcurrent := h.fresh.current _ h.describes.chainTip e he
    rw [TransactionQueue.invalidated_eq_false_iff, sub_add_cancel] at hcurrent
    exact ⟨hcurrent.1, fun _ => hcurrent.2.1, fun _ => hcurrent.2.2.1,
      fun _ => Or.inr (h.vouched e he).2⟩
  nodup := (htxs.sublist.map _).nodup h.queue.ids_nodup
  unconfirmed tx htx := by
    obtain ⟨e, he, rfl⟩ := List.mem_map.mp (htxs.subset htx)
    exact h.unconfirmed U hsep e he
  covered := h.covered_prefix htxs

/-- Fees are paid out of the accounts. -/
theorem Includable.fees_le (h : Includable crypto U c txs) (hc : Valid crypto prune c) :
    (txs.map Transaction.fee).sum ≤ total (balances c) := by
  have hsound : ∀ p ∈ txs.map Transaction.payment, p.Sound := by
    intro p hp
    obtain ⟨tx, htx, rfl⟩ := List.mem_map.mp hp
    exact (h.checked tx htx).1.sound
  have hnonneg := total_nonneg (nonneg_settle hc.balances_nonneg hsound h.covered)
  have hissued : ((txs.map Transaction.payment).map Payment.issued).sum =
      -(txs.map Transaction.fee).sum := by
    rw [List.map_map, List.sum_neg, List.map_map]
    congr 1
    refine List.map_congr_left fun tx htx => ?_
    have hfrom := Transaction.isCoinbase_eq_false_iff.mp (h.checked tx htx).2
    simp [Payment.issued, Transaction.payment, hfrom]
  rw [total_settle, hissued] at hnonneg
  omega

theorem Includable.fees_nonneg (h : Includable crypto U c txs) :
    0 ≤ (txs.map Transaction.fee).sum := by
  refine List.sum_nonneg fun a ha => ?_
  obtain ⟨tx, htx, rfl⟩ := List.mem_map.mp ha
  exact (h.checked tx htx).1.fee_nonneg

/-- The reward and the fees of the next block stay within the money supply. -/
theorem Includable.reward_le (h : Includable crypto U c txs) (hc : Valid crypto prune c) :
    blockCreationReward c.length + (txs.map Transaction.fee).sum ≤ maxMoney := by
  have hfees := h.fees_le hc
  have hsum := hc.total_add_pending
  have hmax := issued_le_maxMoney (c.length + 1)
  have hpending : 0 ≤ pending c := by
    refine List.sum_nonneg fun a ha => ?_
    obtain ⟨y, hy, rfl⟩ := List.mem_map.mp ha
    exact hc.coinbaseAmount_nonneg (List.mem_of_mem_take hy)
  rw [issued_succ] at hmax
  omega

/-- A matured coinbase makes no account poorer. -/
theorem Includable.covered_dues (h : Includable crypto U c txs) (hc : Valid crypto prune c)
    (hb : b.transactions.tail = txs) :
    Covered (balances c) ((dues c b).map Transaction.payment) := by
  rw [dues, hb, List.map_append, covered_append]
  cases hm : matured c with
  | none => exact ⟨trivial, by simpa using h.covered⟩
  | some tx =>
    obtain ⟨hchecked, hcb⟩ := hc.matured_coinbase hm
    have hfrom : tx.payment.payer = none := Transaction.isCoinbase_eq_true_iff.mp hcb
    refine ⟨⟨?_, trivial⟩, h.covered.mono fun pk => ?_⟩
    · intro pk hpk
      rw [hfrom] at hpk
      exact absurd hpk (by simp)
    · have hpos := hchecked.amount_pos
      rw [Option.toList_some, List.map_singleton, settle_cons, settle_nil,
        BalanceCache.delta_coinbase hcb, Finsupp.add_apply, Finsupp.single_apply]
      split_ifs <;> omega

/-- **A block of includable transactions connects** if its coinbase is not
indexed. -/
theorem Includable.connects (h : Includable crypto U c txs) (hc : Valid crypto prune c)
    (hb : b.transactions = coinbase :: txs)
    (hcoinbase : ∀ y ∈ indexed prune c, coinbase.id crypto ∉ y.2.txIDs crypto) :
    Connects crypto prune c b where
  unconfirmed := by
    intro y hy id hid
    rw [Block.txIDs, hb, List.map_cons] at hid
    rcases List.mem_cons.mp hid with rfl | hid
    · exact hcoinbase y hy
    · obtain ⟨tx, htx, rfl⟩ := List.mem_map.mp hid
      exact h.unconfirmed tx htx y (Table.mem_of_mem_window hy)
  covered := h.covered_dues hc (by rw [hb, List.tail_cons])

/-- The reward and the fees add up without wrapping around. -/
theorem Includable.createCoinbase_amount (h : Includable crypto U c txs)
    (hc : Valid crypto prune c) (draw : Draw) (pubKey : PublicKey) (memo : List UInt8) :
    (createCoinbase draw c.length pubKey memo txs).amount =
      blockCreationReward c.length + (txs.map Transaction.fee).sum := by
  have hreward := h.reward_le hc
  have hfees := h.fees_nonneg
  have hreward₀ := blockCreationReward_nonneg c.length
  have hfold := foldl_int64 Transaction.fee txs 0
  rw [int64_of_fits (by decide), zero_add] at hfold
  have hfits : ∀ {x : Int}, 0 ≤ x → x ≤ maxMoney → int64 x = x := by
    intro x hx₀ hx
    exact int64_of_fits (BalanceCache.fits_of_le (by simp only [maxMoney, cruzbitsPerCruz]; omega)
      (by omega))
  show int64 (blockCreationReward c.length + txs.foldl _ 0) = _
  rw [hfold, hfits hfees (by omega), hfits (by omega) hreward]

end Includable

/-! ### The block becomes the tip -/

/-- The clock shows no time before 1970, and none so late that a block may not
carry it.  `rand.Int31` is not negative. -/
structure Draw.Possible (draw : Draw) : Prop where
  txTime_range : 0 ≤ draw.txTime ∧ draw.txTime ≤ maxNumber
  txNonce_nonneg : 0 ≤ draw.txNonce

/-- The time and the nonce of the block are good, at the time `now` of its
delivery. -/
structure Solves (crypto : Crypto) (s : Processor) (tipHeader : BlockHeader) (b : Block)
    (now : Int) : Prop where
  time_gt : computeMedianTimestamp tipHeader s.blockStore < b.header.time
  time_le : b.header.time ≤ now + maxFutureSeconds
  now_range : 0 ≤ now ∧ now + maxFutureSeconds ≤ maxNumber
  nonce_range : 0 ≤ b.header.nonce ∧ b.header.nonce ≤ maxNumber
  pow : b.checkPOW (b.id crypto) = true

/-- The texts hashed for the IDs of the stored blocks. -/
def Processor.headerTexts (s : Processor) : Set (List UInt8) :=
  {text | ∃ (id : BlockID) (e : StoredBlock),
    s.blockStore[id]? = some e ∧ text = e.block.header.json}

section Mined

variable {crypto : Crypto} {prune : Bool} {P : Transaction → Prop} {Q : Processor → Prop}
  {U : Set Transaction} {s : Processor} {c : Chain} {K : Set BlockID} {t : BlockID × Block}
  {draw : Draw} {pubKey : PublicKey} {memo : List UInt8} {b : Block} {now time nonce : Int}
  {target : BlockID}

/-- Some reward is left only for so many blocks. -/
theorem height_lt_of_reward {height : Int} (h₀ : 0 ≤ height)
    (h : 0 < blockCreationReward height) : height < 64 * blocksUntilRewardHalving := by
  by_contra hge
  refine absurd h (not_lt.mpr (le_of_eq ?_))
  simp only [blockCreationReward, Int.tdiv_eq_ediv_of_nonneg h₀, blocksUntilRewardHalving] at hge ⊢
  rw [if_pos (by omega)]

theorem computeChainWork_ok (hpos : 0 < target.toNat) {chainWork : BlockID}
    (hwork : chainWork.toNat < 2 ^ 128) : ∃ work, computeChainWork target chainWork = .ok work := by
  have hblock : computeBlockWork target ≤ 2 ^ 255 := by
    rw [computeBlockWork, if_neg (by omega)]
    exact Nat.div_le_of_le_mul (by omega)
  rw [computeChainWork, setBigInt, if_neg (by omega)]
  exact ⟨_, rfl⟩

/-- What `createNextBlock` returns. -/
theorem createNextBlock_ok_iff {tipID : BlockID} {tipHeader : BlockHeader} :
    createNextBlock crypto draw tipID tipHeader s.txQueue s.blockStore s.ledger pubKey memo =
        .ok b ↔
      computeTarget tipHeader s.blockStore s.ledger = .ok b.header.target ∧
      computeChainWork b.header.target tipHeader.chainWork = .ok b.header.chainWork ∧
      computeHashListRoot crypto b.transactions = .ok b.header.hashListRoot ∧
      b.header.previous = tipID ∧ b.header.height = tipHeader.height + 1 ∧
      b.header.time = draw.time ∧ b.header.nonce = draw.nonce ∧
      b.header.transactionCount = b.transactions.length ∧
      b.transactions = createCoinbase draw (tipHeader.height + 1) pubKey memo
        (s.txQueue.get (maxTransactionsToIncludePerBlock - 1).toNat) ::
        s.txQueue.get (maxTransactionsToIncludePerBlock - 1).toNat := by
  generalize htxs : s.txQueue.get (maxTransactionsToIncludePerBlock - 1).toNat = txs
  have hlen : txs.length ≤ 9999 := htxs ▸ s.txQueue.get_length_le (by decide)
  have hcap : ¬ ((createCoinbase draw (tipHeader.height + 1) pubKey memo txs :: txs).length : Int) >
      maxTransactionsPerBlock := by
    simp only [List.length_cons, maxTransactionsPerBlock]
    omega
  simp only [createNextBlock, newBlock, htxs, Res.bind_eq_ok, Res.exists_unit, failIf_eq_ok, hcap,
    not_false_eq_true, true_and]
  constructor
  · rintro ⟨target, htarget, root, hroot, work, hwork, hb⟩
    obtain rfl := Except.ok.inj hb
    exact ⟨htarget, hwork, hroot, rfl, rfl, rfl, rfl, rfl, rfl⟩
  · rintro ⟨htarget, hwork, hroot, rfl, hheight, htime, hnonce, hcount, hshape⟩
    refine ⟨_, htarget, _, hshape ▸ hroot, _, hwork, ?_⟩
    congr 1
    obtain ⟨⟨_, _, _, _, _, _, _, _⟩, _⟩ := b
    simp_all

/-- The miner gets a block whenever a target and its work can be computed. -/
theorem exists_createNextBlock {tipID : BlockID} {tipHeader : BlockHeader} {work : BlockID}
    (htarget : computeTarget tipHeader s.blockStore s.ledger = .ok target)
    (hchain : computeChainWork target tipHeader.chainWork = .ok work) :
    ∃ b, createNextBlock crypto draw tipID tipHeader s.txQueue s.blockStore s.ledger pubKey memo =
      .ok b := by
  generalize htxs : s.txQueue.get (maxTransactionsToIncludePerBlock - 1).toNat = txs
  generalize hcoinbase : createCoinbase draw (tipHeader.height + 1) pubKey memo txs = coinbase
  obtain ⟨root, hroot⟩ : ∃ root, computeHashListRoot crypto (coinbase :: txs) = .ok root := ⟨_, rfl⟩
  refine ⟨⟨⟨tipID, root, draw.time, target, work, draw.nonce, tipHeader.height + 1,
    (coinbase :: txs).length⟩, coinbase :: txs⟩, createNextBlock_ok_iff.mpr ?_⟩
  rw [htxs, hcoinbase]
  exact ⟨htarget, hchain, hroot, rfl, rfl, rfl, rfl, rfl, rfl⟩

/-- The miner's coinbase passes the checks of a transaction. -/
theorem Includable.createCoinbase_checked {txs : List Transaction}
    (h : Includable crypto U c txs) (hc : Valid crypto prune c) (hdraw : draw.Possible)
    (hkey : pubKey.length = publicKeySize) (hutf8 : validUTF8 0 memo = true)
    (hmemo : memo.length ≤ maxMemoLength) (hreward : 0 < blockCreationReward c.length) :
    (createCoinbase draw c.length pubKey memo txs).Checked := by
  have hamount := h.createCoinbase_amount hc draw pubKey memo
  have hle := h.reward_le hc
  have hfees := h.fees_nonneg
  have hheight := height_lt_of_reward (by omega) hreward
  have hseries : (createCoinbase draw c.length pubKey memo txs).series =
      c.length / blocksUntilNewSeries + 1 := by
    show (c.length : Int).tdiv blocksUntilNewSeries + 1 = _
    rw [Int.tdiv_eq_ediv_of_nonneg (by omega)]
  refine ⟨hdraw.txTime_range, hdraw.txNonce_nonneg, fun _ => ⟨le_rfl, le_rfl, le_rfl, rfl⟩,
    fun hcb => absurd hcb (by simp [createCoinbase, newTransaction, Transaction.isCoinbase]),
    by simp [createCoinbase, newTransaction], hkey, ?_, by omega, by omega, le_rfl,
    show 0 ≤ maxMoney by decide, hutf8, hmemo, ⟨le_rfl, show 0 ≤ maxNumber by decide⟩,
    ⟨le_rfl, show 0 ≤ maxNumber by decide⟩, ?_⟩
  · intro hself
    have hnil : [] = pubKey := hself
    rw [← hnil] at hkey
    exact absurd hkey (by decide)
  · rw [hseries]
    simp only [blocksUntilNewSeries, blocksUntilRewardHalving, maxNumber] at hheight ⊢
    omega

/-- A coinbase in front of transfers has an ID of its own. -/
theorem nodup_ids_cons {coinbase : Transaction} {txs : List Transaction}
    (hU : CollisionFree crypto U) (hmem : coinbase ∈ U) (hcb : coinbase.isCoinbase = true)
    (htxs : ∀ tx ∈ txs, tx ∈ U) (hchecked : ∀ tx ∈ txs, tx.Checked ∧ tx.isCoinbase = false)
    (hnodup : (txs.map (Transaction.id crypto)).Nodup) :
    ((coinbase :: txs).map (Transaction.id crypto)).Nodup := by
  rw [List.map_cons, List.nodup_cons]
  refine ⟨fun hdup => ?_, hnodup⟩
  obtain ⟨tx, htx, hid⟩ := List.mem_map.mp hdup
  exact hU.id_ne_coinbase (htxs tx htx) hmem (hchecked tx htx).1 (hchecked tx htx).2 hcb hid

/-- **The miner's block passes `checkBlock`.** -/
theorem Includable.sane {txs : List Transaction} (h : Includable crypto U c txs)
    (hlen : (txs.length : Int) < maxTransactionsToIncludePerBlock) {coinbase : Transaction}
    (hb : b.transactions = coinbase :: txs) (hcoinbase : coinbase.Checked)
    (hcb : coinbase.isCoinbase = true) (hU : CollisionFree crypto U) (hmem : coinbase ∈ U)
    (hheight : b.header.height = c.length) (hreward : 0 < blockCreationReward c.length)
    (hcheckpoint : checkpoints c.length = none)
    (hcount : b.header.transactionCount = b.transactions.length)
    (hroot : computeHashListRoot crypto b.transactions = .ok b.header.hashListRoot)
    {tipHeader : BlockHeader} (hmedian : 0 ≤ computeMedianTimestamp tipHeader s.blockStore)
    (hsolves : Solves crypto s tipHeader b now) : b.Sane crypto (b.id crypto) now := by
  have htime := hsolves.time_gt
  have hnow := hsolves.now_range
  have hle := hsolves.time_le
  have hlt := height_lt_of_reward (by omega) hreward
  obtain ⟨max, hmax, hmany⟩ := le_computeMaxTransactionsPerBlock (Int.natCast_nonneg c.length)
  refine ⟨⟨by omega, by omega⟩, ?_, of_decide_eq_true hsolves.pow, hsolves.nonce_range, ?_, ?_,
    hcount, ⟨coinbase, txs, hb, hcb, fun tx htx => (h.checked tx htx).2⟩, ⟨max, ?_, ?_⟩, ?_, ?_,
    hroot⟩
  · rw [int64_of_fits]
    · exact hle
    · simp only [maxNumber, maxFutureSeconds, Fits64] at hnow ⊢
      omega
  · rw [hheight]
    simp only [maxNumber, blocksUntilRewardHalving] at hlt ⊢
    omega
  · rw [hheight, checkpointCheck, hcheckpoint]
  · rw [hheight]
    exact hmax
  · rw [hb, List.length_cons]
    omega
  · rw [hb]
    exact List.forall_mem_cons.mpr ⟨hcoinbase, fun tx htx => (h.checked tx htx).1⟩
  · rw [Block.txIDs, hb]
    exact nodup_ids_cons hU hmem hcb h.mem h.checked h.nodup

/-- A block with more work than the tip is not known, unless its header has the
ID of another. -/
theorem Settled.unknown_of_work (h : Settled crypto prune P Q s (t :: c) K)
    (hfree : Set.InjOn crypto.sum256 (insert b.header.json s.headerTexts))
    (hwork : t.2.header.chainWork.toNat < b.header.chainWork.toNat) : b.id crypto ∉ K := by
  intro hid
  obtain ⟨e, he, heid⟩ := h.tree.stored hid
  have hheader : e.block.header = b.header :=
    BlockHeader.json_injective (hfree (Or.inr ⟨_, e, he, rfl⟩) (Or.inl rfl) heid)
  obtain ⟨storedAt, ht⟩ := h.stored t List.mem_cons_self
  have hle : e.block.header.chainWork.toNat ≤ t.2.header.chainWork.toNat := by
    by_cases heq : b.id crypto = t.1
    · rw [heq] at he
      obtain rfl := Option.some.inj (ht.symm.trans he)
      exact le_rfl
    · exact (h.best t rfl _ hid heq).work_le ht he
  rw [hheader] at hle
  omega

/-- The coinbase has the series of its height. -/
theorem createCoinbase_acceptable (q : TransactionQueue) (height : Int) (txs : List Transaction) :
    Acceptable crypto q height (createCoinbase draw height pubKey memo txs) where
  series := by simp [checkTransactionSeries, createCoinbase, newTransaction,
    computeTransactionSeries, Transaction.isCoinbase]
  mature hcb := absurd hcb (by simp [createCoinbase, newTransaction, Transaction.isCoinbase])
  unexpired hcb := absurd hcb (by simp [createCoinbase, newTransaction, Transaction.isCoinbase])
  signed hcb := absurd hcb (by simp [createCoinbase, newTransaction, Transaction.isCoinbase])

/-- Miner and validator compute the same reward. -/
theorem coinbaseAmount_eq {height : Int} {txs : List Transaction}
    (hb : b.transactions = createCoinbase draw height pubKey memo txs :: txs) :
    b.coinbaseAmount = int64 (blockCreationReward height + b.wrappedFees) := by
  rw [Block.coinbaseAmount, Block.wrappedFees, hb, List.foldl_cons]
  rfl

/-- **A sane block of includable transactions becomes the tip** if its header
follows from the tip's. -/
theorem Settled.extend_includable (h : Settled crypto prune (Verified crypto U) Q s (t :: c) K)
    (hQ : Q s) (hU : CollisionFree crypto U) {txs : List Transaction}
    (hincl : Includable crypto U (t :: c) txs)
    (hb : b.transactions = createCoinbase draw (t :: c).length pubKey memo txs :: txs)
    (hsane : b.Sane crypto (b.id crypto) now) (hunknown : b.id crypto ∉ K)
    (hprev : b.header.previous = t.1) (hheight : b.header.height = (t :: c).length)
    (htarget : computeTarget t.2.header s.blockStore s.ledger = .ok b.header.target)
    (hchain : computeChainWork b.header.target t.2.header.chainWork = .ok b.header.chainWork)
    (htime : computeMedianTimestamp t.2.header s.blockStore < b.header.time)
    (hmem : createCoinbase draw (t :: c).length pubKey memo txs ∈ U)
    (hindex : s.ledger.getTransactionIndex
      ((createCoinbase draw (t :: c).length pubKey memo txs).id crypto) = none)
    (hmore : t.2.header.chainWork.toNat < b.header.chainWork.toNat) (source : String) :
    (s.step crypto prune (.block b now source)).2 = .ok () ∧
      (s.step crypto prune (.block b now source)).1.ledger.chainTip =
        some (b.id crypto, ((t :: c).length : Int)) := by
  have hunindexed : ∀ y ∈ indexed prune (t :: c),
      (createCoinbase draw (t :: c).length pubKey memo txs).id crypto ∉ y.2.txIDs crypto := by
    intro y hy hid
    have := h.describes.getTransactionIndex_isSome hy hid
    rw [hindex] at this
    exact absurd this (by simp)
  have hconnects := hincl.connects h.valid hb hunindexed
  have hamount := coinbaseAmount_eq hb
  have hpasses : Passes crypto (Verified crypto U) Q s K b now (t :: c) := by
    refine ⟨hunknown, checkBlock_ok_iff.mpr hsane, h.admitted, h.stored,
      fun y hy => h.describes.known _ (List.mem_map_of_mem hy), t, rfl, hprev, ?_,
      acceptBlockChecks_ok_iff.mpr ⟨htarget, hchain, htime, ?_, by simp [hb], hheight ▸ hamount⟩⟩
    · rw [hheight, h.valid.head.height, List.length_cons]
      omega
    · rw [hb, hheight]
      exact List.forall_mem_cons.mpr
        ⟨createCoinbase_acceptable _ _ _, fun tx htx => hincl.acceptable tx htx _⟩
  have hvalid : Valid crypto prune ((b.id crypto, b) :: t :: c) := by
    refine .cons h.valid ⟨⟨hsane.wellFormed, fun hmem => hunknown (h.describes.known _ hmem),
      hheight, ?_⟩, hconnects, h.valid.reward_exact hsane.wellFormed hconnects hamount⟩
    intro y hy
    obtain rfl : t = y := Option.some.inj hy
    exact hprev
  have hwithin : (Call.block b now source).Within U := by
    intro tx htx
    rw [Call.transactions, hb] at htx
    rcases List.mem_cons.mp htx with rfl | htx
    · exact hmem
    · exact hincl.mem tx htx
  obtain ⟨hs', hok, -⟩ := h.extend hQ source (hwithin.vouches hU) hpasses hvalid hmore
  refine ⟨hok, hs'.describes.chainTip.trans ?_⟩
  simp

/-- **Mining soundness.** -/
theorem mined_block_accepted (hU : CollisionFree crypto U) (hg : genesisCoinbase ∈ U)
    (h : Run crypto prune (Call.Within U) s) {tipID : BlockID} {tipHeader : BlockHeader}
    {tipWhen : Int} (htip : s.getChainTipHeader = .ok (tipID, tipHeader, tipWhen))
    (hkey : pubKey.length = publicKeySize) (hutf8 : validUTF8 0 memo = true)
    (hmemo : memo.length ≤ maxMemoLength) (hdraw : draw.Possible)
    (hreward : 0 < blockCreationReward (tipHeader.height + 1))
    (hwork : tipHeader.chainWork.toNat < 2 ^ 128) :
    (∀ target, computeTarget tipHeader s.blockStore s.ledger = .ok target →
      ∃ b, createNextBlock crypto draw tipID tipHeader s.txQueue s.blockStore s.ledger pubKey memo =
        .ok b) ∧
    ∀ b, createNextBlock crypto draw tipID tipHeader s.txQueue s.blockStore s.ledger pubKey memo =
        .ok b →
      ∀ (time nonce now : Int) (source : String),
      Solves crypto s tipHeader (b.solved time nonce) now →
      checkpoints (tipHeader.height + 1) = none →
      (∀ coinbase ∈ b.transactions.head?,
        coinbase ∈ U ∧ s.ledger.getTransactionIndex (coinbase.id crypto) = none) →
      Set.InjOn crypto.sum256 (insert (b.solved time nonce).header.json s.headerTexts) →
      (s.step crypto prune (.block (b.solved time nonce) now source)).2 = .ok () ∧
      (s.step crypto prune (.block (b.solved time nonce) now source)).1.ledger.chainTip =
        some ((b.solved time nonce).id crypto, tipHeader.height + 1) := by
  obtain ⟨c, K, hs⟩ := h.settled fun call hcall => hcall.vouches hU
  have hsep := h.separates hU hg (fun tx htx => htx.1) hs.toPlaced
  obtain ⟨t, c, rfl⟩ := List.exists_cons_of_ne_nil hs.admitted.ne_nil
  obtain ⟨storedAt, ht⟩ := hs.stored t List.mem_cons_self
  obtain ⟨rfl, rfl, rfl⟩ : t.1 = tipID ∧ t.2.header = tipHeader ∧ storedAt = tipWhen := by
    simpa using (hs.getChainTipHeader ht).symm.trans htip
  have hheight : t.2.header.height + 1 = ((t :: c).length : Int) := by
    rw [hs.valid.head.height, List.length_cons]
    omega
  have hpos := hs.admitted.target_pos hwork
  constructor
  · intro target htarget
    have hnew := computeTarget_pos hpos.1 hpos.2 hwork htarget
    obtain ⟨work, hchain⟩ := computeChainWork_ok hnew hwork
    exact exists_createNextBlock htarget hchain
  intro b hb time nonce now source hsolves hcheckpoint hcoinbase hfree
  obtain ⟨htarget, hchain, hroot, hprev, hh, -, -, hcount, hshape⟩ := createNextBlock_ok_iff.mp hb
  have hincl := hs.includable hsep
    (s.txQueue.get_prefix (maxTransactionsToIncludePerBlock - 1).toNat)
  have hlen := s.txQueue.get_length_le
    (show (maxTransactionsToIncludePerBlock - 1).toNat ≠ 0 by decide)
  generalize s.txQueue.get (maxTransactionsToIncludePerBlock - 1).toNat = txs at hincl hlen hshape
  rw [hheight] at hreward hcheckpoint hh hshape ⊢
  obtain ⟨hmem, hindex⟩ := hcoinbase _ (by rw [hshape]; rfl)
  have hchecked := hincl.createCoinbase_checked hs.valid hdraw hkey hutf8 hmemo hreward
  have hmedian : 0 ≤ computeMedianTimestamp t.2.header s.blockStore := by
    refine h.computeMedianTimestamp_nonneg (h.stored (R := fun b => 0 ≤ b.header.time) ?_
      (by decide) ht).1
    exact fun b now source _ hsane => hsane.time_range.1
  have hsane : (b.solved time nonce).Sane crypto ((b.solved time nonce).id crypto) now :=
    hincl.sane (lt_of_le_of_lt (Int.ofNat_le.mpr hlen) (by decide)) hshape hchecked rfl hU hmem hh
      hreward hcheckpoint hcount hroot hmedian hsolves
  have hmore : t.2.header.chainWork.toNat < (b.solved time nonce).header.chainWork.toNat := by
    have hsum := computeChainWork_eq_ok hchain
    have := computeBlockWork_pos (computeTarget_pos hpos.1 hpos.2 hwork htarget)
    show t.2.header.chainWork.toNat < b.header.chainWork.toNat
    omega
  exact hs.extend_includable (b := b.solved time nonce) h hU hincl hshape hsane
    (hs.unknown_of_work hfree hmore) hprev hh htarget hchain hsolves.time_gt hmem hindex hmore
    source

end Mined

/-! ### Mining the queued transfer -/

namespace Sample

/-- The clock shows the time at which the next block is due. -/
def draw : Draw := ⟨time 101, 0, time 101, 0⟩

/-- The reward key of the miner. -/
def miner : PublicKey := List.replicate 32 2

def minedCoinbase : Transaction := createCoinbase draw 101 miner [] [offer]

/-- The sample transactions with the new coinbase. -/
def mined : Set Transaction := insert minedCoinbase offers

theorem mined_collisionFree : CollisionFree crypto mined := by
  have hcoinbase : minedCoinbase.time = time 100 + 600 := by decide
  have hbound : 0 ≤ time 100 ∧ time 100 + 600 < 2 ^ 31 := by decide
  refine collisionFree_of_times ?_ ?_
  · rintro tx (rfl | h)
    · omega
    · have := offers_time h
      omega
  · rintro tx (rfl | h) tx' (rfl | h') ht
    · rfl
    · have := offers_time h'
      omega
    · have := offers_time h
      omega
    · exact offers_inj h h' ht

section Next

variable {s : Processor} {P : Transaction → Prop} {Q : Processor → Prop} {K : Set BlockID}

/-- Everything stored is a block of the sample chain. -/
theorem offered_stored (h : Run crypto false Offers s) {id : BlockID} {e : StoredBlock}
    (he : s.blockStore[id]? = some e) :
    ∃ n ≤ 100, e.block = (entry 0 n).2 ∧ id = BitVec.ofNat 256 (time n).natAbs := by
  obtain ⟨⟨n, hn, hblock⟩, hid⟩ := h.stored (R := fun b => ∃ n ≤ 100, b = (entry 0 n).2)
    (fun b now source hcall _ => by
      rcases hcall with ⟨n, hn, hcall⟩ | hcall
      · obtain ⟨rfl, -⟩ := Call.block.inj hcall
        exact ⟨n, hn, rfl⟩
      · exact absurd hcall (by simp)) ⟨0, by omega, rfl⟩ he
  exact ⟨n, hn, hblock, by rw [← hid, hblock, entry_id]⟩

theorem median_lt (hrun : Run crypto false Offers s)
    (hs : Settled crypto false P Q s (chain 0 100) K) :
    computeMedianTimestamp (entry 0 100).2.header s.blockStore < time 101 := by
  have horphan : s.blockStore[genesisBlock.header.previous]? = none := by
    rw [Option.eq_none_iff_forall_ne_some]
    intro e he
    obtain ⟨n, hn, -, hid⟩ := offered_stored hrun he
    exact entry_ne_null hn hid.symm
  rw [computeMedianTimestamp_eq (hs.admitted.line hs.stored) (chain_head 100) horphan]
  refine lt_of_le_of_lt (medianTime_le (t := time 100) (by decide) fun x hx => ?_) (by decide)
  obtain ⟨k, hk, rfl⟩ := mem_chain.mp hx
  rw [entry_time]
  simp only [time]
  omega

theorem computeTarget_hundred (blockStore : BlockStorage) (ledger : Ledger) :
    computeTarget (entry 0 100).2.header blockStore ledger = .ok genesisBlock.header.target := by
  rw [computeTarget, if_neg, computeTargetBitcoin, if_pos, entry_target] <;> rw [entry_height] <;>
    decide

theorem get_offer (hqueue : s.txQueue.transactions = [offer]) :
    s.txQueue.get (maxTransactionsToIncludePerBlock - 1).toNat = [offer] := by
  have hlen : s.txQueue.txQueue.length = 1 := by
    have := congrArg List.length hqueue
    rwa [TransactionQueue.transactions, List.length_map] at this
  rw [TransactionQueue.get, if_pos (Or.inr (by rw [hlen]; decide))]
  exact hqueue

theorem minedCoinbase_unindexed (hs : Settled crypto false P Q s (chain 0 100) K) :
    s.ledger.getTransactionIndex (minedCoinbase.id crypto) = none :=
  unindexed hs (show time 100 + 1 < time 101 by decide) (by decide)

/-- The sample hash tells apart the headers of different times. -/
theorem headerTexts_injOn (h : Run crypto false Offers s) {header : BlockHeader}
    (htime : header.time = time 101) :
    Set.InjOn crypto.sum256 (insert header.json s.headerTexts) := by
  have text {l : List UInt8} (hl : l ∈ insert header.json s.headerTexts) :
      ∃ n ≤ 101, crypto.sum256 l = BitVec.ofNat 256 (time n).natAbs ∧
        l = if n = 101 then header.json else (entry 0 n).2.header.json := by
    rcases hl with rfl | ⟨id, e, he, rfl⟩
    · refine ⟨101, le_rfl, ?_, rfl⟩
      rw [← htime]
      exact header_id (by rw [htime]; decide)
    · obtain ⟨n, hn, hblock, -⟩ := offered_stored h he
      refine ⟨n, by omega, ?_, ?_⟩
      · rw [hblock]
        exact entry_id 0 n
      · rw [if_neg (by omega), hblock]
  intro l hl l' hl' heq
  obtain ⟨n, hn, hsum, rfl⟩ := text hl
  obtain ⟨n', hn', hsum', rfl⟩ := text hl'
  rw [hsum, hsum'] at heq
  have hbound : ∀ k ≤ 101, 0 ≤ time k ∧ time k < 2 ^ 31 := by
    intro k hk
    simp only [time, genesisBlock]
    omega
  have h₁ := hbound n hn
  have h₂ := hbound n' hn'
  have hnat := ofNat_inj (by omega) (by omega) heq
  obtain rfl : n = n' := by
    simp only [time] at hnat h₁ h₂
    omega
  rfl

end Next

end Sample

/-- **The miner confirms the queued transfer.** -/
theorem mined_block_of_offered_transfer :
    ∃ s b, Run Sample.crypto false (Call.Within Sample.mined) s ∧
      createNextBlock Sample.crypto Sample.draw (Sample.entry 0 100).1
        (Sample.entry 0 100).2.header s.txQueue s.blockStore s.ledger Sample.miner [] = .ok b ∧
      b.transactions = [Sample.minedCoinbase, Sample.offer] ∧
      (s.step Sample.crypto false (.block (b.solved (Sample.time 101) 0) (Sample.time 101) "")).2 =
        .ok () ∧
      (s.step Sample.crypto false
        (.block (b.solved (Sample.time 101) 0) (Sample.time 101) "")).1.ledger.chainTip =
        some ((b.solved (Sample.time 101) 0).id Sample.crypto, 101) := by
  obtain ⟨s, hrun, hs, hqueue⟩ := Sample.exists_offered
  have hwithin : Run Sample.crypto false (Call.Within Sample.mined) s :=
    hrun.mono fun call hcall tx htx => Or.inr (hcall.within tx htx)
  have hg : genesisCoinbase ∈ Sample.mined :=
    Or.inr (Or.inr ⟨0, by omega, List.mem_singleton.mpr rfl⟩)
  obtain ⟨storedAt, ht⟩ := hs.stored (Sample.entry 0 100) List.mem_cons_self
  have hkey : Sample.miner.length = publicKeySize := by decide
  have hutf8 : validUTF8 0 [] = true := by decide
  have hdraw : Sample.draw.Possible := ⟨by decide, by decide⟩
  have hmined := mined_block_accepted Sample.mined_collisionFree hg hwithin
    (hs.getChainTipHeader ht) hkey hutf8 (by decide) hdraw (by decide) (by decide)
  obtain ⟨b, hb⟩ := hmined.1 _ (Sample.computeTarget_hundred _ _)
  obtain ⟨htarget, -, -, -, -, -, -, -, hshape⟩ := createNextBlock_ok_iff.mp hb
  rw [Sample.get_offer hqueue] at hshape
  rw [Sample.computeTarget_hundred] at htarget
  have hid : (b.solved (Sample.time 101) 0).id Sample.crypto =
      BitVec.ofNat 256 (Sample.time 101).natAbs :=
    Sample.header_id (show 0 ≤ Sample.time 101 by decide)
  have hsolves : Solves Sample.crypto s (Sample.entry 0 100).2.header (b.solved (Sample.time 101) 0)
      (Sample.time 101) := by
    refine ⟨Sample.median_lt hrun hs, ?_, by decide, ⟨le_rfl, show 0 ≤ maxNumber by decide⟩, ?_⟩
    · show Sample.time 101 ≤ Sample.time 101 + maxFutureSeconds
      decide
    · rw [hid]
      show decide (_ ≤ b.header.target.toNat) = true
      rw [← Except.ok.inj htarget]
      decide
  have hcoinbase : Sample.minedCoinbase ∈ Sample.mined ∧
      s.ledger.getTransactionIndex (Sample.minedCoinbase.id Sample.crypto) = none :=
    ⟨Or.inl rfl, Sample.minedCoinbase_unindexed hs⟩
  have hresult := hmined.2 b hb (Sample.time 101) 0 (Sample.time 101) "" hsolves (by decide)
    (by rw [hshape]; rintro _ ⟨⟩; exact hcoinbase) (Sample.headerTexts_injOn hrun rfl)
  exact ⟨s, b, hwithin, hb, hshape, hresult⟩

end Cruzbit

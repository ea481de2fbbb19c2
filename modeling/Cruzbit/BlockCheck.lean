/-
Cruzbit/BlockCheck.lean

The context-free block checks of `processor.go`, the reward schedule, the
checkpoints and the genesis block.

`checkBlock_ok_iff` says what `checkBlock` establishes; the part of it that
the ledger relies on is `Block.WellFormed`: a coinbase first and only first,
checked transactions with distinct IDs, and few enough of them that an index
fits in 32 bits.
-/
import Cruzbit.Block

namespace Cruzbit

open Encoding

/-! ### Reward and block size -/

/-- BlockCreationReward computes the expected block reward for the given height. -/
def blockCreationReward (height : Int) : Int :=
  let halvings := height.tdiv blocksUntilRewardHalving
  if halvings ≥ 64 then 0 else initialCoinbaseReward >>> Word.unsigned 8 halvings

/-- `1 << uint64(count)`.  A negative count is a huge one, and nothing is left. -/
def shiftOne (count : Int) : Int := if count < 0 then 0 else 2 ^ count.toNat

theorem shiftOne_of_nonneg {count : Int} (h : 0 ≤ count) : shiftOne count = 2 ^ count.toNat :=
  if_neg (not_lt.mpr h)

/-- Computes the maximum number of transactions allowed in a block at the
given height.  Inspired by BIP 101. -/
def computeMaxTransactionsPerBlock (height : Int) : Res Int :=
  if height ≥ maxTransactionsPerBlockExceededAtHeight then .ok maxTransactionsPerBlock
  else
    -- piecewise-linear-between-doublings growth
    let doublings := height.tdiv blocksUntilTransactionsPerBlockDoubling
    if doublings ≥ 64 then .error (.panic .overflowUint64)
    else
      let remainder := height.tmod blocksUntilTransactionsPerBlockDoubling
      let factor := shiftOne doublings
      let interpolate := (initialMaxTransactionsPerBlock * factor * remainder).tdiv
        blocksUntilTransactionsPerBlockDoubling
      .ok (initialMaxTransactionsPerBlock * factor + interpolate)

/-! ### Checkpoints -/

/-- LatestCheckpointHeight is used to determine if the client is synced. -/
def latestCheckpointHeight : Int := 18144

/-- Known height and block ID pairs on the main chain. -/
def checkpoints (height : Int) : Option BlockID :=
  if height = latestCheckpointHeight then
    some 0x000000000000b83e78ec29355d098256936389010d7450a288763ed4f191069e
  else none

/-- CheckpointCheck returns an error if the passed height is a checkpoint and
the passed block ID does not match it. -/
def checkpointCheck (id : BlockID) (height : Int) : Res Unit :=
  match checkpoints height with
  | none => .ok ()
  | some checkpointID => failIf (id ≠ checkpointID) (.checkpointMismatch id height checkpointID)

/-! ### checkBlock -/

/-- The basic transaction checks that do not depend on context. -/
def checkTransactions (crypto : Crypto) : List Transaction → Res Unit
  | [] => .ok ()
  | tx :: txs => do
    checkTransaction (tx.id crypto) tx
    checkTransactions crypto txs

/-- The first transaction must be a coinbase. -/
def firstIsCoinbase : List Transaction → Bool
  | [] => false
  | tx :: _ => tx.isCoinbase

/-- Context-free block sanity checker. -/
def checkBlock (crypto : Crypto) (id : BlockID) (block : Block) (now : Int) : Res Unit := do
  failIf (block.header.time < 0 ∨ block.header.time > maxNumber) (.invalidTime id)
  failIf (block.header.time > Word.int64 (now + maxFutureSeconds))
    (.timestampTooFarInFuture block.header.time now id)
  failIf (block.checkPOW id = false) (.insufficientProofOfWork id)
  failIf (block.header.nonce < 0 ∨ block.header.nonce > maxNumber) (.invalidNonce id)
  failIf (block.header.height < 0 ∨ block.header.height > maxNumber) (.invalidHeight id)
  checkpointCheck id block.header.height
  failIf (block.header.transactionCount < 0) (.negativeTransactionCount id)
  failIf (block.header.transactionCount ≠ block.transactions.length) (.transactionCountMismatch id)
  failIf (block.transactions.length = 0) (.noTransactions id)
  failIf (firstIsCoinbase block.transactions = false) (.firstNotCoinbase id)
  let max ← computeMaxTransactionsPerBlock block.header.height
  failIf (block.transactions.length > max) (.tooManyTransactions id block.transactions.length max)
  failIf (∃ tx ∈ block.transactions.tail, tx.isCoinbase = true) (.multipleCoinbases id)
  checkTransactions crypto block.transactions
  failIf ((block.txIDs crypto).dedup.length ≠ block.transactions.length) (.duplicateTransaction id)
  let hashListRoot ← computeHashListRoot crypto block.transactions
  failIf (hashListRoot ≠ block.header.hashListRoot) (.hashListRootMismatch id)

/-! ### Genesis -/

/-- The only transaction of the genesis block. -/
def genesisCoinbase : Transaction where
  time := 1561173126
  nonce := 1654479747
  fromKey := none
  toKey := some [158, 217, 18, 109, 177, 190, 111, 75, 232, 227, 210, 6, 119, 217, 231, 31,
    127, 94, 28, 140, 72, 18, 165, 230, 32, 191, 26, 104, 150, 85, 250, 52]
  amount := 5000000000
  fee := 0
  memo := ascii "0000000000000000000de6d595bddae743ac032b1458a47ccaef7b0f6f1e3210"
  matures := 0
  expires := 0
  series := 1
  signature := []

/-- GenesisBlockJson is the first block in the chain. -/
def genesisBlock : Block where
  header :=
    { previous := 0
      hashListRoot := 0x7afb89705316b3de79a3882ec3732b6b8796dd4bf2a80240549ae8fd49a517d8
      time := 1561173156
      target := BitVec.ofNat 256 initialTarget
      chainWork := 0x100010001
      nonce := 1695541686981695
      height := 0
      transactionCount := 1 }
  transactions := [genesisCoinbase]

/-! ### What a checked block looks like -/

theorem checkTransactions_ok_iff {crypto : Crypto} {txs : List Transaction} :
    checkTransactions crypto txs = .ok () ↔ ∀ tx ∈ txs, tx.Checked := by
  induction txs with
  | nil => simp [checkTransactions]
  | cons tx txs ih =>
    simp only [checkTransactions, Res.bind_eq_ok, Res.exists_unit,
      Transaction.checkTransaction_ok_iff, ih, List.forall_mem_cons]

/-- What `checkBlock` establishes. -/
structure Block.Sane (crypto : Crypto) (id : BlockID) (b : Block) (now : Int) : Prop where
  time_range : 0 ≤ b.header.time ∧ b.header.time ≤ maxNumber
  time_le : b.header.time ≤ Word.int64 (now + maxFutureSeconds)
  pow : id.toNat ≤ b.header.target.toNat
  nonce_range : 0 ≤ b.header.nonce ∧ b.header.nonce ≤ maxNumber
  height_range : 0 ≤ b.header.height ∧ b.header.height ≤ maxNumber
  checkpoint : checkpointCheck id b.header.height = .ok ()
  count : b.header.transactionCount = b.transactions.length
  shape : ∃ coinbase transfers, b.transactions = coinbase :: transfers ∧
    coinbase.isCoinbase = true ∧ ∀ tx ∈ transfers, tx.isCoinbase = false
  size : ∃ max, computeMaxTransactionsPerBlock b.header.height = .ok max ∧
    b.transactions.length ≤ max
  checked : ∀ tx ∈ b.transactions, tx.Checked
  nodup : (b.txIDs crypto).Nodup
  root : computeHashListRoot crypto b.transactions = .ok b.header.hashListRoot

theorem Block.dedup_txIDs_iff {crypto : Crypto} {b : Block} :
    (b.txIDs crypto).dedup.length = b.transactions.length ↔ (b.txIDs crypto).Nodup := by
  have hlen : b.transactions.length = (b.txIDs crypto).length := (List.length_map _).symm
  rw [hlen]
  constructor
  · intro h
    exact (List.dedup_sublist _).eq_of_length h ▸ List.nodup_dedup _
  · intro h
    rw [List.dedup_eq_self.mpr h]

/-- **`checkBlock` accepts exactly the sane blocks.** -/
theorem checkBlock_ok_iff {crypto : Crypto} {id : BlockID} {b : Block} {now : Int} :
    checkBlock crypto id b now = .ok () ↔ b.Sane crypto id now := by
  unfold checkBlock
  simp only [Res.bind_eq_ok, Res.exists_unit, failIf_eq_ok, not_or, not_lt, not_not, ne_eq,
    checkTransactions_ok_iff, Bool.not_eq_false, gt_iff_lt, Block.checkPOW,
    decide_eq_false_iff_not, Block.dedup_txIDs_iff]
  constructor
  · rintro ⟨htime, hle, hpow, hnonce, hheight, hcheckpoint, -, hcount, hne, hfirst, max, hmax, hlen,
      hrest, hchecked, hnodup, root, hroot, rfl⟩
    refine ⟨htime, hle, hpow, hnonce, hheight, hcheckpoint, hcount, ?_, ⟨max, hmax, hlen⟩, hchecked,
      hnodup, hroot⟩
    cases htx : b.transactions with
    | nil => rw [htx] at hne; exact absurd rfl hne
    | cons coinbase transfers =>
      rw [htx] at hfirst hrest
      refine ⟨coinbase, transfers, rfl, hfirst, fun tx htx => ?_⟩
      exact Bool.not_eq_true _ ▸ fun hcb => hrest ⟨tx, htx, hcb⟩
  · intro h
    obtain ⟨coinbase, transfers, htx, hfirst, hrest⟩ := h.shape
    obtain ⟨max, hmax, hlen⟩ := h.size
    refine ⟨h.time_range, h.time_le, h.pow, h.nonce_range, h.height_range, h.checkpoint, ?_, h.count,
      by simp [htx], by rw [htx]; exact hfirst, max, hmax, hlen, ?_, h.checked, h.nodup, _, h.root,
      rfl⟩
    · rw [h.count]
      omega
    · rintro ⟨tx, hmem, hcb⟩
      rw [htx, List.tail_cons] at hmem
      exact absurd ((hrest tx hmem).symm.trans hcb) (by simp)

/-- The part of a block's well-formedness that the ledger relies on. -/
structure Block.WellFormed (crypto : Crypto) (b : Block) : Prop where
  height_nonneg : 0 ≤ b.header.height
  height_le : b.header.height ≤ maxNumber
  shape : ∃ coinbase transfers, b.transactions = coinbase :: transfers ∧
    coinbase.isCoinbase = true ∧ ∀ tx ∈ transfers, tx.isCoinbase = false
  length_lt : (b.transactions.length : Int) < 2 ^ 31
  checked : ∀ tx ∈ b.transactions, tx.Checked
  nodup : (b.txIDs crypto).Nodup

/-- No height admits so many transactions that an index overflows 32 bits. -/
theorem computeMaxTransactionsPerBlock_lt {height max : Int} (h₀ : 0 ≤ height)
    (h : computeMaxTransactionsPerBlock height = .ok max) : max < 2 ^ 31 := by
  unfold computeMaxTransactionsPerBlock at h
  simp only [Int.tdiv_eq_ediv_of_nonneg h₀, Int.tmod_eq_emod_of_nonneg h₀,
    maxTransactionsPerBlockExceededAtHeight, blocksUntilTransactionsPerBlockDoubling,
    initialMaxTransactionsPerBlock] at h
  split_ifs at h with hbig
  · cases h
    decide
  · simp only [Except.ok.injEq] at h
    have hd₀ : 0 ≤ height / 105000 := by omega
    have hd : height / 105000 ≤ 17 := by omega
    rw [shiftOne_of_nonneg hd₀] at h
    obtain ⟨d, hd'⟩ := Int.eq_ofNat_of_zero_le hd₀
    rw [hd'] at h
    simp only [Int.toNat_natCast] at h
    have hr₀ : 0 ≤ height % 105000 := by omega
    have hr : height % 105000 < 105000 := by omega
    have hprod : 0 ≤ 10000 * (2 : Int) ^ d * (height % 105000) := by positivity
    rw [Int.tdiv_eq_ediv_of_nonneg hprod] at h
    have hdle : d ≤ 17 := by omega
    -- up to the sixteenth doubling even the next one fits; the last is cut short
    rcases Nat.lt_or_ge d 17 with hlt | hge
    · have hpow : (2 : Int) ^ d ≤ 2 ^ 16 := pow_le_pow_right₀ (by norm_num) (by omega)
      have : 10000 * (2 : Int) ^ d * (height % 105000) / 105000 ≤ 10000 * 2 ^ d := by
        refine Int.ediv_le_of_le_mul (by norm_num) ?_
        have : (0 : Int) ≤ 10000 * 2 ^ d := by positivity
        nlinarith
      norm_num at hpow ⊢
      omega
    · obtain rfl : d = 17 := by omega
      norm_num at h ⊢
      omega

/-- Every height admits a block with the number of transactions a miner includes. -/
theorem le_computeMaxTransactionsPerBlock {height : Int} (h₀ : 0 ≤ height) :
    ∃ max, computeMaxTransactionsPerBlock height = .ok max ∧
      maxTransactionsToIncludePerBlock ≤ max := by
  unfold computeMaxTransactionsPerBlock
  simp only [Int.tdiv_eq_ediv_of_nonneg h₀, Int.tmod_eq_emod_of_nonneg h₀]
  split_ifs with hbig hdoublings
  · exact ⟨_, rfl, by decide⟩
  · simp only [maxTransactionsPerBlockExceededAtHeight,
      blocksUntilTransactionsPerBlockDoubling] at hbig hdoublings
    omega
  · refine ⟨_, rfl, ?_⟩
    rw [shiftOne_of_nonneg (Int.ediv_nonneg h₀ (by decide))]
    have hr₀ : 0 ≤ height % blocksUntilTransactionsPerBlockDoubling :=
      Int.emod_nonneg _ (by decide)
    have hpow : (1 : Int) ≤ 2 ^ (height / blocksUntilTransactionsPerBlockDoubling).toNat :=
      one_le_pow₀ (by norm_num)
    generalize (2 : Int) ^ (height / blocksUntilTransactionsPerBlockDoubling).toNat = factor
      at hpow ⊢
    have hinterpolate : 0 ≤ (initialMaxTransactionsPerBlock * factor *
        (height % blocksUntilTransactionsPerBlockDoubling)).tdiv
          blocksUntilTransactionsPerBlockDoubling :=
      Int.tdiv_nonneg (mul_nonneg (mul_nonneg (by decide) (by omega)) hr₀) (by decide)
    simp only [maxTransactionsToIncludePerBlock, initialMaxTransactionsPerBlock] at hinterpolate ⊢
    omega

theorem Block.Sane.wellFormed {crypto : Crypto} {id : BlockID} {b : Block} {now : Int}
    (h : b.Sane crypto id now) : b.WellFormed crypto := by
  obtain ⟨max, hmax, hlen⟩ := h.size
  exact ⟨h.height_range.1, h.height_range.2, h.shape,
    lt_of_le_of_lt hlen (computeMaxTransactionsPerBlock_lt h.height_range.1 hmax), h.checked,
    h.nodup⟩

theorem Block.WellFormed.of_checkBlock {crypto : Crypto} {id : BlockID} {b : Block} {now : Int}
    (h : checkBlock crypto id b now = .ok ()) : b.WellFormed crypto :=
  (checkBlock_ok_iff.mp h).wellFormed

theorem genesisCoinbase_checked : genesisCoinbase.Checked :=
  Transaction.checkTransaction_ok_iff.mp (show checkTransaction 0 genesisCoinbase = .ok () from rfl)

theorem genesisBlock_wellFormed (crypto : Crypto) : genesisBlock.WellFormed crypto where
  height_nonneg := by decide
  height_le := by decide
  shape := ⟨genesisCoinbase, [], rfl, rfl, by simp⟩
  length_lt := by decide
  checked := by simp [genesisBlock, genesisCoinbase_checked]
  nodup := by simp [Block.txIDs, genesisBlock]

end Cruzbit

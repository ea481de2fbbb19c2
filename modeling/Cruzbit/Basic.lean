/-
Cruzbit/Basic.lean

Identifiers, constants and errors shared by the whole model.

Hashes are 256-bit values: `BlockID` and `TransactionID` are `[32]byte` in the
source, read as big-endian numbers by `GetBigInt`, and `BitVec.toNat` is that
number here.  SHA3-256 and ed25519 verification are parameters of the model
(`Crypto`); nothing is assumed about them unless a theorem says so.

Errors carry what the source formats into their text.  A Go panic is an error
of its own kind, `Err.panic`, so that "returns an error" and "panics" stay
apart.
-/
import Cruzbit.Encoding
import Cruzbit.Accounts

namespace Cruzbit

/-! ### Identifiers -/

/-- A block's unique identifier, also used for targets and chain work. -/
abbrev BlockID := BitVec 256

/-- A transaction's unique identifier. -/
abbrev TransactionID := BitVec 256

/-- An ed25519 public key: a Go byte slice of any length. -/
abbrev PublicKey := List UInt8

/-- A transaction's signature. -/
abbrev Signature := List UInt8

-- Instances found once here, for the tables and lists of identifiers and keys below.
instance : Std.TransOrd BlockID := inferInstance

instance : LawfulBEq PublicKey := inferInstance

/-- The bytes of an identifier. -/
def idBytes (id : BitVec 256) : List UInt8 := Word.bigEndian 32 id.toNat

/-- The cryptographic functions the program calls. -/
structure Crypto where
  /-- SHA3-256. -/
  sum256 : List UInt8 → BitVec 256
  /-- `ed25519.Verify` of a message that is a transaction ID. -/
  verify : PublicKey → TransactionID → Signature → Bool

/-! ### Constants -/

def cruzbitsPerCruz : Int := 100000000
def initialCoinbaseReward : Int := 50 * cruzbitsPerCruz
def coinbaseMaturity : Int := 100
/-- `00000000ffff0000000000000000000000000000000000000000000000000000`. -/
def initialTarget : Nat := 0xffff * 2 ^ 208
def maxFutureSeconds : Int := 2 * 60 * 60
def maxMoney : Int := 21000000 * cruzbitsPerCruz
def retargetInterval : Int := 2016
def retargetTime : Int := 1209600
def targetSpacing : Int := 600
def numBlocksForMedianTimestamp : Nat := 11
def blocksUntilRewardHalving : Int := 210000
def retargetSmaWindow : Int := 144
def initialMaxTransactionsPerBlock : Int := 10000
def blocksUntilTransactionsPerBlockDoubling : Int := 105000
def maxTransactionsPerBlock : Int := 2 ^ 31 - 1
def maxTransactionsPerBlockExceededAtHeight : Int := 1852032
def blocksUntilNewSeries : Int := 1008
def maxMemoLength : Nat := 100
def maxNumber : Int := 2 ^ 53 - 1
def bitcoinCashRetargetAlgorithmHeight : Int := 28861
def maxTransactionsToIncludePerBlock : Int := initialMaxTransactionsPerBlock
def maxTransactionQueueLength : Int := maxTransactionsToIncludePerBlock * 10
def minFeeCruzbits : Int := 1000000
def minAmountCruzbits : Int := 1000000
def publicKeySize : Nat := 32
def signatureSize : Nat := 64

/-! ### Errors -/

/-- Run-time panics of the modelled code. -/
inductive Panic
  | nilHeader                  -- a missing header is dereferenced
  | nilBlockID                 -- a missing height index entry is dereferenced
  | nilElement                 -- a missing list element is removed
  | nilTransaction             -- a null in a block's transactions is dereferenced
  | nilPeerInfo                -- a missing peer info is dereferenced
  | divisionByZero
  | tooMuchWork                -- "Too much work"
  | recipientBalanceNegative   -- "Recipient balance went negative"
  | overflowUint64             -- "Overflow uint64"
  | sliceBounds                -- a slice or index out of range
  deriving DecidableEq, Repr

/-- The errors the modelled code returns, with the values their texts show. -/
inductive Err
  | panic (p : Panic)
  -- checkTransaction
  | invalidTransactionTime (id : TransactionID)
  | negativeNonce (id : TransactionID)
  | coinbaseFee (id : TransactionID)
  | coinbaseMaturitySet (id : TransactionID)
  | coinbaseExpires (id : TransactionID)
  | coinbaseSignature (id : TransactionID)
  | invalidSender (id : TransactionID)
  | invalidSignature (id : TransactionID)
  | missingRecipient (id : TransactionID)
  | invalidRecipient (id : TransactionID)
  | transactionToSelf (id : TransactionID)
  | invalidAmount (id : TransactionID)
  | amountTooLarge (id : TransactionID)
  | negativeFee (id : TransactionID)
  | feeTooLarge (id : TransactionID)
  | memoNotUtf8 (id : TransactionID)
  | memoTooLong (id : TransactionID)
  | invalidMaturity (id : TransactionID)
  | invalidExpiration (id : TransactionID)
  | invalidSeries (id : TransactionID)
  -- checkBlock
  | invalidTime (id : BlockID)
  | timestampTooFarInFuture (time now : Int) (id : BlockID)
  | insufficientProofOfWork (id : BlockID)
  | invalidNonce (id : BlockID)
  | invalidHeight (id : BlockID)
  | checkpointMismatch (id : BlockID) (height : Int) (checkpoint : BlockID)
  | negativeTransactionCount (id : BlockID)
  | transactionCountMismatch (id : BlockID)
  | noTransactions (id : BlockID)
  | firstNotCoinbase (id : BlockID)
  | tooManyTransactions (id : BlockID) (found max : Int)
  | multipleCoinbases (id : BlockID)
  | duplicateTransaction (id : BlockID)
  | hashListRootMismatch (id : BlockID)
  -- processBlock and acceptBlock
  | orphan (id : BlockID)
  | unexpectedHeight (expected found : Int) (id : BlockID)
  | incorrectTarget (found expected id : BlockID)
  | incorrectChainWork (found expected id : BlockID)
  | timestampTooEarly (id : BlockID)
  | transactionSeries (id : TransactionID)
  | transactionImmature (id : TransactionID)
  | transactionExpired (id : TransactionID)
  | signatureVerificationFailed (id : TransactionID)
  | incorrectCoinbaseAmount (id : BlockID)
  | blockNotFound (id : BlockID)
  -- processTransaction
  | feeBelowMinimum (id : TransactionID)
  | amountBelowMinimum (id : TransactionID)
  | looseCoinbase (id : TransactionID)
  | queueFull (id : TransactionID)
  | alreadyConfirmed (id : TransactionID)
  | noChainTip
  | transactionWouldBeImmature (id : TransactionID)
  | transactionIsExpired (id : TransactionID) (height expires : Int)
  -- ledger and queue
  | connectPreviousMismatch (id previous tip : BlockID)
  | alreadyProcessed (id : TransactionID)
  | missingBlockAtHeight (height : Int)
  | insufficientSenderBalance (id : TransactionID)
  | disconnectNoTip (id : BlockID)
  | disconnectNotTip (id tip : BlockID)
  | missingBlockIDForHeight (height : Int)
  | queueInsufficientBalance (id : TransactionID) (sender : PublicKey)
  -- ledger queries
  | unexpectedEOF
  | noBlockFound (height : Int)
  | balanceNegative (id : TransactionID)
  | keyNotInvolved (id : TransactionID)
  -- peer storage
  | peerInfoNotFound (addr : List UInt8)
  -- peers
  | tooManyBlockIDs (length : Int)
  | unrequestedBlock
  | belowLatestCheckpoint (id : BlockID) (height : Int)
  | noHeader (id : BlockID)
  -- NewBlock
  | transactionListTooLong
  -- block storage
  | cannotDecodeBlock (id : BlockID)
  | cannotDecodeTransaction (id : BlockID) (index : Nat)
  -- a loop of the source that does not end
  | diverges
  deriving DecidableEq, Repr

/-- The error is a run-time panic. -/
def Err.isPanic : Err → Bool
  | .panic _ => true
  | _ => false

/-- A computation that returns a value, an error, or panics. -/
abbrev Res := Except Err

/-- `if cond { return err }`. -/
def failIf (cond : Prop) [Decidable cond] (e : Err) : Res Unit :=
  if cond then .error e else .ok ()

@[simp] theorem failIf_eq_ok {cond : Prop} [Decidable cond] {e : Err} {u : Unit} :
    failIf cond e = .ok u ↔ ¬ cond := by
  unfold failIf
  split_ifs with h <;> simp [h]

/-- A sequence of computations succeeds when the first one does and then the
rest. -/
theorem Res.bind_eq_ok {α β : Type} {x : Res α} {f : α → Res β} {b : β} :
    (x >>= f) = .ok b ↔ ∃ a, x = .ok a ∧ f a = .ok b := by
  cases x <;> simp [bind, Except.bind]

theorem Res.exists_unit {p : Unit → Prop} : (∃ u, p u) ↔ p () :=
  ⟨fun ⟨(), h⟩ => h, fun h => ⟨(), h⟩⟩

end Cruzbit

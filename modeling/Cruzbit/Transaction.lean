/-
Cruzbit/Transaction.lean

Transactions, their identifiers and the checks that look at a transaction
alone (`transaction.go`, and `checkTransaction`, `checkTransactionSeries` of
`processor.go`).

A transaction's ID hashes its JSON encoding with the signature removed, so
two transactions with the same encoding agree on everything but the
signature.  What the ledger and the processor rest on is proved here: the
sender and the series can be read back from the encoding (`idJson_inj`).
-/
import Cruzbit.Basic

namespace Cruzbit

open Encoding Accounts

/-- A ledger transaction.  `fromKey` and `toKey` are Go byte slices, nil or
not; the memo is a Go string, that is, any bytes. -/
structure Transaction where
  time : Int
  nonce : Int
  fromKey : Option PublicKey
  toKey : Option PublicKey
  amount : Int
  fee : Int
  memo : List UInt8
  matures : Int
  expires : Int
  series : Int
  signature : Signature
  deriving DecidableEq, Repr

namespace Transaction

/-- A coinbase is the first transaction in every block. -/
def isCoinbase (tx : Transaction) : Bool := tx.fromKey.isNone

/-- The bytes of `From`; a nil slice has none. -/
def sender (tx : Transaction) : PublicKey := tx.fromKey.getD []

/-- The bytes of `To`; a nil slice has none. -/
def recipient (tx : Transaction) : PublicKey := tx.toKey.getD []

/-! ### Encoding and identifier -/

/-- A byte slice in JSON: `null`, or a base64 string. -/
def jsonKey : Option PublicKey → List UInt8
  | none => ascii "null"
  | some pk => 34 :: base64 pk ++ [34]

/-- An `omitempty` number. -/
def jsonOptional (name : String) (x : Int) : List UInt8 :=
  if x = 0 then [] else ascii name ++ decimal x

/-- The fields from `amount` on. -/
def jsonAmounts (tx : Transaction) : List UInt8 :=
  ascii ",\"amount\":" ++ decimal tx.amount ++ jsonOptional ",\"fee\":" tx.fee ++
    (if tx.memo = [] then [] else ascii ",\"memo\":" ++ jsonString tx.memo) ++
    jsonOptional ",\"matures\":" tx.matures ++ jsonOptional ",\"expires\":" tx.expires ++
    ascii ",\"series\"" ++ 58 :: (decimal tx.series ++ [125])

/-- The fields from `from` on; an empty sender is omitted. -/
def jsonParties (tx : Transaction) : List UInt8 :=
  (if tx.sender = [] then [] else ascii "\"from\":\"" ++ (base64 tx.sender ++ 34 :: [44])) ++
    (ascii "\"to\":" ++ jsonKey tx.toKey ++ tx.jsonAmounts)

/-- The JSON encoding of the transaction with its signature removed. -/
def idJson (tx : Transaction) : List UInt8 :=
  ascii "\x7b\"time\":" ++ (decimal tx.time ++
    44 :: (ascii "\"nonce\":" ++ (decimal tx.nonce ++ 44 :: tx.jsonParties)))

/-- ID computes an ID for a given transaction. -/
def id (crypto : Crypto) (tx : Transaction) : TransactionID := crypto.sum256 tx.idJson

/-- Verify only that the transaction is properly signed. -/
def verify (crypto : Crypto) (tx : Transaction) : Bool :=
  crypto.verify tx.sender (tx.id crypto) tx.signature

/-! ### Maturity, expiration and series -/

/-- IsMature returns true if the transaction can be mined at the given height. -/
def isMature (tx : Transaction) (height : Int) : Bool :=
  if tx.matures = 0 then true else decide (tx.matures ≥ height)

/-- IsExpired returns true if the transaction cannot be mined at the given height. -/
def isExpired (tx : Transaction) (height : Int) : Bool :=
  if tx.expires = 0 then false else decide (tx.expires < height)

end Transaction

/-- The series must be within the acceptable range given the current height. -/
def checkTransactionSeries (tx : Transaction) (height : Int) : Bool :=
  if tx.isCoinbase then
    -- coinbases must start a new series right on time
    decide (tx.series = height.tdiv blocksUntilNewSeries + 1)
  else
    -- user transactions have a grace period of one full series
    let high := height.tdiv blocksUntilNewSeries + 1
    let low := if high - 1 = 0 then 1 else high - 1
    decide (tx.series ≥ low) && decide (tx.series ≤ high)

/-- Compute the series to use for a new transaction. -/
def computeTransactionSeries (isCoinbase : Bool) (height : Int) : Int :=
  if isCoinbase then
    -- coinbases start using the new series right on time
    height.tdiv blocksUntilNewSeries + 1
  else
    -- otherwise don't start using a new series until 100 blocks in
    (height - 100).tdiv blocksUntilNewSeries + 1

/-- NewTransaction returns a new unsigned transaction, with the time of the
clock and a random nonce. -/
def newTransaction (now nonce : Int) (fromKey toKey : Option PublicKey)
    (amount fee matures expires height : Int) (memo : List UInt8) : Transaction where
  time := now
  nonce := nonce
  fromKey := fromKey
  toKey := toKey
  amount := amount
  fee := fee
  memo := memo
  matures := matures
  expires := expires
  series := computeTransactionSeries fromKey.isNone height
  signature := []

/-! ### The period of a series -/

section Series

variable {tx : Transaction} {height : Int}

/-- A coinbase is valid in the period of its series alone. -/
theorem checkTransactionSeries_coinbase (hcb : tx.isCoinbase = true) (h₀ : 0 ≤ height) :
    checkTransactionSeries tx height = true ↔ tx.series = height / blocksUntilNewSeries + 1 := by
  unfold checkTransactionSeries
  rw [if_pos hcb, decide_eq_true_iff, Int.tdiv_eq_ediv_of_nonneg h₀]

/-- A user transaction is valid in the period of its series and in the
following one; there is no series before the first. -/
theorem checkTransactionSeries_user (hcb : tx.isCoinbase = false) (h₀ : 0 ≤ height) :
    checkTransactionSeries tx height = true ↔
      max 1 (height / blocksUntilNewSeries) ≤ tx.series ∧
        tx.series ≤ height / blocksUntilNewSeries + 1 := by
  unfold checkTransactionSeries
  simp only [hcb, Bool.false_eq_true, if_false, Bool.and_eq_true, decide_eq_true_eq,
    Int.tdiv_eq_ediv_of_nonneg h₀, blocksUntilNewSeries]
  split_ifs <;> omega

/-- The first 100 blocks of a period still count to the period before; the
division truncates, so the first 100 blocks of all use the first series. -/
theorem computeTransactionSeries_user (h₀ : 0 ≤ height) :
    computeTransactionSeries false height =
      max 0 (height - 100) / blocksUntilNewSeries + 1 := by
  show (height - 100).tdiv blocksUntilNewSeries + 1 = _
  simp only [blocksUntilNewSeries]
  rcases le_or_gt 100 height with h | h
  · rw [Int.tdiv_eq_ediv_of_nonneg (by omega), max_eq_right (by omega)]
  · rw [← neg_neg (height - 100), Int.neg_tdiv, Int.tdiv_eq_ediv_of_nonneg (by omega)]
    omega

/-- **Series assignment and validation agree.**  A user transaction created at
the tip height is valid up to 100 blocks below and 908 blocks above it; a
coinbase is valid at the height it was created for and in no other period. -/
theorem newTransaction_series_valid (now nonce : Int) (toKey : Option PublicKey)
    (amount fee matures expires : Int) (memo : List UInt8) {tipHeight : Int}
    (h₀ : 0 ≤ tipHeight) :
    (∀ (sender : PublicKey) (height : Int), max 0 (tipHeight - 100) ≤ height →
      height ≤ tipHeight + 908 →
      checkTransactionSeries (newTransaction now nonce (some sender) toKey amount fee matures
        expires tipHeight memo) height = true) ∧
    checkTransactionSeries (newTransaction now nonce none toKey amount fee matures expires
      tipHeight memo) tipHeight = true ∧
    ∀ height : Int, 0 ≤ height →
      height / blocksUntilNewSeries ≠ tipHeight / blocksUntilNewSeries →
      checkTransactionSeries (newTransaction now nonce none toKey amount fee matures expires
        tipHeight memo) height = false := by
  have hcoinbase : (newTransaction now nonce none toKey amount fee matures expires tipHeight
      memo).series = tipHeight / blocksUntilNewSeries + 1 := by
    show tipHeight.tdiv blocksUntilNewSeries + 1 = _
    rw [Int.tdiv_eq_ediv_of_nonneg h₀]
  refine ⟨?_, ?_, ?_⟩
  · intro sender height hlow hhigh
    rw [checkTransactionSeries_user rfl (le_trans (le_max_left _ _) hlow)]
    have hseries : (newTransaction now nonce (some sender) toKey amount fee matures expires
        tipHeight memo).series = max 0 (tipHeight - 100) / blocksUntilNewSeries + 1 :=
      computeTransactionSeries_user h₀
    rw [hseries]
    simp only [blocksUntilNewSeries]
    omega
  · exact (checkTransactionSeries_coinbase rfl h₀).mpr hcoinbase
  · intro height hheight hperiod
    rw [← Bool.not_eq_true, checkTransactionSeries_coinbase rfl hheight, hcoinbase]
    intro heq
    exact hperiod (by omega)

/-- Both ends of the window of a transaction created right at a switchover. -/
theorem newTransaction_series_valid_at_switchover :
    checkTransactionSeries (newTransaction 0 0 (some []) none 1 0 0 0 1107 []) 1007 = true ∧
      checkTransactionSeries (newTransaction 0 0 (some []) none 1 0 0 0 1107 []) 2015 = true ∧
      checkTransactionSeries (newTransaction 0 0 none none 1 0 0 0 1107 []) 1007 = false :=
  have h := newTransaction_series_valid 0 0 none 1 0 0 0 [] (show (0 : Int) ≤ 1107 by decide)
  ⟨h.1 [] 1007 (by decide) (by decide), h.1 [] 2015 (by decide) (by decide),
    h.2.2 1007 (by decide) (by decide)⟩

end Series

/-- The part of `checkTransaction` that tells coinbases from signed
transactions. -/
def checkTransactionSender (id : TransactionID) (tx : Transaction) : Res Unit :=
  if tx.isCoinbase then do
    failIf (tx.fee > 0) (.coinbaseFee id)
    failIf (tx.matures > 0) (.coinbaseMaturitySet id)
    failIf (tx.expires > 0) (.coinbaseExpires id)
    failIf (tx.signature.length ≠ 0) (.coinbaseSignature id)
  else do
    failIf (tx.sender.length ≠ publicKeySize) (.invalidSender id)
    failIf (tx.signature.length ≠ signatureSize) (.invalidSignature id)

/-- Context-free transaction sanity checker. -/
def checkTransaction (id : TransactionID) (tx : Transaction) : Res Unit := do
  failIf (tx.time < 0 ∨ tx.time > maxNumber) (.invalidTransactionTime id)
  failIf (tx.nonce < 0) (.negativeNonce id)
  checkTransactionSender id tx
  failIf (tx.toKey = none) (.missingRecipient id)
  failIf (tx.recipient.length ≠ publicKeySize) (.invalidRecipient id)
  failIf (tx.sender = tx.recipient) (.transactionToSelf id)
  failIf (tx.amount ≤ 0) (.invalidAmount id)
  failIf (tx.amount > maxMoney) (.amountTooLarge id)
  failIf (tx.fee < 0) (.negativeFee id)
  failIf (tx.fee > maxMoney) (.feeTooLarge id)
  failIf (¬ validUTF8 0 tx.memo) (.memoNotUtf8 id)
  failIf (tx.memo.length > maxMemoLength) (.memoTooLong id)
  failIf (tx.matures < 0 ∨ tx.matures > maxNumber) (.invalidMaturity id)
  failIf (tx.expires < 0 ∨ tx.expires > maxNumber) (.invalidExpiration id)
  failIf (tx.series ≤ 0 ∨ tx.series > maxNumber) (.invalidSeries id)

/-! ### What a checked transaction looks like -/

namespace Transaction

/-- What `checkTransaction` establishes. -/
structure Checked (tx : Transaction) : Prop where
  time_range : 0 ≤ tx.time ∧ tx.time ≤ maxNumber
  nonce_nonneg : 0 ≤ tx.nonce
  coinbase : tx.isCoinbase = true →
    tx.fee ≤ 0 ∧ tx.matures ≤ 0 ∧ tx.expires ≤ 0 ∧ tx.signature.length = 0
  signed : tx.isCoinbase = false →
    tx.sender.length = publicKeySize ∧ tx.signature.length = signatureSize
  toKey_ne : tx.toKey ≠ none
  recipient_length : tx.recipient.length = publicKeySize
  not_self : tx.sender ≠ tx.recipient
  amount_pos : 0 < tx.amount
  amount_le : tx.amount ≤ maxMoney
  fee_nonneg : 0 ≤ tx.fee
  fee_le : tx.fee ≤ maxMoney
  memo_utf8 : validUTF8 0 tx.memo = true
  memo_length : tx.memo.length ≤ maxMemoLength
  matures_range : 0 ≤ tx.matures ∧ tx.matures ≤ maxNumber
  expires_range : 0 ≤ tx.expires ∧ tx.expires ≤ maxNumber
  series_range : 0 < tx.series ∧ tx.series ≤ maxNumber

theorem checkTransactionSender_ok_iff {id : TransactionID} {tx : Transaction} :
    checkTransactionSender id tx = .ok () ↔
      (tx.isCoinbase = true →
        tx.fee ≤ 0 ∧ tx.matures ≤ 0 ∧ tx.expires ≤ 0 ∧ tx.signature.length = 0) ∧
      (tx.isCoinbase = false →
        tx.sender.length = publicKeySize ∧ tx.signature.length = signatureSize) := by
  unfold checkTransactionSender
  cases tx.isCoinbase <;> simp [Res.bind_eq_ok]

/-- **`checkTransaction` accepts exactly the checked transactions**, whatever
ID it is given for its error texts. -/
theorem checkTransaction_ok_iff {id : TransactionID} {tx : Transaction} :
    checkTransaction id tx = .ok () ↔ tx.Checked := by
  unfold checkTransaction
  simp only [Res.bind_eq_ok, Res.exists_unit, failIf_eq_ok, checkTransactionSender_ok_iff, not_or,
    not_lt, not_le, not_not, gt_iff_lt, ne_eq]
  constructor
  · rintro ⟨h₁, h₂, ⟨h₃, h₄⟩, h₅, h₆, h₇, h₈, h₉, h₁₀, h₁₁, h₁₂, h₁₃, h₁₄, h₁₅, h₁₆⟩
    exact ⟨h₁, h₂, h₃, h₄, h₅, h₆, h₇, h₈, h₉, h₁₀, h₁₁, h₁₂, h₁₃, h₁₄, h₁₅, h₁₆⟩
  · rintro ⟨h₁, h₂, h₃, h₄, h₅, h₆, h₇, h₈, h₉, h₁₀, h₁₁, h₁₂, h₁₃, h₁₄, h₁₅, h₁₆⟩
    exact ⟨h₁, h₂, ⟨h₃, h₄⟩, h₅, h₆, h₇, h₈, h₉, h₁₀, h₁₁, h₁₂, h₁₃, h₁₄, h₁₅, h₁₆⟩

/-! ### Reading the encoding back -/

/-- The series stands after the last colon of the encoding. -/
theorem series_of_idJson {tx tx' : Transaction} (h : tx.idJson = tx'.idJson) :
    tx.series = tx'.series := by
  have tail (t : Transaction) : 58 :: (decimal t.series ++ [125]) <:+ t.idJson := by
    have h₁ : 58 :: (decimal t.series ++ [125]) <:+ t.jsonAmounts := List.suffix_append _ _
    have h₂ : t.jsonAmounts <:+ t.jsonParties :=
      (List.suffix_append _ _).trans (List.suffix_append _ _)
    have h₃ : t.jsonParties <:+ t.idJson :=
      (((((List.suffix_cons _ _).trans (List.suffix_append _ _)).trans
        (List.suffix_append _ _)).trans (List.suffix_cons _ _)).trans
        (List.suffix_append _ _)).trans (List.suffix_append _ _)
    exact (h₁.trans h₂).trans h₃
  have noColon (x : Int) : (58 : UInt8) ∉ decimal x ++ [125] := by
    simp [colon_notMem_decimal]
  obtain ⟨pre, hpre⟩ := tail tx
  obtain ⟨pre', hpre'⟩ := tail tx'
  rw [← hpre, ← hpre'] at h
  obtain ⟨-, hseries⟩ := split_last (noColon _) (noColon _) h
  exact decimal_injective (List.append_cancel_right hseries)

/-- The text after the nonce tells the sender, present or omitted. -/
theorem sender_of_jsonParties {tx tx' : Transaction} (h : tx.jsonParties = tx'.jsonParties) :
    tx.sender = tx'.sender := by
  unfold jsonParties at h
  -- a `from` field and a `to` field differ in their second byte
  split_ifs at h with h₁ h₂ h₂
  · rw [h₁, h₂]
  · simp [ascii] at h
  · simp [ascii] at h
  · simp only [List.append_assoc, List.cons_append] at h
    have hcut := List.append_cancel_left h
    exact base64_injective (split_first (quote_notMem_base64 _) (quote_notMem_base64 _) hcut).1

/-- **The encoding determines the sender and the series.** -/
theorem idJson_inj {tx tx' : Transaction} (h : tx.idJson = tx'.idJson) :
    tx.sender = tx'.sender ∧ tx.series = tx'.series := by
  refine ⟨?_, series_of_idJson h⟩
  have htime := List.append_cancel_left h
  have hnonce := (split_first (comma_notMem_decimal _) (comma_notMem_decimal _) htime).2
  have hparties := (split_first (comma_notMem_decimal _) (comma_notMem_decimal _)
    (List.append_cancel_left hnonce)).2
  exact sender_of_jsonParties hparties

/-! ### Transactions as payments -/

/-- The payment a transaction makes; a coinbase has no payer. -/
def payment (tx : Transaction) : Payment PublicKey :=
  { payer := tx.fromKey, payee := tx.recipient, amount := tx.amount, fee := tx.fee }

theorem isCoinbase_eq_false_iff {tx : Transaction} :
    tx.isCoinbase = false ↔ tx.fromKey = some tx.sender := by
  unfold isCoinbase sender
  cases tx.fromKey <;> simp

theorem isCoinbase_eq_true_iff {tx : Transaction} : tx.isCoinbase = true ↔ tx.fromKey = none := by
  unfold isCoinbase
  cases tx.fromKey <;> simp

theorem Checked.sound {tx : Transaction} (h : tx.Checked) : tx.payment.Sound where
  amount_nonneg := h.amount_pos.le
  fee_nonneg := h.fee_nonneg
  payer_ne := by
    intro hp
    refine h.not_self ?_
    have hf : tx.fromKey = some tx.recipient := hp
    rw [sender, hf]
    rfl

theorem Checked.coinbase_fee {tx : Transaction} (h : tx.Checked) (hc : tx.isCoinbase = true) :
    tx.fee = 0 :=
  le_antisymm (h.coinbase hc).1 h.fee_nonneg

theorem sender_eq_nil {tx : Transaction} (hc : tx.isCoinbase = true) : tx.sender = [] := by
  rw [sender, isCoinbase_eq_true_iff.mp hc]
  rfl

theorem Checked.sender_ne_nil {tx : Transaction} (h : tx.Checked) (hc : tx.isCoinbase = false) :
    tx.sender ≠ [] := by
  intro h0
  have hlen := (h.signed hc).1
  rw [h0] at hlen
  exact absurd hlen (by decide)

/-- A checked transaction is a coinbase exactly when it has no sender bytes. -/
theorem Checked.fromKey_eq {tx tx' : Transaction} (h : tx.Checked) (h' : tx'.Checked)
    (hs : tx.sender = tx'.sender) : tx.fromKey = tx'.fromKey := by
  cases hc : tx.isCoinbase <;> cases hc' : tx'.isCoinbase
  · rw [isCoinbase_eq_false_iff.mp hc, isCoinbase_eq_false_iff.mp hc', hs]
  · exact absurd (hs.trans (sender_eq_nil hc')) (h.sender_ne_nil hc)
  · exact absurd (hs.symm.trans (sender_eq_nil hc)) (h'.sender_ne_nil hc')
  · rw [isCoinbase_eq_true_iff.mp hc, isCoinbase_eq_true_iff.mp hc']

end Transaction

/-! ### Collisions -/

/-- The hash does not collide on the encodings of these transactions. -/
def CollisionFree (crypto : Crypto) (U : Set Transaction) : Prop :=
  Set.InjOn crypto.sum256 (Transaction.idJson '' U)

theorem CollisionFree.idJson_eq {crypto : Crypto} {U : Set Transaction} (h : CollisionFree crypto U)
    {tx tx' : Transaction} (htx : tx ∈ U) (htx' : tx' ∈ U) (hid : tx.id crypto = tx'.id crypto) :
    tx.idJson = tx'.idJson :=
  h ⟨tx, htx, rfl⟩ ⟨tx', htx', rfl⟩ hid

/-- A transfer and a coinbase have different senders, and so different IDs. -/
theorem CollisionFree.id_ne_coinbase {crypto : Crypto} {U : Set Transaction}
    (h : CollisionFree crypto U) {tx coinbase : Transaction} (htx : tx ∈ U) (hmem : coinbase ∈ U)
    (hchecked : tx.Checked) (htransfer : tx.isCoinbase = false)
    (hcoinbase : coinbase.isCoinbase = true) : tx.id crypto ≠ coinbase.id crypto := by
  intro hid
  have hsender := (Transaction.idJson_inj (h.idJson_eq htx hmem hid)).1
  exact hchecked.sender_ne_nil htransfer (hsender.trans (Transaction.sender_eq_nil hcoinbase))

end Cruzbit

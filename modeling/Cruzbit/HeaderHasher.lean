/-
Cruzbit/HeaderHasher.lean

The hasher that miners use (`block_header_hasher.go`, without GPU devices).
It keeps the JSON text of the header in a buffer and patches the fields that
change: the hash list root in place, and the time, the nonce and the count of
transactions with everything behind them if their lengths change.

The text is seen as a list of prefixes, one for each field that can change
(`upToRoot`, ..., `upToCount`).  After each phase of `Update` the buffer is
the old one with the new text written over its start, up to the next field
(`updateTime_eq`, `updateNonce_eq`, `updateTransactionCount_eq`).  A part that
a phase leaves alone stands where it should, because the running offset is
zero exactly when the new text is as long as the old one so far.
-/
import Cruzbit.BlockCheck
import Cruzbit.Buffer

namespace Cruzbit

open Buffer Encoding

/-- `hex.Encode` of an identifier. -/
def hexEncode (id : BitVec 256) : List UInt8 :=
  (idBytes id).flatMap fun b => [hexDigit (b.toNat / 16), hexDigit (b.toNat % 16)]

/-- Used to more efficiently hash JSON serialized block headers while mining. -/
structure BlockHeaderHasher where
  previousHashListRoot : TransactionID
  previousTime : Int
  previousNonce : Int
  previousTransactionCount : Int
  hashListRootOffset : Int
  timeOffset : Int
  nonceOffset : Int
  transactionCountOffset : Int
  timeLen : Int
  nonceLen : Int
  txCountLen : Int
  initialized : Bool
  bufLen : Int
  buffer : List UInt8

namespace BlockHeaderHasher

/-! ### Static fields -/

@[irreducible] def hdrPrevious : List UInt8 := ascii "\x7b\"previous\":\""
@[irreducible] def hdrHashListRoot : List UInt8 := ascii "\",\"hash_list_root\":\""
@[irreducible] def hdrTime : List UInt8 := ascii "\",\"time\":"
@[irreducible] def hdrTarget : List UInt8 := ascii ",\"target\":\""
@[irreducible] def hdrChainWork : List UInt8 := ascii "\",\"chain_work\":\""
@[irreducible] def hdrNonce : List UInt8 := ascii "\",\"nonce\":"
@[irreducible] def hdrHeight : List UInt8 := ascii ",\"height\":"
@[irreducible] def hdrTransactionCount : List UInt8 := ascii ",\"transaction_count\":"
@[irreducible] def hdrEnd : List UInt8 := ascii "\x7d"

/-- The maximum buffer length needed. -/
@[irreducible] def maxBufLen : Nat :=
  hdrPrevious.length + hdrHashListRoot.length + hdrTime.length + hdrTarget.length +
    hdrChainWork.length + hdrNonce.length + hdrHeight.length + hdrTransactionCount.length +
    hdrEnd.length + 4 * 64 + 3 * 19 + 10

/-- NewBlockHeaderHasher returns a newly initialized BlockHeaderHasher. -/
def new : BlockHeaderHasher :=
  ⟨0, 0, 0, 0, 0, 0, 0, 0, 0, 0, 0, false, 0, List.replicate maxBufLen 0⟩

theorem new_length : new.buffer.length = maxBufLen := List.length_replicate

/-! ### Update -/

/-- Initialize the buffer to be hashed. -/
def initBuffer (h : BlockHeaderHasher) (header : BlockHeader) : Option BlockHeaderHasher := do
  -- previous and hash_list_root
  let c ← writeAll (h.buffer, 0) [hdrPrevious, hexEncode header.previous, hdrHashListRoot]
  let hashListRootOffset := c.2
  -- time
  let c ← writeAll c [hexEncode header.hashListRoot, hdrTime]
  let timeOffset := c.2
  let c ← write c (decimal header.time)
  let timeLen := c.2 - timeOffset
  -- target, chain_work and nonce
  let c ← writeAll c
    [hdrTarget, hexEncode header.target, hdrChainWork, hexEncode header.chainWork, hdrNonce]
  let nonceOffset := c.2
  let c ← write c (decimal header.nonce)
  let nonceLen := c.2 - nonceOffset
  -- height and transaction_count
  let c ← writeAll c [hdrHeight, decimal header.height, hdrTransactionCount]
  let transactionCountOffset := c.2
  let c ← write c (decimal header.transactionCount)
  let txCountLen := c.2 - transactionCountOffset
  let c ← write c hdrEnd
  some
    { previousHashListRoot := header.hashListRoot
      previousTime := header.time
      previousNonce := header.nonce
      previousTransactionCount := header.transactionCount
      hashListRootOffset := hashListRootOffset
      timeOffset := timeOffset
      nonceOffset := nonceOffset
      transactionCountOffset := transactionCountOffset
      timeLen := timeLen
      nonceLen := nonceLen
      txCountLen := txCountLen
      initialized := true
      bufLen := c.2
      buffer := c.1 }

/-- Write out a field, and what is between it and the next one if the running
offset is not zero behind it.  Returns the buffer, the length of the field and
the running offset. -/
def patchField (buffer : List UInt8) (fieldOffset : Int) (value : List UInt8) (oldLen : Int)
    (offset : Int) (rest : List (List UInt8)) : Option (List UInt8 × Int × Int) := do
  let c ← write (buffer, fieldOffset) value
  let newLen := c.2 - fieldOffset
  -- did the field shrink or grow in length?
  let offset := offset + (newLen - oldLen)
  -- shift everything below up or down
  let c ← if offset ≠ 0 then writeAll c rest else some c
  some (c.1, newLen, offset)

/-- hash_list_root -/
def updateHashListRoot (h : BlockHeaderHasher) (header : BlockHeader) :
    Option BlockHeaderHasher :=
  if h.previousHashListRoot ≠ header.hashListRoot then do
    let buffer ← put h.buffer h.hashListRootOffset (hexEncode header.hashListRoot)
    some { h with previousHashListRoot := header.hashListRoot, buffer := buffer }
  else some h

/-- time; the target, the chain work and the start of the nonce are shifted. -/
def updateTime (h : BlockHeaderHasher) (header : BlockHeader) :
    Option (BlockHeaderHasher × Int) :=
  if h.previousTime ≠ header.time then do
    let (buffer, timeLen, offset) ← patchField h.buffer h.timeOffset (decimal header.time)
      h.timeLen 0
      [hdrTarget, hexEncode header.target, hdrChainWork, hexEncode header.chainWork, hdrNonce]
    some ({ h with previousTime := header.time, timeLen := timeLen, buffer := buffer }, offset)
  else some (h, 0)

/-- nonce, or the old value at a new location; the height and the start of the
count of transactions are shifted. -/
def updateNonce (h : BlockHeaderHasher) (header : BlockHeader) (offset : Int) :
    Option (BlockHeaderHasher × Int) :=
  if offset ≠ 0 ∨ h.previousNonce ≠ header.nonce then do
    let nonceOffset := h.nonceOffset + offset
    let (buffer, nonceLen, offset) ← patchField h.buffer nonceOffset (decimal header.nonce)
      h.nonceLen offset [hdrHeight, decimal header.height, hdrTransactionCount]
    some ({ h with
      previousNonce := header.nonce
      nonceOffset := nonceOffset
      nonceLen := nonceLen
      buffer := buffer }, offset)
  else some (h, offset)

/-- transaction_count, or the old value at a new location; the footer is
shifted. -/
def updateTransactionCount (h : BlockHeaderHasher) (header : BlockHeader) (offset : Int) :
    Option (BlockHeaderHasher × Int) :=
  if offset ≠ 0 ∨ h.previousTransactionCount ≠ header.transactionCount then do
    let transactionCountOffset := h.transactionCountOffset + offset
    let (buffer, txCountLen, offset) ← patchField h.buffer transactionCountOffset
      (decimal header.transactionCount) h.txCountLen offset [hdrEnd]
    some ({ h with
      previousTransactionCount := header.transactionCount
      transactionCountOffset := transactionCountOffset
      txCountLen := txCountLen
      buffer := buffer }, offset)
  else some (h, offset)

/-- Bring the buffer up to date. -/
def updateBuffer (h : BlockHeaderHasher) (header : BlockHeader) : Option BlockHeaderHasher :=
  if h.initialized = false then h.initBuffer header
  else do
    let h ← h.updateHashListRoot header
    let (h, offset) ← h.updateTime header
    let (h, offset) ← h.updateNonce header offset
    let (h, offset) ← h.updateTransactionCount header offset
    some { h with bufLen := h.bufLen + offset }

/-- Update is called everytime the header is updated and the caller wants its
new hash value/ID. -/
def update (crypto : Crypto) (h : BlockHeaderHasher) (header : BlockHeader) :
    Option (BlockHeaderHasher × Nat) := do
  let h ← h.updateBuffer header
  -- hash it
  if 0 ≤ h.bufLen ∧ h.bufLen ≤ h.buffer.length then
    some (h, (crypto.sum256 (h.buffer.take h.bufLen.toNat)).toNat)
  else none

end BlockHeaderHasher

/-- IDFast computes an ID for a given block header when mining, with the hasher
kept in the header. -/
def BlockHeader.idFast (crypto : Crypto) (hasher : Option BlockHeaderHasher)
    (header : BlockHeader) : Option (BlockHeaderHasher × Nat) :=
  (hasher.getD BlockHeaderHasher.new).update crypto header

/-- The IDs computed for a header as it changes, each with the hasher that
computed it. -/
def idFasts (crypto : Crypto) :
    Option BlockHeaderHasher → List BlockHeader → Option (List (BlockHeaderHasher × Nat))
  | _, [] => some []
  | hasher, header :: headers => do
    let (hasher, id) ← header.idFast crypto hasher
    let trace ← idFasts crypto (some hasher) headers
    some ((hasher, id) :: trace)

/-! ### The text of a header -/

namespace BlockHeader

/-- The text up to the hash list root. -/
def upToRoot (header : BlockHeader) : List UInt8 :=
  [BlockHeaderHasher.hdrPrevious, hexEncode header.previous,
    BlockHeaderHasher.hdrHashListRoot].flatten

/-- The text up to the time. -/
def upToTime (header : BlockHeader) : List UInt8 :=
  header.upToRoot ++ [hexEncode header.hashListRoot, BlockHeaderHasher.hdrTime].flatten

/-- The text between the time and the nonce. -/
def untilNonce (header : BlockHeader) : List (List UInt8) :=
  [BlockHeaderHasher.hdrTarget, hexEncode header.target, BlockHeaderHasher.hdrChainWork,
    hexEncode header.chainWork, BlockHeaderHasher.hdrNonce]

/-- The text up to the nonce. -/
def upToNonce (header : BlockHeader) : List UInt8 :=
  header.upToTime ++ decimal header.time ++ header.untilNonce.flatten

/-- The text between the nonce and the count of transactions. -/
def untilCount (header : BlockHeader) : List (List UInt8) :=
  [BlockHeaderHasher.hdrHeight, decimal header.height, BlockHeaderHasher.hdrTransactionCount]

/-- The text up to the count of transactions. -/
def upToCount (header : BlockHeader) : List UInt8 :=
  header.upToNonce ++ decimal header.nonce ++ header.untilCount.flatten

/-- The whole text. -/
def text (header : BlockHeader) : List UInt8 :=
  header.upToCount ++ decimal header.transactionCount ++ BlockHeaderHasher.hdrEnd

/-- The text is the JSON encoding. -/
theorem text_eq_json (header : BlockHeader) : header.text = header.json := by
  have h₁ : BlockHeaderHasher.hdrPrevious = ascii "\x7b\"previous\":" ++ [34] := by decide +kernel
  have h₂ : BlockHeaderHasher.hdrHashListRoot =
      34 :: (ascii ",\"hash_list_root\":" ++ [34]) := by decide +kernel
  have h₃ : BlockHeaderHasher.hdrTime = 34 :: ascii ",\"time\":" := by decide +kernel
  have h₄ : BlockHeaderHasher.hdrTarget = ascii ",\"target\":" ++ [34] := by decide +kernel
  have h₅ : BlockHeaderHasher.hdrChainWork =
      34 :: (ascii ",\"chain_work\":" ++ [34]) := by decide +kernel
  have h₆ : BlockHeaderHasher.hdrNonce = 34 :: ascii ",\"nonce\":" := by decide +kernel
  simp only [text, upToCount, upToNonce, upToTime, upToRoot, untilNonce, untilCount, json, jsonID,
    hexEncode, h₁, h₂, h₃, h₄, h₅, h₆, BlockHeaderHasher.hdrHeight,
    BlockHeaderHasher.hdrTransactionCount, BlockHeaderHasher.hdrEnd, List.flatten_cons,
    List.flatten_nil, List.append_nil, List.append_assoc, List.cons_append, List.nil_append]

theorem upToNonce_length (header : BlockHeader) : header.upToNonce.length =
    header.upToTime.length + (decimal header.time).length + header.untilNonce.flatten.length := by
  simp only [upToNonce, List.length_append]

theorem upToCount_length (header : BlockHeader) : header.upToCount.length =
    header.upToNonce.length + (decimal header.nonce).length + header.untilCount.flatten.length := by
  simp only [upToCount, List.length_append]

theorem text_length (header : BlockHeader) : header.text.length =
    header.upToCount.length + (decimal header.transactionCount).length +
      BlockHeaderHasher.hdrEnd.length := by
  simp only [text, List.length_append]

theorem hexEncode_length (id : BitVec 256) : (hexEncode id).length = 64 := by
  simp [hexEncode, idBytes, List.length_flatMap, Word.bigEndian_length]

theorem upToTime_length (header : BlockHeader) : header.upToTime.length =
    BlockHeaderHasher.hdrPrevious.length + 64 + BlockHeaderHasher.hdrHashListRoot.length + 64 +
      BlockHeaderHasher.hdrTime.length := by
  simp only [upToTime, upToRoot, List.flatten_cons, List.flatten_nil, List.append_nil,
    List.length_append, hexEncode_length, add_assoc]

theorem untilNonce_length (header : BlockHeader) : header.untilNonce.flatten.length =
    BlockHeaderHasher.hdrTarget.length + 64 + BlockHeaderHasher.hdrChainWork.length + 64 +
      BlockHeaderHasher.hdrNonce.length := by
  simp only [untilNonce, List.flatten_cons, List.flatten_nil, List.append_nil,
    List.length_append, hexEncode_length, add_assoc]

theorem untilCount_length (header : BlockHeader) : header.untilCount.flatten.length =
    BlockHeaderHasher.hdrHeight.length + (decimal header.height).length +
      BlockHeaderHasher.hdrTransactionCount.length := by
  simp only [untilCount, List.flatten_cons, List.flatten_nil, List.append_nil,
    List.length_append, add_assoc]

/-- The headers agree on the fields that a miner never changes. -/
structure Varies (header header' : BlockHeader) : Prop where
  previous : header.previous = header'.previous
  target : header.target = header'.target
  chainWork : header.chainWork = header'.chainWork
  height : header.height = header'.height

theorem Varies.symm {header header' : BlockHeader} (h : header.Varies header') :
    header'.Varies header :=
  ⟨h.previous.symm, h.target.symm, h.chainWork.symm, h.height.symm⟩

theorem Varies.trans {a b c : BlockHeader} (h : a.Varies b) (h' : b.Varies c) : a.Varies c :=
  ⟨h.previous.trans h'.previous, h.target.trans h'.target, h.chainWork.trans h'.chainWork,
    h.height.trans h'.height⟩

/-- The integer fields are not negative and fit their Go types. -/
structure InRange (header : BlockHeader) : Prop where
  time : 0 ≤ header.time ∧ header.time < 2 ^ 63
  nonce : 0 ≤ header.nonce ∧ header.nonce < 2 ^ 63
  height : 0 ≤ header.height ∧ header.height < 2 ^ 63
  transactionCount : 0 ≤ header.transactionCount ∧ header.transactionCount < 2 ^ 31

/-- The text fits the buffer. -/
theorem InRange.text_length_le {header : BlockHeader} (h : header.InRange) :
    header.text.length ≤ BlockHeaderHasher.maxBufLen := by
  have h₁ : (decimal header.time).length ≤ 19 :=
    decimal_length_le (by omega) h.time.1 (h.time.2.trans (by norm_num))
  have h₂ : (decimal header.nonce).length ≤ 19 :=
    decimal_length_le (by omega) h.nonce.1 (h.nonce.2.trans (by norm_num))
  have h₃ : (decimal header.height).length ≤ 19 :=
    decimal_length_le (by omega) h.height.1 (h.height.2.trans (by norm_num))
  have h₄ : (decimal header.transactionCount).length ≤ 10 :=
    decimal_length_le (by omega) h.transactionCount.1 (h.transactionCount.2.trans (by norm_num))
  rw [text_length, upToCount_length, upToNonce_length, upToTime_length, untilNonce_length,
    untilCount_length]
  unfold BlockHeaderHasher.maxBufLen
  omega

end BlockHeader

/-! ### What the buffer holds -/

namespace BlockHeaderHasher

/-- The buffer begins with the text of the header, and the offsets say where its
fields are. -/
structure Encodes (h : BlockHeaderHasher) (header : BlockHeader) : Prop where
  initialized : h.initialized = true
  previousHashListRoot : h.previousHashListRoot = header.hashListRoot
  previousTime : h.previousTime = header.time
  previousNonce : h.previousNonce = header.nonce
  previousTransactionCount : h.previousTransactionCount = header.transactionCount
  hashListRootOffset : h.hashListRootOffset = header.upToRoot.length
  timeOffset : h.timeOffset = header.upToTime.length
  nonceOffset : h.nonceOffset = header.upToNonce.length
  transactionCountOffset : h.transactionCountOffset = header.upToCount.length
  timeLen : h.timeLen = (decimal header.time).length
  nonceLen : h.nonceLen = (decimal header.nonce).length
  txCountLen : h.txCountLen = (decimal header.transactionCount).length
  bufLen : h.bufLen = header.text.length
  buffer : header.text <+: h.buffer
  length : h.buffer.length = maxBufLen

section Update

variable {h : BlockHeaderHasher} {header header' : BlockHeader}

/-- **Initializing** writes the whole text. -/
theorem initBuffer_eq (hlen : h.buffer.length = maxBufLen) (hr : header.InRange) :
    ∃ h', h.initBuffer header = some h' ∧ h'.Encodes header := by
  have hfit := hr.text_length_le
  have htext := header.text_length
  have hcount := header.upToCount_length
  have hnonce := header.upToNonce_length
  have htime : header.upToTime.length = header.upToRoot.length + _ := List.length_append
  have h₁ : writeAll (h.buffer, 0) [hdrPrevious, hexEncode header.previous, hdrHashListRoot] =
      some (overlay header.upToRoot h.buffer, (header.upToRoot.length : Int)) :=
    writeAll_overlay (a := []) (show header.upToRoot.length ≤ h.buffer.length by omega)
  have h₂ : writeAll (overlay header.upToRoot h.buffer, (header.upToRoot.length : Int))
      [hexEncode header.hashListRoot, hdrTime] =
      some (overlay header.upToTime h.buffer, (header.upToTime.length : Int)) :=
    writeAll_overlay (show header.upToTime.length ≤ h.buffer.length by omega)
  have h₃ : write (overlay header.upToTime h.buffer, (header.upToTime.length : Int))
      (decimal header.time) = some (overlay (header.upToTime ++ decimal header.time) h.buffer,
        ((header.upToTime ++ decimal header.time).length : Int)) :=
    write_overlay (by rw [List.length_append]; omega)
  have h₄ : writeAll (overlay (header.upToTime ++ decimal header.time) h.buffer,
      ((header.upToTime ++ decimal header.time).length : Int)) header.untilNonce =
      some (overlay header.upToNonce h.buffer, (header.upToNonce.length : Int)) :=
    writeAll_overlay (show header.upToNonce.length ≤ h.buffer.length by omega)
  have h₅ : write (overlay header.upToNonce h.buffer, (header.upToNonce.length : Int))
      (decimal header.nonce) = some (overlay (header.upToNonce ++ decimal header.nonce) h.buffer,
        ((header.upToNonce ++ decimal header.nonce).length : Int)) :=
    write_overlay (by rw [List.length_append]; omega)
  have h₆ : writeAll (overlay (header.upToNonce ++ decimal header.nonce) h.buffer,
      ((header.upToNonce ++ decimal header.nonce).length : Int)) header.untilCount =
      some (overlay header.upToCount h.buffer, (header.upToCount.length : Int)) :=
    writeAll_overlay (show header.upToCount.length ≤ h.buffer.length by omega)
  have h₇ : write (overlay header.upToCount h.buffer, (header.upToCount.length : Int))
      (decimal header.transactionCount) =
      some (overlay (header.upToCount ++ decimal header.transactionCount) h.buffer,
        ((header.upToCount ++ decimal header.transactionCount).length : Int)) :=
    write_overlay (by rw [List.length_append]; omega)
  have h₈ : write (overlay (header.upToCount ++ decimal header.transactionCount) h.buffer,
      ((header.upToCount ++ decimal header.transactionCount).length : Int)) hdrEnd =
      some (overlay header.text h.buffer, (header.text.length : Int)) :=
    write_overlay (show header.text.length ≤ h.buffer.length by omega)
  rw [BlockHeader.untilNonce] at h₄
  rw [BlockHeader.untilCount] at h₆
  simp only [initBuffer, h₁, h₂, h₃, h₄, h₅, h₆, h₇, h₈, Option.bind_eq_bind, Option.bind_some]
  refine ⟨_, rfl, rfl, rfl, rfl, rfl, rfl, rfl, rfl, rfl, rfl, ?_, ?_, ?_, rfl,
    prefix_overlay _ _, ?_⟩
  · simp [List.length_append]
  · simp [List.length_append]
  · simp [List.length_append]
  · exact (overlay_length (by omega)).trans hlen

/-- **Patching a field**: afterwards the new text is in place up to the next
field, and the offset says how much it has grown so far. -/
theorem patchField_eq {a b x old : List UInt8} {offset : Int} {rest : List (List UInt8)}
    (value : List UInt8)
    (hx : b ++ old ++ rest.flatten <+: x)
    (hfit : (a ++ value ++ rest.flatten).length ≤ x.length)
    (hoffset : offset = (a.length : Int) - b.length) :
    patchField (overlay a x) a.length value old.length offset rest =
      some (overlay (a ++ value ++ rest.flatten) x, (value.length : Int),
        ((a ++ value).length : Int) - (b ++ old).length) := by
  have hvalue : (a ++ value).length ≤ x.length := by
    rw [List.length_append] at hfit
    omega
  have hshift : offset + ((value.length : Int) - old.length) =
      ((a ++ value).length : Int) - (b ++ old).length := by
    rw [hoffset, List.length_append, List.length_append]
    omega
  have hlen : ((a ++ value).length : Int) - a.length = value.length := by
    rw [List.length_append]
    omega
  simp only [patchField, write_overlay hvalue, Option.bind_eq_bind, Option.bind_some, hlen, hshift]
  by_cases h0 : ((a ++ value).length : Int) - (b ++ old).length = 0
  · rw [if_neg (not_not.mpr h0), overlay_keep hx (by omega)]
  · rw [if_pos h0, writeAll_overlay hfit]
    rfl

/-- A field that has neither changed nor moved is in place already. -/
theorem overlay_field {a b x old : List UInt8} {rest : List (List UInt8)}
    (hx : b ++ old ++ rest.flatten <+: x) (hlen : a.length = b.length) :
    overlay a x = overlay (a ++ old ++ rest.flatten) x := by
  rw [List.append_assoc] at hx ⊢
  exact overlay_keep hx hlen

theorem upToTime_length_eq (header header' : BlockHeader) :
    header.upToTime.length = header'.upToTime.length := by
  rw [BlockHeader.upToTime_length, BlockHeader.upToTime_length]

theorem Encodes.upToCount_prefix (he : h.Encodes header) :
    header.upToCount ++ decimal header.transactionCount ++ [hdrEnd].flatten <+: h.buffer := by
  simpa [BlockHeader.text] using he.buffer

theorem Encodes.upToNonce_prefix (he : h.Encodes header) :
    header.upToNonce ++ decimal header.nonce ++ header.untilCount.flatten <+: h.buffer := by
  show header.upToCount <+: h.buffer
  exact ((List.prefix_append _ _).trans (List.prefix_append _ _)).trans he.upToCount_prefix

theorem Encodes.upToTime_prefix (he : h.Encodes header) :
    header.upToTime ++ decimal header.time ++ header.untilNonce.flatten <+: h.buffer := by
  show header.upToNonce <+: h.buffer
  exact ((List.prefix_append _ _).trans (List.prefix_append _ _)).trans he.upToNonce_prefix

theorem updateHashListRoot_eq (he : h.Encodes header) (hv : header.Varies header') :
    h.updateHashListRoot header' = some { h with
      previousHashListRoot := header'.hashListRoot
      buffer := overlay header'.upToTime h.buffer } := by
  have hroot : header'.upToRoot = header.upToRoot := by
    simp only [BlockHeader.upToRoot, hv.previous]
  have hprefix : header.upToTime <+: h.buffer :=
    ((List.prefix_append _ _).trans (List.prefix_append _ _)).trans he.upToTime_prefix
  have hlen : (hexEncode header'.hashListRoot).length = (hexEncode header.hashListRoot).length := by
    rw [BlockHeader.hexEncode_length, BlockHeader.hexEncode_length]
  unfold updateHashListRoot
  by_cases hchanged : h.previousHashListRoot = header'.hashListRoot
  · rw [if_neg (not_not.mpr hchanged)]
    have htime : header'.upToTime = header.upToTime := by
      rw [BlockHeader.upToTime, BlockHeader.upToTime, hroot, ← hchanged, he.previousHashListRoot]
    rw [htime, overlay_of_begins hprefix, ← hchanged]
  · have hold : h.buffer = overlay header.upToRoot h.buffer :=
      (overlay_of_begins ((List.prefix_append _ _).trans hprefix)).symm
    have hput : put h.buffer h.hashListRootOffset (hexEncode header'.hashListRoot) =
        some (overlay (header.upToRoot ++ hexEncode header'.hashListRoot) h.buffer) := by
      rw [he.hashListRootOffset]
      nth_rewrite 1 [hold]
      refine put_overlay ?_
      have := hprefix.length_le
      rw [BlockHeader.upToTime] at this
      simp only [List.length_append, List.flatten_cons] at this ⊢
      omega
    rw [if_pos hchanged, hput]
    have htime : header'.upToTime =
        header.upToRoot ++ hexEncode header'.hashListRoot ++ hdrTime := by
      simp [BlockHeader.upToTime, hroot]
    have hkeep : overlay (header.upToRoot ++ hexEncode header'.hashListRoot) h.buffer =
        overlay header'.upToTime h.buffer := by
      rw [htime]
      refine overlay_keep (b := header.upToRoot ++ hexEncode header.hashListRoot) ?_ ?_
      · simpa [BlockHeader.upToTime] using hprefix
      · rw [List.length_append, List.length_append, hlen]
    rw [← hkeep]
    rfl

/-- The text of an admissible header fits the buffer. -/
theorem Encodes.text_fits (he : h.Encodes header) (hr : header'.InRange) :
    header'.text.length ≤ h.buffer.length := by
  rw [he.length]
  exact hr.text_length_le

/-- **The time phase**: `k` is the hasher with the new text in place up to the
time. -/
theorem updateTime_eq (he : h.Encodes header) (hv : header.Varies header') (hr : header'.InRange)
    {k : BlockHeaderHasher} (hbuffer : k.buffer = overlay header'.upToTime h.buffer)
    (hprevious : k.previousTime = header.time) (hoffset : k.timeOffset = header.upToTime.length)
    (hlen : k.timeLen = (decimal header.time).length) :
    k.updateTime header' = some ({ k with
        previousTime := header'.time
        timeLen := (decimal header'.time).length
        buffer := overlay header'.upToNonce h.buffer },
      (header'.upToNonce.length : Int) - header.upToNonce.length) := by
  have hrest : header'.untilNonce = header.untilNonce := by
    simp only [BlockHeader.untilNonce, hv.target, hv.chainWork]
  have hgrowth : ((header'.upToTime ++ decimal header'.time).length : Int) -
      (header.upToTime ++ decimal header.time).length =
      (header'.upToNonce.length : Int) - header.upToNonce.length := by
    rw [BlockHeader.upToNonce_length, BlockHeader.upToNonce_length, hrest, List.length_append,
      List.length_append]
    omega
  have hfit : header'.upToNonce.length ≤ h.buffer.length := by
    have := he.text_fits hr
    have := header'.text_length
    have := header'.upToCount_length
    omega
  have hx := he.upToTime_prefix
  rw [← hrest] at hx
  have hstart := upToTime_length_eq header' header
  unfold updateTime
  by_cases hsame : k.previousTime = header'.time
  · have htime : header.time = header'.time := hprevious.symm.trans hsame
    have hzero : (header'.upToNonce.length : Int) - header.upToNonce.length = 0 := by
      rw [← hgrowth, htime, List.length_append, List.length_append, hstart]
      exact sub_self _
    have hkeep : k.buffer = overlay header'.upToNonce h.buffer := by
      rw [hbuffer, overlay_field hx hstart, htime]
      rfl
    rw [if_neg (not_not.mpr hsame), hzero, ← hkeep, ← hsame, hprevious, ← hlen, ← hprevious]
  · have hpatch := patchField_eq (decimal header'.time) hx hfit rfl
    rw [hstart, sub_self, ← hoffset, ← hlen, hgrowth, ← hbuffer] at hpatch
    rw [if_pos hsame]
    exact congrArg (Option.bind · _) hpatch

/-- **The nonce phase.** -/
theorem updateNonce_eq (he : h.Encodes header) (hv : header.Varies header') (hr : header'.InRange)
    {k : BlockHeaderHasher} (hbuffer : k.buffer = overlay header'.upToNonce h.buffer)
    (hprevious : k.previousNonce = header.nonce) (hoffset : k.nonceOffset = header.upToNonce.length)
    (hlen : k.nonceLen = (decimal header.nonce).length) {offset : Int}
    (hshift : offset = (header'.upToNonce.length : Int) - header.upToNonce.length) :
    k.updateNonce header' offset = some ({ k with
        previousNonce := header'.nonce
        nonceOffset := header'.upToNonce.length
        nonceLen := (decimal header'.nonce).length
        buffer := overlay header'.upToCount h.buffer },
      (header'.upToCount.length : Int) - header.upToCount.length) := by
  have hrest : header'.untilCount = header.untilCount := by
    simp only [BlockHeader.untilCount, hv.height]
  have hgrowth : ((header'.upToNonce ++ decimal header'.nonce).length : Int) -
      (header.upToNonce ++ decimal header.nonce).length =
      (header'.upToCount.length : Int) - header.upToCount.length := by
    rw [BlockHeader.upToCount_length, BlockHeader.upToCount_length, hrest, List.length_append,
      List.length_append]
    omega
  have hfit : header'.upToCount.length ≤ h.buffer.length := by
    have := he.text_fits hr
    have := header'.text_length
    omega
  have hstart : k.nonceOffset + offset = header'.upToNonce.length := by omega
  have hx := he.upToNonce_prefix
  rw [← hrest] at hx
  unfold updateNonce
  by_cases hpatched : offset ≠ 0 ∨ k.previousNonce ≠ header'.nonce
  · have hpatch := patchField_eq (decimal header'.nonce) hx hfit hshift
    rw [← hlen, hgrowth, ← hbuffer, ← hstart] at hpatch
    rw [if_pos hpatched, ← hstart]
    exact congrArg (Option.bind · _) hpatch
  · obtain ⟨hzero, hsame⟩ := not_or.mp hpatched
    rw [not_not] at hzero hsame
    have hnonce : header.nonce = header'.nonce := hprevious.symm.trans hsame
    have hlength : header'.upToNonce.length = header.upToNonce.length := by omega
    have hzero' : (header'.upToCount.length : Int) - header.upToCount.length = 0 := by
      rw [← hgrowth, hnonce, List.length_append, List.length_append, hlength]
      exact sub_self _
    have hkeep : k.buffer = overlay header'.upToCount h.buffer := by
      rw [hbuffer, overlay_field hx hlength, hnonce]
      rfl
    rw [if_neg hpatched, hzero, hzero', ← hkeep, ← hsame, hprevious, ← hlen, ← hprevious, hlength,
      ← hoffset]

/-- **The phase of the count of transactions.** -/
theorem updateTransactionCount_eq (he : h.Encodes header) (hr : header'.InRange)
    {k : BlockHeaderHasher} (hbuffer : k.buffer = overlay header'.upToCount h.buffer)
    (hprevious : k.previousTransactionCount = header.transactionCount)
    (hoffset : k.transactionCountOffset = header.upToCount.length)
    (hlen : k.txCountLen = (decimal header.transactionCount).length) {offset : Int}
    (hshift : offset = (header'.upToCount.length : Int) - header.upToCount.length) :
    k.updateTransactionCount header' offset = some ({ k with
        previousTransactionCount := header'.transactionCount
        transactionCountOffset := header'.upToCount.length
        txCountLen := (decimal header'.transactionCount).length
        buffer := overlay header'.text h.buffer },
      (header'.text.length : Int) - header.text.length) := by
  have hgrowth : ((header'.upToCount ++ decimal header'.transactionCount).length : Int) -
      (header.upToCount ++ decimal header.transactionCount).length =
      (header'.text.length : Int) - header.text.length := by
    rw [BlockHeader.text_length, BlockHeader.text_length, List.length_append, List.length_append]
    omega
  have htext : header'.upToCount ++ decimal header'.transactionCount ++ [hdrEnd].flatten =
      header'.text := by simp [BlockHeader.text]
  have hfit := he.text_fits hr
  rw [← htext] at hfit
  have hstart : k.transactionCountOffset + offset = header'.upToCount.length := by omega
  have hx := he.upToCount_prefix
  unfold updateTransactionCount
  by_cases hpatched : offset ≠ 0 ∨ k.previousTransactionCount ≠ header'.transactionCount
  · have hpatch := patchField_eq (decimal header'.transactionCount) hx hfit hshift
    rw [← hlen, hgrowth, ← hbuffer, ← hstart, htext] at hpatch
    rw [if_pos hpatched, ← hstart]
    exact congrArg (Option.bind · _) hpatch
  · obtain ⟨hzero, hsame⟩ := not_or.mp hpatched
    rw [not_not] at hzero hsame
    have hcount : header.transactionCount = header'.transactionCount := hprevious.symm.trans hsame
    have hlength : header'.upToCount.length = header.upToCount.length := by omega
    have hzero' : (header'.text.length : Int) - header.text.length = 0 := by
      rw [← hgrowth, hcount, List.length_append, List.length_append, hlength]
      exact sub_self _
    have hkeep : k.buffer = overlay header'.text h.buffer := by
      rw [hbuffer, overlay_field hx hlength, hcount, htext]
    rw [if_neg hpatched, hzero, hzero', ← hkeep, ← hsame, hprevious, ← hlen, ← hprevious, hlength,
      ← hoffset]

/-- **One update** brings the buffer to the text of the new header. -/
theorem updateBuffer_eq (he : h.Encodes header) (hv : header.Varies header')
    (hr : header'.InRange) : ∃ h', h.updateBuffer header' = some h' ∧ h'.Encodes header' := by
  have hroot : header.upToRoot.length = header'.upToRoot.length := by
    simp only [BlockHeader.upToRoot, hv.previous]
  rw [updateBuffer, if_neg (by rw [he.initialized]; simp), updateHashListRoot_eq he hv]
  simp only [Option.bind_eq_bind, Option.bind_some, updateTime_eq he hv hr, he.previousTime,
    he.timeOffset, he.timeLen, updateNonce_eq he hv hr, he.previousNonce, he.nonceOffset,
    he.nonceLen, updateTransactionCount_eq he hr, he.previousTransactionCount,
    he.transactionCountOffset, he.txCountLen]
  refine ⟨_, rfl, he.initialized, rfl, rfl, rfl, rfl, he.hashListRootOffset.trans (by rw [hroot]),
    by rw [upToTime_length_eq header header'], rfl, rfl, rfl, rfl, rfl, ?_,
    prefix_overlay _ _, (overlay_length (he.text_fits hr)).trans he.length⟩
  show h.bufLen + _ = _
  rw [he.bufLen]
  omega

/-- What is hashed is the JSON encoding. -/
theorem Encodes.take_bufLen (he : h.Encodes header) :
    h.buffer.take h.bufLen.toNat = header.json := by
  rw [he.bufLen, Int.toNat_natCast, ← List.prefix_iff_eq_take.mp he.buffer,
    BlockHeader.text_eq_json]

/-- The hasher is new or has seen the header before, with other values of the
fields that a miner changes. -/
def Ready (hasher : Option BlockHeaderHasher) (header : BlockHeader) : Prop :=
  ∀ h ∈ hasher, ∃ old : BlockHeader, h.Encodes old ∧ old.Varies header

/-- **`IDFast` computes the ID.** -/
theorem idFast_eq (crypto : Crypto) {hasher : Option BlockHeaderHasher}
    (hready : Ready hasher header) (hr : header.InRange) :
    ∃ h', header.idFast crypto hasher = some (h', (header.id crypto).toNat) ∧
      h'.Encodes header := by
  obtain ⟨h', hok, he⟩ : ∃ h', (hasher.getD new).updateBuffer header = some h' ∧
      h'.Encodes header := by
    cases hasher with
    | none => exact initBuffer_eq new_length hr
    | some h =>
      obtain ⟨old, he, hv⟩ := hready h rfl
      exact updateBuffer_eq he hv hr
  have hbounds : 0 ≤ h'.bufLen ∧ h'.bufLen ≤ h'.buffer.length := by
    have := he.buffer.length_le
    rw [he.bufLen]
    omega
  refine ⟨h', ?_, he⟩
  simp only [BlockHeader.idFast, update, hok, Option.bind_eq_bind, Option.bind_some,
    if_pos hbounds, he.take_bufLen]
  rfl

/-- What is hashed is the text of the header, the buffer has not been moved, and
the number is the ID. -/
structure Hashes (crypto : Crypto) (header : BlockHeader) (hashed : BlockHeaderHasher × Nat) :
    Prop where
  text : hashed.1.buffer.take hashed.1.bufLen.toNat = header.json
  length : hashed.1.buffer.length = new.buffer.length
  id : hashed.2 = (header.id crypto).toNat

theorem idFasts_eq (crypto : Crypto) {fixed : BlockHeader} {headers : List BlockHeader}
    (hvaries : ∀ header ∈ headers, fixed.Varies header)
    (hrange : ∀ header ∈ headers, header.InRange) {hasher : Option BlockHeaderHasher}
    (hready : Ready hasher fixed) :
    ∃ trace, idFasts crypto hasher headers = some trace ∧
      List.Forall₂ (Hashes crypto) headers trace := by
  induction headers generalizing hasher with
  | nil => exact ⟨[], rfl, .nil⟩
  | cons header headers ih =>
    obtain ⟨hv, hvs⟩ := List.forall_mem_cons.mp hvaries
    obtain ⟨hr, hrs⟩ := List.forall_mem_cons.mp hrange
    have hready' : Ready hasher header := by
      intro h hh
      obtain ⟨old, he, hold⟩ := hready h hh
      exact ⟨old, he, hold.trans hv⟩
    obtain ⟨h', hok, he⟩ := idFast_eq crypto hready' hr
    have hnext : Ready (some h') fixed := by
      intro h hh
      obtain rfl : h' = h := Option.some.inj hh
      exact ⟨header, he, hv.symm⟩
    obtain ⟨trace, htrace, hall⟩ := ih hvs hrs hnext
    refine ⟨(h', (header.id crypto).toNat) :: trace, ?_,
      .cons ⟨he.take_bufLen, he.length.trans new_length.symm, rfl⟩ hall⟩
    simp only [idFasts, hok, htrace, Option.bind_eq_bind, Option.bind_some]

end Update

/-- **Fast header hashing agrees with the canonical encoding.** -/
theorem idFast_agrees (crypto : Crypto) {fixed : BlockHeader} {headers : List BlockHeader}
    (hvaries : ∀ header ∈ headers, fixed.Varies header)
    (hrange : ∀ header ∈ headers, header.InRange) :
    ∃ trace, idFasts crypto none headers = some trace ∧
      List.Forall₂ (Hashes crypto) headers trace :=
  idFasts_eq crypto hvaries hrange fun h hh => absurd hh (by simp)

/-- The genesis header, one with a shorter time and a longer nonce, and one where
the nonce shrinks by what the time grows. -/
def changes : List BlockHeader :=
  [genesisBlock.header,
    { genesisBlock.header with time := 1, nonce := 9000000000000000000, transactionCount := 10 },
    { genesisBlock.header with time := 1561173156, nonce := 9000000000, transactionCount := 10 }]

/-- A hash for which a wrong length shows. -/
def lengthHash : Crypto := ⟨fun text => BitVec.ofNat 256 text.length, fun _ _ _ => true⟩

theorem idFast_agrees_on_changes :
    ∃ trace, idFasts lengthHash none changes = some trace ∧
      List.Forall₂ (Hashes lengthHash) changes trace := by
  have hvaries : ∀ header ∈ changes, genesisBlock.header.Varies header := by
    simp only [changes, List.forall_mem_cons]
    exact ⟨⟨rfl, rfl, rfl, rfl⟩, ⟨rfl, rfl, rfl, rfl⟩, ⟨rfl, rfl, rfl, rfl⟩, by simp⟩
  have hrange : ∀ header ∈ changes, header.InRange := by
    simp only [changes, List.forall_mem_cons]
    exact ⟨⟨by decide, by decide, by decide, by decide⟩,
      ⟨by decide, by decide, by decide, by decide⟩,
      ⟨by decide, by decide, by decide, by decide⟩, by simp⟩
  exact idFast_agrees lengthHash hvaries hrange

end BlockHeaderHasher

end Cruzbit

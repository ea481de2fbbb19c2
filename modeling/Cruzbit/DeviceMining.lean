/-
Cruzbit/DeviceMining.lean

The hasher with GPU devices (`block_header_hasher.go` with device mining,
`cuda.go`).  A device is handed the text in front of the nonce and the text
behind it, and tries nonces of its own in between.

The nonce in the buffer is stale on purpose: it is written again only when the
time in front of it changes its length, or when the device reports a solution
and the buffer is built anew.  So the buffer holds the text of the header with
some earlier nonce.  With that nonce in its place, an update with a device is
an update without one (`updateBufferDevice_eq`), and `Encodes` describes the
buffer here too.  What a device holds does not depend on the nonce at all
(`Holds`), so it is handed new pieces only when another field changes.
-/
import Cruzbit.HeaderHasher

namespace Cruzbit

open Buffer Encoding

/-- The text in front of the nonce and the text behind it. -/
structure Pieces where
  first : List UInt8
  last : List UInt8
  deriving DecidableEq, Repr

/-- CudaMinerUpdate, OpenCLMinerUpdate: the buffer around the nonce is copied to
the device. -/
def minerUpdate (headerBytes : List UInt8)
    (headerBytesLen startNonceOffset endNonceOffset : Int) : Option Pieces :=
  if 0 ≤ startNonceOffset ∧ startNonceOffset ≤ endNonceOffset ∧
      endNonceOffset ≤ headerBytesLen ∧ headerBytesLen ≤ headerBytes.length then
    some
      { first := headerBytes.take startNonceOffset.toNat
        last := (headerBytes.take headerBytesLen.toNat).drop endNonceOffset.toNat }
  else none

/-- What a device returns when it has no solution. -/
def notFound : Int := 0x7FFFFFFFFFFFFFFF

/-- A hasher and the pieces last handed to its device. -/
structure DeviceHasher where
  hasher : BlockHeaderHasher
  device : Option Pieces

namespace BlockHeaderHasher

/-- The nonce phase of `Update` with device mining: a new nonce alone is not
written. -/
def updateNonceDevice (h : BlockHeaderHasher) (header : BlockHeader) (offset : Int) :
    Option (BlockHeaderHasher × Int) :=
  if offset ≠ 0 then do
    let nonceOffset := h.nonceOffset + offset
    let (buffer, nonceLen, offset) ← patchField h.buffer nonceOffset (decimal header.nonce)
      h.nonceLen offset [hdrHeight, decimal header.height, hdrTransactionCount]
    some ({ h with
      previousNonce := header.nonce
      nonceOffset := nonceOffset
      nonceLen := nonceLen
      buffer := buffer }, offset)
  else some (h, offset)

/-- Bring the buffer up to date with device mining.  Also returns whether a phase
wrote to the buffer. -/
def updateBufferDevice (h : BlockHeaderHasher) (header : BlockHeader) :
    Option (BlockHeaderHasher × Bool) :=
  if h.initialized = false then do
    let h ← h.initBuffer header
    some (h, true)
  else do
    let h₁ ← h.updateHashListRoot header
    let (h₂, offset₂) ← h₁.updateTime header
    let (h₃, offset₃) ← h₂.updateNonceDevice header offset₂
    let (h₄, offset₄) ← h₃.updateTransactionCount header offset₃
    some ({ h₄ with bufLen := h₄.bufLen + offset₄ },
      decide (h.previousHashListRoot ≠ header.hashListRoot ∨ h.previousTime ≠ header.time ∨
        offset₂ ≠ 0 ∨ offset₃ ≠ 0 ∨ h.previousTransactionCount ≠ header.transactionCount))

end BlockHeaderHasher

namespace DeviceHasher

/-- Handle mining with GPU devices: what the device holds when it tries for a
solution. -/
def updateDevice (h : BlockHeaderHasher) (device : Option Pieces) (bufferChanged : Bool) :
    Option (Option Pieces) :=
  if bufferChanged then
    -- update the device's copy of the buffer
    (minerUpdate h.buffer h.bufLen h.nonceOffset (h.nonceOffset + h.nonceLen)).map some
  else some device

/-- Update with device mining; `answer` is what the device returns.  Also returns
the header, with the device's nonce if it found one. -/
def update (crypto : Crypto) (m : DeviceHasher) (header : BlockHeader) (answer : Int) :
    Option (DeviceHasher × BlockHeader × Nat) := do
  let (h, bufferChanged) ← m.hasher.updateBufferDevice header
  let device ← updateDevice h m.device bufferChanged
  if answer = notFound then
    -- indirectly let the miner know we failed
    some (⟨h, device⟩, header, 2 ^ 256 - 1)
  else
    -- rebuild the buffer with the new nonce since we don't update it per attempt
    let header := { header with nonce := answer }
    let h ← h.initBuffer header
    if 0 ≤ h.bufLen ∧ h.bufLen ≤ h.buffer.length then
      some (⟨h, device⟩, header, (crypto.sum256 (h.buffer.take h.bufLen.toNat)).toNat)
    else none

/-- A hasher that has not been used; nothing is known of its device. -/
def new (device : Option Pieces) : DeviceHasher := ⟨BlockHeaderHasher.new, device⟩

/-- The hasher after each call, for headers and answers of the device. -/
def updates (crypto : Crypto) :
    DeviceHasher → List (BlockHeader × Int) → Option (List DeviceHasher)
  | _, [] => some []
  | m, (header, answer) :: calls => do
    let (m, _, _) ← m.update crypto header answer
    let trace ← updates crypto m calls
    some (m :: trace)

end DeviceHasher

/-! ### The text around the nonce -/

namespace BlockHeader

/-- The header with another nonce. -/
def withNonce (header : BlockHeader) (nonce : Int) : BlockHeader := { header with nonce := nonce }

/-- The text behind the nonce. -/
def behindNonce (header : BlockHeader) : List UInt8 :=
  header.untilCount.flatten ++ decimal header.transactionCount ++ BlockHeaderHasher.hdrEnd

theorem text_withNonce (header : BlockHeader) (nonce : Int) :
    (header.withNonce nonce).text = header.upToNonce ++ decimal nonce ++ header.behindNonce := by
  show header.upToNonce ++ decimal nonce ++ header.untilCount.flatten ++
    decimal header.transactionCount ++ BlockHeaderHasher.hdrEnd = _
  simp only [behindNonce, List.append_assoc]

theorem text_eq_split (header : BlockHeader) :
    header.text = header.upToNonce ++ decimal header.nonce ++ header.behindNonce :=
  header.text_withNonce header.nonce

theorem InRange.withNonce {header : BlockHeader} (h : header.InRange) {nonce : Int}
    (hn : 0 ≤ nonce ∧ nonce < 2 ^ 63) : (header.withNonce nonce).InRange :=
  ⟨h.time, hn, h.height, h.transactionCount⟩

theorem Varies.withNonce {header header' : BlockHeader} (h : header.Varies header')
    (nonce : Int) : header.Varies (header'.withNonce nonce) :=
  ⟨h.previous, h.target, h.chainWork, h.height⟩

end BlockHeader

/-- The pieces are those of the header, whatever its nonce. -/
def Pieces.Holds (pieces : Pieces) (header : BlockHeader) : Prop :=
  pieces.first = header.upToNonce ∧ pieces.last = header.behindNonce

theorem Pieces.Holds.json {pieces : Pieces} {header : BlockHeader} (h : pieces.Holds header)
    (n : Int) : pieces.first ++ decimal n ++ pieces.last = (header.withNonce n).json := by
  rw [h.1, h.2, ← BlockHeader.text_withNonce, BlockHeader.text_eq_json]

/-- The pieces are those of every header that differs in the nonce alone. -/
theorem Pieces.Holds.of_same {pieces : Pieces} {header header' : BlockHeader}
    (h : pieces.Holds header) (hv : header.Varies header')
    (hroot : header.hashListRoot = header'.hashListRoot) (htime : header.time = header'.time)
    (hcount : header.transactionCount = header'.transactionCount) : pieces.Holds header' := by
  refine ⟨h.1.trans ?_, h.2.trans ?_⟩
  · simp only [BlockHeader.upToNonce, BlockHeader.upToTime, BlockHeader.upToRoot,
      BlockHeader.untilNonce, hv.previous, hv.target, hv.chainWork, hroot, htime]
  · simp only [BlockHeader.behindNonce, BlockHeader.untilCount, hv.height, hcount]

/-! ### One update -/

namespace BlockHeaderHasher

variable {h h' : BlockHeaderHasher} {header header' : BlockHeader}

/-- The device gets the text on both sides of the nonce that is in the buffer. -/
theorem Encodes.minerUpdate (he : h.Encodes header) :
    ∃ pieces, minerUpdate h.buffer h.bufLen h.nonceOffset (h.nonceOffset + h.nonceLen) =
      some pieces ∧ pieces.Holds header := by
  obtain ⟨rest, hrest⟩ := he.buffer
  have htext := header.text_eq_split
  have hlen := congrArg List.length htext
  have hfits := he.buffer.length_le
  simp only [List.length_append] at hlen
  have hlast : h.nonceOffset + h.nonceLen =
      ((header.upToNonce ++ decimal header.nonce).length : Nat) := by
    rw [he.nonceOffset, he.nonceLen, List.length_append, Nat.cast_add]
  unfold Cruzbit.minerUpdate
  rw [hlast, he.bufLen, he.nonceOffset, if_pos (by rw [List.length_append]; omega)]
  refine ⟨_, rfl, ?_, ?_⟩
  · show h.buffer.take (header.upToNonce.length : Int).toNat = _
    rw [Int.toNat_natCast, ← hrest, htext, List.append_assoc, List.append_assoc, List.take_left]
  · show (h.buffer.take (header.text.length : Int).toNat).drop
      ((header.upToNonce ++ decimal header.nonce).length : Int).toNat = _
    rw [Int.toNat_natCast, Int.toNat_natCast, ← hrest, List.take_left, htext, List.drop_left]

/-- The nonce phase with a device is the one without, for the nonce that it
leaves in the buffer. -/
theorem updateNonceDevice_eq (h : BlockHeaderHasher) (header : BlockHeader) (offset : Int) :
    h.updateNonceDevice header offset =
      h.updateNonce (header.withNonce (if offset ≠ 0 then header.nonce else h.previousNonce))
        offset := by
  unfold updateNonceDevice updateNonce
  by_cases hoffset : offset ≠ 0
  · rw [if_pos hoffset, if_pos hoffset, if_pos (Or.inl hoffset)]
    rfl
  · rw [if_neg hoffset, if_neg hoffset, if_neg (by simpa [BlockHeader.withNonce] using hoffset)]

theorem updateHashListRoot_previousNonce (hok : h.updateHashListRoot header = some h') :
    h'.previousNonce = h.previousNonce := by
  unfold updateHashListRoot at hok
  split_ifs at hok
  · simp only [Option.bind_eq_bind, Option.bind_eq_some_iff] at hok
    obtain ⟨buffer, -, hh⟩ := hok
    rw [← Option.some.inj hh]
  · rw [← Option.some.inj hok]

theorem updateTime_previousNonce {offset : Int} (hok : h.updateTime header = some (h', offset)) :
    h'.previousNonce = h.previousNonce := by
  unfold updateTime at hok
  split_ifs at hok
  · simp only [Option.bind_eq_bind, Option.bind_eq_some_iff] at hok
    obtain ⟨patched, -, hh⟩ := hok
    rw [← (Prod.mk.inj (Option.some.inj hh)).1]
  · rw [← (Prod.mk.inj (Option.some.inj hok)).1]

/-- The phases of an update. -/
theorem updateBuffer_phases (hinit : h.initialized = true) (hok : h.updateBuffer header = some h') :
    ∃ h₁ h₂ h₃ h₄ offset₂ offset₃ offset₄, h.updateHashListRoot header = some h₁ ∧
      h₁.updateTime header = some (h₂, offset₂) ∧
      h₂.updateNonce header offset₂ = some (h₃, offset₃) ∧
      h₃.updateTransactionCount header offset₃ = some (h₄, offset₄) ∧
      h' = { h₄ with bufLen := h₄.bufLen + offset₄ } := by
  rw [updateBuffer, if_neg (by rw [hinit]; exact Bool.noConfusion)] at hok
  simp only [Option.bind_eq_bind, Option.bind_eq_some_iff] at hok
  obtain ⟨h₁, hroot, ⟨h₂, offset₂⟩, htime, ⟨h₃, offset₃⟩, hnonce, ⟨h₄, offset₄⟩, hcount, hh⟩ := hok
  exact ⟨h₁, h₂, h₃, h₄, offset₂, offset₃, offset₄, hroot, htime, hnonce, hcount,
    (Option.some.inj hh).symm⟩

/-- **An update with a device is one without**, for a header with the nonce that
is left in the buffer.  If it wrote nothing, no other field has changed. -/
theorem updateBufferDevice_eq (he : h.Encodes header) (hv : header.Varies header')
    (hr : header'.InRange) (hstale : header.InRange) :
    ∃ h' changed nonce, h.updateBufferDevice header' = some (h', changed) ∧
      (0 ≤ nonce ∧ nonce < 2 ^ 63) ∧ h'.Encodes (header'.withNonce nonce) ∧
      (changed = false → header.hashListRoot = header'.hashListRoot ∧
        header.time = header'.time ∧ header.transactionCount = header'.transactionCount) := by
  -- the first two phases do not look at the nonce; they decide which one stays
  obtain ⟨_, hany, -⟩ := updateBuffer_eq he hv hr
  obtain ⟨h₁, h₂, -, -, offset₂, -, -, hroot, htime, -⟩ := updateBuffer_phases he.initialized hany
  have hprevious : h₂.previousNonce = header.nonce :=
    (updateTime_previousNonce htime).trans
      ((updateHashListRoot_previousNonce hroot).trans he.previousNonce)
  obtain ⟨nonce, hnonce⟩ : ∃ nonce, nonce = if offset₂ ≠ 0 then header'.nonce else header.nonce :=
    ⟨_, rfl⟩
  have hrange : 0 ≤ nonce ∧ nonce < 2 ^ 63 := by
    rw [hnonce]
    split_ifs
    · exact hr.nonce
    · exact hstale.nonce
  obtain ⟨h', hok, he'⟩ := updateBuffer_eq he (hv.withNonce nonce) (hr.withNonce hrange)
  obtain ⟨h₁', h₂', h₃, h₄, offset₂', offset₃, offset₄, hroot', htime', hnonce', hcount, rfl⟩ :=
    updateBuffer_phases he.initialized hok
  obtain rfl : h₁ = h₁' := Option.some.inj (hroot.symm.trans hroot')
  obtain ⟨rfl, rfl⟩ : h₂ = h₂' ∧ offset₂ = offset₂' :=
    Prod.mk.inj (Option.some.inj (htime.symm.trans htime'))
  have hdevice : h₂.updateNonceDevice header' offset₂ = some (h₃, offset₃) := by
    rw [updateNonceDevice_eq, hprevious, ← hnonce, hnonce']
  have hcount' : h₃.updateTransactionCount header' offset₃ = some (h₄, offset₄) := hcount
  refine ⟨_, decide (h.previousHashListRoot ≠ header'.hashListRoot ∨
    h.previousTime ≠ header'.time ∨ offset₂ ≠ 0 ∨ offset₃ ≠ 0 ∨
    h.previousTransactionCount ≠ header'.transactionCount), nonce, ?_, hrange, he', ?_⟩
  · rw [updateBufferDevice, if_neg (by rw [he.initialized]; exact Bool.noConfusion)]
    simp only [Option.bind_eq_bind, hroot, htime, hdevice, hcount', Option.bind_some]
  · intro hsame
    simp only [decide_eq_false_iff_not, not_or, not_not] at hsame
    exact ⟨he.previousHashListRoot.symm.trans hsame.1, he.previousTime.symm.trans hsame.2.1,
      he.previousTransactionCount.symm.trans hsame.2.2.2.2⟩

end BlockHeaderHasher

/-! ### Every run -/

namespace DeviceHasher

variable {crypto : Crypto} {m : DeviceHasher} {header header' fixed : BlockHeader} {answer : Int}

/-- The buffer holds the text of the header with some nonce, and the device the
pieces of that text. -/
def Serves (m : DeviceHasher) (header : BlockHeader) : Prop :=
  ∃ nonce pieces, m.hasher.Encodes (header.withNonce nonce) ∧
    (header.withNonce nonce).InRange ∧ m.device = some pieces ∧ pieces.Holds header

/-- The buffer and the pieces before the device answers. -/
theorem updateBufferDevice_serves
    (hready : m.hasher = BlockHeaderHasher.new ∨ m.Serves header) (hv : header.Varies header')
    (hr : header'.InRange) :
    ∃ h changed device, m.hasher.updateBufferDevice header' = some (h, changed) ∧
      updateDevice h m.device changed = some device ∧ Serves ⟨h, device⟩ header' := by
  rcases hready with hnew | ⟨stale, pieces, he, hstale, hdevice, hholds⟩
  · obtain ⟨h, hok, he⟩ :=
      BlockHeaderHasher.initBuffer_eq BlockHeaderHasher.new_length hr
    obtain ⟨pieces, hpieces, hholds⟩ := he.minerUpdate
    refine ⟨h, true, some pieces, ?_, ?_, header'.nonce, pieces, he, hr, rfl, hholds⟩
    · have hfirst : BlockHeaderHasher.new.initialized = false := rfl
      rw [hnew, BlockHeaderHasher.updateBufferDevice, if_pos hfirst, hok]
      rfl
    · rw [updateDevice, if_pos rfl, hpieces]
      rfl
  · obtain ⟨h, changed, nonce, hok, hrange, he', hsame⟩ :=
      BlockHeaderHasher.updateBufferDevice_eq he (hv.symm.withNonce stale).symm hr hstale
    cases changed with
    | true =>
      obtain ⟨pieces, hpieces, hholds⟩ := he'.minerUpdate
      refine ⟨h, true, some pieces, hok, ?_, nonce, pieces, he', hr.withNonce hrange, rfl, hholds⟩
      rw [updateDevice, if_pos rfl, hpieces]
      rfl
    | false =>
      obtain ⟨hroot, htime, hcount⟩ := hsame rfl
      exact ⟨h, false, m.device, hok, rfl, nonce, pieces, he', hr.withNonce hrange, hdevice,
        hholds.of_same hv hroot htime hcount⟩

/-- **One call** leaves the device with the pieces of the header. -/
theorem update_serves (crypto : Crypto)
    (hready : m.hasher = BlockHeaderHasher.new ∨ m.Serves header) (hv : header.Varies header')
    (hr : header'.InRange) (ha : 0 ≤ answer ∧ answer < 2 ^ 63) :
    ∃ m' solved result, m.update crypto header' answer = some (m', solved, result) ∧
      m'.Serves header' := by
  obtain ⟨h, changed, device, hok, hdevice, hserves⟩ := updateBufferDevice_serves hready hv hr
  unfold update
  simp only [Option.bind_eq_bind, hok, hdevice, Option.bind_some]
  split_ifs with hfound
  · exact ⟨_, _, _, rfl, hserves⟩
  · -- the pieces stay; only the nonce in the buffer is another one
    obtain ⟨nonce, pieces, he, hrange, hpieces, hholds⟩ := hserves
    obtain ⟨h', hinit, he'⟩ :=
      BlockHeaderHasher.initBuffer_eq he.length (hr.withNonce ha)
    have hbounds : 0 ≤ h'.bufLen ∧ h'.bufLen ≤ h'.buffer.length := by
      have := he'.buffer.length_le
      rw [he'.bufLen]
      omega
    have hrebuilt : h.initBuffer { header' with nonce := answer } = some h' := hinit
    rw [hrebuilt, Option.bind_some, if_pos hbounds]
    exact ⟨_, _, _, rfl, answer, pieces, he', hr.withNonce ha, hpieces, hholds⟩

theorem updates_serves (crypto : Crypto) {calls : List (BlockHeader × Int)}
    (hvaries : ∀ call ∈ calls, fixed.Varies call.1) (hrange : ∀ call ∈ calls, call.1.InRange)
    (hanswers : ∀ call ∈ calls, 0 ≤ call.2 ∧ call.2 < 2 ^ 63)
    (hready : m.hasher = BlockHeaderHasher.new ∨ ∃ header, fixed.Varies header ∧ m.Serves header) :
    ∃ trace, updates crypto m calls = some trace ∧
      List.Forall₂ (fun call m => m.Serves call.1) calls trace := by
  induction calls generalizing m with
  | nil => exact ⟨[], rfl, .nil⟩
  | cons call calls ih =>
    obtain ⟨header', answer⟩ := call
    obtain ⟨hv, hvs⟩ := List.forall_mem_cons.mp hvaries
    obtain ⟨hr, hrs⟩ := List.forall_mem_cons.mp hrange
    obtain ⟨ha, has⟩ := List.forall_mem_cons.mp hanswers
    obtain ⟨header, hold, hready'⟩ : ∃ header, header.Varies header' ∧
        (m.hasher = BlockHeaderHasher.new ∨ m.Serves header) := by
      rcases hready with hnew | ⟨header, hheader, hserves⟩
      · exact ⟨fixed, hv, Or.inl hnew⟩
      · exact ⟨header, hheader.symm.trans hv, Or.inr hserves⟩
    obtain ⟨m', solved, result, hok, hserves⟩ := update_serves crypto hready' hold hr ha
    obtain ⟨trace, htrace, hall⟩ := ih hvs hrs has (Or.inr ⟨header', hv, hserves⟩)
    refine ⟨m' :: trace, ?_, .cons hserves hall⟩
    simp only [updates, hok, htrace, Option.bind_eq_bind, Option.bind_some]

/-- **Devices hash the real header.**  In every sequence of calls on a new
hasher, whatever the device held before and whether or not it reports
solutions, each attempt is made with pieces that give the JSON encoding of the
header for every nonce put between them. -/
theorem device_hashes_header (crypto : Crypto) (device : Option Pieces)
    {calls : List (BlockHeader × Int)} (hvaries : ∀ call ∈ calls, fixed.Varies call.1)
    (hrange : ∀ call ∈ calls, call.1.InRange)
    (hanswers : ∀ call ∈ calls, 0 ≤ call.2 ∧ call.2 < 2 ^ 63) :
    ∃ trace, updates crypto (new device) calls = some trace ∧
      List.Forall₂ (fun call m => ∃ pieces, m.device = some pieces ∧ ∀ n : Int, 0 ≤ n →
        pieces.first ++ decimal n ++ pieces.last = { call.1 with nonce := n }.json)
        calls trace := by
  have hnew : (new device).hasher = BlockHeaderHasher.new := rfl
  obtain ⟨trace, htrace, hall⟩ := updates_serves crypto hvaries hrange hanswers (Or.inl hnew)
  refine ⟨trace, htrace, hall.imp ?_⟩
  rintro call m ⟨nonce, pieces, -, -, hdevice, hholds⟩
  exact ⟨pieces, hdevice, fun n _ => hholds.json n⟩

/-- A solution is reported, then the time gets shorter, then only the nonce
changes. -/
def solvedOnce : List (BlockHeader × Int) :=
  [(genesisBlock.header, 77), ({ genesisBlock.header with time := 1 }, notFound),
    ({ genesisBlock.header with time := 1, nonce := 9000000000 }, notFound)]

theorem device_hashes_header_solvedOnce :
    ∃ trace, updates BlockHeaderHasher.lengthHash (new none) solvedOnce = some trace ∧
      List.Forall₂ (fun call m => ∃ pieces, m.device = some pieces ∧ ∀ n : Int, 0 ≤ n →
        pieces.first ++ decimal n ++ pieces.last = { call.1 with nonce := n }.json)
        solvedOnce trace := by
  have hcalls : ∀ call ∈ solvedOnce,
      genesisBlock.header.Varies call.1 ∧ call.1.InRange ∧ 0 ≤ call.2 ∧ call.2 < 2 ^ 63 := by
    simp only [solvedOnce, List.forall_mem_cons]
    exact ⟨⟨⟨rfl, rfl, rfl, rfl⟩, ⟨by decide, by decide, by decide, by decide⟩, by decide⟩,
      ⟨⟨rfl, rfl, rfl, rfl⟩, ⟨by decide, by decide, by decide, by decide⟩, by decide⟩,
      ⟨⟨rfl, rfl, rfl, rfl⟩, ⟨by decide, by decide, by decide, by decide⟩, by decide⟩, by simp⟩
  exact device_hashes_header BlockHeaderHasher.lengthHash none
    (fun call hcall => (hcalls call hcall).1) (fun call hcall => (hcalls call hcall).2.1)
    (fun call hcall => (hcalls call hcall).2.2)

end DeviceHasher

end Cruzbit

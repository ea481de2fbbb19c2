/-
Cruzbit/BlockFiles.lean

Blocks on disk (`block_storage_disk.go`).

A block is one file, named by its ID and by whether it is compressed, and its
header is an entry of a database.  `Store` writes the file and then the entry.
When it is interrupted the file holds anything and the entry is as before, and
the block is stored again later.

The node may be started with another choice of compression, and then looks for
the other file only if there is none of its own kind.  So a block that was
stored can be read as long as all attempts to store it were made with one
choice (`stored_block_reads_back`): what is read is what the libraries make of
the bytes they wrote for it, whatever libraries these are.  If they were not, a file that an
interrupted attempt left behind can hide it (`interrupted_store_hides_block`).
-/
import Cruzbit.LedgerBytes

namespace Cruzbit

open Encoding Word

/-! ### Storage -/

/-- The JSON encoding of a transaction: the signature, if there is one, is the last field. -/
def Transaction.json (tx : Transaction) : List UInt8 :=
  if tx.signature = [] then tx.idJson
  else tx.idJson.dropLast ++ ascii ",\"signature\":\"" ++ base64 tx.signature ++ ascii "\"\x7d"

/-- The JSON encoding of a block, which has transactions. -/
def Block.json (b : Block) : List UInt8 :=
  ascii "\x7b\"header\":" ++ b.header.json ++ ascii ",\"transactions\":[" ++
    [44].intercalate (b.transactions.map Transaction.json) ++ ascii "]\x7d"

/-- The libraries that read JSON (`json.Unmarshal`, `jsonparser.Get`), and those that write and read
LZ4 and gob.  Nothing is assumed about them. -/
structure BlockCodec where
  unmarshal : List UInt8 → Option Block
  unmarshalTransaction : List UInt8 → Option Transaction
  unmarshalHeader : List UInt8 → Option BlockHeader
  get : List UInt8 → List String → Option (List UInt8)
  compress : List UInt8 → List UInt8
  uncompress : List UInt8 → Option (List UInt8)
  gobEncode : BlockHeader → List UInt8
  gobDecode : List UInt8 → Option BlockHeader

/-- `{timestamp}{gob encoded header}` -/
def encodeBlockHeader (codec : BlockCodec) (header : BlockHeader) (storedAt : Int) : List UInt8 :=
  bigEndian 8 (unsigned 8 storedAt) ++ codec.gobEncode header

def decodeBlockHeader (codec : BlockCodec) (encodedHeader : List UInt8) :
    Option (BlockHeader × Int) :=
  if encodedHeader.length < 8 then none
  else (codec.gobDecode (encodedHeader.drop 8)).map fun header =>
    (header, int64 (ofBigEndian (encodedHeader.take 8)))

/-- The files and the database of `BlockStorageDisk`, and how it was opened. -/
structure BlockDir where
  json : Table BlockID (List UInt8)
  lz4 : Table BlockID (List UInt8)
  db : Table BlockID (List UInt8)
  readOnly : Bool
  compress : Bool

namespace BlockDir

variable (codec : BlockCodec)

def empty : BlockDir := ⟨∅, ∅, ∅, false, false⟩

/-- The file with the extension `.lz4` or `.json`. -/
def file (d : BlockDir) (compressed : Bool) (id : BlockID) : Option (List UInt8) :=
  if compressed then d.lz4[id]? else d.json[id]?

def writeFile (d : BlockDir) (compressed : Bool) (id : BlockID) (blockBytes : List UInt8) :
    BlockDir :=
  if compressed then { d with lz4 := d.lz4.insert id blockBytes }
  else { d with json := d.json.insert id blockBytes }

/-- The complete block as it is written to a file. -/
def fileBytes (compressed : Bool) (block : Block) : List UInt8 :=
  if compressed then codec.compress block.json else block.json

/-- What is read off a file. -/
def readFile (compressed : Bool) (blockBytes : List UInt8) : Option (List UInt8) :=
  if compressed then codec.uncompress blockBytes else some blockBytes

/-- Store is called to store all of the block's information.  It fails in read-only mode. -/
def store (d : BlockDir) (id : BlockID) (block : Block) (now : Int) : BlockDir :=
  if d.readOnly then d
  else
    -- write the block and sync
    let d := d.writeFile d.compress id (fileBytes codec d.compress block)
    -- save the header to leveldb
    { d with db := d.db.insert id (encodeBlockHeader codec block.header now) }

/-- GetBlockBytes returns the referenced block as a byte slice, `some none` if there is no file. -/
def getBlockBytes (d : BlockDir) (id : BlockID) : Option (Option (List UInt8)) :=
  match d.file d.compress id with
  | some blockBytes => (readFile codec d.compress blockBytes).map some
  | none =>
    match d.file (!d.compress) id with
    | some blockBytes => (readFile codec (!d.compress) blockBytes).map some
    | none => some none

/-- GetBlock returns the referenced block.  Nothing to decode is an error as well. -/
def getBlock (d : BlockDir) (id : BlockID) : Option Block :=
  match d.getBlockBytes codec id with
  | some (some blockJson) => codec.unmarshal blockJson
  | _ => none

/-- GetBlockHeader returns the referenced block's header and the timestamp of when it was stored,
`some none` if it is not found. -/
def getBlockHeader (d : BlockDir) (id : BlockID) : Option (Option (BlockHeader × Int)) :=
  match d.db[id]? with
  | none => some none
  | some encodedHeader => (decodeBlockHeader codec encodedHeader).map some

/-- A transaction and the header, picked out of the JSON of a block. -/
def pickTransaction (index : Nat) (blockJson : List UInt8) :
    Option (Transaction × BlockHeader) := do
  -- pick out and unmarshal the transaction at the index
  let txJson ← codec.get blockJson ["transactions", "[" ++ toString index ++ "]"]
  let tx ← codec.unmarshalTransaction txJson
  -- pick out and unmarshal the header
  let hdrJson ← codec.get blockJson ["header"]
  let header ← codec.unmarshalHeader hdrJson
  pure (tx, header)

/-- GetTransaction returns a transaction within a block and the block's header.  To pick from
nothing is an error as well. -/
def getTransaction (d : BlockDir) (id : BlockID) (index : Nat) :
    Option (Transaction × BlockHeader) :=
  match d.getBlockBytes codec id with
  | some (some blockJson) => pickTransaction codec index blockJson
  | _ => none

end BlockDir

/-- What happens to the storage. -/
inductive BlockDirStep
  /-- The node is started, with these options. -/
  | restart (readOnly compress : Bool)
  /-- `Store` is called and comes to its end. -/
  | store (id : BlockID) (block : Block) (now : Int)
  /-- `Store` fails or the node stops before the header is saved.  If the file was opened, it is
  left with some content. -/
  | interrupted (id : BlockID) (content : Option (List UInt8))

/-- The step tries to store the block. -/
def BlockDirStep.Attempts (id : BlockID) : BlockDirStep → Prop
  | .restart _ _ => False
  | .store id' _ _ => id' = id
  | .interrupted id' _ => id' = id

instance (id : BlockID) : (step : BlockDirStep) → Decidable (step.Attempts id)
  | .restart _ _ => inferInstanceAs (Decidable False)
  | .store id' _ _ => inferInstanceAs (Decidable (id' = id))
  | .interrupted id' _ => inferInstanceAs (Decidable (id' = id))

namespace BlockDir

variable (codec : BlockCodec)

def step (d : BlockDir) : BlockDirStep → BlockDir
  | .restart readOnly compress => { d with readOnly := readOnly, compress := compress }
  | .store id block now => d.store codec id block now
  | .interrupted _ none => d
  | .interrupted id (some content) =>
    if d.readOnly then d else d.writeFile d.compress id content

def run (d : BlockDir) : List BlockDirStep → BlockDir
  | [] => d
  | step :: steps => run (d.step codec step) steps

/-- The choices of compression with which it was tried to store the block. -/
def choices (id : BlockID) (d : BlockDir) : List BlockDirStep → List Bool
  | [] => []
  | step :: steps =>
    (if step.Attempts id then [d.compress] else []) ++ choices id (d.step codec step) steps

end BlockDir

/-! ### One step -/

section Steps

variable {codec : BlockCodec} {d : BlockDir} {id id' : BlockID} {block : Block} {now : Int}
  {kind : Bool} {step : BlockDirStep} {steps : List BlockDirStep} {content : List UInt8}

theorem BlockDir.file_writeFile (d : BlockDir) (kind kind' : Bool) (id id' : BlockID)
    (content : List UInt8) : (d.writeFile kind id content).file kind' id' =
      if kind = kind' ∧ id = id' then some content else d.file kind' id' := by
  cases kind <;> cases kind' <;> simp [BlockDir.writeFile, BlockDir.file, Table.get_insert]

theorem BlockDir.db_writeFile (d : BlockDir) (kind : Bool) (id : BlockID) (content : List UInt8) :
    (d.writeFile kind id content).db = d.db := by
  cases kind <;> rfl

theorem BlockDir.store_eq (hwritable : d.readOnly = false) :
    d.store codec id block now =
      { d.writeFile d.compress id (BlockDir.fileBytes codec d.compress block) with
        db := d.db.insert id (encodeBlockHeader codec block.header now) } := by
  simp only [BlockDir.store, hwritable, Bool.false_eq_true, if_false, BlockDir.db_writeFile]

theorem BlockDir.file_store (hwritable : d.readOnly = false) :
    (d.store codec id block now).file kind id =
      if d.compress = kind then some (BlockDir.fileBytes codec d.compress block)
      else d.file kind id := by
  rw [BlockDir.store_eq hwritable]
  show (d.writeFile d.compress id (BlockDir.fileBytes codec d.compress block)).file kind id = _
  rw [BlockDir.file_writeFile]
  simp only [and_true]

theorem BlockDir.db_store (hwritable : d.readOnly = false) :
    (d.store codec id block now).db[id]? = some (encodeBlockHeader codec block.header now) := by
  rw [BlockDir.store_eq hwritable]
  show (d.db.insert id _)[id]? = _
  rw [Table.get_insert]
  exact if_pos rfl

/-- **What a step leaves alone**: the files of the other blocks, and those of the other kind. -/
theorem BlockDir.file_step (h : ¬ step.Attempts id ∨ d.compress ≠ kind) :
    (d.step codec step).file kind id = d.file kind id := by
  have hwrite (id' : BlockID) (content : List UInt8) (hid : id' ≠ id ∨ d.compress ≠ kind) :
      (d.writeFile d.compress id' content).file kind id = d.file kind id := by
    rw [BlockDir.file_writeFile, if_neg]
    rintro ⟨hkind, rfl⟩
    exact hid.elim (fun hne => hne rfl) fun hne => hne hkind
  cases step with
  | restart readOnly compress => rfl
  | store id' block now =>
    cases hro : d.readOnly with
    | true => simp [BlockDir.step, BlockDir.store, hro]
    | false =>
      rw [BlockDir.step, BlockDir.store_eq hro]
      exact hwrite id' _ h
  | interrupted id' content =>
    cases content with
    | none => rfl
    | some content =>
      rw [BlockDir.step]
      split_ifs
      · rfl
      · exact hwrite id' content h

theorem BlockDir.db_step (h : ¬ step.Attempts id) : (d.step codec step).db[id]? = d.db[id]? := by
  cases step with
  | restart readOnly compress => rfl
  | store id' block now =>
    cases hro : d.readOnly with
    | true => simp [BlockDir.step, BlockDir.store, hro]
    | false =>
      rw [BlockDir.step, BlockDir.store_eq hro]
      show (d.db.insert id' _)[id]? = _
      rw [Table.get_insert]
      exact if_neg h
  | interrupted id' content =>
    cases content with
    | none => rfl
    | some content =>
      rw [BlockDir.step]
      split_ifs
      · rfl
      · rw [BlockDir.db_writeFile]

/-! ### Whole runs -/

theorem BlockDir.run_append (d : BlockDir) (steps steps' : List BlockDirStep) :
    d.run codec (steps ++ steps') = (d.run codec steps).run codec steps' := by
  induction steps generalizing d with
  | nil => rfl
  | cons step steps ih => exact ih _

/-- A block that is not stored stays as it is. -/
theorem BlockDir.run_untouched (codec : BlockCodec) (d : BlockDir)
    (h : ∀ step ∈ steps, ¬ step.Attempts id) :
    (d.run codec steps).db[id]? = d.db[id]? ∧
      ∀ kind, (d.run codec steps).file kind id = d.file kind id := by
  induction steps generalizing d with
  | nil => exact ⟨rfl, fun _ => rfl⟩
  | cons step steps ih =>
    obtain ⟨hstep, hsteps⟩ := List.forall_mem_cons.mp h
    obtain ⟨hdb, hfile⟩ := ih (d.step codec step) hsteps
    refine ⟨hdb.trans (BlockDir.db_step hstep), fun kind => (hfile kind).trans ?_⟩
    exact BlockDir.file_step (.inl hstep)

/-- There is no file of a kind that was never chosen. -/
theorem BlockDir.file_run_of_choices (hfile : d.file kind id = none)
    (h : ∀ choice ∈ d.choices codec id steps, choice ≠ kind) :
    (d.run codec steps).file kind id = none := by
  induction steps generalizing d with
  | nil => exact hfile
  | cons step steps ih =>
    obtain ⟨hstep, hsteps⟩ := List.forall_mem_append.mp h
    refine ih ?_ hsteps
    rw [BlockDir.file_step, hfile]
    by_cases hid : step.Attempts id
    · exact .inr (hstep d.compress (by rw [if_pos hid]; exact List.mem_singleton_self _))
    · exact .inl hid

theorem BlockDir.readFile_fileBytes (kind : Bool) (block : Block) :
    BlockDir.readFile codec kind (BlockDir.fileBytes codec kind block) =
      if kind then codec.uncompress (codec.compress block.json) else some block.json := by
  cases kind <;> rfl

/-- The block can be read with either choice when its one file is complete. -/
theorem BlockDir.getBlockBytes_eq (hfile : d.file kind id = some content)
    (hother : d.file (!kind) id = none) :
    d.getBlockBytes codec id = (BlockDir.readFile codec kind content).map some := by
  unfold BlockDir.getBlockBytes
  by_cases hkind : d.compress = kind
  · rw [hkind, hfile]
  · -- the file of the node's own kind is not there, so it takes the other one
    rw [Bool.eq_not.mpr hkind, hother, Bool.not_not, hfile]

/-- The timestamp comes back, and of the header what gob makes of its own encoding. -/
theorem decodeBlockHeader_encode (hnow : Fits64 now) (header : BlockHeader) :
    decodeBlockHeader codec (encodeBlockHeader codec header now) =
      (codec.gobDecode (codec.gobEncode header)).map fun header => (header, now) := by
  have hlen : ¬ (encodeBlockHeader codec header now).length < 8 := by
    rw [encodeBlockHeader, List.length_append, bigEndian_length]
    omega
  rw [decodeBlockHeader, if_neg hlen, encodeBlockHeader, List.drop_left' (bigEndian_length _ _),
    List.take_left' (bigEndian_length _ _), ofBigEndian_unsigned, int64_unsigned hnow]

theorem BlockDir.getBlockHeader_eq (hnow : Fits64 now)
    (hdb : d.db[id]? = some (encodeBlockHeader codec block.header now)) :
    d.getBlockHeader codec id =
      (codec.gobDecode (codec.gobEncode block.header)).map fun header => some (header, now) := by
  simp only [BlockDir.getBlockHeader, hdb, decodeBlockHeader_encode hnow, Option.map_map]
  rfl

/-- **A stored block reads back.**  Whatever happened before, interrupted attempts included, and
whatever happens afterwards to other blocks: if all attempts to store the block were made with
the choice of compression of the one that succeeded last, then what is read, with either choice,
is what the libraries read off the very bytes they wrote for this block.  Without compression
these are its JSON. -/
theorem stored_block_reads_back (codec : BlockCodec) (id : BlockID) (block : Block) (now : Int)
    (before after : List BlockDirStep) (hnow : Fits64 now)
    (hwritable : (BlockDir.empty.run codec before).readOnly = false)
    (hchoices : ∀ choice ∈ BlockDir.empty.choices codec id before,
      choice = (BlockDir.empty.run codec before).compress)
    (hafter : ∀ step ∈ after, ¬ step.Attempts id) :
    let d := BlockDir.empty.run codec (before ++ .store id block now :: after)
    let blockJson := if (BlockDir.empty.run codec before).compress
      then codec.uncompress (codec.compress block.json) else some block.json
    d.getBlockBytes codec id = blockJson.map some ∧
      d.getBlock codec id = blockJson.bind codec.unmarshal ∧
      (∀ index, d.getTransaction codec id index =
        blockJson.bind (BlockDir.pickTransaction codec index)) ∧
      d.getBlockHeader codec id =
        (codec.gobDecode (codec.gobEncode block.header)).map fun header => some (header, now) := by
  intro d blockJson
  have hd : d = ((BlockDir.empty.run codec before).store codec id block now).run codec after :=
    BlockDir.run_append _ _ _
  obtain ⟨hdb, hfile⟩ := BlockDir.run_untouched codec
    ((BlockDir.empty.run codec before).store codec id block now) hafter
  rw [← hd, BlockDir.db_store hwritable] at hdb
  simp only [← hd] at hfile
  have hbytes : d.getBlockBytes codec id = blockJson.map some := by
    generalize hkind : (BlockDir.empty.run codec before).compress = kind at hchoices blockJson
    have hthis : d.file kind id = some (BlockDir.fileBytes codec kind block) := by
      rw [hfile, BlockDir.file_store hwritable, if_pos hkind, hkind]
    have hother : d.file (!kind) id = none := by
      rw [hfile, BlockDir.file_store hwritable, if_neg (by simp [hkind])]
      refine BlockDir.file_run_of_choices ?_ fun choice hchoice => ?_
      · cases kind <;> simp [BlockDir.file, BlockDir.empty]
      · simp [hchoices choice hchoice]
    rw [BlockDir.getBlockBytes_eq hthis hother, BlockDir.readFile_fileBytes, ← hkind]
  refine ⟨hbytes, ?_, fun index => ?_, BlockDir.getBlockHeader_eq hnow hdb⟩
  · rw [BlockDir.getBlock, hbytes]
    cases blockJson <;> rfl
  · rw [BlockDir.getTransaction, hbytes]
    cases blockJson <;> rfl

/-- The first attempt to store genesis is interrupted, the next one succeeds, and then the node is
started with compression and stores block 1. -/
theorem genesis_reads_back : ∃ steps : List BlockDirStep, ∀ codec : BlockCodec,
    let d := BlockDir.empty.run codec steps
    d.compress = true ∧ d.file true (Sample.entry 0 1).1 =
        some (codec.compress (Sample.entry 0 1).2.json) ∧
      d.getBlockBytes codec (genesisBlock.id Sample.crypto) = some (some genesisBlock.json) ∧
      d.getBlock codec (genesisBlock.id Sample.crypto) = codec.unmarshal genesisBlock.json := by
  have hne : (Sample.entry 0 1).1 ≠ genesisBlock.id Sample.crypto := by
    rw [Sample.entry_fst, Sample.genesis_id]
    decide
  let before : List BlockDirStep :=
    [.restart false false, .interrupted (genesisBlock.id Sample.crypto) (some (ascii "\x7b"))]
  let after : List BlockDirStep :=
    [.restart false true, .store (Sample.entry 0 1).1 (Sample.entry 0 1).2 0]
  refine ⟨before ++ .store (genesisBlock.id Sample.crypto) genesisBlock 0 :: after,
    fun codec => ?_⟩
  have hchoices : ∀ choice ∈
      BlockDir.empty.choices codec (genesisBlock.id Sample.crypto) before, choice = false := by
    simp [before, BlockDir.choices, BlockDir.step, BlockDirStep.Attempts]
  have hafter : ∀ step ∈ after, ¬ step.Attempts (genesisBlock.id Sample.crypto) := by
    simpa [after, BlockDirStep.Attempts] using hne
  obtain ⟨hbytes, hblock, -⟩ := stored_block_reads_back codec (genesisBlock.id Sample.crypto)
    genesisBlock 0 before after (by decide) rfl hchoices hafter
  exact ⟨rfl, (Table.get_insert _ _ _ _).trans (if_pos rfl), hbytes, hblock⟩

/-- **An interrupted attempt hides a stored block.**  It was made with compression and left a file
that is not valid; the block is then stored without compression, and the node started with it. -/
theorem interrupted_store_hides_block (hinvalid : codec.uncompress content = none)
    (hnow : Fits64 now) :
    let d := BlockDir.empty.run codec [.restart false true, .interrupted id (some content),
      .restart false false, .store id block now, .restart false true]
    d.getBlock codec id = none ∧ d.getBlockHeader codec id =
      (codec.gobDecode (codec.gobEncode block.header)).map fun header => some (header, now) := by
  intro d
  have hdb : d.db[id]? = some (encodeBlockHeader codec block.header now) :=
    (Table.get_insert _ _ _ _).trans (if_pos rfl)
  have hfile : d.file true id = some content := (Table.get_insert _ _ _ _).trans (if_pos rfl)
  have hcompress : d.compress = true := rfl
  refine ⟨?_, BlockDir.getBlockHeader_eq hnow hdb⟩
  simp only [BlockDir.getBlock, BlockDir.getBlockBytes, hcompress, hfile, BlockDir.readFile,
    if_true, hinvalid, Option.map_none]

end Steps

end Cruzbit

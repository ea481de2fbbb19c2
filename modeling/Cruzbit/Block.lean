/-
Cruzbit/Block.lean

Blocks, headers and block storage (`block.go`, `block_storage_disk.go`).

`BlockHeader.compare` is the best-chain order: more chain work, then earlier
stored time, then lesser ID.  It is a strict order on stored headers
(`compare_trans`, `compare_irrefl`), and total between headers with
different IDs (`compare_total`).

Block storage is a table of the block and the time it was stored.  The
source keeps the block in a file and the header in leveldb; with storage not
failing the two always come together.
-/
import Cruzbit.Transaction

namespace Cruzbit

open Encoding

/-! ### Headers -/

/-- Data used to determine block validity and its place in the block chain. -/
structure BlockHeader where
  previous : BlockID
  hashListRoot : TransactionID
  time : Int
  target : BlockID
  chainWork : BlockID
  nonce : Int
  height : Int
  transactionCount : Int
  deriving DecidableEq, Repr

/-- A block in the block chain. -/
structure Block where
  header : BlockHeader
  transactions : List Transaction
  deriving DecidableEq, Repr

/-- An identifier as a quoted lower case hex string. -/
def jsonID (id : BitVec 256) : List UInt8 :=
  34 :: (idBytes id).flatMap (fun b => [hexDigit (b.toNat / 16), hexDigit (b.toNat % 16)]) ++ [34]

/-- The JSON encoding of a header. -/
def BlockHeader.json (h : BlockHeader) : List UInt8 :=
  ascii "\x7b\"previous\":" ++ jsonID h.previous ++
    ascii ",\"hash_list_root\":" ++ jsonID h.hashListRoot ++
    ascii ",\"time\":" ++ decimal h.time ++
    ascii ",\"target\":" ++ jsonID h.target ++
    ascii ",\"chain_work\":" ++ jsonID h.chainWork ++
    ascii ",\"nonce\":" ++ decimal h.nonce ++
    ascii ",\"height\":" ++ decimal h.height ++
    ascii ",\"transaction_count\":" ++ decimal h.transactionCount ++ ascii "\x7d"

/-- ID computes an ID for a given block header. -/
def BlockHeader.id (crypto : Crypto) (h : BlockHeader) : BlockID := crypto.sum256 h.json

/-- ID computes an ID for a given block. -/
def Block.id (crypto : Crypto) (b : Block) : BlockID := b.header.id crypto

/-- The IDs of a block's transactions, in order. -/
def Block.txIDs (crypto : Crypto) (b : Block) : List TransactionID :=
  b.transactions.map (Transaction.id crypto)

/-! ### Hash list root -/

/-- Add the coinbase to the hash list root. -/
def addCoinbaseToHashListRoot (crypto : Crypto) (rootHashWithoutCoinbase : BitVec 256)
    (coinbase : Transaction) : TransactionID :=
  crypto.sum256 (idBytes (coinbase.id crypto) ++ idBytes rootHashWithoutCoinbase)

/-- Compute a hash list root of all transaction hashes, the coinbase last. -/
def computeHashListRoot (crypto : Crypto) : List Transaction → Res TransactionID
  | [] => .error (.panic .sliceBounds)
  | coinbase :: rest =>
    .ok (addCoinbaseToHashListRoot crypto
      (crypto.sum256 (rest.flatMap fun tx => idBytes (tx.id crypto))) coinbase)

/-! ### Targets and work -/

/-- SetBigInt converts an integer to a BlockID.  The bytes of a negative
integer are those of its absolute value. -/
def setBigInt (i : Int) : Res BlockID :=
  if i.natAbs ≥ 2 ^ 256 then .error (.panic .tooMuchWork) else .ok (BitVec.ofNat 256 i.natAbs)

theorem setBigInt_eq_ok {i : Int} {id : BlockID} (h : setBigInt i = .ok id) :
    id.toNat = i.natAbs := by
  unfold setBigInt at h
  split_ifs at h with hlt
  cases h
  rw [BitVec.toNat_ofNat]
  exact Nat.mod_eq_of_lt (by omega)

/-- Compute block work given its target. -/
def computeBlockWork (target : BlockID) : Nat :=
  if target.toNat = 0 then 0 else 2 ^ 256 / (target.toNat + 1)

/-- Compute cumulative chain work given a block's target and the previous
chain work. -/
def computeChainWork (target chainWork : BlockID) : Res BlockID :=
  setBigInt (chainWork.toNat + computeBlockWork target)

theorem computeChainWork_eq_ok {target chainWork newChainWork : BlockID}
    (h : computeChainWork target chainWork = .ok newChainWork) :
    newChainWork.toNat = chainWork.toNat + computeBlockWork target := by
  have := setBigInt_eq_ok h
  omega

/-- Every nonzero target stands for some work. -/
theorem computeBlockWork_pos {target : BlockID} (h : 0 < target.toNat) :
    0 < computeBlockWork target := by
  have hlt := target.isLt
  rw [computeBlockWork, if_neg (by omega)]
  exact Nat.div_pos (by omega) (by omega)

/-- NewBlock creates and returns a new block to be mined, with the time of the
clock and a random nonce.  Below the cap the count fits in 32 bits. -/
def newBlock (crypto : Crypto) (now nonce : Int) (previous : BlockID) (height : Int)
    (target chainWork : BlockID) (transactions : List Transaction) : Res Block := do
  -- enforce the hard cap transaction limit
  failIf (transactions.length > maxTransactionsPerBlock) .transactionListTooLong
  let hashListRoot ← computeHashListRoot crypto transactions
  let chainWork ← computeChainWork target chainWork
  .ok
    { header :=
        { previous := previous
          hashListRoot := hashListRoot
          time := now
          target := target
          chainWork := chainWork
          nonce := nonce
          height := height
          transactionCount := transactions.length }
      transactions := transactions }

/-- CheckPOW verifies the block's proof-of-work satisfies the declared target. -/
def Block.checkPOW (b : Block) (id : BlockID) : Bool :=
  decide (id.toNat ≤ b.header.target.toNat)

/-! ### The best-chain order -/

/-- Compare returns true if the header indicates a better chain than
`theirHeader`; `thisWhen` and `theirWhen` are the times the two were stored. -/
def BlockHeader.compare (crypto : Crypto) (header theirHeader : BlockHeader)
    (thisWhen theirWhen : Int) : Bool :=
  -- most work wins
  if header.chainWork.toNat > theirHeader.chainWork.toNat then true
  else if header.chainWork.toNat < theirHeader.chainWork.toNat then false
  -- tie goes to the block we stored first
  else if thisWhen < theirWhen then true
  else if thisWhen > theirWhen then false
  -- if we still need to break a tie go by the lesser id
  else decide ((header.id crypto).toNat < (theirHeader.id crypto).toNat)

section Compare

variable {crypto : Crypto} {h h₁ h₂ h₃ : BlockHeader} {w w₁ w₂ w₃ : Int}

theorem compare_iff :
    h₁.compare crypto h₂ w₁ w₂ = true ↔
      h₂.chainWork.toNat < h₁.chainWork.toNat ∨
        (h₁.chainWork.toNat = h₂.chainWork.toNat ∧
          (w₁ < w₂ ∨ (w₁ = w₂ ∧ (h₁.id crypto).toNat < (h₂.id crypto).toNat))) := by
  unfold BlockHeader.compare
  split_ifs <;> simp <;> omega

theorem compare_irrefl : h.compare crypto h w w = false := by
  rw [← Bool.not_eq_true, compare_iff]
  omega

theorem compare_trans (h₁₂ : h₁.compare crypto h₂ w₁ w₂ = true)
    (h₂₃ : h₂.compare crypto h₃ w₂ w₃ = true) : h₁.compare crypto h₃ w₁ w₃ = true := by
  rw [compare_iff] at *
  omega

/-- Of two headers with different IDs one is better. -/
theorem compare_total (hid : h₁.id crypto ≠ h₂.id crypto)
    (hnot : ¬ h₁.compare crypto h₂ w₁ w₂ = true) : h₂.compare crypto h₁ w₂ w₁ = true := by
  rw [compare_iff] at *
  have hne : (h₁.id crypto).toNat ≠ (h₂.id crypto).toNat :=
    fun he => hid (BitVec.eq_of_toNat_eq he)
  omega

theorem compare_of_work (h : h₂.chainWork.toNat < h₁.chainWork.toNat) :
    h₁.compare crypto h₂ w₁ w₂ = true :=
  compare_iff.mpr (Or.inl h)

end Compare

/-! ### Block storage -/

/-- A stored block and the time it was stored. -/
structure StoredBlock where
  block : Block
  storedAt : Int

/-- Storage of raw block data. -/
abbrev BlockStorage := Table BlockID StoredBlock

namespace BlockStorage

/-- Store is called to store all of the block's information. -/
def store (s : BlockStorage) (id : BlockID) (block : Block) (now : Int) : BlockStorage :=
  s.insert id ⟨block, now⟩

/-- GetBlock returns the referenced block; reading a missing block fails to
decode. -/
def getBlock (s : BlockStorage) (id : BlockID) : Res Block :=
  match s[id]? with
  | none => .error (.cannotDecodeBlock id)
  | some e => .ok e.block

/-- GetBlockHeader returns the referenced block's header, nil if it is missing,
and the timestamp of when it was stored. -/
def getBlockHeader (s : BlockStorage) (id : BlockID) : Option (BlockHeader × Int) :=
  (s[id]?).map fun e => (e.block.header, e.storedAt)

/-- A header that the caller dereferences without checking for nil. -/
def derefHeader (s : BlockStorage) (id : BlockID) : Res BlockHeader :=
  match s.getBlockHeader id with
  | none => .error (.panic .nilHeader)
  | some (h, _) => .ok h

/-- GetTransaction returns a transaction within a block and the block's header. -/
def getTransaction (s : BlockStorage) (id : BlockID) (index : Nat) :
    Res (Transaction × BlockHeader) :=
  match s[id]? with
  | none => .error (.cannotDecodeTransaction id index)
  | some e =>
    match e.block.transactions[index]? with
    | none => .error (.cannotDecodeTransaction id index)
    | some tx => .ok (tx, e.block.header)

theorem get_store (s : BlockStorage) (id id' : BlockID) (block : Block) (now : Int) :
    (s.store id block now)[id']? = if id = id' then some ⟨block, now⟩ else s[id']? :=
  Table.get_insert s id id' _

end BlockStorage

end Cruzbit

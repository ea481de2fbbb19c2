/-
Cruzbit/Commitment.lean

A block ID commits to everything in the block but the signatures.

The text hashed for a transaction is read back field by field.  Numbers end
at the comma that begins the next field, keys at the closing quote, and the
memo is a JSON string.  A field that may be omitted is told from the one that
takes its place by its first letters (`jsonField_inj`).  The hash list root
hashes the IDs of all transfers and then the coinbase's ID, each 32 bytes
long, so equal roots have equal ID lists, unless the hash collides.
-/
import Cruzbit.Ancestry

namespace Cruzbit

open Encoding Word

/-! ### Identifiers -/

theorem idBytes_injective : Function.Injective idBytes := by
  intro a b h
  have hmod : a.toNat % 2 ^ 256 = b.toNat % 2 ^ 256 := bigEndian_inj h
  rw [Nat.mod_eq_of_lt a.isLt, Nat.mod_eq_of_lt b.isLt] at hmod
  exact BitVec.eq_of_toNat_eq hmod

theorem idBytes_length (id : BitVec 256) : (idBytes id).length = 32 := bigEndian_length _ _

theorem jsonID_append_inj {a b : BitVec 256} {z z' : List UInt8}
    (h : jsonID a ++ z = jsonID b ++ z') : a = b ∧ z = z' := by
  have hlen (id : BitVec 256) : (jsonID id).length = 66 := by
    simp [jsonID, idBytes_length, List.length_flatMap]
  obtain ⟨hid, hz⟩ := List.append_inj h ((hlen a).trans (hlen b).symm)
  refine ⟨idBytes_injective (hex_injective ?_), hz⟩
  exact List.append_cancel_right (List.cons.inj hid).2

theorem decimal_append_inj {x y : Int} {z z' : List UInt8}
    (h : decimal x ++ 44 :: z = decimal y ++ 44 :: z') : x = y ∧ z = z' := by
  obtain ⟨hx, hz⟩ := split_first (comma_notMem_decimal _) (comma_notMem_decimal _) h
  exact ⟨decimal_injective hx, hz⟩

/-- **The encoding determines the header.** -/
theorem BlockHeader.json_injective : Function.Injective BlockHeader.json := by
  intro a b h
  have htarget : ascii ",\"target\":" = 44 :: ascii "\"target\":" := by decide
  have hheight : ascii ",\"height\":" = 44 :: ascii "\"height\":" := by decide
  have hcount : ascii ",\"transaction_count\":" = 44 :: ascii "\"transaction_count\":" := by decide
  simp only [BlockHeader.json, List.append_assoc, htarget, hheight, hcount, List.cons_append] at h
  obtain ⟨h₁, h⟩ := jsonID_append_inj (List.append_cancel_left h)
  obtain ⟨h₂, h⟩ := jsonID_append_inj (List.append_cancel_left h)
  obtain ⟨h₃, h⟩ := decimal_append_inj (List.append_cancel_left h)
  obtain ⟨h₄, h⟩ := jsonID_append_inj (List.append_cancel_left h)
  obtain ⟨h₅, h⟩ := jsonID_append_inj (List.append_cancel_left h)
  obtain ⟨h₆, h⟩ := decimal_append_inj (List.append_cancel_left h)
  obtain ⟨h₇, h⟩ := decimal_append_inj (List.append_cancel_left h)
  have h₈ := decimal_injective (List.append_cancel_right (List.append_cancel_left h))
  cases a
  cases b
  simp_all only

/-! ### Transactions -/

namespace Transaction

/-- The fields of the encoding from `series` up to `fee`. -/
def jsonSeries (tx : Transaction) : List UInt8 :=
  ascii ",\"series\"" ++ 58 :: (decimal tx.series ++ [125])

def jsonExpires (tx : Transaction) : List UInt8 :=
  jsonOptional ",\"expires\":" tx.expires ++ tx.jsonSeries

def jsonMatures (tx : Transaction) : List UInt8 :=
  jsonOptional ",\"matures\":" tx.matures ++ tx.jsonExpires

def jsonMemo (tx : Transaction) : List UInt8 :=
  (if tx.memo = [] then [] else ascii ",\"memo\":" ++ jsonString tx.memo) ++ tx.jsonMatures

def jsonFee (tx : Transaction) : List UInt8 := jsonOptional ",\"fee\":" tx.fee ++ tx.jsonMemo

theorem jsonAmounts_eq (tx : Transaction) :
    tx.jsonAmounts = ascii ",\"amount\":" ++ (decimal tx.amount ++ tx.jsonFee) := by
  simp only [jsonAmounts, jsonFee, jsonMemo, jsonMatures, jsonExpires, jsonSeries,
    List.append_assoc]

/-- A text that goes on with a comma, a quote and one of these pairs of letters. -/
def GoesOn (keys : List (List UInt8)) (l : List UInt8) : Prop :=
  ∃ k ∈ keys, ∃ t, l = 44 :: 34 :: (k ++ t)

/-- A field that may be omitted, with the text after it. -/
theorem goesOn_append {keys : List (List UInt8)} {key field l : List UInt8} {p : Prop} [Decidable p]
    (hfield : ∃ t, field = 44 :: 34 :: (key ++ t)) (hl : GoesOn keys l) :
    GoesOn (key :: keys) ((if p then [] else field) ++ l) := by
  split_ifs
  · obtain ⟨k, hk, t, rfl⟩ := hl
    exact ⟨k, List.mem_cons_of_mem _ hk, t, rfl⟩
  · obtain ⟨t, rfl⟩ := hfield
    exact ⟨key, List.mem_cons_self, t ++ l, by simp⟩

/-- Whether a field is omitted can be told from the text that follows. -/
theorem omitted_iff {keys : List (List UInt8)} {key field field' l l' : List UInt8} {p p' : Prop}
    [Decidable p] [Decidable p'] (hkey : key ∉ keys) (hkeys : ∀ k ∈ keys, k.length = key.length)
    (hfield : ∃ t, field = 44 :: 34 :: (key ++ t)) (hfield' : ∃ t, field' = 44 :: 34 :: (key ++ t))
    (hl : GoesOn keys l) (hl' : GoesOn keys l')
    (h : (if p then [] else field) ++ l = (if p' then [] else field') ++ l') :
    (p ∧ p' ∧ l = l') ∨ (¬ p ∧ ¬ p' ∧ field ++ l = field' ++ l') := by
  have differ {f m m' : List UInt8} (hf : ∃ t, f = 44 :: 34 :: (key ++ t)) (hm : GoesOn keys m) :
      m ≠ f ++ m' := by
    obtain ⟨t, rfl⟩ := hf
    obtain ⟨k, hk, t', rfl⟩ := hm
    intro heq
    simp only [List.cons_append, List.cons.injEq, true_and, List.append_assoc] at heq
    exact hkey ((List.append_inj heq (hkeys k hk)).1 ▸ hk)
  split_ifs at h with hp hp' hp'
  · exact Or.inl ⟨hp, hp', h⟩
  · exact absurd h (differ hfield' hl)
  · exact absurd h.symm (differ hfield hl')
  · exact Or.inr ⟨hp, hp', h⟩

/-- The literal text begins a field whose name has these first letters. -/
def Names (name : String) (key : List UInt8) : Prop := ∃ t, ascii name = 44 :: 34 :: (key ++ t)

theorem names_fee : Names ",\"fee\":" (ascii "fe") := ⟨ascii "e\":", by decide⟩
theorem names_memo : Names ",\"memo\":" (ascii "me") := ⟨ascii "mo\":", by decide⟩
theorem names_matures : Names ",\"matures\":" (ascii "ma") := ⟨ascii "tures\":", by decide⟩
theorem names_expires : Names ",\"expires\":" (ascii "ex") := ⟨ascii "pires\":", by decide⟩
theorem names_series : Names ",\"series\"" (ascii "se") := ⟨ascii "ries\"", by decide⟩

theorem Names.append {name : String} {key : List UInt8} (h : Names name key) (l : List UInt8) :
    ∃ t, ascii name ++ l = 44 :: 34 :: (key ++ t) := by
  obtain ⟨t, ht⟩ := h
  exact ⟨t ++ l, by simp [ht]⟩

/-- An `omitempty` number and the text after it. -/
theorem jsonOptional_inj {keys : List (List UInt8)} {key l l' : List UInt8} {name : String}
    {x x' : Int} (hname : Names name key) (hkey : key ∉ keys)
    (hkeys : ∀ k ∈ keys, k.length = key.length) (hl : GoesOn keys l) (hl' : GoesOn keys l')
    (h : jsonOptional name x ++ l = jsonOptional name x' ++ l') : x = x' ∧ l = l' := by
  rcases omitted_iff hkey hkeys (hname.append _) (hname.append _) hl hl' h with
    ⟨rfl, rfl, h⟩ | ⟨-, -, h⟩
  · exact ⟨rfl, h⟩
  · obtain ⟨k, -, t, rfl⟩ := hl
    obtain ⟨k', -, t', rfl⟩ := hl'
    rw [List.append_assoc, List.append_assoc] at h
    obtain ⟨hx, ht⟩ := decimal_append_inj (List.append_cancel_left h)
    exact ⟨hx, by rw [ht]⟩

theorem goesOn_series (tx : Transaction) : GoesOn [ascii "se"] tx.jsonSeries := by
  obtain ⟨t, ht⟩ := names_series.append (58 :: (decimal tx.series ++ [125]))
  exact ⟨_, List.mem_singleton.mpr rfl, t, ht⟩

theorem goesOn_expires (tx : Transaction) : GoesOn [ascii "ex", ascii "se"] tx.jsonExpires :=
  goesOn_append (names_expires.append _) tx.goesOn_series

theorem goesOn_matures (tx : Transaction) :
    GoesOn [ascii "ma", ascii "ex", ascii "se"] tx.jsonMatures :=
  goesOn_append (names_matures.append _) tx.goesOn_expires

theorem goesOn_memo (tx : Transaction) :
    GoesOn [ascii "me", ascii "ma", ascii "ex", ascii "se"] tx.jsonMemo :=
  goesOn_append (names_memo.append _) tx.goesOn_matures

theorem goesOn_fee (tx : Transaction) :
    GoesOn [ascii "fe", ascii "me", ascii "ma", ascii "ex", ascii "se"] tx.jsonFee :=
  goesOn_append (names_fee.append _) tx.goesOn_memo

section Inj

variable {tx tx' : Transaction}

/-- The memo and the text after it. -/
theorem jsonMemo_inj (hv : validUTF8 0 tx.memo = true) (hv' : validUTF8 0 tx'.memo = true)
    (h : tx.jsonMemo = tx'.jsonMemo) : tx.memo = tx'.memo ∧ tx.jsonMatures = tx'.jsonMatures := by
  rcases omitted_iff (by decide) (by decide) (names_memo.append _) (names_memo.append _)
    tx.goesOn_matures tx'.goesOn_matures h with ⟨hm, hm', h⟩ | ⟨-, -, h⟩
  · exact ⟨hm.trans hm'.symm, h⟩
  · simp only [jsonString, List.append_assoc, List.cons_append, List.nil_append] at h
    have htext := List.append_cancel_left h
    rw [List.cons.injEq] at htext
    exact escape_inj hv hv' htext.2

/-- The fields from `amount` on. -/
theorem jsonAmounts_inj (hv : validUTF8 0 tx.memo = true) (hv' : validUTF8 0 tx'.memo = true)
    (h : tx.jsonAmounts = tx'.jsonAmounts) :
    tx.amount = tx'.amount ∧ tx.fee = tx'.fee ∧ tx.memo = tx'.memo ∧ tx.matures = tx'.matures ∧
      tx.expires = tx'.expires := by
  rw [jsonAmounts_eq, jsonAmounts_eq] at h
  have h := List.append_cancel_left h
  obtain ⟨k, -, t, ht⟩ := tx.goesOn_fee
  obtain ⟨k', -, t', ht'⟩ := tx'.goesOn_fee
  have hamount := h
  rw [ht, ht'] at hamount
  have hamount := (decimal_append_inj hamount).1
  rw [hamount] at h
  obtain ⟨hfee, h⟩ := jsonOptional_inj names_fee (by decide) (by decide) tx.goesOn_memo
    tx'.goesOn_memo (List.append_cancel_left h)
  obtain ⟨hmemo, h⟩ := jsonMemo_inj hv hv' h
  obtain ⟨hmatures, h⟩ := jsonOptional_inj names_matures (by decide) (by decide)
    tx.goesOn_expires tx'.goesOn_expires h
  obtain ⟨hexpires, -⟩ := jsonOptional_inj names_expires (by decide) (by decide)
    tx.goesOn_series tx'.goesOn_series h
  exact ⟨hamount, hfee, hmemo, hmatures, hexpires⟩

/-- A transaction without its signature. -/
def unsigned (tx : Transaction) : Transaction := { tx with signature := [] }

/-- **The encoding of a checked transaction determines all of it but the
signature.** -/
theorem Checked.idJson_inj (h : tx.Checked) (h' : tx'.Checked) (hjson : tx.idJson = tx'.idJson) :
    tx.unsigned = tx'.unsigned := by
  obtain ⟨hsender, hseries⟩ := Transaction.idJson_inj hjson
  have hfrom := h.fromKey_eq h' hsender
  obtain ⟨htime, hrest⟩ := decimal_append_inj (List.append_cancel_left hjson)
  obtain ⟨hnonce, hrest⟩ := decimal_append_inj (List.append_cancel_left hrest)
  -- the sender is omitted in both or the same in both, and the recipient is a string
  obtain ⟨pk, hpk⟩ := Option.ne_none_iff_exists'.mp h.toKey_ne
  obtain ⟨pk', hpk'⟩ := Option.ne_none_iff_exists'.mp h'.toKey_ne
  rw [jsonParties, jsonParties, hsender] at hrest
  have hparties := List.append_cancel_left hrest
  simp only [hpk, hpk', jsonKey, List.append_assoc, List.cons_append, List.nil_append] at hparties
  have hkey := List.append_cancel_left hparties
  rw [List.cons.injEq] at hkey
  obtain ⟨hto, hamounts⟩ := split_first (quote_notMem_base64 _) (quote_notMem_base64 _) hkey.2
  obtain ⟨hamount, hfee, hmemo, hmatures, hexpires⟩ :=
    jsonAmounts_inj h.memo_utf8 h'.memo_utf8 hamounts
  have hto : tx.toKey = tx'.toKey := by rw [hpk, hpk', base64_injective hto]
  cases tx
  cases tx'
  simp_all only [unsigned]

end Inj

end Transaction

/-! ### Blocks -/

/-- The texts hashed for the ID of a block and for its hash list root. -/
def Block.hashed (crypto : Crypto) (b : Block) : Set (List UInt8) :=
  {l | l = b.header.json ∨ (∃ tx ∈ b.transactions, l = tx.idJson) ∨
    ∃ coinbase rest, b.transactions = coinbase :: rest ∧
      (l = (rest.flatMap fun tx => idBytes (tx.id crypto)) ∨
        l = idBytes (coinbase.id crypto) ++
          idBytes (crypto.sum256 (rest.flatMap fun tx => idBytes (tx.id crypto))))}

section Blocks

variable {crypto : Crypto} {b b' : Block}

/-- The concatenation of 32-byte identifiers determines them. -/
theorem flatMap_idBytes_inj {txs txs' : List Transaction}
    (h : (txs.flatMap fun tx => idBytes (tx.id crypto)) =
      txs'.flatMap fun tx => idBytes (tx.id crypto)) :
    txs.map (Transaction.id crypto) = txs'.map (Transaction.id crypto) := by
  have hne (tx : Transaction) (l : List UInt8) : idBytes (tx.id crypto) ++ l ≠ [] := by
    intro h0
    have := congrArg List.length h0
    rw [List.length_append, idBytes_length, List.length_nil] at this
    omega
  induction txs generalizing txs' with
  | nil =>
    cases txs' with
    | nil => rfl
    | cons tx' txs' => exact absurd h.symm (hne tx' _)
  | cons tx txs ih =>
    cases txs' with
    | nil => exact absurd h (hne tx _)
    | cons tx' txs' =>
      rw [List.flatMap_cons, List.flatMap_cons] at h
      obtain ⟨hid, hrest⟩ := List.append_inj h ((idBytes_length _).trans (idBytes_length _).symm)
      rw [List.map_cons, List.map_cons, idBytes_injective hid, ih hrest]

/-- Equal hash list roots have equal transaction IDs. -/
theorem txIDs_of_root {coinbase coinbase' : Transaction} {rest rest' : List Transaction}
    (hfree : Set.InjOn crypto.sum256 (b.hashed crypto ∪ b'.hashed crypto))
    (hb : b.transactions = coinbase :: rest) (hb' : b'.transactions = coinbase' :: rest')
    (hroot : computeHashListRoot crypto b.transactions =
      computeHashListRoot crypto b'.transactions) : b.txIDs crypto = b'.txIDs crypto := by
  rw [hb, hb', computeHashListRoot, computeHashListRoot, Except.ok.injEq] at hroot
  have houter := hfree (Or.inl (Or.inr (Or.inr ⟨coinbase, rest, hb, Or.inr rfl⟩)))
    (Or.inr (Or.inr (Or.inr ⟨coinbase', rest', hb', Or.inr rfl⟩))) hroot
  obtain ⟨hid, hinner⟩ := List.append_inj houter
    ((idBytes_length _).trans (idBytes_length _).symm)
  have hids := hfree (Or.inl (Or.inr (Or.inr ⟨coinbase, rest, hb, Or.inl rfl⟩)))
    (Or.inr (Or.inr (Or.inr ⟨coinbase', rest', hb', Or.inl rfl⟩))) (idBytes_injective hinner)
  rw [Block.txIDs, Block.txIDs, hb, hb', List.map_cons, List.map_cons, idBytes_injective hid,
    flatMap_idBytes_inj hids]

/-- Transactions with equal IDs agree on everything but signatures. -/
theorem unsigned_of_txIDs {txs txs' : List Transaction}
    (hfree : ∀ tx ∈ txs, ∀ tx' ∈ txs', tx.id crypto = tx'.id crypto → tx.idJson = tx'.idJson)
    (hc : ∀ tx ∈ txs, tx.Checked) (hc' : ∀ tx ∈ txs', tx.Checked)
    (h : txs.map (Transaction.id crypto) = txs'.map (Transaction.id crypto)) :
    txs.map Transaction.unsigned = txs'.map Transaction.unsigned := by
  induction txs generalizing txs' with
  | nil =>
    rw [List.map_nil, eq_comm, List.map_eq_nil_iff] at h
    rw [h]
  | cons tx txs ih =>
    cases txs' with
    | nil => simp at h
    | cons tx' txs' =>
      rw [List.map_cons, List.map_cons, List.cons.injEq] at h
      rw [List.forall_mem_cons] at hc hc'
      have hjson := hfree tx List.mem_cons_self tx' List.mem_cons_self h.1
      rw [List.map_cons, List.map_cons, hc.1.idJson_inj hc'.1 hjson,
        ih (fun t ht t' ht' => hfree t (List.mem_cons_of_mem _ ht) t' (List.mem_cons_of_mem _ ht'))
          hc.2 hc'.2 h.2]

/-- **A block ID commits to everything but signatures.** -/
theorem block_id_commits {id id' : BlockID} {now now' : Int}
    (hb : checkBlock crypto id b now = .ok ()) (hb' : checkBlock crypto id' b' now' = .ok ())
    (hfree : Set.InjOn crypto.sum256 (b.hashed crypto ∪ b'.hashed crypto))
    (hid : b.header.id crypto = b'.header.id crypto) :
    b.header = b'.header ∧ b.transactions.length = b'.transactions.length ∧
      b.transactions.map Transaction.unsigned = b'.transactions.map Transaction.unsigned := by
  have hsane := checkBlock_ok_iff.mp hb
  have hsane' := checkBlock_ok_iff.mp hb'
  have hheader : b.header = b'.header :=
    BlockHeader.json_injective (hfree (Or.inl (Or.inl rfl)) (Or.inr (Or.inl rfl)) hid)
  obtain ⟨coinbase, rest, hshape, -⟩ := hsane.shape
  obtain ⟨coinbase', rest', hshape', -⟩ := hsane'.shape
  have hroot : computeHashListRoot crypto b.transactions =
      computeHashListRoot crypto b'.transactions := by
    rw [hsane.root, hsane'.root, hheader]
  have hmap := unsigned_of_txIDs (fun tx htx tx' htx' => hfree (Or.inl (Or.inr (Or.inl ⟨tx, htx, rfl⟩)))
    (Or.inr (Or.inr (Or.inl ⟨tx', htx', rfl⟩)))) hsane.checked hsane'.checked
    (txIDs_of_root hfree hshape hshape' hroot)
  refine ⟨hheader, ?_, hmap⟩
  simpa using congrArg List.length hmap

end Blocks

/-! ### Two signatures -/

namespace Sample

/-- A hash under which the texts of the hundredth block do not collide. -/
def separating : Crypto where
  sum256 l :=
    if l.head? ≠ some 123 then
      if l.length = 64 then genesisBlock.header.hashListRoot else 5
    else if l[2]? = some 116 then sum256 l
    else 4
  verify _ _ _ := true

/-- The transfer with another signature. -/
def resignedTransfer : Transaction := { transfer 0 with signature := List.replicate 64 1 }

/-- The hundredth block with another signature. -/
def resigned : Block :=
  { block 0 100 with transactions := [coinbase 0 100, resignedTransfer] }

theorem separating_transaction {tx : Transaction} (h : 0 ≤ tx.time) :
    separating.sum256 tx.idJson = BitVec.ofNat 256 tx.time.natAbs := by
  have htext : ascii "\x7b\"time\":" = 123 :: 34 :: 116 :: ascii "ime\":" := by decide
  have hhead : ∃ l, tx.idJson = 123 :: 34 :: 116 :: l := by
    rw [Transaction.idJson, htext]
    exact ⟨_, rfl⟩
  obtain ⟨l, hl⟩ := hhead
  have hid := transaction_id h
  rw [Transaction.id] at hid
  rw [← hid, hl]
  rfl

theorem separating_of_head {l : List UInt8} (h : l.head? ≠ some 123) : separating.sum256 l =
    if l.length = 64 then genesisBlock.header.hashListRoot else 5 :=
  if_pos h

theorem separating_header (h : BlockHeader) : separating.sum256 h.json = 4 := by
  obtain ⟨a, b, hjson, hhead, hthird, hlen⟩ := header_json h
  have hhead' : h.json.head? = some 123 := by
    rw [hjson, List.head?_append, hhead, Option.some_or]
  have hthird' : h.json[2]? = some 112 := by
    rw [hjson, List.getElem?_append_left (by omega), hthird]
  simp [separating, hhead', hthird']

/-- The identifiers of the sample transactions begin with a zero byte. -/
theorem idBytes_head {n : Nat} (h : n < 2 ^ 53) (l : List UInt8) :
    (idBytes (BitVec.ofNat 256 n) ++ l).head? = some 0 := by
  rw [List.head?_append, idBytes, bigEndian_head, Option.some_or, BitVec.toNat_ofNat,
    Nat.mod_eq_of_lt (by omega), Nat.div_eq_of_lt (by omega)]
  rfl

/-- The texts hashed for the hundredth block, whatever its signatures. -/
inductive Text : List UInt8 → BitVec 256 → Prop
  | header : Text (block 0 100).header.json 4
  | coinbase : Text (coinbase 0 100).idJson (BitVec.ofNat 256 (time 100).natAbs)
  | transfer : Text (transfer 0).idJson (BitVec.ofNat 256 (time 100 + 1).natAbs)
  | inner : Text (idBytes (BitVec.ofNat 256 (time 100 + 1).natAbs)) 5
  | outer : Text (idBytes (BitVec.ofNat 256 (time 100).natAbs) ++ idBytes 5)
      genesisBlock.header.hashListRoot

theorem coinbase_separating :
    (coinbase 0 100).id separating = BitVec.ofNat 256 (time 100).natAbs :=
  separating_transaction (show 0 ≤ time 100 by decide)

theorem transfer_separating :
    (transfer 0).id separating = BitVec.ofNat 256 (time 100 + 1).natAbs :=
  separating_transaction (show 0 ≤ time 100 + 1 by decide)

theorem Text.sum256_eq {l : List UInt8} {id : BitVec 256} (h : Text l id) :
    separating.sum256 l = id := by
  have hsmall (n : Nat) (hn : n < 2 ^ 53) (l : List UInt8) :
      (idBytes (BitVec.ofNat 256 n) ++ l).head? ≠ some 123 := by
    rw [idBytes_head hn]
    decide
  cases h with
  | header => exact separating_header _
  | coinbase => exact coinbase_separating
  | transfer => exact transfer_separating
  | inner =>
    have hhead := hsmall (time 100 + 1).natAbs (by decide) []
    rw [List.append_nil] at hhead
    rw [separating_of_head hhead, if_neg (by rw [idBytes_length]; decide)]
  | outer =>
    have hhead := hsmall (time 100).natAbs (by decide) (idBytes 5)
    rw [separating_of_head hhead, if_pos (by simp [idBytes_length])]

/-- Different texts have different hashes. -/
theorem Text.unique {l l' : List UInt8} {id id' : BitVec 256} (h : Text l id) (h' : Text l' id')
    (hid : id = id') : l = l' := by
  cases h <;> cases h' <;> first | rfl | exact absurd hid (by decide)

/-- The signature is not encoded. -/
theorem idJson_of_unsigned {tx tx' : Transaction} (h : tx.unsigned = tx'.unsigned) :
    tx.idJson = tx'.idJson := by
  show tx.unsigned.idJson = tx'.unsigned.idJson
  rw [h]

/-- The signature of the transfer is in none of the texts. -/
theorem text_of_hashed (tx : Transaction) (htx : tx.unsigned = (transfer 0).unsigned)
    {l : List UInt8} (h : l ∈ Block.hashed separating ⟨(block 0 100).header, [coinbase 0 100, tx]⟩) :
    ∃ id, Text l id := by
  have hjson := idJson_of_unsigned htx
  have hid : tx.id separating = BitVec.ofNat 256 (time 100 + 1).natAbs := by
    rw [Transaction.id, hjson]
    exact transfer_separating
  rcases h with rfl | ⟨tx', htx', rfl⟩ | ⟨cb, rest, hshape, hl⟩
  · exact ⟨_, .header⟩
  · rcases List.mem_cons.mp htx' with rfl | htx'
    · exact ⟨_, .coinbase⟩
    · rw [List.mem_singleton.mp htx', hjson]
      exact ⟨_, .transfer⟩
  · obtain ⟨rfl, rfl⟩ := List.cons.inj hshape
    simp only [List.flatMap_singleton, hid, Text.inner.sum256_eq, coinbase_separating] at hl
    rcases hl with rfl | rfl
    · exact ⟨_, .inner⟩
    · exact ⟨_, .outer⟩

theorem separating_injOn : Set.InjOn separating.sum256
    ((block 0 100).hashed separating ∪ resigned.hashed separating) := by
  have htext {l : List UInt8} (h : l ∈ (block 0 100).hashed separating ∪ resigned.hashed separating) :
      ∃ id, Text l id :=
    h.elim (text_of_hashed (transfer 0) rfl) (text_of_hashed resignedTransfer rfl)
  intro l hl l' hl' heq
  obtain ⟨id, hid⟩ := htext hl
  obtain ⟨id', hid'⟩ := htext hl'
  rw [hid.sum256_eq, hid'.sum256_eq] at heq
  exact hid.unique hid' heq

/-- The hundredth block passes `checkBlock` under this hash, too. -/
theorem sane_separating (tx : Transaction) (htx : tx.unsigned = (transfer 0).unsigned)
    (hchecked : tx.Checked) :
    checkBlock separating 0 ⟨(block 0 100).header, [coinbase 0 100, tx]⟩ (time 100) = .ok () := by
  have hsane : (block 0 100).Sane crypto _ (time 100) :=
    checkBlock_ok_iff.mp (checkBlock_block (by decide) (by decide))
  have hid : tx.id separating = BitVec.ofNat 256 (time 100 + 1).natAbs := by
    rw [Transaction.id, idJson_of_unsigned htx]
    exact transfer_separating
  refine checkBlock_ok_iff.mpr ⟨hsane.time_range, hsane.time_le, Nat.zero_le _, hsane.nonce_range,
    hsane.height_range, rfl, rfl, ⟨_, _, rfl, rfl, ?_⟩, hsane.size, ?_, ?_, ?_⟩
  · intro tx' htx'
    rw [List.mem_singleton.mp htx']
    exact congrArg Transaction.isCoinbase htx
  · exact List.forall_mem_cons.mpr ⟨coinbase_checked (by decide), by simpa using hchecked⟩
  · simp only [Block.txIDs, List.map_cons, List.map_nil, coinbase_separating, hid]
    decide
  · rw [computeHashListRoot, addCoinbaseToHashListRoot, List.flatMap_singleton, hid,
      Text.inner.sum256_eq, coinbase_separating, Text.outer.sum256_eq]
    rfl

end Sample

/-- Two blocks with the same ID that differ in a signature, and only there. -/
theorem block_id_commits_resigned :
    checkBlock Sample.separating 0 (Sample.block 0 100) (Sample.time 100) = .ok () ∧
      checkBlock Sample.separating 0 Sample.resigned (Sample.time 100) = .ok () ∧
      Sample.block 0 100 ≠ Sample.resigned ∧
      (Sample.block 0 100).transactions.map Transaction.unsigned =
        Sample.resigned.transactions.map Transaction.unsigned := by
  have htransfer : (Sample.transfer 0).Checked := Sample.transfer_checked (by decide)
  have hok := Sample.sane_separating (Sample.transfer 0) rfl htransfer
  have hok' := Sample.sane_separating Sample.resignedTransfer rfl
    { htransfer with coinbase := fun hcb => absurd hcb (by decide), signed := fun _ => by decide }
  refine ⟨hok, hok', ?_, (block_id_commits hok hok' Sample.separating_injOn rfl).2.2⟩
  intro heq
  exact absurd (congrArg Block.transactions heq) (by decide)

end Cruzbit

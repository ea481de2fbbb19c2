/-
Cruzbit/Wallet.lean

The keys of a wallet (`wallet.go`): how they are encrypted and stored, the
passphrase of a session, and the filter that tells a peer which transactions
to send.

The database has the encrypted private keys under `k{pubkey}`, and under `n`
the public key that was generated last.  `SetPassphrase` tests a passphrase on
that key alone.  The filter is kept in memory: it is built from the database
when the wallet is opened, and has to be extended with every new key.

Key derivation, the secret box and the cuckoo filter are parameters; what is
assumed of them is in `Secretbox.Exact` and `CuckooFilter.Lawful`.
-/
import Cruzbit.Basic

namespace Cruzbit

abbrev PrivateKey := List UInt8

/-- The errors of a wallet. -/
inductive WalletErr
  | notFound
  | unexpectedEOF
  | database
  | generateKey
  | unableToEncrypt      -- "Unable to encrypt/decrypt private keys"
  | unableToDecrypt      -- "unable to decrypt private key"
  | buildingFilter       -- "Error building filter"
  | updatingFilter       -- "Error updating filter"
  deriving DecidableEq, Repr

/-! ### Encryption -/

/-- Argon2id and NaCl secretbox, with derived keys in `K`. -/
structure Secretbox (K : Type) where
  /-- Stretch a passphrase with a salt. -/
  stretchPassphrase : List UInt8 → List UInt8 → K
  /-- Seal a message with a nonce and a key. -/
  sealBox : List UInt8 → K → List UInt8 → List UInt8
  openBox : List UInt8 → K → List UInt8 → Option (List UInt8)

/-- A box opens exactly under the key it was sealed with, and different
passphrases derive different keys. -/
structure Secretbox.Exact {K : Type} (box : Secretbox K) : Prop where
  open_seal : ∀ nonce key message, box.openBox nonce key (box.sealBox nonce key message) =
    some message
  open_other : ∀ nonce key key' message, key ≠ key' →
    box.openBox nonce key' (box.sealBox nonce key message) = none
  stretch_inj : ∀ passphrase passphrase' salt, box.stretchPassphrase passphrase salt =
    box.stretchPassphrase passphrase' salt → passphrase = passphrase'

def argonSaltLength : Nat := 16

def nonceLength : Nat := 24

/-- What the random source returns for one encryption. -/
structure Noise where
  salt : List UInt8
  nonce : List UInt8
  salt_length : salt.length = argonSaltLength
  nonce_length : nonce.length = nonceLength

section Encryption

variable {K : Type} (box : Secretbox K)

/-- NaCl secretbox encrypt a private key with an Argon2id key derived from
passphrase.  The salt and the nonce stand in front. -/
def encryptPrivateKey (noise : Noise) (privKey : PrivateKey) (passphrase : List UInt8) :
    List UInt8 :=
  noise.salt ++ (noise.nonce ++
    box.sealBox noise.nonce (box.stretchPassphrase passphrase noise.salt) privKey)

/-- NaCl secretbox decrypt a private key with an Argon2id key derived from
passphrase. -/
def decryptPrivateKey (encryptedPrivKey passphrase : List UInt8) : Option PrivateKey :=
  let salt := encryptedPrivKey.take argonSaltLength
  let nonce := (encryptedPrivKey.drop argonSaltLength).take nonceLength
  box.openBox nonce (box.stretchPassphrase passphrase salt)
    ((encryptedPrivKey.drop argonSaltLength).drop nonceLength)

variable {box}

theorem decryptPrivateKey_encryptPrivateKey (noise : Noise) (privKey : PrivateKey)
    (passphrase passphrase' : List UInt8) :
    decryptPrivateKey box (encryptPrivateKey box noise privKey passphrase) passphrase' =
      box.openBox noise.nonce (box.stretchPassphrase passphrase' noise.salt)
        (box.sealBox noise.nonce (box.stretchPassphrase passphrase noise.salt) privKey) := by
  unfold decryptPrivateKey encryptPrivateKey
  simp only [List.take_left' noise.salt_length, List.drop_left' noise.salt_length,
    List.take_left' noise.nonce_length, List.drop_left' noise.nonce_length]

theorem Secretbox.Exact.decrypt (hbox : box.Exact) (noise : Noise) (privKey : PrivateKey)
    (passphrase : List UInt8) :
    decryptPrivateKey box (encryptPrivateKey box noise privKey passphrase) passphrase =
      some privKey := by
  rw [decryptPrivateKey_encryptPrivateKey, hbox.open_seal]

/-- A passphrase that decrypts the key is the one that encrypted it. -/
theorem Secretbox.Exact.passphrase_eq (hbox : box.Exact) {noise : Noise} {privKey : PrivateKey}
    {passphrase passphrase' : List UInt8} {plain : PrivateKey}
    (h : decryptPrivateKey box (encryptPrivateKey box noise privKey passphrase) passphrase' =
      some plain) : passphrase = passphrase' := by
  rw [decryptPrivateKey_encryptPrivateKey] at h
  by_contra hne
  have hkeys := mt (hbox.stretch_inj passphrase passphrase' noise.salt) hne
  rw [hbox.open_other _ _ _ _ hkeys] at h
  exact absurd h nofun

end Encryption

/-! ### The filter -/

/-- A cuckoo filter. -/
structure CuckooFilter (F : Type) where
  /-- `NewFilter` with the given capacity. -/
  new : Nat → F
  insert : F → PublicKey → F × Bool
  lookup : F → PublicKey → Bool

/-- A successful insert makes the key match, and takes no match away.  An insert
that fails may. -/
structure CuckooFilter.Lawful {F : Type} (cuckoo : CuckooFilter F) : Prop where
  insert_matches : ∀ f pubKey, (cuckoo.insert f pubKey).2 = true →
    cuckoo.lookup (cuckoo.insert f pubKey).1 pubKey = true
  insert_keeps : ∀ f pubKey pubKey', (cuckoo.insert f pubKey').2 = true →
    cuckoo.lookup f pubKey = true → cuckoo.lookup (cuckoo.insert f pubKey').1 pubKey = true

/-! ### The wallet -/

/-- The wallet's database, by raw keys. -/
abbrev WalletDb := Table (List UInt8) (List UInt8)

/-- Wallet manages keys on behalf of a user. -/
structure Wallet (F : Type) where
  db : WalletDb
  passphrase : List UInt8
  filter : F

def newestPublicKeyPrefix : UInt8 := 110

def privateKeyPrefix : UInt8 := 107

def encodePrivateKeyDbKey (pubKey : PublicKey) : List UInt8 := privateKeyPrefix :: pubKey

/-- The public key is read from the 32 bytes behind the first one. -/
def decodePrivateKeyDbKey : List UInt8 → Except WalletErr PublicKey
  | [] => .error .unexpectedEOF
  | _ :: rest =>
    if rest.length < publicKeySize then .error .unexpectedEOF else .ok (rest.take publicKeySize)

/-- A generated key pair with the noise of its encryption. -/
structure KeyDraw where
  pubKey : PublicKey
  privKey : PrivateKey
  noise : Noise
  pubKey_length : pubKey.length = publicKeySize

namespace Wallet

variable {F K : Type} (box : Secretbox K) (cuckoo : CuckooFilter F)

/-- GetKeys returns all of the public keys from the database. -/
def getKeys (db : WalletDb) : Except WalletErr (List PublicKey) :=
  (db.toList.filter fun e => decide (e.1.head? = some privateKeyPrefix)).mapM fun e =>
    decodePrivateKeyDbKey e.1

/-- Insert keys into a filter that is being built. -/
def buildFilter (f : F) (pubKeys : List PublicKey) : Except WalletErr F :=
  pubKeys.foldlM (fun f pubKey =>
    let (f, ok) := cuckoo.insert f pubKey
    if ok then .ok f else .error .buildingFilter) f

/-- Initialize the filter. -/
def initializeFilter (db : WalletDb) : Except WalletErr F := do
  let pubKeys ← getKeys db
  let capacity := if pubKeys.length > 4096 / 2 then pubKeys.length * 2 else 4096
  buildFilter cuckoo (cuckoo.new capacity) pubKeys

/-- NewWallet returns a new Wallet instance. -/
def newWallet (db : WalletDb) : Except WalletErr (Wallet F) := do
  let filter ← initializeFilter cuckoo db
  .ok ⟨db, [], filter⟩

def setPassphrase (w : Wallet F) (passphrase : List UInt8) : Wallet F × Except WalletErr Bool :=
  -- test that the passphrase was the most recent used
  match w.db[[newestPublicKeyPrefix]]? with
  | none => ({ w with passphrase := passphrase }, .ok true)
  | some pubKey =>
    -- fetch the private key
    match w.db[encodePrivateKeyDbKey pubKey]? with
    | none => (w, .error .notFound)
    | some encryptedPrivKey =>
      -- decrypt it
      match decryptPrivateKey box encryptedPrivKey passphrase with
      | none => (w, .ok false)
      | some _ => ({ w with passphrase := passphrase }, .ok true)

/-- The loop of `NewKeys`: the filter, and the batch that is to be written.  A
`none` is a failure to generate a key. -/
def generate (passphrase : List UInt8) :
    F → List (Option KeyDraw) → F × Except WalletErr (List (List UInt8 × Option (List UInt8)))
  | f, [] => (f, .ok [])
  | f, none :: _ => (f, .error .generateKey)
  | f, some draw :: draws =>
    -- encrypt the private key
    let encryptedPrivKey := encryptPrivateKey box draw.noise draw.privKey passphrase
    -- safety check
    if decryptPrivateKey box encryptedPrivKey passphrase ≠ some draw.privKey then
      (f, .error .unableToEncrypt)
    else
      -- store the key
      let stored := (encodePrivateKeyDbKey draw.pubKey, some encryptedPrivKey)
      let newest := if draws = [] then [([newestPublicKeyPrefix], some draw.pubKey)] else []
      -- update the filter
      match cuckoo.insert f draw.pubKey with
      | (f, false) => (f, .error .updatingFilter)
      | (f, true) =>
        match generate passphrase f draws with
        | (f, .error e) => (f, .error e)
        | (f, .ok batch) => (f, .ok (stored :: newest ++ batch))

/-- NewKeys generates, encrypts and stores new private keys.  `written` says
whether the database accepts the batch. -/
def newKeys (w : Wallet F) (draws : List (Option KeyDraw)) (written : Bool) :
    Wallet F × Except WalletErr Unit :=
  match generate box cuckoo w.passphrase w.filter draws with
  | (f, .error e) => ({ w with filter := f }, .error e)
  | (f, .ok batch) =>
    if written then ({ w with filter := f, db := w.db.write batch }, .ok ())
    else ({ w with filter := f }, .error .database)

/-- AddKey adds an existing key pair to the database. -/
def addKey (w : Wallet F) (pubKey : PublicKey) (privKey : PrivateKey) (noise : Noise)
    (written : Bool) : Wallet F × Except WalletErr Unit :=
  -- encrypt the private key
  let encryptedPrivKey := encryptPrivateKey box noise privKey w.passphrase
  -- safety check
  if decryptPrivateKey box encryptedPrivKey w.passphrase ≠ some privKey then
    (w, .error .unableToEncrypt)
  -- store the key
  else if written then
    ({ w with db := w.db.insert (encodePrivateKeyDbKey pubKey) encryptedPrivKey }, .ok ())
  else (w, .error .database)

/-- Retrieve a private key for a given public key. -/
def getPrivateKey (w : Wallet F) (pubKey : PublicKey) : Except WalletErr PrivateKey :=
  -- fetch the private key
  match w.db[encodePrivateKeyDbKey pubKey]? with
  | none => .error .notFound
  | some encryptedPrivKey =>
    match decryptPrivateKey box encryptedPrivKey w.passphrase with
    | none => .error .unableToDecrypt
    | some privKey => .ok privKey

end Wallet

/-- A call that stores keys, with what the random source and the database do. -/
inductive KeyCall
  | newKeys (draws : List (Option KeyDraw)) (written : Bool)
  | addKey (pubKey : PublicKey) (privKey : PrivateKey) (noise : Noise) (written : Bool)

/-- The wallet after a call, and whether it succeeded. -/
def Wallet.call {F K : Type} (box : Secretbox K) (cuckoo : CuckooFilter F) (w : Wallet F) :
    KeyCall → Wallet F × Except WalletErr Unit
  | .newKeys draws written => w.newKeys box cuckoo draws written
  | .addKey pubKey privKey noise written => w.addKey box pubKey privKey noise written

end Cruzbit

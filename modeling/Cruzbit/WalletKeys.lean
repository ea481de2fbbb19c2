/-
Cruzbit/WalletKeys.lean

What a wallet keeps about its keys, over any calls and any sessions.

`AddKey` stores a key and does nothing else.  It does not record the key as the
newest one, so as long as no key has been generated `SetPassphrase` has nothing
to test a passphrase on and accepts any; and it does not insert the key into
the filter.  Keys stored under the passphrase of one session can thus be lost
in the next (`imported_key_locked`), and transactions of an imported key are
filtered out until the wallet is opened again (`imported_key_filtered`).

Both invariants hold in the runs that avoid this: `accepted_passphrase_opens`
for sessions that start on a database with a newest key or without keys, and
`filter_covers_keys` for imports of keys the filter already matches, as long as
the filter has room for the keys that are generated.  When an insertion fails
the filter may have dropped another key, and `NewKeys` does not undo that.

`Cuckoo.keyFilter` is the filter that the wallet uses (`keyFilter_lawful`).
-/
import Cruzbit.Cuckoo
import Cruzbit.Transition
import Cruzbit.Wallet

namespace Cruzbit

open Transition

/-! ### Sessions -/

/-- The wallet over its sessions.  `stored` has the private keys as they were
handed over, which the wallet itself only keeps encrypted. -/
structure Sessions (F : Type) where
  wallet : Wallet F
  opened : Bool
  stored : Table PublicKey PrivateKey

inductive SessionStep
  /-- NewWallet, and a SetPassphrase that returned true. -/
  | start (passphrase : List UInt8)
  | call (c : KeyCall)

namespace KeyCall

/-- The key pairs that a successful call stores. -/
def keys : KeyCall → List (PublicKey × PrivateKey)
  | .newKeys draws _ => draws.filterMap (Option.map fun draw => (draw.pubKey, draw.privKey))
  | .addKey pubKey privKey _ _ => [(pubKey, privKey)]

end KeyCall

/-- The table with the pairs stored in order. -/
def storeKeys (stored : Table PublicKey PrivateKey) (keys : List (PublicKey × PrivateKey)) :
    Table PublicKey PrivateKey :=
  stored.write (Table.puts keys)

namespace Sessions

variable {F K : Type} (box : Secretbox K) (cuckoo : CuckooFilter F)

def step (s : Sessions F) : SessionStep → Option (Sessions F)
  | .start passphrase =>
    match Wallet.newWallet cuckoo s.wallet.db with
    | .error _ => none
    | .ok w =>
      match w.setPassphrase box passphrase with
      | (w, .ok true) => some { s with wallet := w, opened := true }
      | _ => none
  | .call c =>
    if s.opened then
      match s.wallet.call box cuckoo c with
      | (w, .ok ()) => some { s with wallet := w, stored := storeKeys s.stored c.keys }
      | (w, .error _) => some { s with wallet := w }
    else none

/-- An empty database. -/
def Empty (s : Sessions F) : Prop := ∃ w : Wallet F, w.db = ∅ ∧ s = ⟨w, false, ∅⟩

/-- A session starts on a database that has a newest key, or no keys. -/
def Recorded (s : Sessions F) : SessionStep → Prop
  | .start _ => s.wallet.db[[newestPublicKeyPrefix]]? = none →
      ∀ pubKey, s.wallet.db[encodePrivateKeyDbKey pubKey]? = none
  | .call _ => True

variable {box cuckoo}

theorem recorded_of_newest {s : Sessions F} {pubKey : PublicKey} (passphrase : List UInt8)
    (h : s.wallet.db[[newestPublicKeyPrefix]]? = some pubKey) : s.Recorded (.start passphrase) :=
  fun hnone => absurd (h.symm.trans hnone) (by simp)

end Sessions

/-! ### Keys under one passphrase -/

/-- The database has exactly the stored keys, encrypted with the passphrase, and
its newest key is one of them. -/
structure Sealed {K : Type} (box : Secretbox K) (passphrase : List UInt8) (db : WalletDb)
    (stored : Table PublicKey PrivateKey) : Prop where
  encrypted : ∀ pubKey privKey, stored[pubKey]? = some privKey → ∃ noise,
    db[encodePrivateKeyDbKey pubKey]? = some (encryptPrivateKey box noise privKey passphrase)
  listed : ∀ pubKey value, db[encodePrivateKeyDbKey pubKey]? = some value →
    ∃ privKey, stored[pubKey]? = some privKey
  newest : ∀ pubKey, db[[newestPublicKeyPrefix]]? = some pubKey →
    ∃ privKey, stored[pubKey]? = some privKey

section Sealed

variable {F K : Type} {box : Secretbox K} {cuckoo : CuckooFilter F}
  {passphrase passphrase' : List UInt8} {db : WalletDb} {stored : Table PublicKey PrivateKey}
  {pubKey : PublicKey} {w : Wallet F} {s s' : Sessions F}

theorem newest_ne_encode (pubKey : PublicKey) :
    [newestPublicKeyPrefix] ≠ encodePrivateKeyDbKey pubKey := by
  intro h
  exact absurd (List.cons.inj h).1 (by decide)

theorem get_insert_encode (db : WalletDb) (pubKey pubKey' : PublicKey) (value : List UInt8) :
    (db.insert (encodePrivateKeyDbKey pubKey) value)[encodePrivateKeyDbKey pubKey']? =
      if pubKey = pubKey' then some value else db[encodePrivateKeyDbKey pubKey']? := by
  simp only [Table.get_insert, encodePrivateKeyDbKey, List.cons_inj_right]

theorem Sealed.put (h : Sealed box passphrase db stored) (pubKey : PublicKey)
    (privKey : PrivateKey) (noise : Noise) :
    Sealed box passphrase
      (db.insert (encodePrivateKeyDbKey pubKey) (encryptPrivateKey box noise privKey passphrase))
      (stored.insert pubKey privKey) := by
  refine ⟨fun pubKey' privKey' => ?_, fun pubKey' value => ?_, fun pubKey' => ?_⟩
  · rw [Table.get_insert, get_insert_encode]
    split_ifs with heq
    · intro hkey
      rw [Option.some.inj hkey]
      exact ⟨noise, rfl⟩
    · exact h.encrypted pubKey' privKey'
  · rw [get_insert_encode, Table.get_insert]
    split_ifs with heq
    · exact fun _ => ⟨privKey, rfl⟩
    · exact h.listed pubKey' value
  · rw [Table.get_insert, Table.get_insert, if_neg (newest_ne_encode pubKey).symm]
    split_ifs with heq
    · exact fun _ => ⟨privKey, rfl⟩
    · exact h.newest pubKey'

theorem Sealed.putNewest (h : Sealed box passphrase db stored) {privKey : PrivateKey}
    (hkey : stored[pubKey]? = some privKey) :
    Sealed box passphrase (db.insert [newestPublicKeyPrefix] pubKey) stored := by
  refine ⟨fun pubKey' privKey' => ?_, fun pubKey' value => ?_, fun pubKey' => ?_⟩
  · rw [Table.get_insert, if_neg (newest_ne_encode pubKey')]
    exact h.encrypted pubKey' privKey'
  · rw [Table.get_insert, if_neg (newest_ne_encode pubKey')]
    exact h.listed pubKey' value
  · rw [Table.get_insert, if_pos rfl]
    intro hnew
    rw [← Option.some.inj hnew]
    exact ⟨privKey, hkey⟩

/-- The loop of `NewKeys` goes on after a key, or ends with an error and at most
one insert. -/
theorem generate_cons (f : F) (draw : KeyDraw) (draws : List (Option KeyDraw)) :
    (∃ e, Wallet.generate box cuckoo passphrase f (some draw :: draws) = (f, .error e)) ∨
      Wallet.generate box cuckoo passphrase f (some draw :: draws) =
        ((cuckoo.insert f draw.pubKey).1, .error .updatingFilter) ∨
      ((cuckoo.insert f draw.pubKey).2 = true ∧
        Wallet.generate box cuckoo passphrase f (some draw :: draws) =
          ((Wallet.generate box cuckoo passphrase (cuckoo.insert f draw.pubKey).1 draws).1,
            (Wallet.generate box cuckoo passphrase (cuckoo.insert f draw.pubKey).1 draws).2.map
              fun batch => (encodePrivateKeyDbKey draw.pubKey,
                some (encryptPrivateKey box draw.noise draw.privKey passphrase)) ::
                (if draws = [] then [([newestPublicKeyPrefix], some draw.pubKey)] else []) ++
                batch)) := by
  rw [Wallet.generate]
  by_cases hcheck : decryptPrivateKey box
      (encryptPrivateKey box draw.noise draw.privKey passphrase) passphrase ≠ some draw.privKey
  · exact Or.inl ⟨_, if_pos hcheck⟩
  · rw [if_neg hcheck]
    generalize cuckoo.insert f draw.pubKey = inserted
    obtain ⟨f₁, _ | _⟩ := inserted
    · exact Or.inr (Or.inl rfl)
    · refine Or.inr (Or.inr ⟨rfl, ?_⟩)
      dsimp only
      generalize Wallet.generate box cuckoo passphrase f₁ draws = rest
      obtain ⟨f₂, _ | _⟩ := rest <;> rfl

/-- One key that is generated and inserted. -/
theorem generate_single (hbox : box.Exact) {f f' : F} (draw : KeyDraw)
    (h : cuckoo.insert f draw.pubKey = (f', true)) :
    Wallet.generate box cuckoo passphrase f [some draw] =
      (f', .ok [(encodePrivateKeyDbKey draw.pubKey,
        some (encryptPrivateKey box draw.noise draw.privKey passphrase)),
        ([newestPublicKeyPrefix], some draw.pubKey)]) := by
  rw [Wallet.generate, if_neg (not_not.mpr (hbox.decrypt _ _ _))]
  simp only [h, Wallet.generate]
  rfl

/-- The batch of `NewKeys` stores the generated keys. -/
theorem Sealed.generate {f : F} {draws : List (Option KeyDraw)}
    {batch : List (List UInt8 × Option (List UInt8))}
    (hok : (Wallet.generate box cuckoo passphrase f draws).2 = .ok batch)
    (h : Sealed box passphrase db stored) (written : Bool) :
    Sealed box passphrase (db.write batch)
      (storeKeys stored (KeyCall.newKeys draws written).keys) := by
  induction draws generalizing f batch db stored with
  | nil =>
    obtain rfl : [] = batch := Except.ok.inj hok
    exact h
  | cons draw draws ih =>
    cases draw with
    | none => exact absurd hok nofun
    | some draw =>
      rcases generate_cons f draw draws with ⟨e, heq⟩ | heq | ⟨-, heq⟩
      · rw [heq] at hok
        exact absurd hok nofun
      · rw [heq] at hok
        exact absurd hok nofun
      · rw [heq] at hok
        generalize hrest : Wallet.generate box cuckoo passphrase _ draws = rest at hok
        obtain ⟨f₂, e | batch₂⟩ := rest
        · exact absurd hok nofun
        · have hrest₂ := congrArg Prod.snd hrest
          obtain rfl := Except.ok.inj hok
          have hput := h.put draw.pubKey draw.privKey draw.noise
          rw [Table.write_append, Table.write_cons]
          refine ih hrest₂ ?_
          split_ifs with hlast
          · exact hput.putNewest ((Table.get_insert _ _ _ _).trans (if_pos rfl))
          · exact hput

/-! ### Accepted passphrases -/

/-- What a start of a session can do. -/
theorem Sessions.step_start (hs : s.step box cuckoo (.start passphrase) = some s') :
    s'.stored = s.stored ∧ s'.wallet.db = s.wallet.db ∧ s'.wallet.passphrase = passphrase ∧
      ∀ pubKey, s.wallet.db[[newestPublicKeyPrefix]]? = some pubKey → ∃ value plain,
        s.wallet.db[encodePrivateKeyDbKey pubKey]? = some value ∧
          decryptPrivateKey box value passphrase = some plain := by
  unfold Sessions.step Wallet.newWallet at hs
  cases hfilter : Wallet.initializeFilter cuckoo s.wallet.db with
  | error e => simp [hfilter, bind, Except.bind] at hs
  | ok f =>
    simp only [hfilter, bind, Except.bind, Wallet.setPassphrase] at hs
    cases hnewest : s.wallet.db[[newestPublicKeyPrefix]]? with
    | none =>
      simp only [hnewest, Option.some.injEq] at hs
      subst hs
      exact ⟨rfl, rfl, rfl, nofun⟩
    | some pubKey =>
      simp only [hnewest] at hs
      cases hvalue : s.wallet.db[encodePrivateKeyDbKey pubKey]? with
      | none => simp [hvalue] at hs
      | some value =>
        simp only [hvalue] at hs
        cases hplain : decryptPrivateKey box value passphrase with
        | none => simp [hplain] at hs
        | some plain =>
          simp only [hplain, Option.some.injEq] at hs
          subst hs
          refine ⟨rfl, rfl, rfl, ?_⟩
          rintro _ ⟨⟩
          exact ⟨value, plain, hvalue, hplain⟩

/-- A call leaves the passphrase alone, and stores its keys or nothing. -/
theorem Wallet.call_cases (w : Wallet F) (c : KeyCall)
    (h : Sealed box w.passphrase w.db stored) :
    (∃ w', w.call box cuckoo c = (w', .ok ()) ∧
      Sealed box w'.passphrase w'.db (storeKeys stored c.keys)) ∨
    ∃ w' e, w.call box cuckoo c = (w', .error e) ∧ Sealed box w'.passphrase w'.db stored := by
  cases c with
  | newKeys draws written =>
    show (∃ w', w.newKeys box cuckoo draws written = _ ∧ _) ∨
      ∃ w' e, w.newKeys box cuckoo draws written = _ ∧ _
    unfold Wallet.newKeys
    generalize hgen : Wallet.generate box cuckoo w.passphrase w.filter draws = generated
    obtain ⟨f, e | batch⟩ := generated
    · exact Or.inr ⟨_, e, rfl, h⟩
    · cases written with
      | false => exact Or.inr ⟨_, _, rfl, h⟩
      | true => exact Or.inl ⟨_, rfl, h.generate (congrArg Prod.snd hgen) true⟩
  | addKey pubKey privKey noise written =>
    show (∃ w', w.addKey box pubKey privKey noise written = _ ∧ _) ∨
      ∃ w' e, w.addKey box pubKey privKey noise written = _ ∧ _
    unfold Wallet.addKey
    dsimp only
    split_ifs with hcheck hwritten
    · exact Or.inr ⟨_, _, rfl, h⟩
    · exact Or.inl ⟨_, rfl, h.put pubKey privKey noise⟩
    · exact Or.inr ⟨_, _, rfl, h⟩

/-- One recorded step keeps all keys under the passphrase of the session. -/
theorem Sealed.step (hbox : box.Exact) {l : SessionStep}
    (h : Sealed box s.wallet.passphrase s.wallet.db s.stored) (hrecorded : s.Recorded l)
    (hs : s.step box cuckoo l = some s') :
    Sealed box s'.wallet.passphrase s'.wallet.db s'.stored := by
  cases l with
  | start passphrase =>
    obtain ⟨hstored, hdb, hpass, hnewest⟩ := Sessions.step_start hs
    rw [hstored, hdb, hpass]
    cases hkey : s.wallet.db[[newestPublicKeyPrefix]]? with
    | none =>
      -- nothing is stored, so any passphrase will do
      have hempty := hrecorded hkey
      refine ⟨fun pubKey privKey hpub => ?_, h.listed, h.newest⟩
      obtain ⟨noise, hvalue⟩ := h.encrypted pubKey privKey hpub
      exact absurd (hvalue.symm.trans (hempty pubKey)) nofun
    | some pubKey =>
      -- the newest key was encrypted with the passphrase it is decrypted with
      obtain ⟨privKey, hpub⟩ := h.newest pubKey hkey
      obtain ⟨noise, hencrypted⟩ := h.encrypted pubKey privKey hpub
      obtain ⟨value, plain, hvalue, hplain⟩ := hnewest pubKey hkey
      rw [Option.some.inj (hvalue.symm.trans hencrypted)] at hplain
      rw [← hbox.passphrase_eq hplain]
      exact h
  | call c =>
    simp only [Sessions.step] at hs
    split_ifs at hs with hopened
    rcases s.wallet.call_cases c h with ⟨w', hok, hsealed⟩ | ⟨w', e, herr, hsealed⟩
    · rw [hok] at hs
      rw [← Option.some.inj hs]
      exact hsealed
    · rw [herr] at hs
      rw [← Option.some.inj hs]
      exact hsealed

/-- **An accepted passphrase opens the whole wallet**, in every run whose sessions
start on a database with a newest key or without keys: every key of the
database is returned as it was stored. -/
theorem accepted_passphrase_opens (hbox : box.Exact)
    (h : Reach Sessions.Empty (Sessions.step box cuckoo) Sessions.Recorded s)
    {value : List UInt8} (hkey : s.wallet.db[encodePrivateKeyDbKey pubKey]? = some value) :
    ∃ privKey, s.stored[pubKey]? = some privKey ∧
      s.wallet.getPrivateKey box pubKey = .ok privKey := by
  have hsealed : Sealed box s.wallet.passphrase s.wallet.db s.stored := by
    refine h.invariant (I := fun s => Sealed box s.wallet.passphrase s.wallet.db s.stored) ?_
      fun _ _ _ hsealed hrecorded hs => hsealed.step hbox hrecorded hs
    rintro _ ⟨w, hdb, rfl⟩
    refine ⟨fun pubKey privKey hpub => ?_, fun pubKey value hvalue => ?_, fun pubKey hnew => ?_⟩
    · exact absurd (hpub.symm.trans Std.ExtTreeMap.getElem?_empty) nofun
    · rw [hdb] at hvalue
      exact absurd (hvalue.symm.trans Std.ExtTreeMap.getElem?_empty) nofun
    · rw [hdb] at hnew
      exact absurd (hnew.symm.trans Std.ExtTreeMap.getElem?_empty) nofun
  obtain ⟨privKey, hstored⟩ := hsealed.listed pubKey value hkey
  obtain ⟨noise, hencrypted⟩ := hsealed.encrypted pubKey privKey hstored
  refine ⟨privKey, hstored, ?_⟩
  simp only [Wallet.getPrivateKey, hencrypted, hbox.decrypt]

end Sealed

namespace Sample

/-- A key in front of a message, so that it can be told where the key ends. -/
def mark : List UInt8 → List UInt8
  | [] => [0]
  | b :: key => 1 :: b :: mark key

/-- A box that has its key in the open. -/
def box : Secretbox (List UInt8) where
  stretchPassphrase passphrase _ := passphrase
  sealBox _ key message := mark key ++ message
  openBox _ key text :=
    if mark key <+: text then some (text.drop (mark key).length) else none

theorem mark_inj {key key' message : List UInt8} (h : mark key' <+: mark key ++ message) :
    key = key' := by
  induction key generalizing key' with
  | nil =>
    cases key' with
    | nil => rfl
    | cons b' key' => simp [mark] at h
  | cons b key ih =>
    cases key' with
    | nil => simp [mark] at h
    | cons b' key' =>
      simp only [mark, List.cons_append, List.cons_prefix_cons, true_and] at h
      rw [h.1, ih h.2]

theorem box_exact : box.Exact where
  open_seal nonce key message := by
    show (if mark key <+: mark key ++ message then _ else _) = some message
    rw [if_pos (List.prefix_append _ _)]
    exact congrArg some (List.drop_left)
  open_other nonce key key' message hne := by
    show (if mark key' <+: mark key ++ message then _ else _) = none
    rw [if_neg fun h => hne (mark_inj h)]
  stretch_inj _ _ _ h := h

/-- A filter that remembers what was inserted. -/
def cuckoo : CuckooFilter (List PublicKey) where
  new _ := []
  insert f pubKey := (pubKey :: f, true)
  lookup f pubKey := decide (pubKey ∈ f)

def noise : Noise := ⟨List.replicate 16 0, List.replicate 24 0, rfl, rfl⟩

def pubKey : PublicKey := List.replicate 32 7

def otherKey : PublicKey := List.replicate 32 8

def newWallet : Sessions (List PublicKey) := ⟨⟨∅, [], []⟩, false, ∅⟩

end Sample

/-- A key is generated in the first session, and another one imported in the
second. -/
theorem accepted_passphrase_opens_generated :
    ∃ s, Reach Sessions.Empty (Sessions.step Sample.box Sample.cuckoo) Sessions.Recorded s ∧
      s.wallet.passphrase = [1] ∧
      (∃ privKey, s.stored[Sample.pubKey]? = some privKey ∧
        s.wallet.getPrivateKey Sample.box Sample.pubKey = .ok privKey) ∧
      ∃ privKey, s.stored[Sample.otherKey]? = some privKey ∧
        s.wallet.getPrivateKey Sample.box Sample.otherKey = .ok privKey := by
  have hempty : Reach Sessions.Empty (Sessions.step Sample.box Sample.cuckoo) Sessions.Recorded
      Sample.newWallet := .init ⟨_, rfl, rfl⟩
  have hfirst : Sample.newWallet.Recorded (.start [1]) := fun _ _ => rfl
  have hcall (s : Sessions (List PublicKey)) (c : KeyCall) : s.Recorded (.call c) := trivial
  have hgenerated := (hempty.next hfirst rfl).next
    (hcall _ (.newKeys [some ⟨Sample.pubKey, [5], Sample.noise, rfl⟩] true)) rfl
  -- the second session finds the newest key
  have hreopened := hgenerated.next (Sessions.recorded_of_newest [1] rfl) rfl
  have himported := hreopened.next
    (hcall _ (.addKey Sample.otherKey [6] Sample.noise true)) rfl
  exact ⟨_, himported, rfl, accepted_passphrase_opens Sample.box_exact himported rfl,
    accepted_passphrase_opens Sample.box_exact himported rfl⟩

/-- A key is imported in the first session; the next session accepts another
passphrase, with which the key cannot be decrypted. -/
theorem imported_key_locked :
    ∃ s, Transition.Run Sessions.Empty (Sessions.step Sample.box Sample.cuckoo) s ∧
      s.opened = true ∧ s.stored[Sample.pubKey]? = some [5] ∧
      s.wallet.getPrivateKey Sample.box Sample.pubKey = .error .unableToDecrypt := by
  have hempty : Transition.Run Sessions.Empty (Sessions.step Sample.box Sample.cuckoo)
      Sample.newWallet := .init ⟨_, rfl, rfl⟩
  have hsteps : steps (Sessions.step Sample.box Sample.cuckoo) Sample.newWallet
      [.start [1], .call (.addKey Sample.pubKey [5] Sample.noise true), .start [2]] = some _ := rfl
  exact ⟨_, hempty.steps hsteps, rfl, rfl, rfl⟩

/-! ### The filter -/

section Filter

variable {F K : Type} {box : Secretbox K} {cuckoo : CuckooFilter F} {w w' : Wallet F}

/-- A wallet just opened, with any passphrase. -/
def Wallet.Opened (cuckoo : CuckooFilter F) (w : Wallet F) : Prop :=
  ∃ w₀ : Wallet F, Wallet.newWallet cuckoo w.db = .ok w₀ ∧ w.filter = w₀.filter

/-- A call of NewKeys or AddKey, successful or not. -/
def Wallet.step (box : Secretbox K) (cuckoo : CuckooFilter F) (w : Wallet F) (c : KeyCall) :
    Option (Wallet F) :=
  some (w.call box cuckoo c).1

/-- The filter has room for new keys, and a key is imported only if the filter
matches it already. -/
def Wallet.Matched (box : Secretbox K) (cuckoo : CuckooFilter F) (w : Wallet F) : KeyCall → Prop
  | .newKeys draws written => (w.newKeys box cuckoo draws written).2 ≠ .error .updatingFilter
  | .addKey pubKey _ _ _ => ∀ listed,
      decodePrivateKeyDbKey (encodePrivateKeyDbKey pubKey) = .ok listed →
      cuckoo.lookup w.filter listed = true

/-- The filter matches every key of the database that can be listed. -/
def Wallet.Covered (cuckoo : CuckooFilter F) (db : WalletDb) (f : F) : Prop :=
  ∀ pubKey value listed, db[encodePrivateKeyDbKey pubKey]? = some value →
    decodePrivateKeyDbKey (encodePrivateKeyDbKey pubKey) = .ok listed →
    cuckoo.lookup f listed = true

theorem mem_mapM_ok {α β : Type} {g : α → Except WalletErr β} {xs : List α} {ys : List β}
    (h : xs.mapM g = .ok ys) (y : β) : y ∈ ys ↔ ∃ x ∈ xs, g x = .ok y := by
  induction xs generalizing ys with
  | nil =>
    obtain rfl : [] = ys := Except.ok.inj h
    simp
  | cons x xs ih =>
    rw [List.mapM_cons] at h
    cases hx : g x with
    | error e =>
      rw [hx] at h
      exact absurd h nofun
    | ok y' =>
      rw [hx] at h
      cases hxs : xs.mapM g with
      | error e =>
        rw [hxs] at h
        exact absurd h nofun
      | ok ys' =>
        rw [hxs] at h
        obtain rfl : y' :: ys' = ys := Except.ok.inj h
        rw [List.mem_cons, List.exists_mem_cons_iff, ih hxs, hx, Except.ok.injEq,
          eq_comm (a := y)]

/-- The entries that `GetKeys` goes through. -/
theorem mem_privateKeys {db : WalletDb} {e : List UInt8 × List UInt8} :
    e ∈ db.toList.filter (fun e => decide (e.1.head? = some privateKeyPrefix)) ↔
      ∃ pubKey, e.1 = encodePrivateKeyDbKey pubKey ∧ db[e.1]? = some e.2 := by
  obtain ⟨key, value⟩ := e
  rw [List.mem_filter, Table.mem_toList, decide_eq_true_iff]
  cases key with
  | nil => simp [encodePrivateKeyDbKey]
  | cons b key =>
    simp only [List.head?_cons, Option.some.injEq, encodePrivateKeyDbKey, List.cons.injEq]
    constructor
    · rintro ⟨hvalue, hb⟩
      exact ⟨key, ⟨hb, rfl⟩, hvalue⟩
    · rintro ⟨pubKey, ⟨hb, -⟩, hvalue⟩
      exact ⟨hvalue, hb⟩

/-- `GetKeys` lists exactly what can be decoded from the database. -/
theorem mem_getKeys {db : WalletDb} {pubKeys : List PublicKey}
    (h : Wallet.getKeys db = .ok pubKeys) (listed : PublicKey) :
    listed ∈ pubKeys ↔ ∃ pubKey value, db[encodePrivateKeyDbKey pubKey]? = some value ∧
      decodePrivateKeyDbKey (encodePrivateKeyDbKey pubKey) = .ok listed := by
  rw [mem_mapM_ok h]
  constructor
  · rintro ⟨e, he, hdecode⟩
    obtain ⟨pubKey, hkey, hvalue⟩ := mem_privateKeys.mp he
    rw [hkey] at hvalue hdecode
    exact ⟨pubKey, e.2, hvalue, hdecode⟩
  · rintro ⟨pubKey, value, hvalue, hdecode⟩
    exact ⟨(encodePrivateKeyDbKey pubKey, value), mem_privateKeys.mpr ⟨pubKey, rfl, hvalue⟩,
      hdecode⟩

/-- Inserting keys one by one keeps the matches and adds the new ones. -/
theorem CuckooFilter.Lawful.buildFilter (hcuckoo : cuckoo.Lawful) {f f' : F}
    {pubKeys : List PublicKey} (h : Wallet.buildFilter cuckoo f pubKeys = .ok f') :
    (∀ pubKey, cuckoo.lookup f pubKey = true → cuckoo.lookup f' pubKey = true) ∧
      ∀ pubKey ∈ pubKeys, cuckoo.lookup f' pubKey = true := by
  induction pubKeys generalizing f with
  | nil =>
    obtain rfl : f = f' := Except.ok.inj h
    exact ⟨fun _ hold => hold, fun _ hmem => absurd hmem List.not_mem_nil⟩
  | cons pubKey pubKeys ih =>
    rw [Wallet.buildFilter, List.foldlM_cons] at h
    dsimp only at h
    split_ifs at h with hok
    · obtain ⟨hkeep, hnew⟩ := ih h
      refine ⟨fun k hold => hkeep k (hcuckoo.insert_keeps f k pubKey hok hold), ?_⟩
      exact List.forall_mem_cons.mpr ⟨hkeep pubKey (hcuckoo.insert_matches f pubKey hok), hnew⟩
    · exact absurd h nofun

/-- The filter of a wallet just opened matches all its keys. -/
theorem Wallet.Opened.covered (hcuckoo : cuckoo.Lawful) (h : w.Opened cuckoo) :
    Wallet.Covered cuckoo w.db w.filter := by
  obtain ⟨w₀, hnew, hfilter⟩ := h
  unfold Wallet.newWallet Wallet.initializeFilter at hnew
  cases hkeys : Wallet.getKeys w.db with
  | error e =>
    rw [hkeys] at hnew
    exact absurd hnew nofun
  | ok pubKeys =>
    rw [hkeys] at hnew
    cases hbuild : Wallet.buildFilter cuckoo
        (cuckoo.new (if pubKeys.length > 4096 / 2 then pubKeys.length * 2 else 4096)) pubKeys with
    | error e =>
      simp only [bind, Except.bind, hbuild] at hnew
      exact absurd hnew nofun
    | ok f =>
      simp only [bind, Except.bind, hbuild, Except.ok.injEq] at hnew
      subst hnew
      intro pubKey value listed hvalue hdecode
      rw [hfilter]
      exact (hcuckoo.buildFilter hbuild).2 listed
        ((mem_getKeys hkeys listed).mpr ⟨pubKey, value, hvalue, hdecode⟩)

theorem Wallet.Covered.mono {db : WalletDb} {f f' : F} (h : Wallet.Covered cuckoo db f)
    (hkeep : ∀ pubKey, cuckoo.lookup f pubKey = true → cuckoo.lookup f' pubKey = true) :
    Wallet.Covered cuckoo db f' :=
  fun pubKey value listed hvalue hdecode => hkeep listed (h pubKey value listed hvalue hdecode)

theorem Wallet.Covered.put {db : WalletDb} {f : F} (h : Wallet.Covered cuckoo db f)
    {pubKey : PublicKey} (value : List UInt8)
    (hmatch : ∀ listed, decodePrivateKeyDbKey (encodePrivateKeyDbKey pubKey) = .ok listed →
      cuckoo.lookup f listed = true) :
    Wallet.Covered cuckoo (db.insert (encodePrivateKeyDbKey pubKey) value) f := by
  intro pubKey' value' listed
  rw [get_insert_encode]
  split_ifs with heq
  · subst heq
    exact fun _ => hmatch listed
  · exact h pubKey' value' listed

theorem Wallet.Covered.putNewest {db : WalletDb} {f : F} (h : Wallet.Covered cuckoo db f)
    (pubKey : PublicKey) :
    Wallet.Covered cuckoo (db.insert [newestPublicKeyPrefix] pubKey) f := by
  intro pubKey' value' listed
  rw [Table.get_insert, if_neg (newest_ne_encode pubKey')]
  exact h pubKey' value' listed

theorem decode_encode {pubKey : PublicKey} (hlen : pubKey.length = publicKeySize) :
    decodePrivateKeyDbKey (encodePrivateKeyDbKey pubKey) = .ok pubKey := by
  show (if pubKey.length < publicKeySize then _ else _) = _
  rw [if_neg (by omega), ← hlen, List.take_length]

/-- Unless an insertion fails, the loop of `NewKeys` takes no match away. -/
theorem CuckooFilter.Lawful.generate_keeps (hcuckoo : cuckoo.Lawful) {passphrase : List UInt8}
    {f : F} {draws : List (Option KeyDraw)}
    (hroom : (Wallet.generate box cuckoo passphrase f draws).2 ≠ .error .updatingFilter)
    {pubKey : PublicKey} (h : cuckoo.lookup f pubKey = true) :
    cuckoo.lookup (Wallet.generate box cuckoo passphrase f draws).1 pubKey = true := by
  induction draws generalizing f with
  | nil => exact h
  | cons draw draws ih =>
    cases draw with
    | none => exact h
    | some draw =>
      rcases generate_cons f draw draws with ⟨e, heq⟩ | heq | ⟨hinserted, heq⟩
      · rw [heq]
        exact h
      · rw [heq] at hroom
        exact absurd rfl hroom
      · rw [heq] at hroom ⊢
        refine ih (fun herr => hroom ?_) (hcuckoo.insert_keeps f pubKey _ hinserted h)
        rw [herr]
        rfl

/-- The keys of the batch match. -/
theorem Wallet.Covered.generate (hcuckoo : cuckoo.Lawful) {passphrase : List UInt8} {f : F}
    {draws : List (Option KeyDraw)} {batch : List (List UInt8 × Option (List UInt8))}
    (hok : (Wallet.generate box cuckoo passphrase f draws).2 = .ok batch) {db : WalletDb}
    (h : Wallet.Covered cuckoo db (Wallet.generate box cuckoo passphrase f draws).1) :
    Wallet.Covered cuckoo (Table.write db batch)
      (Wallet.generate box cuckoo passphrase f draws).1 := by
  induction draws generalizing f batch db with
  | nil =>
    obtain rfl : [] = batch := Except.ok.inj hok
    exact h
  | cons draw draws ih =>
    cases draw with
    | none => exact absurd hok (by simp [Wallet.generate])
    | some draw =>
      rcases generate_cons f draw draws with ⟨e, heq⟩ | heq | ⟨hinserted, heq⟩
      · rw [heq] at hok
        exact absurd hok (by simp)
      · rw [heq] at hok
        exact absurd hok (by simp)
      · rw [heq] at hok h ⊢
        dsimp only at hok h ⊢
        cases hrest : (Wallet.generate box cuckoo passphrase
            (cuckoo.insert f draw.pubKey).1 draws).2 with
        | error e =>
          rw [hrest] at hok
          exact absurd hok (by simp [Except.map])
        | ok batch₂ =>
          rw [hrest] at hok
          obtain rfl := Except.ok.inj hok
          rw [Table.write_append, Table.write_cons]
          refine ih hrest ?_
          have hmatch : ∀ listed, decodePrivateKeyDbKey (encodePrivateKeyDbKey draw.pubKey) =
              .ok listed → cuckoo.lookup (Wallet.generate box cuckoo passphrase
                (cuckoo.insert f draw.pubKey).1 draws).1 listed = true := by
            intro listed hlisted
            rw [decode_encode draw.pubKey_length] at hlisted
            rw [← Except.ok.inj hlisted]
            refine hcuckoo.generate_keeps ?_ (hcuckoo.insert_matches f draw.pubKey hinserted)
            rw [hrest]
            simp
          have hput := h.put (encryptPrivateKey box draw.noise draw.privKey passphrase) hmatch
          split_ifs with hlast
          · exact hput.putNewest draw.pubKey
          · exact hput

/-- `NewKeys` fails at the filter if and only if its loop does. -/
theorem Wallet.generate_room {draws : List (Option KeyDraw)} {written : Bool}
    (h : (w.newKeys box cuckoo draws written).2 ≠ .error .updatingFilter) :
    (Wallet.generate box cuckoo w.passphrase w.filter draws).2 ≠ .error .updatingFilter := by
  intro herr
  refine h ?_
  unfold Wallet.newKeys
  generalize Wallet.generate box cuckoo w.passphrase w.filter draws = generated at herr
  obtain ⟨f, e | batch⟩ := generated
  · exact congrArg _ (Except.error.inj herr)
  · exact absurd herr (by simp)

/-- One call keeps the keys matched. -/
theorem Wallet.Covered.step (hcuckoo : cuckoo.Lawful) {c : KeyCall}
    (h : Wallet.Covered cuckoo w.db w.filter) (hmatched : w.Matched box cuckoo c)
    (hs : w.step box cuckoo c = some w') : Wallet.Covered cuckoo w'.db w'.filter := by
  obtain rfl : (w.call box cuckoo c).1 = w' := Option.some.inj hs
  cases c with
  | newKeys draws written =>
    show Wallet.Covered cuckoo (w.newKeys box cuckoo draws written).1.db
      (w.newKeys box cuckoo draws written).1.filter
    have hroom := Wallet.generate_room hmatched
    have hkept := h.mono fun pubKey hold => hcuckoo.generate_keeps hroom hold
    have hbatch {batch : List (List UInt8 × Option (List UInt8))}
        (hok : (Wallet.generate box cuckoo w.passphrase w.filter draws).2 = .ok batch) :=
      Wallet.Covered.generate hcuckoo hok hkept
    unfold Wallet.newKeys
    generalize Wallet.generate box cuckoo w.passphrase w.filter draws = generated at hkept hbatch
    obtain ⟨f, e | batch⟩ := generated
    · exact hkept
    · cases written with
      | false => exact hkept
      | true => exact hbatch rfl
  | addKey pubKey privKey noise written =>
    show Wallet.Covered cuckoo (w.addKey box pubKey privKey noise written).1.db
      (w.addKey box pubKey privKey noise written).1.filter
    unfold Wallet.addKey
    dsimp only
    split_ifs with hcheck hwritten
    · exact h
    · exact h.put _ hmatched
    · exact h

end Filter

/-! ### The cuckoo filter -/

namespace Cuckoo

/-- A filter as the wallet has it, with what the random source will return. -/
structure Drawing where
  n : Nat
  filter : Filter n
  draws : Nat → Draw
  pow : ∃ k, n = 2 ^ k
  counted : filter.count = filter.used

instance (f : Drawing) : NeZero f.n := by
  obtain ⟨k, hk⟩ := f.pow
  exact ⟨by rw [hk]; exact (Nat.two_pow_pos k).ne'⟩

/-- The filter of public keys. -/
def keyFilter (hash64 : List UInt8 → UInt64 → UInt64) (draws : Nat → Draw) :
    CuckooFilter Drawing where
  new capacity := ⟨_, newFilter (UInt64.ofNat capacity), draws, numBuckets_eq_two_pow _,
    (newFilter_used _).symm⟩
  insert f pubKey :=
    ({ f with
        filter := (f.filter.insert hash64 (f.draws 0) pubKey).1
        draws := fun i => f.draws (i + 1)
        counted := Filter.insert_count hash64 f.pow (f.draws 0) pubKey f.counted },
      (f.filter.insert hash64 (f.draws 0) pubKey).2)
  lookup f pubKey := f.filter.lookup hash64 pubKey

variable {hash64 : List UInt8 → UInt64 → UInt64} {draws : Nat → Draw}

theorem keyFilter_insert (f : Drawing) (pubKey : PublicKey) :
    ((keyFilter hash64 draws).insert f pubKey).2 =
      (f.filter.insert hash64 (f.draws 0) pubKey).2 := rfl

theorem keyFilter_lookup_insert (f : Drawing) (pubKey pubKey' : PublicKey) :
    (keyFilter hash64 draws).lookup ((keyFilter hash64 draws).insert f pubKey).1 pubKey' =
      (f.filter.insert hash64 (f.draws 0) pubKey).1.lookup hash64 pubKey' := rfl

/-- **The cuckoo filter is lawful**, whatever the random source returns. -/
theorem keyFilter_lawful : (keyFilter hash64 draws).Lawful where
  insert_matches f pubKey hok := by
    rw [keyFilter_insert] at hok
    rw [keyFilter_lookup_insert]
    exact Filter.insert_lookup f.pow hok (Or.inr rfl)
  insert_keeps f pubKey pubKey' hok h := by
    rw [keyFilter_insert] at hok
    rw [keyFilter_lookup_insert]
    exact Filter.insert_lookup f.pow hok (Or.inl h)

/-- A new filter has room, and matches nothing. -/
theorem keyFilter_new (hash64 : List UInt8 → UInt64 → UInt64) (draws : Nat → Draw) (capacity : Nat)
    (pubKey : PublicKey) :
    ((keyFilter hash64 draws).insert ((keyFilter hash64 draws).new capacity) pubKey).2 = true ∧
      (keyFilter hash64 draws).lookup ((keyFilter hash64 draws).new capacity) pubKey = false :=
  ⟨newFilter_insert _ _ _, newFilter_lookup _ _⟩

/-- `SetFilter` sends the filter encoded, and the peer decodes it. -/
theorem Drawing.decode_encode (f : Drawing) : decode f.filter.encode = .ok ⟨f.n, f.filter⟩ :=
  Cuckoo.decode_encode f.counted

end Cuckoo

namespace Sample

/-- The filter of a wallet just opened. -/
def keyFilter : CuckooFilter Cuckoo.Drawing :=
  Cuckoo.keyFilter Cuckoo.Sample.hash64 fun _ => Cuckoo.Sample.draw

def opened : Wallet Cuckoo.Drawing := ⟨∅, [1], keyFilter.new 4096⟩

theorem opened_opened : opened.Opened keyFilter := ⟨⟨∅, [], keyFilter.new 4096⟩, rfl, rfl⟩

def keyDraw : KeyDraw := ⟨pubKey, [5], noise, rfl⟩

/-- The key is generated. -/
theorem newKeys_opened : ∃ f, keyFilter.insert opened.filter pubKey = (f, true) ∧
    opened.newKeys box keyFilter [some keyDraw] true =
      (⟨(∅ : WalletDb).write [(encodePrivateKeyDbKey pubKey,
        some (encryptPrivateKey box noise [5] [1])), ([newestPublicKeyPrefix], some pubKey)],
        [1], f⟩, .ok ()) := by
  have hok : (keyFilter.insert opened.filter pubKey).2 = true :=
    (Cuckoo.keyFilter_new _ _ 4096 pubKey).1
  generalize hinsert : keyFilter.insert opened.filter pubKey = r at hok
  obtain ⟨f, ok⟩ := r
  obtain rfl : ok = true := hok
  refine ⟨f, rfl, ?_⟩
  rw [Wallet.newKeys, generate_single box_exact keyDraw hinsert]
  rfl

end Sample

section Filter

variable {F K : Type} {box : Secretbox K} {cuckoo : CuckooFilter F} {w : Wallet F}

/-- **The wallet's filter covers its keys** in every run in which the filter has
room for new keys and only keys that it already matches are imported: every key
that `GetKeys` returns matches the filter that is sent to the peer. -/
theorem filter_covers_keys (hcuckoo : cuckoo.Lawful)
    (h : Reach (Wallet.Opened cuckoo) (Wallet.step box cuckoo) (Wallet.Matched box cuckoo) w)
    {pubKeys : List PublicKey} (hkeys : Wallet.getKeys w.db = .ok pubKeys) :
    ∀ pubKey ∈ pubKeys, cuckoo.lookup w.filter pubKey = true := by
  have hcovered : Wallet.Covered cuckoo w.db w.filter :=
    h.invariant (I := fun w => Wallet.Covered cuckoo w.db w.filter)
      (fun _ hopened => hopened.covered hcuckoo)
      fun _ _ _ hcovered hmatched hs => hcovered.step hcuckoo hmatched hs
  intro listed hlisted
  obtain ⟨pubKey, value, hvalue, hdecode⟩ := (mem_getKeys hkeys listed).mp hlisted
  exact hcovered pubKey value listed hvalue hdecode

end Filter

/-- A key is generated, and imported once more: the filter that the peer decodes
matches it. -/
theorem filter_covers_keys_generated :
    ∃ w, Reach (Wallet.Opened Sample.keyFilter) (Wallet.step Sample.box Sample.keyFilter)
        (Wallet.Matched Sample.box Sample.keyFilter) w ∧
      Wallet.getKeys w.db = .ok [Sample.pubKey] ∧
      ∃ f, Cuckoo.decode w.filter.filter.encode = .ok ⟨w.filter.n, f⟩ ∧
        f.lookup Cuckoo.Sample.hash64 Sample.pubKey = true := by
  obtain ⟨f, hinsert, hnew⟩ := Sample.newKeys_opened
  have hroom : Sample.opened.Matched Sample.box Sample.keyFilter
      (.newKeys [some Sample.keyDraw] true) := by
    show (Sample.opened.newKeys Sample.box Sample.keyFilter [some Sample.keyDraw] true).2 ≠ _
    rw [hnew]
    simp
  have hopened : Reach (Wallet.Opened Sample.keyFilter)
      (Wallet.step Sample.box Sample.keyFilter) (Wallet.Matched Sample.box Sample.keyFilter)
      Sample.opened := .init Sample.opened_opened
  have hstep : Sample.opened.step Sample.box Sample.keyFilter
      (.newKeys [some Sample.keyDraw] true) =
      some (Sample.opened.newKeys Sample.box Sample.keyFilter [some Sample.keyDraw] true).1 := rfl
  rw [hnew] at hstep
  have hgenerated := hopened.next hroom hstep
  have hmatch : Sample.keyFilter.lookup f Sample.pubKey = true := by
    have := Cuckoo.keyFilter_lawful.insert_matches Sample.opened.filter Sample.pubKey
      (congrArg Prod.snd hinsert)
    rwa [show Cuckoo.keyFilter _ _ = Sample.keyFilter from rfl, hinsert] at this
  have himported := hgenerated.next (l := .addKey Sample.pubKey [5] Sample.noise true)
    (fun listed hlisted => by
      rw [decode_encode rfl] at hlisted
      rw [← Except.ok.inj hlisted]
      exact hmatch) rfl
  exact ⟨_, himported, rfl, _, f.decode_encode,
    filter_covers_keys Cuckoo.keyFilter_lawful himported rfl _ List.mem_cons_self⟩

/-- An imported key is listed, but does not match the filter. -/
theorem imported_key_filtered :
    ∃ w, Transition.Run (Wallet.Opened Sample.keyFilter)
        (Wallet.step Sample.box Sample.keyFilter) w ∧
      Wallet.getKeys w.db = .ok [Sample.pubKey] ∧
      Sample.keyFilter.lookup w.filter Sample.pubKey = false := by
  have hopened : Transition.Run (Wallet.Opened Sample.keyFilter)
      (Wallet.step Sample.box Sample.keyFilter) Sample.opened := .init Sample.opened_opened
  have hsteps : steps (Wallet.step Sample.box Sample.keyFilter) Sample.opened
      [.addKey Sample.pubKey [5] Sample.noise true] = some _ := rfl
  exact ⟨_, hopened.steps hsteps, rfl, (Cuckoo.keyFilter_new _ _ 4096 Sample.pubKey).2⟩

end Cruzbit

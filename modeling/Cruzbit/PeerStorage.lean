/-
Cruzbit/PeerStorage.lean

The peer store of `peer_storage_disk.go` and its two indices by time.

An address is stored under `p{addr}` with the times of the last attempt and
the last success, and listed under `a{time}{addr}` and `s{time}{addr}`.  The
operations read the address's info, and then write one batch.  They hold no
lock in between, so what they read may be outdated when they write.

As long as each operation that writes finds what it has read, the indices
list exactly the times that are recorded (`peerStorage_consistent`), and `Get`
never comes to an address without info.  Otherwise they do not: when a new
address is stored twice at the same time, one entry of the index by attempts
stays for ever, and makes `Get` panic once the address is deleted
(`peerStorage_stores_twice`).
-/
import Cruzbit.Basic
import Cruzbit.ByteOrder

namespace Cruzbit

open Word ByteOrder

/-- The bytes of an address. -/
abbrev Address := List UInt8

/-- A reading of the clock: seconds since 1970 and nanoseconds. -/
structure Clock where
  unix : Int
  nanosecond : Int

structure PeerInfo where
  firstSeen : Int
  lastAttempt : Int
  lastSuccess : Int
  deriving DecidableEq, Repr

namespace PeerInfo

/-- The least number whose square is not less. -/
def ceilSqrt (n : Nat) : Nat := if n.sqrt * n.sqrt = n then n.sqrt else n.sqrt + 1

/-- Should we retry this connection?  The square root is exact, as it is for
floating point numbers of this size. -/
def shouldRetry (info : PeerInfo) (now : Clock) : Bool :=
  if info.lastAttempt < 2 ^ 30 then
    -- never been tried
    true
  else
    -- never successfully connected, go by first seen
    let lastSeen := if info.lastSuccess = 0 then info.firstSeen else info.lastSuccess
    let hoursSinceLastSeen := (int64 (now.unix - lastSeen)).tdiv (60 * 60)
    let minutesSinceLastAttempt := (int64 (now.unix - info.lastAttempt)).tdiv 60
    let hoursSinceLastAttempt := minutesSinceLastAttempt.tdiv 60
    if hoursSinceLastSeen ≤ 0 then minutesSinceLastAttempt > 10
    else hoursSinceLastAttempt > (ceilSqrt hoursSinceLastSeen.toNat : Int)

/-- Should we delete this peer? -/
def shouldDelete (info : PeerInfo) (now : Clock) : Bool :=
  if info.lastSuccess = 0 then
    -- if we fail connecting on the first try delete it
    true
  else
    -- has it been over a week since we connected to it?
    let week := 24 * 7 * 60 * 60
    now.unix - info.lastSuccess > week ∨ now.unix - info.lastSuccess = week ∧ now.nanosecond > 0

end PeerInfo

/-! ### The database -/

def computePeerKey (addr : Address) : List UInt8 := 112 :: addr

/-- A key of an index by time. -/
def computeTimeKey (kind : UInt8) (when : Int) (addr : Address) : List UInt8 :=
  kind :: bigEndian 8 (unsigned 8 when) ++ addr

def computeLastAttemptTimeKey : Int → Address → List UInt8 := computeTimeKey 97

def computeLastSuccessTimeKey : Int → Address → List UInt8 := computeTimeKey 115

/-- Skip the first byte and read the time; the rest is the address. -/
def decodeLastAttemptTimeKey (key : List UInt8) : Res (Int × Address) :=
  if key.length < 1 + 8 then .error .unexpectedEOF
  else .ok (int64 (ofBigEndian ((key.drop 1).take 8)), key.drop (1 + 8))

/-- The peer database, a table for each kind of key. -/
structure PeerDb where
  peers : Table Address PeerInfo
  attempts : Table (List UInt8) Unit
  successes : Table (List UInt8) Unit

/-- A batch of writes. -/
structure PeerBatch where
  peers : List (Address × Option PeerInfo)
  attempts : List (List UInt8 × Option Unit)
  successes : List (List UInt8 × Option Unit)
  deriving DecidableEq, Repr

namespace PeerDb

def empty : PeerDb := ⟨∅, ∅, ∅⟩

def write (db : PeerDb) (batch : PeerBatch) : PeerDb :=
  ⟨db.peers.write batch.peers, db.attempts.write batch.attempts,
    db.successes.write batch.successes⟩

/-- The keys of all tables. -/
def keys (db : PeerDb) : List (List UInt8) :=
  db.peers.keys.map computePeerKey ++ db.attempts.keys ++ db.successes.keys

/-- An iterator over the keys from `start` up to but not including `limit`. -/
def newIterator (db : PeerDb) (start limit : List UInt8) : List (List UInt8) :=
  (db.keys.filter fun key => start ≤ key ∧ key < limit).insertionSort (· ≤ ·)

def getPeerInfo (db : PeerDb) (addr : Address) : Option PeerInfo := db.peers[addr]?

/-- The loop of `Get`.  It stops when it has as many addresses as asked for. -/
def getLoop (db : PeerDb) (connectedPeers : Table Address Unit) (now : Clock) (count : Int) :
    List (List UInt8) → List Address → Res (List Address)
  | [], addrs => .ok addrs
  | key :: keys, addrs => do
    let (_, addr) ← decodeLastAttemptTimeKey key
    if connectedPeers.contains addr then getLoop db connectedPeers now count keys addrs
    else
      match db.getPeerInfo addr with
      | none => .error (.panic .nilPeerInfo)
      | some info =>
        if !info.shouldRetry now then getLoop db connectedPeers now count keys addrs
        else if ((addrs ++ [addr]).length : Int) = count then .ok (addrs ++ [addr])
        else getLoop db connectedPeers now count keys (addrs ++ [addr])

/-- Get returns some peers for us to attempt to connect to. -/
def get (db : PeerDb) (connectedPeers : Table Address Unit) (now : Clock) (count : Int) :
    Res (List Address) :=
  db.getLoop connectedPeers now count
    (db.newIterator (computeLastAttemptTimeKey 0 []) (computeLastAttemptTimeKey now.unix [])) []

end PeerDb

/-! ### The operations -/

/-- The operations that write. -/
inductive PeerOp
  | store (addr : Address)
  | delete (addr : Address)
  | onConnectAttempt (addr : Address)
  | onConnectFailure (addr : Address)
  | onConnectSuccess (addr : Address)
  deriving DecidableEq, Repr

namespace PeerOp

/-- The address whose info is read. -/
def addr : PeerOp → Address
  | store addr | delete addr | onConnectAttempt addr | onConnectFailure addr
  | onConnectSuccess addr => addr

def deletePeer (addr : Address) (lastAttempt lastSuccess : Int) : PeerBatch :=
  ⟨[(addr, none)], [(computeLastAttemptTimeKey lastAttempt addr, none)],
    [(computeLastSuccessTimeKey lastSuccess addr, none)]⟩

/-- The batch that an operation writes, given the info it has read.  `random` is
the random number of `Store`. -/
def batch (op : PeerOp) (info : Option PeerInfo) (now : Clock) (random : Int) : Res PeerBatch :=
  match op, info with
  | store _, some _ => .ok ⟨[], [], []⟩  -- we've seen it
  | store addr, none =>
    .ok ⟨[(addr, some ⟨now.unix, random, 0⟩)], [(computeLastAttemptTimeKey random addr, some ())],
      []⟩
  | delete addr, some info => .ok (deletePeer addr info.lastAttempt info.lastSuccess)
  | onConnectAttempt addr, some info =>
    .ok ⟨[(addr, some { info with lastAttempt := now.unix })],
      [(computeLastAttemptTimeKey info.lastAttempt addr, none),
        (computeLastAttemptTimeKey now.unix addr, some ())], []⟩
  | onConnectFailure addr, some info =>
    if info.shouldDelete now then .ok (deletePeer addr info.lastAttempt info.lastSuccess)
    else .ok ⟨[], [], []⟩
  | onConnectSuccess addr, some info =>
    .ok ⟨[(addr, some { info with lastSuccess := now.unix })], [],
      [(computeLastSuccessTimeKey info.lastSuccess addr, none),
        (computeLastSuccessTimeKey now.unix addr, some ())]⟩
  | delete addr, none | onConnectAttempt addr, none | onConnectFailure addr, none
  | onConnectSuccess addr, none => .error (.peerInfoNotFound addr)

/-- Writing the batch, if there is one. -/
def finish (op : PeerOp) (info : Option PeerInfo) (now : Clock) (random : Int) (db : PeerDb) :
    PeerDb :=
  match op.batch info now random with
  | .ok batch => db.write batch
  | .error _ => db

end PeerOp

/-! ### The indices -/

section Keys

variable {kind : UInt8} {when when' : Int} {addr addr' : Address}

theorem computeTimeKey_inj (h : computeTimeKey kind when addr = computeTimeKey kind when' addr') :
    unsigned 8 when = unsigned 8 when' ∧ addr = addr' := by
  obtain ⟨hkey, haddr⟩ := List.append_inj h (by simp)
  have hwhen := (List.cons.inj hkey).2
  exact ⟨(bigEndian_injOn (unsigned_lt 8 _) (unsigned_lt 8 _)).mp hwhen, haddr⟩

theorem computeTimeKey_eq_iff (hw : Fits64 when) (hw' : Fits64 when') :
    computeTimeKey kind when addr = computeTimeKey kind when' addr' ↔
      when = when' ∧ addr = addr' := by
  constructor
  · intro h
    obtain ⟨hwhen, haddr⟩ := computeTimeKey_inj h
    unfold unsigned at hwhen
    unfold Fits64 at hw hw'
    norm_num at hwhen
    exact ⟨by omega, haddr⟩
  · rintro ⟨rfl, rfl⟩
    rfl

end Keys

/-- Where an address is listed by its last attempt. -/
def attemptPlace (addr : Address) (info : PeerInfo) : Option (List UInt8) :=
  some (computeLastAttemptTimeKey info.lastAttempt addr)

/-- Where it is listed by its last success, if there was one. -/
def successPlace (addr : Address) (info : PeerInfo) : Option (List UInt8) :=
  if info.lastSuccess = 0 then none
  else some (computeLastSuccessTimeKey info.lastSuccess addr)

theorem attemptPlace_inj {addr addr' : Address} {info info' : PeerInfo} {key : List UInt8}
    (h : attemptPlace addr info = some key) (h' : attemptPlace addr' info' = some key) :
    addr = addr' :=
  (computeTimeKey_inj (Option.some.inj (h.trans h'.symm))).2

theorem successPlace_eq {addr : Address} {info : PeerInfo} {key : List UInt8}
    (h : successPlace addr info = some key) :
    info.lastSuccess ≠ 0 ∧ computeLastSuccessTimeKey info.lastSuccess addr = key := by
  unfold successPlace at h
  split_ifs at h with hzero
  exact ⟨hzero, Option.some.inj h⟩

theorem successPlace_inj {addr addr' : Address} {info info' : PeerInfo} {key : List UInt8}
    (h : successPlace addr info = some key) (h' : successPlace addr' info' = some key) :
    addr = addr' :=
  (computeTimeKey_inj ((successPlace_eq h).2.trans (successPlace_eq h').2.symm)).2

namespace PeerDb

/-- The indices list the times that are recorded. -/
structure Indexed (db : PeerDb) : Prop where
  attempts : Table.Indexes attemptPlace db.peers db.attempts
  successes : Table.Indexes successPlace db.peers db.successes
  times : ∀ (addr : Address) (info : PeerInfo), db.peers[addr]? = some info →
    Fits64 info.lastAttempt ∧ Fits64 info.lastSuccess

section Indexed

variable {db : PeerDb} {addr : Address} {info : PeerInfo} {new : Option PeerInfo}
  {attempts successes : List (List UInt8 × Option Unit)}

theorem indexed_empty : Indexed empty :=
  ⟨Table.indexes_empty, Table.indexes_empty, fun addr info h => by simp [empty] at h⟩

/-- **One address changes** together with its places in the indices. -/
theorem Indexed.change (h : db.Indexed)
    (hnew : ∀ info ∈ new, Fits64 info.lastAttempt ∧ Fits64 info.lastSuccess)
    (hattempts : ∀ key, (db.attempts.write attempts).contains key = true ↔
      new.bind (attemptPlace addr) = some key ∨
        db.attempts.contains key = true ∧ (db.peers[addr]?).bind (attemptPlace addr) ≠ some key)
    (hsuccesses : ∀ key, (db.successes.write successes).contains key = true ↔
      new.bind (successPlace addr) = some key ∨
        db.successes.contains key = true ∧
          (db.peers[addr]?).bind (successPlace addr) ≠ some key) :
    (db.write ⟨[(addr, new)], attempts, successes⟩).Indexed := by
  refine ⟨h.attempts.set attemptPlace_inj hattempts, h.successes.set successPlace_inj hsuccesses,
    fun addr' info' hget => ?_⟩
  have hget : (db.peers.set addr new)[addr']? = some info' := hget
  rw [Table.get_set] at hget
  split_ifs at hget
  · exact hnew info' hget
  · exact h.times addr' info' hget

/-- Nothing is listed as successful at time zero. -/
theorem Indexed.not_contains_zero (h : db.Indexed) (addr : Address) :
    db.successes.contains (computeLastSuccessTimeKey 0 addr) ≠ true := by
  intro hzero
  obtain ⟨addr', info, hget, hplace⟩ := (h.successes _).mp hzero
  obtain ⟨hne, hkey⟩ := successPlace_eq hplace
  exact hne ((computeTimeKey_eq_iff (h.times addr' info hget).2 (by decide)).mp hkey).1

/-- Deleting the old place by success takes away what was listed. -/
theorem Indexed.successPlace_ne (h : db.Indexed) {key : List UInt8}
    (hkey : db.successes.contains key = true) (info : PeerInfo) (addr : Address) :
    successPlace addr info ≠ some key ↔
      computeLastSuccessTimeKey info.lastSuccess addr ≠ key := by
  rw [successPlace]
  split_ifs with hzero
  · rw [hzero]
    refine iff_of_true (by simp) ?_
    rintro rfl
    exact h.not_contains_zero addr hkey
  · simp

theorem Indexed.deletePeer (h : db.Indexed) (hget : db.peers[addr]? = some info) :
    (db.write (PeerOp.deletePeer addr info.lastAttempt info.lastSuccess)).Indexed := by
  refine h.change (by simp) (fun key => ?_) (fun key => ?_)
  · rw [Table.write_cons, Table.write_nil, Table.contains_set, hget]
    by_cases hkey : computeLastAttemptTimeKey info.lastAttempt addr = key
    · simp [hkey, attemptPlace]
    · simp [hkey, attemptPlace]
  · rw [Table.write_cons, Table.write_nil, Table.contains_set, hget]
    by_cases hkey : db.successes.contains key = true
    · simp [h.successPlace_ne hkey, hkey]
    · simp [hkey]

theorem Indexed.attempt (h : db.Indexed) {now : Int} (hnow : Fits64 now)
    (hget : db.peers[addr]? = some info) :
    (db.write ⟨[(addr, some { info with lastAttempt := now })],
      [(computeLastAttemptTimeKey info.lastAttempt addr, none),
        (computeLastAttemptTimeKey now addr, some ())], []⟩).Indexed := by
  refine h.change (by simpa using ⟨hnow, (h.times addr info hget).2⟩) (fun key => ?_)
    (fun key => ?_)
  · rw [Table.write_cons, Table.write_cons, Table.write_nil, Table.contains_set,
      Table.contains_set, hget]
    by_cases hkey : computeLastAttemptTimeKey now addr = key
    · simp [hkey, attemptPlace]
    · by_cases hold : computeLastAttemptTimeKey info.lastAttempt addr = key
      · simp [hkey, hold, attemptPlace]
      · simp [hkey, hold, attemptPlace]
  · -- the place by success stays
    rw [Table.write_nil, hget]
    exact h.successes.contains_iff_or hget key

theorem Indexed.success (h : db.Indexed) {now : Int} (hnow : Fits64 now) (hne : now ≠ 0)
    (hget : db.peers[addr]? = some info) :
    (db.write ⟨[(addr, some { info with lastSuccess := now })], [],
      [(computeLastSuccessTimeKey info.lastSuccess addr, none),
        (computeLastSuccessTimeKey now addr, some ())]⟩).Indexed := by
  refine h.change (by simpa using ⟨(h.times addr info hget).1, hnow⟩) (fun key => ?_)
    (fun key => ?_)
  · rw [Table.write_nil, hget]
    exact h.attempts.contains_iff_or hget key
  · have hplace : successPlace addr { info with lastSuccess := now } =
        some (computeLastSuccessTimeKey now addr) := if_neg hne
    rw [Table.write_cons, Table.write_cons, Table.write_nil, Table.contains_set,
      Table.contains_set, hget, Option.bind_some, hplace]
    by_cases hkey : computeLastSuccessTimeKey now addr = key
    · simp [hkey]
    · by_cases hold : db.successes.contains key = true
      · simp [hkey, hold, h.successPlace_ne hold]
      · simp [hkey, hold]

theorem Indexed.store (h : db.Indexed) {now random : Int} (hrandom : Fits64 random)
    (hget : db.peers[addr]? = none) :
    (db.write ⟨[(addr, some ⟨now, random, 0⟩)],
      [(computeLastAttemptTimeKey random addr, some ())], []⟩).Indexed := by
  refine h.change (by simpa using ⟨hrandom, (by decide : Fits64 0)⟩) (fun key => ?_)
    (fun key => ?_)
  · rw [Table.write_cons, Table.write_nil, Table.contains_set, hget]
    by_cases hkey : computeLastAttemptTimeKey random addr = key
    · simp [hkey, attemptPlace]
    · simp [hkey, attemptPlace]
  · rw [Table.write_nil, hget]
    simp [successPlace]

/-- **An operation that finds what it has read keeps the indices.** -/
theorem Indexed.finish (h : db.Indexed) {op : PeerOp} {now : Clock} {random : Int}
    (hnow : 0 < now.unix ∧ now.unix < 2 ^ 63) (hrandom : 0 ≤ random ∧ random < 2 ^ 30) :
    (op.finish (db.peers[op.addr]?) now random db).Indexed := by
  have hnow' : Fits64 now.unix := ⟨by omega, hnow.2⟩
  generalize hget : db.peers[op.addr]? = info
  cases op with
  | store addr =>
    cases info with
    | none => exact h.store ⟨by omega, by omega⟩ hget
    | some info => exact h
  | delete addr =>
    cases info with
    | none => exact h
    | some info => exact h.deletePeer hget
  | onConnectAttempt addr =>
    cases info with
    | none => exact h
    | some info => exact h.attempt hnow' hget
  | onConnectFailure addr =>
    cases info with
    | none => exact h
    | some info =>
      cases hdelete : info.shouldDelete now with
      | true =>
        simp only [PeerOp.finish, PeerOp.batch, hdelete, if_true]
        exact h.deletePeer hget
      | false =>
        simp only [PeerOp.finish, PeerOp.batch, hdelete, Bool.false_eq_true, if_false]
        exact h
  | onConnectSuccess addr =>
    cases info with
    | none => exact h
    | some info => exact h.success hnow' hnow.1.ne' hget

/-! ### Reading the index -/

theorem decode_computeLastAttemptTimeKey (when : Int) (addr : Address) :
    ∃ time, decodeLastAttemptTimeKey (computeLastAttemptTimeKey when addr) = .ok (time, addr) := by
  have hlen : (97 :: bigEndian 8 (unsigned 8 when)).length = 1 + 8 := by
    rw [List.length_cons, bigEndian_length]
  have hlong : ¬ (computeLastAttemptTimeKey when addr).length < 1 + 8 := by
    rw [computeLastAttemptTimeKey, computeTimeKey, List.length_append, hlen]
    omega
  rw [decodeLastAttemptTimeKey, if_neg hlong, computeLastAttemptTimeKey, computeTimeKey,
    List.drop_left' hlen]
  exact ⟨_, rfl⟩

/-- The iterator of `Get` meets the entries by attempt only. -/
theorem mem_iterator {now : Int} {key : List UInt8}
    (h : key ∈ db.newIterator (computeLastAttemptTimeKey 0 []) (computeLastAttemptTimeKey now []))
    (hix : db.Indexed) : db.attempts.contains key = true := by
  rw [newIterator, List.mem_insertionSort, List.mem_filter, decide_eq_true_eq] at h
  obtain ⟨hmem, hlo, hhi⟩ := h
  -- the other keys begin with another letter
  have hother {kind : UInt8} {w : List UInt8} (hkind : kind ≠ 97) : key ≠ kind :: w := by
    rintro rfl
    obtain ⟨w', hw'⟩ := exists_append_of_between (u := [97]) (by simp) hlo hhi
    exact hkind (List.cons.inj hw').1
  rw [keys, List.mem_append, List.mem_append] at hmem
  rcases hmem with (hmem | hmem) | hmem
  · obtain ⟨addr, -, haddr⟩ := List.mem_map.mp hmem
    exact absurd haddr.symm (hother (by decide))
  · exact Std.ExtTreeMap.contains_iff_mem.mpr (Std.ExtTreeMap.mem_keys.mp hmem)
  · have hkey := Std.ExtTreeMap.contains_iff_mem.mpr (Std.ExtTreeMap.mem_keys.mp hmem)
    obtain ⟨addr, info, -, hplace⟩ := (hix.successes key).mp hkey
    exact absurd (successPlace_eq hplace).2.symm (hother (by decide))

theorem Indexed.getLoop_ok (h : db.Indexed) {connectedPeers : Table Address Unit} {now : Clock}
    {count : Int} {keys : List (List UInt8)}
    (hkeys : ∀ key ∈ keys, db.attempts.contains key = true) (addrs : List Address) :
    ∃ addrs', db.getLoop connectedPeers now count keys addrs = .ok addrs' := by
  induction keys generalizing addrs with
  | nil => exact ⟨addrs, rfl⟩
  | cons key keys ih =>
    have ih := ih fun key hkey => hkeys key (List.mem_cons_of_mem _ hkey)
    obtain ⟨addr, info, hget, hplace⟩ := (h.attempts key).mp (hkeys key List.mem_cons_self)
    obtain rfl := Option.some.inj hplace
    obtain ⟨time, hdecode⟩ := decode_computeLastAttemptTimeKey info.lastAttempt addr
    simp only [getLoop, hdecode, bind, Except.bind, getPeerInfo, hget]
    split_ifs
    · exact ih addrs
    · exact ih addrs
    · exact ⟨_, rfl⟩
    · exact ih _

/-- `Get` returns addresses. -/
theorem Indexed.get_ok (h : db.Indexed) (connectedPeers : Table Address Unit) (now : Clock)
    (count : Int) : ∃ addrs, db.get connectedPeers now count = .ok addrs :=
  h.getLoop_ok (fun _ hkey => mem_iterator hkey h) []

end Indexed

/-- Every stored address has exactly one entry by attempt, at its last attempt,
and one by success, at its last success, if there was one.  No other address
has an entry. -/
structure Consistent (db : PeerDb) : Prop where
  attempt : ∀ (addr : Address) (info : PeerInfo), db.getPeerInfo addr = some info →
    ∀ when, Fits64 when → (db.attempts.contains (computeLastAttemptTimeKey when addr) = true ↔
      when = info.lastAttempt)
  success : ∀ (addr : Address) (info : PeerInfo), db.getPeerInfo addr = some info →
    ∀ when, Fits64 when → (db.successes.contains (computeLastSuccessTimeKey when addr) = true ↔
      info.lastSuccess ≠ 0 ∧ when = info.lastSuccess)
  unknown : ∀ addr : Address, db.getPeerInfo addr = none →
    ∀ when, ¬ db.attempts.contains (computeLastAttemptTimeKey when addr) = true ∧
      ¬ db.successes.contains (computeLastSuccessTimeKey when addr) = true

theorem Indexed.consistent {db : PeerDb} (h : db.Indexed) : db.Consistent := by
  refine ⟨fun addr info hget when hwhen => ⟨fun hkey => ?_, ?_⟩,
    fun addr info hget when hwhen => ⟨fun hkey => ?_, ?_⟩, fun addr hnone when => ⟨?_, ?_⟩⟩
  · obtain ⟨addr', info', hget', hplace⟩ := (h.attempts _).mp hkey
    obtain ⟨rfl, rfl⟩ := (computeTimeKey_eq_iff (h.times addr' info' hget').1 hwhen).mp
      (Option.some.inj hplace)
    rw [Option.some.inj (hget.symm.trans hget')]
  · rintro rfl
    exact (h.attempts _).mpr ⟨addr, info, hget, rfl⟩
  · obtain ⟨addr', info', hget', hplace⟩ := (h.successes _).mp hkey
    obtain ⟨hne, hkey'⟩ := successPlace_eq hplace
    obtain ⟨rfl, rfl⟩ := (computeTimeKey_eq_iff (h.times addr' info' hget').2 hwhen).mp hkey'
    rw [Option.some.inj (hget.symm.trans hget')]
    exact ⟨hne, rfl⟩
  · rintro ⟨hne, rfl⟩
    exact (h.successes _).mpr ⟨addr, info, hget, if_neg hne⟩
  · intro hkey
    obtain ⟨addr', info, hget, hplace⟩ := (h.attempts _).mp hkey
    obtain ⟨-, rfl⟩ := computeTimeKey_inj (Option.some.inj hplace)
    exact Option.some_ne_none _ (hget.symm.trans hnone)
  · intro hkey
    obtain ⟨addr', info, hget, hplace⟩ := (h.successes _).mp hkey
    obtain ⟨-, rfl⟩ := computeTimeKey_inj (successPlace_eq hplace).2
    exact Option.some_ne_none _ (hget.symm.trans hnone)

end PeerDb

/-! ### Interleavings -/

/-- Who calls the peer store: the peer manager's loop, handlers of inbound
connections, and the peers' own goroutines. -/
inductive Issuer
  | manager
  | inbound (n : Nat)
  | peer (n : Nat)
  deriving DecidableEq, Repr

/-- The operations they issue. -/
def Issuer.Issues : Issuer → PeerOp → Prop
  | manager, _ => True
  | inbound _, op => ∃ addr, op = .store addr
  | peer _, op => ∃ addr, op = .onConnectSuccess addr

/-- The peer store, and for every issuer the operation it is in the middle of
with the info it has read. -/
structure PeerSystem where
  db : PeerDb
  connectedPeers : Table Address Unit
  pending : Issuer → Option (PeerOp × Option PeerInfo)

def PeerSystem.empty : PeerSystem := ⟨.empty, ∅, fun _ => none⟩

inductive PeerStep
  | read (who : Issuer) (op : PeerOp)
  | write (who : Issuer) (now : Clock) (random : Int)
  | onDisconnect (addr : Address)
  | restart

namespace PeerStep

/-- The step can be taken: one operation at a time, and a clock after 1970. -/
def Enabled (s : PeerSystem) : PeerStep → Prop
  | read who op => s.pending who = none ∧ who.Issues op
  | write who now random => s.pending who ≠ none ∧ (0 < now.unix ∧ now.unix < 2 ^ 63) ∧
      0 ≤ random ∧ random < 2 ^ 30
  | onDisconnect _ => True
  | restart => True

def apply (s : PeerSystem) : PeerStep → PeerSystem
  | read who op =>
    { s with pending := Function.update s.pending who (some (op, s.db.getPeerInfo op.addr)) }
  | write who now random =>
    match s.pending who with
    | none => s
    | some (op, info) =>
      { db := op.finish info now random s.db
        connectedPeers :=
          match op, info with
          | .onConnectSuccess addr, some _ => s.connectedPeers.insert addr ()
          | _, _ => s.connectedPeers
        pending := Function.update s.pending who none }
  | onDisconnect addr => { s with connectedPeers := s.connectedPeers.erase addr }
  | restart => { s with connectedPeers := ∅, pending := fun _ => none }

theorem apply_write_db {s : PeerSystem} {who : Issuer} {op : PeerOp} {info : Option PeerInfo}
    (h : s.pending who = some (op, info)) (now : Clock) (random : Int) :
    ((write who now random).apply s).db = op.finish info now random s.db := by
  simp only [apply, h]

/-- An operation that is about to write finds what it has read. -/
def Undisturbed (s : PeerSystem) : PeerStep → Prop
  | write who now random => ∀ op info batch, s.pending who = some (op, info) →
      op.batch info now random = .ok batch → batch ≠ ⟨[], [], []⟩ →
      s.db.getPeerInfo op.addr = info
  | _ => True

end PeerStep

/-- The states reached by steps that meet a condition. -/
inductive PeerRun (condition : PeerSystem → PeerStep → Prop) : PeerSystem → Prop
  | empty : PeerRun condition .empty
  | step {s : PeerSystem} (step : PeerStep) : PeerRun condition s → step.Enabled s →
      condition s step → PeerRun condition (step.apply s)

section Run

variable {s : PeerSystem} {step : PeerStep}

/-- **One step** keeps the indices. -/
theorem PeerStep.indexed_apply (h : s.db.Indexed) (hstep : step.Enabled s)
    (hread : step.Undisturbed s) : (step.apply s).db.Indexed := by
  cases step with
  | write who now random =>
    obtain ⟨⟨op, info⟩, hpending⟩ := Option.ne_none_iff_exists'.mp hstep.1
    rw [PeerStep.apply_write_db hpending]
    by_cases hwrites : ∃ batch, op.batch info now random = .ok batch ∧ batch ≠ ⟨[], [], []⟩
    · obtain ⟨batch, hbatch, hne⟩ := hwrites
      obtain rfl := hread op info batch hpending hbatch hne
      exact h.finish hstep.2.1 hstep.2.2
    · -- nothing is written
      unfold PeerOp.finish
      cases hbatch : op.batch info now random with
      | error e => exact h
      | ok batch =>
        obtain rfl := not_not.mp (not_and.mp (not_exists.mp hwrites batch) hbatch)
        exact h
  | read who op => exact h
  | onDisconnect addr => exact h
  | restart => exact h

theorem PeerRun.indexed (h : PeerRun (fun s step => step.Undisturbed s) s) : s.db.Indexed := by
  induction h with
  | empty => exact PeerDb.indexed_empty
  | step step _ henabled hread ih => exact PeerStep.indexed_apply ih henabled hread

/-- **The peer store stays consistent** in every run in which each operation that
writes finds what it has read, and `Get` does not come to an address without
info. -/
theorem peerStorage_consistent (h : PeerRun (fun s step => step.Undisturbed s) s) :
    s.db.Consistent ∧ ∀ now count, ∃ addrs, s.db.get s.connectedPeers now count = .ok addrs :=
  ⟨h.indexed.consistent, fun now count => h.indexed.get_ok s.connectedPeers now count⟩

end Run

/-- Two addresses stored at the same time, and an attempt to connect to one. -/
theorem peerStorage_stores_two : ∃ s : PeerSystem,
    s.db.getPeerInfo [1] = some ⟨1600000000, 1600000001, 0⟩ ∧
      s.db.getPeerInfo [2] = some ⟨1600000000, 7, 0⟩ ∧ s.db.Consistent := by
  have clock : (0 : Int) < 1600000000 ∧ (1600000000 : Int) < 2 ^ 63 := by decide
  have h₁ : PeerRun (fun s step => step.Undisturbed s) _ :=
    .step (.read .manager (.store [1])) .empty ⟨rfl, trivial⟩ trivial
  have h₂ := h₁.step (.read (.inbound 0) (.store [2])) ⟨rfl, [2], rfl⟩ trivial
  have h₃ := h₂.step (.write .manager ⟨1600000000, 0⟩ 5)
    ⟨Option.some_ne_none _, clock, by decide⟩ fun op info batch hop _ _ => by
      cases hop
      rfl
  have h₄ := h₃.step (.write (.inbound 0) ⟨1600000000, 0⟩ 7)
    ⟨Option.some_ne_none _, clock, by decide⟩ fun op info batch hop _ _ => by
      cases hop
      rfl
  have h₅ := h₄.step (.read .manager (.onConnectAttempt [1])) ⟨rfl, trivial⟩ trivial
  have h₆ := h₅.step (.write .manager ⟨1600000001, 0⟩ 0)
    ⟨Option.some_ne_none _, by decide, by decide⟩ fun op info batch hop _ _ => by
      cases hop
      rfl
  exact ⟨_, rfl, rfl, (peerStorage_consistent h₆).1⟩

/-- The manager and a handler store the same new address at the same time.  Both
find that it is new, so it is listed twice.  When the first attempt to connect
to it fails it is deleted, but only from one of its places, and the next `Get`
panics. -/
theorem peerStorage_stores_twice : ∃ s : PeerSystem, PeerRun (fun _ _ => True) s ∧
    (∀ who, s.pending who = none) ∧ ¬ s.db.Consistent ∧
    s.db.get s.connectedPeers ⟨1600000600, 0⟩ 1 = .error (.panic .nilPeerInfo) := by
  have clock : (0 : Int) < 1600000000 ∧ (1600000000 : Int) < 2 ^ 63 := by decide
  have h₁ : PeerRun (fun _ _ => True) _ :=
    .step (.read (.inbound 0) (.store [1])) .empty ⟨rfl, [1], rfl⟩ trivial
  have h₂ := h₁.step (.read .manager (.store [1])) ⟨rfl, trivial⟩ trivial
  have h₃ := h₂.step (.write (.inbound 0) ⟨1600000000, 0⟩ 5)
    ⟨Option.some_ne_none _, clock, by decide⟩ trivial
  have h₄ := h₃.step (.write .manager ⟨1600000000, 0⟩ 7)
    ⟨Option.some_ne_none _, clock, by decide⟩ trivial
  have h₅ := h₄.step (.read .manager (.onConnectAttempt [1])) ⟨rfl, trivial⟩ trivial
  have h₆ := h₅.step (.write .manager ⟨1600000000, 0⟩ 0)
    ⟨Option.some_ne_none _, clock, by decide⟩ trivial
  have h₇ := h₆.step (.read .manager (.onConnectFailure [1])) ⟨rfl, trivial⟩ trivial
  have h₈ := h₇.step (.write .manager ⟨1600000000, 0⟩ 0)
    ⟨Option.some_ne_none _, clock, by decide⟩ trivial
  refine ⟨_, h₈, fun who => ?_, fun hc => (hc.unknown [1] rfl 5).1 rfl, rfl⟩
  match who with
  | .manager | .peer _ | .inbound 0 | .inbound (_ + 1) => rfl

end Cruzbit

/-
Cruzbit/InboundPeers.lean

Inbound connections of the peer manager (`acceptConnections`,
`addToInboundSet`, `checkHostConnectionLimit` and `removeFromInboundSet` of
`peer_manager.go`).

Each inbound connection has a handler.  It checks the limit of its host, goes
through the handshake, and then adds its peer to the inbound set; when the
peer closes, it is removed.  The check and the addition take the lock one
after the other, and handlers run at the same time.

The counts by host always match the set, and the set never grows over its
limit (`Accounted.step`).  The limit of a host is only kept if no more
handlers pass its check than there is room for (`inbound_accounting`): handlers
that are still in the handshake are not counted, so any number of them can
pass (`host_limit_exceeded`).
-/
import Cruzbit.Basic
import Cruzbit.Transition

namespace Cruzbit

open Transition

def maxInboundPeerConnectionsFromSameHost : Int := 4

/-! ### Addresses -/

abbrev Host := List UInt8

/-- The bytes of an IP address: 4 or 16 of them. -/
abbrev IP := List UInt8

/-- A network: an address and the number of leading bits that count. -/
structure IPNet where
  ip : IP
  ones : Nat

/-- The bits of a byte string, most significant first. -/
def bits (bytes : List UInt8) : List Bool :=
  bytes.flatMap fun b => (List.range 8).map fun i => b.toNat.testBit (7 - i)

/-- `To4`: the four bytes of an IPv4 address, also if it is given with sixteen. -/
def IP.to4 (ip : IP) : Option IP :=
  if ip.length = 4 then some ip
  else if ip.length = 16 ∧ ip.take 12 = List.replicate 10 0 ++ [255, 255] then some (ip.drop 12)
  else none

/-- `Contains` of an IP network. -/
def IPNet.contains (n : IPNet) (ip : IP) : Bool :=
  let ip := ip.to4.getD ip
  decide (ip.length = n.ip.length ∧ (bits ip).take n.ones = (bits n.ip).take n.ones)

def privateIPBlocks : List IPNet :=
  [⟨[127, 0, 0, 0], 8⟩,                                -- IPv4 loopback
    ⟨[10, 0, 0, 0], 8⟩,                                -- RFC1918
    ⟨[172, 16, 0, 0], 12⟩,                             -- RFC1918
    ⟨[192, 168, 0, 0], 16⟩,                            -- RFC1918
    ⟨List.replicate 15 0 ++ [1], 128⟩,                 -- IPv6 loopback
    ⟨[0xfe, 0x80] ++ List.replicate 14 0, 10⟩,         -- IPv6 link-local
    ⟨[0xfc] ++ List.replicate 15 0, 7⟩]                -- IPv6 unique local addr

/-- The functions of the net package that are used. -/
structure Net where
  /-- The host of a `host:port` address. -/
  splitHostPort : List UInt8 → Option Host
  lookupIP : Host → Option (List IP)

/-- The host is in one of the private address blocks. -/
def Net.isPrivate (net : Net) (host : Host) : Bool :=
  match net.lookupIP host with
  | some (ip :: _) => privateIPBlocks.any fun block => block.contains ip
  | _ => false

/-- The address is one of the host's. -/
def Net.isAt (net : Net) (host : Host) (addr : List UInt8) : Bool :=
  decide (net.splitHostPort addr = some host)

/-! ### The inbound set -/

/-- The part of a `PeerManager` that deals with inbound connections.  The peers
themselves play no part. -/
structure PeerManager where
  inboundLimit : Int
  banMap : Table Host Bool
  inPeers : Table (List UInt8) Unit
  inPeerCountByHost : Table Host Int

namespace PeerManager

/-- The number of a host's connections in the inbound set. -/
def connections (net : Net) (p : PeerManager) (host : Host) : Nat :=
  Table.countKeys (net.isAt host) p.inPeers

/-- Returns false if this host has too many inbound connections already. -/
def checkHostConnectionLimit (net : Net) (p : PeerManager) (addr : List UInt8) : Bool :=
  -- split host and port
  match net.splitHostPort addr with
  | none => false
  | some host =>
    -- resolve the host to an ip
    match net.lookupIP host with
    | none => false
    | some [] => false
    | some (ip :: _) =>
      -- no limit for loopback peers
      if privateIPBlocks.any fun block => block.contains ip then true
      else
        match p.inPeerCountByHost[host]? with
        | none => true
        | some count => decide (count < maxInboundPeerConnectionsFromSameHost)

/-- Helper to add peers to the inbound set if they'll fit. -/
def addToInboundSet (net : Net) (p : PeerManager) (addr : List UInt8) : PeerManager × Bool :=
  match net.splitHostPort addr with
  | none => (p, false)
  | some host =>
    -- too many connections
    if (p.inPeers.size : Int) = p.inboundLimit then (p, false)
    -- already connected
    else if p.inPeers.contains addr then (p, false)
    else
      -- update the count for this IP
      let count := match p.inPeerCountByHost[host]? with
        | none => 1
        | some count => count + 1
      ({ p with
        inPeerCountByHost := p.inPeerCountByHost.insert host count
        inPeers := p.inPeers.insert addr () }, true)

/-- Helper to remove peers from the inbound set. -/
def removeFromInboundSet (net : Net) (p : PeerManager) (addr : List UInt8) : PeerManager :=
  -- we parsed this address on the way in so an error isn't possible
  let host := (net.splitHostPort addr).getD []
  let inPeerCountByHost := match p.inPeerCountByHost[host]? with
    | none => p.inPeerCountByHost
    | some count =>
      if count - 1 = 0 then p.inPeerCountByHost.erase host
      else p.inPeerCountByHost.insert host (count - 1)
  { p with inPeers := p.inPeers.erase addr, inPeerCountByHost := inPeerCountByHost }

end PeerManager

/-! ### Handlers -/

/-- The peer manager with its handlers, each given by its remote address. -/
structure Inbound where
  manager : PeerManager
  /-- Handlers that have passed the check and not added their peer yet. -/
  checked : List (List UInt8)
  /-- Peers that have been added and not closed yet. -/
  running : List (List UInt8)

inductive InboundStep
  /-- A connection arrives; its handler runs up to the check. -/
  | arrive (addr : List UInt8)
  /-- A handler gives up in the handshake. -/
  | abandon (addr : List UInt8)
  /-- A handler adds its peer, or shuts it down if it does not fit. -/
  | add (addr : List UInt8)
  /-- A peer is closed. -/
  | close (addr : List UInt8)
  deriving DecidableEq

namespace Inbound

/-- A handler adds its peer, or shuts it down if it does not fit. -/
def add (net : Net) (s : Inbound) (addr : List UInt8) : Inbound :=
  let (manager, ok) := s.manager.addToInboundSet net addr
  { manager := manager
    checked := s.checked.erase addr
    running := if ok then addr :: s.running else s.running }

/-- A peer's close handler removes it. -/
def close (net : Net) (s : Inbound) (addr : List UInt8) : Inbound :=
  { s with
    manager := s.manager.removeFromInboundSet net addr
    running := s.running.erase addr }

/-- The handler of `acceptConnections`, one locked section a step. -/
def step (net : Net) (s : Inbound) : InboundStep → Option Inbound
  | .arrive addr =>
    -- is it banned?
    if s.manager.banMap[(net.splitHostPort addr).getD []]?.getD false then some s
    -- check the connection limit for this peer address
    else if s.manager.checkHostConnectionLimit net addr then
      some { s with checked := addr :: s.checked }
    else some s
  | .abandon addr =>
    if addr ∈ s.checked then some { s with checked := s.checked.erase addr } else none
  | .add addr => if addr ∈ s.checked then some (s.add net addr) else none
  | .close addr => if addr ∈ s.running then some (s.close net addr) else none

/-- No connections yet. -/
def Fresh (limit : Int) (s : Inbound) : Prop :=
  ∃ banMap, s = ⟨⟨limit, banMap, ∅, ∅⟩, [], []⟩

/-- The handlers of a host between the check and the addition. -/
def waiting (net : Net) (s : Inbound) (host : Host) : Nat := s.checked.countP (net.isAt host)

/-- A handler of a public host passes the check only if there is still room when
the host's handlers in the handshake are counted too. -/
def Spaced (net : Net) (s : Inbound) : InboundStep → Prop
  | .arrive addr => ∀ host, net.splitHostPort addr = some host → net.isPrivate host = false →
      s.manager.checkHostConnectionLimit net addr = true →
      (s.manager.connections net host + s.waiting net host : Int) <
        maxInboundPeerConnectionsFromSameHost
  | _ => True

/-! ### Invariants -/

/-- The entry for a count; there is none for zero. -/
def countEntry (n : Nat) : Option Int := if n = 0 then none else some n

/-- The two maps agree with each other and with the peers that run. -/
structure Accounted (net : Net) (limit : Int) (s : Inbound) : Prop where
  inboundLimit : s.manager.inboundLimit = limit
  nodup : s.running.Nodup
  mem_iff : ∀ addr, s.manager.inPeers[addr]? = some () ↔ addr ∈ s.running
  parsed : ∀ addr ∈ s.running, ∃ host, net.splitHostPort addr = some host
  counts : ∀ host, s.manager.inPeerCountByHost[host]? =
    countEntry (s.manager.connections net host)
  size_le : (s.manager.inPeers.size : Int) ≤ limit

/-- A public host has room for its connections and for those in the handshake. -/
def Bounded (net : Net) (s : Inbound) : Prop :=
  ∀ host, net.isPrivate host = false →
    (s.manager.connections net host + s.waiting net host : Int) ≤
      maxInboundPeerConnectionsFromSameHost

end Inbound

theorem Inbound.countEntry_succ (n : Nat) : Inbound.countEntry (n + 1) = some ((n : Int) + 1) :=
  rfl

theorem Inbound.countEntry_getD (n : Nat) : (Inbound.countEntry n).getD 0 = n := by
  cases n with
  | zero => rfl
  | succ n => rfl

namespace PeerManager

variable {net : Net} {p : PeerManager} {addr : List UInt8} {host : Host}

/-- The manager with one more peer in both maps. -/
def withPeer (p : PeerManager) (host : Host) (addr : List UInt8) : PeerManager :=
  { p with
    inPeerCountByHost := p.inPeerCountByHost.insert host (p.inPeerCountByHost[host]?.getD 0 + 1)
    inPeers := p.inPeers.insert addr () }

/-- A peer is refused with the set as it was, or added to both maps. -/
theorem addToInboundSet_cases (net : Net) (p : PeerManager) (addr : List UInt8) :
    p.addToInboundSet net addr = (p, false) ∨
      ∃ host, net.splitHostPort addr = some host ∧ (p.inPeers.size : Int) ≠ p.inboundLimit ∧
        p.inPeers[addr]? = none ∧ p.addToInboundSet net addr = (p.withPeer host addr, true) := by
  unfold addToInboundSet
  cases hhost : net.splitHostPort addr with
  | none => exact Or.inl rfl
  | some host =>
    simp only
    split_ifs with hfull hthere
    · exact Or.inl rfl
    · exact Or.inl rfl
    · refine Or.inr ⟨host, rfl, hfull, ?_, ?_⟩
      · rwa [Std.ExtTreeMap.contains_eq_isSome_getElem?, Option.not_isSome_iff_eq_none] at hthere
      · unfold withPeer
        cases p.inPeerCountByHost[host]? with
        | none => rfl
        | some count => rfl

theorem isAt_eq (hhost : net.splitHostPort addr = some host) (host' : Host) :
    net.isAt host' addr = decide (host = host') := by
  simp only [Net.isAt, hhost, Option.some.injEq]

theorem connections_withPeer (hhost : net.splitHostPort addr = some host)
    (hnew : p.inPeers[addr]? = none) (host' : Host) :
    (p.withPeer host addr).connections net host' =
      p.connections net host' + if host = host' then 1 else 0 := by
  have hcount := Table.countKeys_insert (p := net.isAt host') () hnew
  simp only [isAt_eq hhost, decide_eq_true_eq] at hcount
  exact hcount

theorem connections_removeFromInboundSet (hhost : net.splitHostPort addr = some host)
    (hthere : p.inPeers[addr]? = some ()) (host' : Host) : p.connections net host' =
      (p.removeFromInboundSet net addr).connections net host' +
        if host = host' then 1 else 0 := by
  have hcount := Table.countKeys_erase (p := net.isAt host') hthere
  simp only [isAt_eq hhost, decide_eq_true_eq] at hcount
  exact hcount

/-- The count of the host of a removed peer goes down by one. -/
theorem get_removeFromInboundSet (hhost : net.splitHostPort addr = some host) {n : Nat}
    (hcount : p.inPeerCountByHost[host]? = some ((n : Int) + 1)) (host' : Host) :
    (p.removeFromInboundSet net addr).inPeerCountByHost[host']? =
      if host = host' then Inbound.countEntry n else p.inPeerCountByHost[host']? := by
  unfold removeFromInboundSet Inbound.countEntry
  simp only [hhost, Option.getD_some, hcount, add_sub_cancel_right, Nat.cast_eq_zero]
  split_ifs with hzero heq heq
  · rw [Table.get_erase, if_pos heq]
  · rw [Table.get_erase, if_neg heq]
  · rw [Table.get_insert, if_pos heq]
  · rw [Table.get_insert, if_neg heq]

end PeerManager

namespace Inbound

variable {net : Net} {limit : Int} {s s' : Inbound} {addr : List UInt8}

theorem fresh_accounted (hlimit : 0 ≤ limit) (h : Fresh limit s) : s.Accounted net limit := by
  obtain ⟨banMap, rfl⟩ := h
  refine ⟨rfl, List.nodup_nil, fun addr => ?_, fun addr haddr => absurd haddr List.not_mem_nil,
    fun host => ?_, hlimit⟩
  · simp
  · show (∅ : Table Host Int)[host]? = none
    exact Std.ExtTreeMap.getElem?_empty

/-- What a step can do. -/
theorem step_cases {l : InboundStep} (hs : s.step net l = some s') :
    s' = s ∨
      (∃ addr, l = .arrive addr ∧ s.manager.checkHostConnectionLimit net addr = true ∧
        s' = { s with checked := addr :: s.checked }) ∨
      (∃ addr, l = .abandon addr ∧ addr ∈ s.checked ∧
        s' = { s with checked := s.checked.erase addr }) ∨
      (∃ addr, l = .add addr ∧ addr ∈ s.checked ∧ s' = s.add net addr) ∨
      ∃ addr, l = .close addr ∧ addr ∈ s.running ∧ s' = s.close net addr := by
  cases l with
  | arrive addr =>
    simp only [step] at hs
    split_ifs at hs with hbanned hcheck
    · exact Or.inl (Option.some.inj hs).symm
    · exact Or.inr (Or.inl ⟨addr, rfl, hcheck, (Option.some.inj hs).symm⟩)
    · exact Or.inl (Option.some.inj hs).symm
  | abandon addr =>
    simp only [step] at hs
    split_ifs at hs with haddr
    exact Or.inr (Or.inr (Or.inl ⟨addr, rfl, haddr, (Option.some.inj hs).symm⟩))
  | add addr =>
    simp only [step] at hs
    split_ifs at hs with haddr
    exact Or.inr (Or.inr (Or.inr (Or.inl ⟨addr, rfl, haddr, (Option.some.inj hs).symm⟩)))
  | close addr =>
    simp only [step] at hs
    split_ifs at hs with haddr
    exact Or.inr (Or.inr (Or.inr (Or.inr ⟨addr, rfl, haddr, (Option.some.inj hs).symm⟩)))

/-- The peer is refused with the manager as it was, or it runs. -/
theorem add_cases (net : Net) (s : Inbound) (addr : List UInt8) :
    s.add net addr = { s with checked := s.checked.erase addr } ∨
      ∃ host, net.splitHostPort addr = some host ∧
        (s.manager.inPeers.size : Int) ≠ s.manager.inboundLimit ∧
        s.manager.inPeers[addr]? = none ∧
        s.add net addr =
          { manager := s.manager.withPeer host addr
            checked := s.checked.erase addr
            running := addr :: s.running } := by
  unfold add
  rcases s.manager.addToInboundSet_cases net addr with hrefused | ⟨host, hhost, hfull, hnew, hok⟩
  · rw [hrefused]
    exact Or.inl rfl
  · rw [hok]
    exact Or.inr ⟨host, hhost, hfull, hnew, rfl⟩

theorem Accounted.setChecked (h : s.Accounted net limit) (checked : List (List UInt8)) :
    Accounted net limit { s with checked := checked } :=
  ⟨h.inboundLimit, h.nodup, h.mem_iff, h.parsed, h.counts, h.size_le⟩

/-- **Adding a peer** keeps the books. -/
theorem Accounted.add (h : s.Accounted net limit) (addr : List UInt8) :
    (s.add net addr).Accounted net limit := by
  rcases s.add_cases net addr with hrefused | ⟨host, hhost, hfull, hnew, hok⟩
  · rw [hrefused]
    exact h.setChecked _
  · rw [hok]
    have hnot : addr ∉ s.running := by
      rw [← h.mem_iff, hnew]
      exact nofun
    refine ⟨h.inboundLimit, List.nodup_cons.mpr ⟨hnot, h.nodup⟩, fun addr' => ?_, ?_,
      fun host' => ?_, ?_⟩
    · show (s.manager.inPeers.insert addr ())[addr']? = _ ↔ addr' ∈ addr :: s.running
      rw [Table.get_insert, List.mem_cons, ← h.mem_iff]
      split_ifs with heq
      · simp [heq]
      · simp [Ne.symm heq]
    · exact List.forall_mem_cons.mpr ⟨⟨host, hhost⟩, h.parsed⟩
    · show (s.manager.inPeerCountByHost.insert host _)[host']? =
        countEntry ((s.manager.withPeer host addr).connections net host')
      rw [PeerManager.connections_withPeer hhost hnew, Table.get_insert]
      split_ifs with heq
      · subst heq
        rw [h.counts, countEntry_getD, countEntry_succ]
      · exact h.counts host'
    · show ((s.manager.inPeers.insert addr ()).size : Int) ≤ limit
      have hsize := h.size_le
      have hne := h.inboundLimit ▸ hfull
      have hgrow : (s.manager.inPeers.insert addr ()).size ≤ s.manager.inPeers.size + 1 :=
        Std.ExtTreeMap.size_insert_le
      omega

/-- **Removing a peer** keeps the books. -/
theorem Accounted.close (h : s.Accounted net limit) (haddr : addr ∈ s.running) :
    (s.close net addr).Accounted net limit := by
  obtain ⟨host, hhost⟩ := h.parsed addr haddr
  have hcount := PeerManager.connections_removeFromInboundSet hhost ((h.mem_iff addr).mpr haddr)
  refine ⟨h.inboundLimit, h.nodup.erase addr, fun addr' => ?_, ?_, fun host' => ?_, ?_⟩
  · show (s.manager.inPeers.erase addr)[addr']? = some () ↔ addr' ∈ s.running.erase addr
    rw [Table.get_erase, h.nodup.mem_erase_iff, ← h.mem_iff]
    split_ifs with heq
    · simp [heq]
    · simp [Ne.symm heq]
  · exact fun addr' haddr' => h.parsed addr' (List.mem_of_mem_erase haddr')
  · have hold := h.counts host
    rw [hcount host, if_pos rfl, countEntry_succ] at hold
    show (s.manager.removeFromInboundSet net addr).inPeerCountByHost[host']? =
      countEntry ((s.manager.removeFromInboundSet net addr).connections net host')
    rw [PeerManager.get_removeFromInboundSet hhost hold]
    split_ifs with heq
    · rw [heq]
    · rw [h.counts host', hcount host', if_neg heq]
      rfl
  · show ((s.manager.inPeers.erase addr).size : Int) ≤ limit
    have hsize := h.size_le
    have hshrink : (s.manager.inPeers.erase addr).size ≤ s.manager.inPeers.size :=
      Std.ExtTreeMap.size_erase_le
    omega

/-- One step of any handler keeps the books. -/
theorem Accounted.step {l : InboundStep} (h : s.Accounted net limit)
    (hs : s.step net l = some s') : s'.Accounted net limit := by
  rcases step_cases hs with rfl | ⟨addr, -, -, rfl⟩ | ⟨addr, -, -, rfl⟩ | ⟨addr, -, -, rfl⟩ |
    ⟨addr, -, haddr, rfl⟩
  · exact h
  · exact h.setChecked _
  · exact h.setChecked _
  · exact h.add addr
  · exact h.close haddr

/-! ### The limit of a host -/

theorem waiting_cons (addr : List UInt8) (host : Host) :
    waiting net { s with checked := addr :: s.checked } host =
      s.waiting net host + if net.isAt host addr then 1 else 0 :=
  List.countP_cons

theorem waiting_erase (haddr : addr ∈ s.checked) (host : Host) :
    s.waiting net host = (s.checked.erase addr).countP (net.isAt host) +
      if net.isAt host addr then 1 else 0 := by
  rw [waiting, (List.perm_cons_erase haddr).countP_eq, List.countP_cons]

/-- A spaced step leaves every public host within its limit. -/
theorem Bounded.step {l : InboundStep} (h : s.Bounded net) (hacc : s.Accounted net limit)
    (hspaced : s.Spaced net l) (hs : s.step net l = some s') : s'.Bounded net := by
  intro host hpublic
  have hold := h host hpublic
  rcases step_cases hs with rfl | ⟨addr, rfl, hcheck, rfl⟩ | ⟨addr, rfl, haddr, rfl⟩ |
    ⟨addr, rfl, haddr, rfl⟩ | ⟨addr, rfl, haddr, rfl⟩
  · exact hold
  · rw [waiting_cons]
    show (s.manager.connections net host + _ : Int) ≤ _
    by_cases hat : net.isAt host addr = true
    · have hroom := hspaced host (of_decide_eq_true hat) hpublic hcheck
      rw [if_pos hat]
      omega
    · rw [if_neg hat]
      exact hold
  · have hwait : s.waiting net host = _ := waiting_erase haddr host
    show (s.manager.connections net host + (s.checked.erase addr).countP _ : Int) ≤ _
    omega
  · have hwait : s.waiting net host = _ := waiting_erase haddr host
    rcases s.add_cases net addr with hrefused | ⟨host', hhost, -, hnew, hok⟩
    · rw [hrefused]
      show (s.manager.connections net host + (s.checked.erase addr).countP _ : Int) ≤ _
      omega
    · -- the handler is counted among the connections from now on
      rw [hok]
      show ((s.manager.withPeer host' addr).connections net host +
        (s.checked.erase addr).countP _ : Int) ≤ _
      rw [PeerManager.connections_withPeer hhost hnew]
      rw [PeerManager.isAt_eq hhost] at hwait
      simp only [decide_eq_true_eq] at hwait
      omega
  · obtain ⟨host', hhost⟩ := hacc.parsed addr haddr
    have hcount := PeerManager.connections_removeFromInboundSet hhost
      ((hacc.mem_iff addr).mpr haddr) host
    show ((s.manager.removeFromInboundSet net addr).connections net host +
      s.waiting net host : Int) ≤ _
    omega

/-- **Inbound connection accounting.**  In every run the counts by host match the
inbound set, and the set stays within its limit.  Every public host stays
within its limit in every run whose handlers pass the check of a host only as
far as there is room for all of them. -/
theorem inbound_accounting (hlimit : 0 ≤ limit) :
    (∀ s, Transition.Run (Fresh limit) (step net) s →
      (∀ host, s.manager.inPeerCountByHost[host]? =
        if s.manager.connections net host = 0 then none
        else some (s.manager.connections net host : Int)) ∧
      (s.manager.inPeers.size : Int) ≤ limit) ∧
    ∀ s, Reach (Fresh limit) (step net) (Spaced net) s →
      ∀ host, net.isPrivate host = false →
        (s.manager.connections net host : Int) ≤ maxInboundPeerConnectionsFromSameHost := by
  have haccounted : ∀ s, Transition.Run (Fresh limit) (step net) s → s.Accounted net limit :=
    fun s h => h.invariant (I := Accounted net limit) (fun _ => fresh_accounted hlimit)
      fun _ _ _ hacc _ hs => hacc.step hs
  refine ⟨fun s h => ⟨(haccounted s h).counts, (haccounted s h).size_le⟩, fun s h => ?_⟩
  have hinv : s.Accounted net limit ∧ s.Bounded net := by
    refine h.invariant (I := fun s => s.Accounted net limit ∧ s.Bounded net) ?_ ?_
    · intro s₀ hfresh
      refine ⟨fresh_accounted hlimit hfresh, ?_⟩
      obtain ⟨banMap, rfl⟩ := hfresh
      intro host _
      show ((0 : Nat) + (0 : Nat) : Int) ≤ maxInboundPeerConnectionsFromSameHost
      decide
    · rintro s₀ l s₁ ⟨hacc, hbound⟩ hspaced hs
      exact ⟨hacc.step hs, hbound.step hacc hspaced hs⟩
  intro host hpublic
  have := hinv.2 host hpublic
  omega

namespace Sample

/-- Hosts and ports of one byte each, all of them at the public address 8.8.8.8. -/
def oneAddress : Net := ⟨fun addr => some (addr.take 1), fun _ => some [[8, 8, 8, 8]]⟩

/-- No connections, and the default limit. -/
def idle : Inbound := ⟨⟨128, ∅, ∅, ∅⟩, [], []⟩

end Sample

/-- Two connections of one host at the same time and one of another; the first
one closes. -/
theorem inbound_accounting_of_three :
    ∃ s, Reach (Fresh 128) (step Sample.oneAddress) (Spaced Sample.oneAddress) s ∧
      s.running = [[9, 1], [8, 2]] ∧
      s.manager.inPeerCountByHost[([8] : Host)]? = some 1 ∧
      (s.manager.inPeers.size : Int) ≤ 128 ∧
      (s.manager.connections Sample.oneAddress [8] : Int) ≤
        maxInboundPeerConnectionsFromSameHost := by
  have hstart : Reach (Fresh 128) (step Sample.oneAddress) (Spaced Sample.oneAddress) Sample.idle :=
    .init ⟨∅, rfl⟩
  have hspaced (s : Inbound) (addr : List UInt8) (hroom : (s.manager.connections Sample.oneAddress
      (addr.take 1) + s.waiting Sample.oneAddress (addr.take 1) : Int) <
        maxInboundPeerConnectionsFromSameHost) : Spaced Sample.oneAddress s (.arrive addr) := by
    intro host hhost _ _
    obtain rfl : addr.take 1 = host := Option.some.inj hhost
    exact hroom
  have hfirst := hstart.next (hspaced _ [8, 1] (by decide)) rfl
  have hsecond := hfirst.next (hspaced _ [8, 2] (by decide)) rfl
  have hthird := hsecond.next (hspaced _ [9, 1] (by decide)) rfl
  have hclosed := hthird.steps_of (by simp [Spaced]) (show steps (step Sample.oneAddress) _
    [.add [8, 1], .add [8, 2], .add [9, 1], .close [8, 1]] = some _ from rfl)
  obtain ⟨hcounts, hsize⟩ := (inbound_accounting (by decide)).1 _
    (hclosed.mono fun _ _ _ => trivial)
  exact ⟨_, hclosed, rfl, hcounts [8], hsize, (inbound_accounting (by decide)).2 _ hclosed [8] rfl⟩

/-- Five connections from one public host: all handlers pass the check before
the first of them adds its peer. -/
theorem host_limit_exceeded :
    ∃ s, Transition.Run (Fresh 128) (step Sample.oneAddress) s ∧
      Sample.oneAddress.isPrivate [8] = false ∧
      s.manager.connections Sample.oneAddress [8] = 5 ∧
      ¬ (s.manager.connections Sample.oneAddress [8] : Int) ≤
        maxInboundPeerConnectionsFromSameHost := by
  have hstart : Transition.Run (Fresh 128) (step Sample.oneAddress) Sample.idle := .init ⟨∅, rfl⟩
  have hsteps : steps (step Sample.oneAddress) Sample.idle
      [.arrive [8, 1], .arrive [8, 2], .arrive [8, 3], .arrive [8, 4], .arrive [8, 5],
        .add [8, 1], .add [8, 2], .add [8, 3], .add [8, 4], .add [8, 5]] = some _ := rfl
  exact ⟨_, hstart.steps hsteps, rfl, rfl, by decide⟩

end Inbound

end Cruzbit

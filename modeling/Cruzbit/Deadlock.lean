/-
Cruzbit/Deadlock.lean

The goroutines that wait for each other around the processor: its main loop,
the loops of the miners and the writer loops of the peers.

A miner or a writer registers two channels of its own with the processor, from
which it reads tip changes and new transactions.  The same goroutine calls
`ProcessBlock` and waits for the result, and on its way out it waits for the
processor to receive its channels once more.  The processor sends a message
to each registered channel before it goes on, and waits where one is full.

While it waits for the processor a goroutine does not read.  So what is still
to be sent to it must fit into its channels.  If it does whenever a call is
taken up and whenever a goroutine begins to wait, no goroutine and the
processor ever wait for each other (`never_deadlocked`).  Nothing in the code
ensures that: two blocks that arrive before a miner's own are enough
(`miner_deadlocked`), and then it is for ever (`StuckAt.step`).

What a call sends is left open here.  `Live` puts the processor itself in its
place, and every run of it is one of the loops (`Live.reach_loops`).
-/
import Cruzbit.Notifications
import Cruzbit.Transition

namespace Cruzbit

open Transition

/-! ### Goroutines and channels -/

/-- The two kinds of messages that can be registered for. -/
inductive Topic
  | tipChange
  | newTx
  deriving DecidableEq

inductive Notice
  | tipChange (message : TipChange)
  | newTx (message : NewTx)

def Notice.topic : Notice → Topic
  | .tipChange _ => .tipChange
  | .newTx _ => .newTx

/-- The goroutines that register with the processor. -/
inductive ListenerKind
  | miner
  | peer

/-- The capacities of the channels they make. -/
def ListenerKind.capacity : ListenerKind → Topic → Nat
  | .miner, .tipChange => 1
  | .miner, .newTx => 1
  | .peer, .tipChange => 10
  | .peer, .newTx => maxTransactionsToIncludePerBlock.toNat

/-- Where a goroutine is. -/
inductive ListenerState
  | off
  /-- It waits until its channel is received for registration. -/
  | registering (topic : Topic)
  /-- In the select of its main loop. -/
  | selecting
  /-- In `ProcessBlock`, before its block is in the channel. -/
  | submitting
  /-- In `ProcessBlock`, until the result comes. -/
  | awaiting
  /-- It waits until its channel is received once more. -/
  | unregistering (topic : Topic)
  | gone

/-- It waits for the processor, with a channel registered. -/
def ListenerState.Waits : ListenerState → Prop
  | .registering .newTx => True
  | .submitting => True
  | .awaiting => True
  | .unregistering _ => True
  | _ => False

structure Goroutine where
  kind : ListenerKind
  position : ListenerState
  chan : Topic → List Notice

/-- What the main loop of the processor does.  A call comes from one of the
goroutines, or from somewhere else. -/
inductive Phase
  | selecting
  /-- A message is on its way to the channels that have not got it yet. -/
  | sending (caller : Option Nat) (message : Notice) (channels : List Nat) (later : List Notice)
  | replying (caller : Option Nat)

/-- The processor's loop and the goroutines around it. -/
structure Loops where
  phase : Phase
  /-- The callers of the blocks in the channel. -/
  blockChan : List (Option Nat)
  /-- The number of transactions in the channel. -/
  txChan : Nat
  /-- The registered channels. -/
  channels : Topic → List Nat
  goroutines : Nat → Goroutine

inductive LoopStep
  | start (i : Nat) (kind : ListenerKind)
  /-- The processor receives a channel to register. -/
  | register (i : Nat)
  /-- The goroutine reads a message. -/
  | receive (i : Nat) (topic : Topic)
  /-- The goroutine calls `ProcessBlock`. -/
  | submit (i : Nat)
  | enqueue (i : Nat)
  /-- Somebody else calls `ProcessBlock`. -/
  | request
  /-- Somebody else calls `ProcessTransaction`. -/
  | requestTransaction
  /-- The processor takes up a block, and will send the given messages. -/
  | processBlock (messages : List TipChange)
  | processTransaction (message : Option NewTx)
  /-- The processor sends its current message to a channel. -/
  | send (i : Nat)
  | reply
  /-- The goroutine leaves its main loop. -/
  | exit (i : Nat)
  /-- The processor receives a channel to unregister. -/
  | unregister (i : Nat)

namespace Loops

/-- A goroutine goes on. -/
def set (n : Loops) (i : Nat) (g : Goroutine) : Loops :=
  { n with goroutines := Function.update n.goroutines i g }

/-- A goroutine moves. -/
def move (n : Loops) (i : Nat) (position : ListenerState) : Loops :=
  n.set i { n.goroutines i with position := position }

/-- The set of registered channels of a topic changes. -/
def setChannels (n : Loops) (topic : Topic) (channels : List Nat) : Loops :=
  { n with channels := Function.update n.channels topic channels }

/-- The phase before the given messages are sent. -/
def upcoming (channels : Topic → List Nat) (caller : Option Nat) : List Notice → Phase
  | [] => .replying caller
  | m :: ms =>
    match channels m.topic with
    | [] => upcoming channels caller ms
    | i :: is => .sending caller m (i :: is) ms

/-- The phase when a message has got to all but the given channels. -/
def remaining (channels : Topic → List Nat) (caller : Option Nat) (m : Notice) (left : List Nat)
    (later : List Notice) : Phase :=
  match left with
  | [] => upcoming channels caller later
  | i :: is => .sending caller m (i :: is) later

/-- A caller gets its result. -/
def answer (n : Loops) : Option Nat → Loops
  | none => n
  | some i => n.move i .selecting

def step (n : Loops) : LoopStep → Option Loops
  | .start i kind =>
    match (n.goroutines i).position with
    | .off => some (n.set i ⟨kind, .registering .tipChange, fun _ => []⟩)
    | _ => none
  | .register i =>
    match n.phase, (n.goroutines i).position with
    | .selecting, .registering .tipChange =>
      some ((n.setChannels .tipChange (n.channels .tipChange ++ [i])).move i (.registering .newTx))
    | .selecting, .registering .newTx =>
      some ((n.setChannels .newTx (n.channels .newTx ++ [i])).move i .selecting)
    | _, _ => none
  | .receive i topic =>
    match (n.goroutines i).position, (n.goroutines i).chan topic with
    | .selecting, _ :: ms =>
      some (n.set i
        { n.goroutines i with chan := Function.update (n.goroutines i).chan topic ms })
    | _, _ => none
  | .submit i =>
    match (n.goroutines i).position with
    | .selecting => some (n.move i .submitting)
    | _ => none
  | .enqueue i =>
    match (n.goroutines i).position with
    | .submitting =>
      if n.blockChan.length < 10 then
        some ({ n with blockChan := n.blockChan ++ [some i] }.move i .awaiting)
      else none
    | _ => none
  | .request =>
    if n.blockChan.length < 10 then some { n with blockChan := n.blockChan ++ [none] } else none
  | .requestTransaction =>
    if n.txChan < 100 then some { n with txChan := n.txChan + 1 } else none
  | .processBlock messages =>
    match n.phase, n.blockChan with
    | .selecting, caller :: callers =>
      some
        { n with
          blockChan := callers
          phase := upcoming n.channels caller (messages.map .tipChange) }
    | _, _ => none
  | .processTransaction message =>
    match n.phase, n.txChan with
    | .selecting, k + 1 =>
      some
        { n with
          txChan := k
          phase := upcoming n.channels none (message.toList.map .newTx) }
    | _, _ => none
  | .send i =>
    match n.phase with
    | .sending caller m left later =>
      if i ∈ left ∧
          ((n.goroutines i).chan m.topic).length < (n.goroutines i).kind.capacity m.topic then
        some
          ({ n with phase := remaining n.channels caller m (left.filter (· ≠ i)) later }.set i
            { n.goroutines i with
              chan := Function.update (n.goroutines i).chan m.topic
                ((n.goroutines i).chan m.topic ++ [m]) })
      else none
    | _ => none
  | .reply =>
    match n.phase with
    | .replying caller => some ({ n with phase := .selecting }.answer caller)
    | _ => none
  | .exit i =>
    match (n.goroutines i).position with
    -- the deferred calls run in reverse order
    | .selecting => some (n.move i (.unregistering .newTx))
    | _ => none
  | .unregister i =>
    match n.phase, (n.goroutines i).position with
    | .selecting, .unregistering .newTx =>
      some ((n.setChannels .newTx ((n.channels .newTx).filter (· ≠ i))).move i
        (.unregistering .tipChange))
    | .selecting, .unregistering .tipChange =>
      some ((n.setChannels .tipChange ((n.channels .tipChange).filter (· ≠ i))).move i .gone)
    | _, _ => none

/-- What a step can do, and when. -/
inductive Took (n : Loops) : LoopStep → Loops → Prop
  | start {i : Nat} {kind : ListenerKind} (hposition : (n.goroutines i).position = .off) :
    n.Took (.start i kind) (n.set i ⟨kind, .registering .tipChange, fun _ => []⟩)
  | register_tipChange {i : Nat} (hphase : n.phase = .selecting)
    (hposition : (n.goroutines i).position = .registering .tipChange) :
    n.Took (.register i)
      ((n.setChannels .tipChange (n.channels .tipChange ++ [i])).move i (.registering .newTx))
  | register_newTx {i : Nat} (hphase : n.phase = .selecting)
    (hposition : (n.goroutines i).position = .registering .newTx) :
    n.Took (.register i)
      ((n.setChannels .newTx (n.channels .newTx ++ [i])).move i .selecting)
  | receive {i : Nat} {topic : Topic} {m : Notice} {ms : List Notice}
    (hposition : (n.goroutines i).position = .selecting)
    (hchan : (n.goroutines i).chan topic = m :: ms) :
    n.Took (.receive i topic) (n.set i
      { n.goroutines i with chan := Function.update (n.goroutines i).chan topic ms })
  | submit {i : Nat} (hposition : (n.goroutines i).position = .selecting) :
    n.Took (.submit i) (n.move i .submitting)
  | enqueue {i : Nat} (hposition : (n.goroutines i).position = .submitting)
    (hlength : n.blockChan.length < 10) :
    n.Took (.enqueue i) ({ n with blockChan := n.blockChan ++ [some i] }.move i .awaiting)
  | request (hlength : n.blockChan.length < 10) :
    n.Took .request { n with blockChan := n.blockChan ++ [none] }
  | requestTransaction (htxChan : n.txChan < 100) :
    n.Took .requestTransaction { n with txChan := n.txChan + 1 }
  | processBlock {messages : List TipChange} {caller : Option Nat} {callers : List (Option Nat)}
    (hphase : n.phase = .selecting) (hblockChan : n.blockChan = caller :: callers) :
    n.Took (.processBlock messages)
      { n with
        blockChan := callers
        phase := upcoming n.channels caller (messages.map .tipChange) }
  | processTransaction {message : Option NewTx} {k : Nat} (hphase : n.phase = .selecting)
    (htxChan : n.txChan = k + 1) :
    n.Took (.processTransaction message)
      { n with
        txChan := k
        phase := upcoming n.channels none (message.toList.map .newTx) }
  | send {i : Nat} {caller : Option Nat} {m : Notice} {left : List Nat} {later : List Notice}
    (hphase : n.phase = .sending caller m left later) (hi : i ∈ left)
    (hroom : ((n.goroutines i).chan m.topic).length < (n.goroutines i).kind.capacity m.topic) :
    n.Took (.send i)
      ({ n with phase := remaining n.channels caller m (left.filter (· ≠ i)) later }.set i
        { n.goroutines i with
          chan := Function.update (n.goroutines i).chan m.topic
            ((n.goroutines i).chan m.topic ++ [m]) })
  | reply {caller : Option Nat} (hphase : n.phase = .replying caller) :
    n.Took .reply ({ n with phase := .selecting }.answer caller)
  | exit {i : Nat} (hposition : (n.goroutines i).position = .selecting) :
    n.Took (.exit i) (n.move i (.unregistering .newTx))
  | unregister_newTx {i : Nat} (hphase : n.phase = .selecting)
    (hposition : (n.goroutines i).position = .unregistering .newTx) :
    n.Took (.unregister i) ((n.setChannels .newTx ((n.channels .newTx).filter (· ≠ i))).move i
      (.unregistering .tipChange))
  | unregister_tipChange {i : Nat} (hphase : n.phase = .selecting)
    (hposition : (n.goroutines i).position = .unregistering .tipChange) :
    n.Took (.unregister i)
      ((n.setChannels .tipChange ((n.channels .tipChange).filter (· ≠ i))).move i .gone)

theorem took_of_step {n n' : Loops} {l : LoopStep} (hs : n.step l = some n') : n.Took l n' := by
  cases l with
  | start i kind =>
    simp only [step] at hs
    split at hs
    · next hposition =>
      obtain rfl := Option.some.inj hs
      exact .start hposition
    · cases hs
  | register i =>
    simp only [step] at hs
    split at hs
    · next hphase hposition =>
      obtain rfl := Option.some.inj hs
      exact .register_tipChange hphase hposition
    · next hphase hposition =>
      obtain rfl := Option.some.inj hs
      exact .register_newTx hphase hposition
    · cases hs
  | receive i topic =>
    simp only [step] at hs
    split at hs
    · next hposition hchan =>
      obtain rfl := Option.some.inj hs
      exact .receive hposition hchan
    · cases hs
  | submit i =>
    simp only [step] at hs
    split at hs
    · next hposition =>
      obtain rfl := Option.some.inj hs
      exact .submit hposition
    · cases hs
  | enqueue i =>
    simp only [step] at hs
    split at hs
    · next hposition =>
      split_ifs at hs with hlength
      obtain rfl := Option.some.inj hs
      exact .enqueue hposition hlength
    · cases hs
  | request =>
    simp only [step] at hs
    split_ifs at hs with hlength
    obtain rfl := Option.some.inj hs
    exact .request hlength
  | requestTransaction =>
    simp only [step] at hs
    split_ifs at hs with htxChan
    obtain rfl := Option.some.inj hs
    exact .requestTransaction htxChan
  | processBlock messages =>
    simp only [step] at hs
    split at hs
    · next hphase hblockChan =>
      obtain rfl := Option.some.inj hs
      exact .processBlock hphase hblockChan
    · cases hs
  | processTransaction message =>
    simp only [step] at hs
    split at hs
    · next hphase htxChan =>
      obtain rfl := Option.some.inj hs
      exact .processTransaction hphase htxChan
    · cases hs
  | send i =>
    simp only [step] at hs
    split at hs
    · next hphase =>
      split_ifs at hs with hroom
      obtain rfl := Option.some.inj hs
      exact .send hphase hroom.1 hroom.2
    · cases hs
  | reply =>
    simp only [step] at hs
    split at hs
    · next hphase =>
      obtain rfl := Option.some.inj hs
      exact .reply hphase
    · cases hs
  | exit i =>
    simp only [step] at hs
    split at hs
    · next hposition =>
      obtain rfl := Option.some.inj hs
      exact .exit hposition
    · cases hs
  | unregister i =>
    simp only [step] at hs
    split at hs
    · next hphase hposition =>
      obtain rfl := Option.some.inj hs
      exact .unregister_newTx hphase hposition
    · next hphase hposition =>
      obtain rfl := Option.some.inj hs
      exact .unregister_tipChange hphase hposition
    · cases hs

/-- No goroutine has started. -/
def initial : Loops :=
  ⟨.selecting, [], 0, fun _ => [], fun _ => ⟨.miner, .off, fun _ => []⟩⟩

def Start (n : Loops) : Prop := n = initial

/-- The processor is sending to a full channel whose reader waits for the processor. -/
def Deadlocked (n : Loops) : Prop :=
  ∃ caller m left later i, n.phase = .sending caller m left later ∧ i ∈ left ∧
    (n.goroutines i).kind.capacity m.topic ≤ ((n.goroutines i).chan m.topic).length ∧
    (n.goroutines i).position.Waits

/-! ### Room for what is still to be sent -/

variable {n n' : Loops} {l : LoopStep}

/-- The number of messages of a topic that are still sent to a channel. -/
def pendingIn (channels : Topic → List Nat) (topic : Topic) (i : Nat) : Phase → Nat
  | .sending _ m left later =>
    (if m.topic = topic ∧ i ∈ left then 1 else 0) +
      if i ∈ channels topic then later.countP (fun m => m.topic = topic) else 0
  | _ => 0

def pending (n : Loops) (topic : Topic) (i : Nat) : Nat := pendingIn n.channels topic i n.phase

theorem pendingIn_upcoming (channels : Topic → List Nat) (caller : Option Nat)
    (ms : List Notice) (topic : Topic) (i : Nat) :
    pendingIn channels topic i (upcoming channels caller ms) =
      if i ∈ channels topic then ms.countP (fun m => m.topic = topic) else 0 := by
  induction ms with
  | nil => simp [upcoming, pendingIn]
  | cons m ms ih =>
    unfold upcoming
    cases hm : channels m.topic with
    | nil =>
      -- nobody has registered for it
      show pendingIn channels topic i (upcoming channels caller ms) = _
      rw [ih]
      split_ifs with hi
      · have hne : m.topic ≠ topic := by
          rintro rfl
          rw [hm] at hi
          exact absurd hi List.not_mem_nil
        rw [List.countP_cons_of_neg (by simpa using hne)]
      · rfl
    | cons j js =>
      simp only [pendingIn, ← hm]
      by_cases htopic : m.topic = topic
      · subst htopic
        by_cases hi : i ∈ channels m.topic
        · rw [if_pos ⟨rfl, hi⟩, if_pos hi, if_pos hi, List.countP_cons_of_pos (by simp)]
          exact Nat.add_comm _ _
        · rw [if_neg fun h => hi h.2, if_neg hi, if_neg hi]
      · rw [if_neg fun h => htopic h.1, List.countP_cons_of_neg (by simpa using htopic), Nat.zero_add]

theorem pendingIn_remaining (channels : Topic → List Nat) (caller : Option Nat) (m : Notice)
    (left : List Nat) (later : List Notice) (topic : Topic) (i : Nat) :
    pendingIn channels topic i (remaining channels caller m left later) =
      (if m.topic = topic ∧ i ∈ left then 1 else 0) +
        if i ∈ channels topic then later.countP (fun m => m.topic = topic) else 0 := by
  cases left with
  | nil =>
    rw [if_neg fun h => List.not_mem_nil h.2, Nat.zero_add]
    exact pendingIn_upcoming channels caller later topic i
  | cons j js => rfl

/-- What is in the channels of a goroutine and what is still sent fits. -/
def Fits (n : Loops) (i : Nat) : Prop :=
  ∀ topic, ((n.goroutines i).chan topic).length + n.pending topic i ≤
    (n.goroutines i).kind.capacity topic

/-- **The condition on a step.**  A call is taken up only if its messages fit
into the channels of those who wait, and a goroutine begins to wait only if
what is still sent to it fits. -/
def HasRoom (n : Loops) : LoopStep → Prop
  | .processBlock messages =>
    ∀ i ∈ n.channels .tipChange, (n.goroutines i).position.Waits →
      ((n.goroutines i).chan .tipChange).length + messages.length ≤
        (n.goroutines i).kind.capacity .tipChange
  | .processTransaction message =>
    ∀ i ∈ n.channels .newTx, (n.goroutines i).position.Waits →
      ((n.goroutines i).chan .newTx).length + message.toList.length ≤
        (n.goroutines i).kind.capacity .newTx
  | .submit i => n.Fits i
  | .exit i => n.Fits i
  | _ => True

/-- The channels keep to their capacity, and those who wait have room. -/
structure Roomy (n : Loops) : Prop where
  bounded : ∀ i topic, ((n.goroutines i).chan topic).length ≤ (n.goroutines i).kind.capacity topic
  fits : ∀ i, (n.goroutines i).position.Waits → n.Fits i

theorem Roomy.not_deadlocked (h : n.Roomy) : ¬ n.Deadlocked := by
  rintro ⟨caller, m, left, later, i, hphase, hi, hfull, hwaits⟩
  have hfits := h.fits i hwaits m.topic
  have hpending : 1 ≤ n.pending m.topic i := by
    rw [pending, hphase, pendingIn, if_pos ⟨rfl, hi⟩]
    exact Nat.le_add_right 1 _
  omega

/-- One goroutine goes on, and the others have no more sent to them. -/
theorem Roomy.of_set (h : n.Roomy) (i : Nat)
    (hothers : ∀ j, j ≠ i → n'.goroutines j = n.goroutines j)
    (hpending : ∀ j, j ≠ i → ∀ topic, n'.pending topic j ≤ n.pending topic j)
    (hbounded : ∀ topic, ((n'.goroutines i).chan topic).length ≤
      (n'.goroutines i).kind.capacity topic)
    (hfits : (n'.goroutines i).position.Waits → n'.Fits i) : n'.Roomy := by
  constructor
  · intro j topic
    by_cases hj : j = i
    · rw [hj]
      exact hbounded topic
    · rw [hothers j hj]
      exact h.bounded j topic
  · intro j hwaits topic
    by_cases hj : j = i
    · subst hj
      exact hfits hwaits topic
    · rw [hothers j hj] at hwaits ⊢
      exact (Nat.add_le_add_left (hpending j hj topic) _).trans (h.fits j hwaits topic)

theorem goroutines_set_self (i : Nat) (g : Goroutine) : (n.set i g).goroutines i = g := by
  show Function.update n.goroutines i g i = g
  rw [Function.update_self]

theorem goroutines_set_ne {i j : Nat} (hj : j ≠ i) (g : Goroutine) :
    (n.set i g).goroutines j = n.goroutines j := by
  show Function.update n.goroutines i g j = n.goroutines j
  rw [Function.update_of_ne hj]

/-- A goroutine moves while nothing is sent or what is sent fits. -/
theorem Roomy.of_move {i : Nat} {position : ListenerState} (h : n.Roomy)
    (hgoroutines : n'.goroutines = n.goroutines)
    (hpending : ∀ j topic, n'.pending topic j ≤ n.pending topic j)
    (hfits : position.Waits → n'.Fits i) : (n'.move i position).Roomy := by
  have hself : (n'.move i position).goroutines i =
      { n.goroutines i with position := position } := by
    rw [move, goroutines_set_self, hgoroutines]
  refine h.of_set i ?_ (fun j _ topic => hpending j topic) ?_ ?_
  · intro j hj
    rw [move, goroutines_set_ne hj, hgoroutines]
  · rw [hself]
    exact h.bounded i
  · intro hwaits topic
    rw [hself] at hwaits ⊢
    have := hfits hwaits topic
    rw [hgoroutines] at this
    exact this

theorem pending_selecting (h : n.phase = .selecting) (topic : Topic) (i : Nat) :
    n.pending topic i = 0 := by
  rw [pending, h]
  rfl

/-- A goroutine moves while nothing is sent. -/
theorem Roomy.of_selecting (h : n.Roomy) (hgoroutines : n'.goroutines = n.goroutines)
    (hphase : n'.phase = .selecting) (i : Nat) (position : ListenerState) :
    (n'.move i position).Roomy := by
  refine h.of_move hgoroutines (fun j topic => ?_) fun _ topic => ?_
  · rw [pending_selecting hphase]
    exact Nat.zero_le _
  · rw [pending_selecting hphase, hgoroutines]
    exact h.bounded i topic

/-- A channel is registered or unregistered. -/
theorem Roomy.of_setChannels (h : n.Roomy) (hphase : n.phase = .selecting) (topic : Topic)
    (channels : List Nat) (i : Nat) (position : ListenerState) :
    ((n.setChannels topic channels).move i position).Roomy := by
  refine h.of_selecting ?_ ?_ i position
  · rfl
  · exact hphase

/-- A call begins: nothing but the phase matters. -/
theorem Roomy.of_call {caller : Option Nat} {ms : List Notice} (h : n.Roomy)
    (hgoroutines : n'.goroutines = n.goroutines)
    (hphase : n'.phase = upcoming n'.channels caller ms)
    (hroom : ∀ topic, ∀ i ∈ n'.channels topic, (n.goroutines i).position.Waits →
      ((n.goroutines i).chan topic).length + ms.countP (fun m => m.topic = topic) ≤
        (n.goroutines i).kind.capacity topic) : n'.Roomy := by
  constructor
  · rw [hgoroutines]
    exact h.bounded
  · intro i hwaits topic
    rw [pending, hphase, pendingIn_upcoming, hgoroutines]
    rw [hgoroutines] at hwaits
    split_ifs with hi
    · exact hroom topic i hi hwaits
    · exact h.bounded i topic

theorem countP_tipChange (ms : List TipChange) (topic : Topic) :
    (ms.map Notice.tipChange).countP (fun m => m.topic = topic) =
      if topic = .tipChange then ms.length else 0 := by
  rw [List.countP_map]
  cases topic with
  | tipChange => exact List.countP_eq_length.mpr fun _ _ => rfl
  | newTx => exact List.countP_eq_zero.mpr fun _ _ => nofun

theorem countP_newTx (ms : List NewTx) (topic : Topic) :
    (ms.map Notice.newTx).countP (fun m => m.topic = topic) =
      if topic = .newTx then ms.length else 0 := by
  rw [List.countP_map]
  cases topic with
  | tipChange => exact List.countP_eq_zero.mpr fun _ _ => nofun
  | newTx => exact List.countP_eq_length.mpr fun _ _ => rfl

/-- The message goes to one of the channels, and is not pending there any more. -/
theorem Roomy.send {i : Nat} {caller : Option Nat} {m : Notice} {left : List Nat}
    {later : List Notice} (h : n.Roomy) (hphase : n.phase = .sending caller m left later)
    (hi : i ∈ left)
    (hroom : ((n.goroutines i).chan m.topic).length < (n.goroutines i).kind.capacity m.topic) :
    ({ n with phase := remaining n.channels caller m (left.filter (· ≠ i)) later }.set i
      { n.goroutines i with
        chan := Function.update (n.goroutines i).chan m.topic
          ((n.goroutines i).chan m.topic ++ [m]) }).Roomy := by
  have hpending (j : Nat) (topic : Topic) : n.pending topic j =
      (if m.topic = topic ∧ j ∈ left then 1 else 0) +
        if j ∈ n.channels topic then later.countP (fun m => m.topic = topic) else 0 := by
    rw [pending, hphase, pendingIn]
  refine h.of_set i (fun j hj => goroutines_set_ne hj _) (fun j hj topic => ?_) ?_ ?_
  · rw [hpending]
    show pendingIn n.channels topic j (remaining _ _ _ _ _) ≤ _
    rw [pendingIn_remaining]
    simp [List.mem_filter, hj]
  · intro topic
    rw [goroutines_set_self]
    by_cases htopic : topic = m.topic
    · subst htopic
      simp only [Function.update_self, List.length_append, List.length_singleton]
      exact hroom
    · simp only [Function.update_of_ne htopic]
      exact h.bounded i topic
  · intro hwaits topic
    rw [goroutines_set_self] at hwaits ⊢
    have hfits := h.fits i hwaits topic
    rw [hpending] at hfits
    show _ + pendingIn n.channels topic i (remaining _ _ _ _ _) ≤ _
    rw [pendingIn_remaining, if_neg (by simp)]
    by_cases htopic : topic = m.topic
    · subst htopic
      rw [if_pos ⟨rfl, hi⟩] at hfits
      simp only [Function.update_self, List.length_append, List.length_singleton]
      omega
    · rw [if_neg fun hm => htopic hm.1.symm] at hfits
      simp only [Function.update_of_ne htopic]
      exact hfits

/-- Reading makes room. -/
theorem Roomy.receive {i : Nat} {topic : Topic} {ms : List Notice} (h : n.Roomy)
    (hposition : (n.goroutines i).position = .selecting)
    (hchan : (n.goroutines i).chan topic = m :: ms) :
    (n.set i { n.goroutines i with
      chan := Function.update (n.goroutines i).chan topic ms }).Roomy := by
  refine h.of_set i (fun j hj => goroutines_set_ne hj _) (fun _ _ _ => le_rfl) ?_ ?_
  · intro topic'
    rw [goroutines_set_self]
    by_cases htopic : topic' = topic
    · subst htopic
      have hbounded := h.bounded i topic'
      rw [hchan] at hbounded
      simp only [Function.update_self]
      exact (Nat.le_succ _).trans hbounded
    · simp only [Function.update_of_ne htopic]
      exact h.bounded i topic'
  · rw [goroutines_set_self, hposition]
    exact False.elim

theorem Roomy.step (h : n.Roomy) (hl : n.HasRoom l) (hs : n.step l = some n') : n'.Roomy := by
  cases took_of_step hs with
  | @start i kind _ =>
    refine h.of_set i (fun j hj => goroutines_set_ne hj _) (fun _ _ _ => le_rfl) ?_ ?_
    · rw [goroutines_set_self]
      exact fun _ => Nat.zero_le _
    · rw [goroutines_set_self]
      exact False.elim
  | register_tipChange hphase _ => exact h.of_setChannels hphase _ _ _ _
  | register_newTx hphase _ => exact h.of_setChannels hphase _ _ _ _
  | receive hposition hchan => exact h.receive hposition hchan
  | submit _ => exact h.of_move rfl (fun _ _ => le_rfl) fun _ => hl
  | @enqueue i hposition _ =>
    refine h.of_move rfl (fun _ _ => le_rfl) fun _ => h.fits i ?_
    rw [hposition]
    trivial
  | request _ => exact ⟨h.bounded, h.fits⟩
  | requestTransaction _ => exact ⟨h.bounded, h.fits⟩
  | processBlock _ _ =>
    refine h.of_call rfl rfl fun topic i hi hwaits => ?_
    rw [countP_tipChange]
    split_ifs with htopic
    · subst htopic
      exact hl i hi hwaits
    · exact h.bounded i topic
  | processTransaction _ _ =>
    refine h.of_call rfl rfl fun topic i hi hwaits => ?_
    rw [countP_newTx]
    split_ifs with htopic
    · subst htopic
      exact hl i hi hwaits
    · exact h.bounded i topic
  | send hphase hi hroom => exact h.send hphase hi hroom
  | @reply caller _ =>
    cases caller with
    | none =>
      refine ⟨h.bounded, fun i _ topic => ?_⟩
      rw [pending_selecting rfl]
      exact h.bounded i topic
    | some i =>
      refine h.of_selecting ?_ ?_ i .selecting
      · rfl
      · rfl
  | exit _ => exact h.of_move rfl (fun _ _ => le_rfl) fun _ => hl
  | unregister_newTx hphase _ => exact h.of_setChannels hphase _ _ _ _
  | unregister_tipChange hphase _ => exact h.of_setChannels hphase _ _ _ _

theorem roomy_of_reach (h : Reach Start step HasRoom n) : n.Roomy := by
  refine h.invariant ?_ fun _ _ _ h hl hs => h.step hl hs
  rintro _ rfl
  exact ⟨fun _ _ => Nat.zero_le _, fun _ hwaits => hwaits.elim⟩

/-- **No deadlock.**  In every run whose steps have room, the processor never
sends to a full channel whose reader waits for the processor. -/
theorem never_deadlocked (h : Reach Start step HasRoom n) : ¬ n.Deadlocked :=
  (roomy_of_reach h).not_deadlocked

/-- A miner's own block is processed while it waits, and the message about it
is in its channel when it gets the result. -/
theorem never_deadlocked_miner :
    ∃ n, Reach Start step HasRoom n ∧ (n.goroutines 0).position = .awaiting ∧
      ((n.goroutines 0).chan .tipChange).length = 1 ∧ ¬ n.Deadlocked := by
  have hstart : Reach Start step HasRoom initial := .init rfl
  have hready := hstart.steps_of (by simp [HasRoom])
    (show steps step initial [.start 0 .miner, .register 0, .register 0] = some _ from rfl)
  have hsubmit := hready.next (l := .submit 0) (by rintro (_ | _) <;> decide) rfl
  have hcalled := hsubmit.steps_of (by simp [HasRoom])
    (show steps step _ [.enqueue 0] = some _ from rfl)
  have htaken := hcalled.next
    (l := .processBlock [.up "" false (genesisEntry Sample.crypto)]) (by
      intro i hi _
      obtain rfl := List.mem_singleton.mp hi
      exact le_refl 1) rfl
  have hsent := htaken.steps_of (by simp [HasRoom])
    (show steps step _ [.send 0] = some _ from rfl)
  exact ⟨_, hsent, rfl, rfl, never_deadlocked hsent⟩

/-! ### The deadlock -/

/-- A deadlock that is between the processor and the given goroutine. -/
structure StuckAt (n : Loops) (i : Nat) (caller : Option Nat) (m : Notice) (left : List Nat)
    (later : List Notice) : Prop where
  phase : n.phase = .sending caller m left later
  mem : i ∈ left
  full : (n.goroutines i).kind.capacity m.topic ≤ ((n.goroutines i).chan m.topic).length
  waits : (n.goroutines i).position.Waits

variable {i : Nat} {caller : Option Nat} {m : Notice} {left : List Nat} {later : List Notice}

theorem StuckAt.deadlocked (h : n.StuckAt i caller m left later) : n.Deadlocked :=
  ⟨caller, m, left, later, i, h.phase, h.mem, h.full, h.waits⟩

/-- Somebody else goes on. -/
theorem StuckAt.set (h : n.StuckAt i caller m left later) {j : Nat} (hj : i ≠ j) (g : Goroutine) :
    (n.set j g).StuckAt i caller m left later := by
  have hi : (n.set j g).goroutines i = n.goroutines i := goroutines_set_ne hj g
  exact ⟨h.phase, h.mem, by rw [hi]; exact h.full, by rw [hi]; exact h.waits⟩

/-- Whoever does not wait is somebody else. -/
theorem StuckAt.set_of_position (h : n.StuckAt i caller m left later) {j : Nat}
    {position : ListenerState} (hposition : (n.goroutines j).position = position)
    (hj : ¬ position.Waits) (g : Goroutine) : (n.set j g).StuckAt i caller m left later := by
  refine h.set ?_ g
  rintro rfl
  exact hj (hposition ▸ h.waits)

theorem StuckAt.not_selecting (h : n.StuckAt i caller m left later) : n.phase ≠ .selecting := by
  rw [h.phase]
  exact nofun

/-- A goroutine that was about to send its block waits for the result. -/
theorem StuckAt.enqueue (h : n.StuckAt i caller m left later) (j : Nat) :
    ({ n with blockChan := n.blockChan ++ [some j] }.move j .awaiting).StuckAt i caller m left
      later := by
  by_cases hj : i = j
  · subst hj
    refine ⟨h.phase, h.mem, ?_, ?_⟩
    · rw [move, goroutines_set_self]
      exact h.full
    · rw [move, goroutines_set_self]
      trivial
  · have hkept : ({ n with blockChan := n.blockChan ++ [some j] } : Loops).StuckAt i caller m left
        later := ⟨h.phase, h.mem, h.full, h.waits⟩
    exact hkept.set hj _

/-- The message gets to another channel. -/
theorem StuckAt.send (h : n.StuckAt i caller m left later) {j : Nat} (hj : i ≠ j)
    (g : Goroutine) :
    ({ n with phase := remaining n.channels caller m (left.filter (· ≠ j)) later }.set j g).StuckAt
      i caller m (left.filter (· ≠ j)) later := by
  have hi : i ∈ left.filter (· ≠ j) := List.mem_filter.mpr ⟨h.mem, decide_eq_true hj⟩
  obtain ⟨k, ks, hks⟩ := List.exists_cons_of_ne_nil (List.ne_nil_of_mem hi)
  have hrest : ({ n with phase := remaining n.channels caller m (left.filter (· ≠ j)) later } :
      Loops).StuckAt i caller m (left.filter (· ≠ j)) later := by
    refine ⟨?_, hi, h.full, h.waits⟩
    show remaining _ _ _ _ _ = _
    rw [hks]
    rfl
  exact hrest.set hj g

/-- **A deadlock is for ever.**  The goroutine does not read and the processor
does not get on. -/
theorem StuckAt.step (h : n.StuckAt i caller m left later) (hs : n.step l = some n') :
    ∃ left', n'.StuckAt i caller m left' later := by
  cases took_of_step hs with
  -- goroutines that do not wait
  | start hposition => exact ⟨left, h.set_of_position hposition id _⟩
  | receive hposition _ => exact ⟨left, h.set_of_position hposition id _⟩
  | submit hposition => exact ⟨left, h.set_of_position hposition id _⟩
  | exit hposition => exact ⟨left, h.set_of_position hposition id _⟩
  | @enqueue j _ _ => exact ⟨left, h.enqueue j⟩
  | request _ => exact ⟨left, h.phase, h.mem, h.full, h.waits⟩
  | requestTransaction _ => exact ⟨left, h.phase, h.mem, h.full, h.waits⟩
  | @send j _ _ _ _ hphase _ hroom =>
    obtain ⟨rfl, rfl, rfl, rfl⟩ := Phase.sending.inj (h.phase.symm.trans hphase)
    refine ⟨_, h.send ?_ _⟩
    rintro rfl
    exact absurd hroom (Nat.not_lt.mpr h.full)
  -- the processor is not in its select, and has no result
  | register_tipChange hphase _ => exact absurd hphase h.not_selecting
  | register_newTx hphase _ => exact absurd hphase h.not_selecting
  | unregister_newTx hphase _ => exact absurd hphase h.not_selecting
  | unregister_tipChange hphase _ => exact absurd hphase h.not_selecting
  | processBlock hphase _ => exact absurd hphase h.not_selecting
  | processTransaction hphase _ => exact absurd hphase h.not_selecting
  | reply hphase => exact absurd (h.phase.symm.trans hphase) nofun

theorem StuckAt.forever (h : n.StuckAt i caller m left later)
    (hrun : Transition.Run (· = n) Loops.step n') : n'.Deadlocked := by
  have hstuck : ∃ left', n'.StuckAt i caller m left' later := by
    refine hrun.invariant (I := fun n => ∃ left', n.StuckAt i caller m left' later) ?_ ?_
    · rintro _ rfl
      exact ⟨left, h⟩
    · rintro _ _ _ ⟨left', h⟩ - hs
      exact h.step hs
  obtain ⟨left', h'⟩ := hstuck
  exact h'.deadlocked

/-- **A miner and the processor wait for each other.**  Two blocks are in the
channel before the miner's own, and each becomes the tip.  The first message
fills the miner's channel, and the processor waits to send the second one. -/
theorem miner_deadlocked :
    ∃ n, Transition.Run Start step n ∧ (n.goroutines 0).position = .awaiting ∧
      (n.goroutines 0).chan .tipChange = [.tipChange (.up "" false (Sample.entry 0 1))] ∧
      n.phase = .sending none (.tipChange (.up "" false (Sample.entry 0 2))) [0] [] ∧
      ∀ n', Transition.Run (· = n) step n' → n'.Deadlocked := by
  have hstart : Transition.Run Start step initial := .init rfl
  have hsteps : steps step initial
      [.start 0 .miner, .register 0, .register 0, .request, .request, .submit 0, .enqueue 0,
        .processBlock [.up "" false (Sample.entry 0 1)], .send 0, .reply,
        .processBlock [.up "" false (Sample.entry 0 2)]] = some _ := rfl
  refine ⟨_, hstart.steps hsteps, rfl, rfl, rfl, fun n' hrun => ?_⟩
  refine StuckAt.forever ⟨rfl, List.mem_singleton.mpr rfl, ?_, ?_⟩ hrun
  · exact le_refl 1
  · trivial

end Loops

/-! ### With the processor -/

/-- The loops around a processor that carries out the calls. -/
structure Live where
  processor : Processor
  loops : Loops

inductive LiveStep
  | block (block : Block) (now : Int) (source : String)
  | transaction (tx : Transaction) (source : String)
  | other (l : LoopStep)

namespace Live

variable (crypto : Crypto) (prune : Bool)

/-- The message about a transaction, if it has just been queued. -/
def newTx (s s' : Processor) (tx : Transaction) (source : String) : Option NewTx :=
  if s.txQueue.txMap.contains (tx.id crypto) = false ∧
      s'.txQueue.txMap.contains (tx.id crypto) = true then
    some ⟨tx.id crypto, tx, source⟩
  else none

/-- The processor after a step. -/
def next (s : Live) : LiveStep → Processor
  | .block b now source => (s.processor.step crypto prune (.block b now source)).1
  | .transaction tx _ => (s.processor.step crypto prune (.transaction tx)).1
  | .other _ => s.processor

/-- What the loops see of a step: a call sends what the processor sends. -/
def label (s : Live) : LiveStep → LoopStep
  | .block b now source =>
    .processBlock (s.processor.sent (s.next crypto prune (.block b now source)))
  | .transaction tx source =>
    .processTransaction
      (newTx crypto s.processor (s.next crypto prune (.transaction tx source)) tx source)
  | .other l => l

def step (s : Live) (l : LiveStep) : Option Live :=
  match l with
  | .other (.processBlock _) => none
  | .other (.processTransaction _) => none
  | l => (s.loops.step (s.label crypto prune l)).map fun loops => ⟨s.next crypto prune l, loops⟩

/-- Genesis has been processed before the others start. -/
def Start (s : Live) : Prop :=
  s.loops = .initial ∧ ∃ now source,
    Processor.new.step crypto prune (.block genesisBlock now source) = (s.processor, .ok ())

def HasRoom (s : Live) (l : LiveStep) : Prop := s.loops.HasRoom (s.label crypto prune l)

variable {crypto prune} {s s' : Live} {l : LiveStep}

theorem step_eq_some (hs : s.step crypto prune l = some s') :
    s.loops.step (s.label crypto prune l) = some s'.loops ∧
      s'.processor = s.next crypto prune l := by
  unfold step at hs
  split at hs
  · exact absurd hs nofun
  · exact absurd hs nofun
  · obtain ⟨loops, hloops, rfl⟩ := Option.map_eq_some_iff.mp hs
    exact ⟨hloops, rfl⟩

/-- A run with the processor is a run of the loops. -/
theorem reach_loops (h : Reach (Start crypto prune) (step crypto prune) (HasRoom crypto prune) s) :
    Reach Loops.Start Loops.step Loops.HasRoom s.loops := by
  induction h with
  | init hstart => exact .init hstart.1
  | next _ hroom hs ih => exact .next ih hroom (step_eq_some hs).1

theorem reachable (h : Transition.Run (Start crypto prune) (step crypto prune) s) :
    Reachable crypto prune s.processor := by
  induction h with
  | init hstart =>
    obtain ⟨-, now, source, hok⟩ := hstart
    exact .genesis now source hok
  | @next s s' l _ _ hs ih =>
    rw [(step_eq_some hs).2]
    cases l with
    | block b now source => exact .call _ ih trivial
    | transaction tx source => exact .call _ ih trivial
    | other l => exact ih

/-- The processor itself does not get into a deadlock if there is room for what it sends. -/
theorem not_deadlocked
    (h : Reach (Start crypto prune) (step crypto prune) (HasRoom crypto prune) s) :
    ¬ s.loops.Deadlocked :=
  (Loops.roomy_of_reach (reach_loops h)).not_deadlocked

end Live

end Cruzbit

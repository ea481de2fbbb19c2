/-
Cruzbit/Notifications.lean

The processor's main loop with its registered listeners.  A listener is sent
every `TipChange` from its registration on.  Miners and mining peers rebuild
their work only on a message with `Connect` set and `More` not set, so such a
message must come last and name the tip, also when a reorganisation fails and
is rolled back.

`Sync.mirrored` says that all messages ever sent lead to the main chain, at
every moment.  What a listener has received is a final segment of them
(`Hub.Run.attended`), so it leads from the main chain at its registration to
the current one.
-/
import Cruzbit.BestChain
import Cruzbit.Money

namespace Cruzbit

open Chain

/-- The main chain, newest block first. -/
def Processor.mainChain (s : Processor) : Chain :=
  match s.ledger.chainTip with
  | none => []
  | some (_, tipHeight) => mainChainBelow s.blockStore s.ledger (tipHeight + 1).toNat

/-- The messages sent between two states. -/
def Processor.sent (s s' : Processor) : List TipChange := s'.tipChanges.drop s.tipChanges.length

/-- A message sent to registered new transaction channels when a transaction
is queued. -/
structure NewTx where
  transactionID : TransactionID
  transaction : Transaction
  source : String

/-- A registered channel: the processor at its registration, and the messages
sent to it since then. -/
structure Listener where
  channel : Nat
  since : Processor
  received : List TipChange

/-- The processor with its registered channels. -/
structure Hub where
  processor : Processor
  listeners : List Listener

/-- What the main loop of the processor selects. -/
inductive Hub.Call
  | process (call : Cruzbit.Call)
  | register (channel : Nat)
  | unregister (channel : Nat)

namespace Hub

variable (crypto : Crypto) (prune : Bool)

/-- Carry out a call.  A channel is registered at most once. -/
def step (hub : Hub) : Hub.Call → Hub
  | .process call =>
    let processor := (hub.processor.step crypto prune call).1
    ⟨processor, hub.listeners.map fun l =>
      { l with received := l.received ++ hub.processor.sent processor }⟩
  | .register channel =>
    if hub.listeners.any fun l => l.channel = channel then hub
    else { hub with listeners := ⟨channel, hub.processor, []⟩ :: hub.listeners }
  | .unregister channel =>
    { hub with listeners := hub.listeners.filter fun l => l.channel ≠ channel }

/-- Channels registered on empty databases. -/
def start (channels : List Nat) : Hub :=
  ⟨.new, channels.map fun channel => ⟨channel, .new, []⟩⟩

/-- The runs of the loop: genesis is processed first. -/
inductive Run : Hub → Prop
  | genesis (channels : List Nat) (now : Int) (source : String) :
      (Processor.new.step crypto prune (.block genesisBlock now source)).2 = .ok () →
      Run ((start channels).step crypto prune (.process (.block genesisBlock now source)))
  | step {hub : Hub} (call : Hub.Call) : Run hub → Run (hub.step crypto prune call)

end Hub

/-- The messages, if there are any, end with one that says that the tip is
connected, and no other says so. -/
def Concludes (tip : Option (BlockID × Int)) (messages : List TipChange) : Prop :=
  messages = [] ∨ ∃ quiet last, messages = quiet ++ [last] ∧
    (last.connect = true ∧ last.more = false) ∧
    (∀ m ∈ quiet, ¬ (m.connect = true ∧ m.more = false)) ∧
    tip = some (last.blockID, last.block.header.height)

section Notifications

variable {crypto : Crypto} {prune : Bool} {P : Transaction → Prop} {Q : Processor → Prop}
  {A : Call → Prop} {s s' : Processor} {c : Chain} {K : Set BlockID} {t : BlockID × Block}

theorem Leads.cancel {c₀ c₁ c₂ : Chain} {ms ms' : List TipChange} (h : Leads c₀ ms c₁)
    (h' : Leads c₀ (ms ++ ms') c₂) : Leads c₁ ms' c₂ := by
  rw [Leads, List.foldlM_append, show ms.foldlM TipChange.replay c₀ = some c₁ from h] at h'
  exact h'

theorem Announced.tipChanges_eq (h : Announced s s' t) :
    s'.tipChanges = s.tipChanges ++ s.sent s' := by
  rcases h with h | ⟨source, messages, -, h⟩
  · rw [Processor.sent, h, List.drop_length, List.append_nil]
  · rw [Processor.sent, h, List.append_assoc, List.drop_left]

theorem Announced.concludes (h : Announced s s' t) (hs : Settled crypto prune P Q s' (t :: c) K) :
    Concludes s'.ledger.chainTip (s.sent s') := by
  rcases h with h | ⟨source, messages, hquiet, h⟩
  · left
    rw [Processor.sent, h, List.drop_length]
  · refine Or.inr ⟨messages, .up source false t, ?_, ⟨rfl, rfl⟩, ?_, ?_⟩
    · rw [Processor.sent, h, List.append_assoc, List.drop_left]
    · rintro m hm ⟨hconnect, hmore⟩
      exact absurd ((hquiet m hm hconnect).symm.trans hmore) (by simp)
    · rw [hs.describes.chainTip]
      show some (t.1, ((t :: c).length : Int) - 1) = some (t.1, t.2.header.height)
      rw [hs.valid.head.height, List.length_cons, Nat.cast_succ, add_sub_cancel_right]

/-- **Every call announces** the tip it leaves. -/
theorem Settled.step_announced (h : Settled crypto prune P Q s c K) (hQ : Q s) {call : Call}
    (hP : call.Vouches crypto P) :
    ∃ t c' K', Settled crypto prune P Q (s.step crypto prune call).1 (t :: c') K' ∧
      Announced s (s.step crypto prune call).1 t := by
  obtain ⟨t, c, rfl⟩ := List.exists_cons_of_ne_nil h.admitted.ne_nil
  cases call with
  | transaction tx =>
    obtain ⟨hs, -, -, htips⟩ := h.processTransaction_settled hP
    exact ⟨t, c, K, hs, Or.inl htips⟩
  | block b now source =>
    have hout := h.processBlock_cases hQ source hP
    generalize (s.step crypto prune (.block b now source)).1 = s',
      (s.step crypto prune (.block b now source)).2 = r at hout ⊢
    cases hout with
    | known _ => exact ⟨t, c, K, h, Or.inl rfl⟩
    | refused _ _ => exact ⟨t, c, K, h, Or.inl rfl⟩
    | judged _ _ _ hv =>
      cases hv with
      | side hs htips => exact ⟨t, c, _, hs, Or.inl htips⟩
      | moved hs hmoved => exact ⟨_, _, _, hs, hmoved.announced⟩
      | rejected _ _ hs _ hundone => exact ⟨t, c, K, hs, (hundone t c rfl).announced⟩

/-- Processing genesis announces it. -/
theorem genesis_concludes (now : Int) (source : String) :
    Concludes (Processor.new.step crypto prune (.block genesisBlock now source)).1.ledger.chainTip
      (Processor.new.sent (Processor.new.step crypto prune (.block genesisBlock now source)).1) := by
  cases hchk : checkBlock crypto (genesisBlock.id crypto) genesisBlock now with
  | error e =>
    left
    have hunknown : Processor.new.ledger.getBranchType (genesisBlock.id crypto) = .unknown := by
      simp [Ledger.getBranchType, Processor.new, Ledger.empty]
    simp only [Processor.step, Processor.processBlock, hunknown, ne_eq, not_true_eq_false, if_false,
      hchk]
    rfl
  | ok u =>
    obtain ⟨s, hok, hs, -, htips⟩ :
        ∃ s, Processor.new.step crypto prune (.block genesisBlock now source) = (s, .ok ()) ∧
          Settled crypto prune (fun _ => True) (fun _ => True) s _ _ ∧ _ ∧ _ :=
      genesis_step source hchk
    rw [hok]
    exact Announced.concludes (Or.inr ⟨source, [], fun m hm => absurd hm List.not_mem_nil, htips⟩) hs

theorem Placed.mainChain_eq (h : Placed crypto prune P Q s c K) : s.mainChain = c := by
  obtain ⟨t, d, rfl⟩ := List.exists_cons_of_ne_nil h.admitted.ne_nil
  have hlen : (((t :: d).length : Int) - 1 + 1).toNat = (t :: d).length := by omega
  simp only [Processor.mainChain, h.describes.chainTip, List.head?_cons, Option.map_some, hlen]
  exact OnChain.mainChainBelow_eq (d := []) h.onChain

/-- All messages ever sent lead to the main chain. -/
theorem Reachable.mirrored (h : Reachable crypto prune s) : Leads [] s.tipChanges s.mainChain := by
  obtain ⟨c, K, hs⟩ := h.settled
  rw [hs.mainChain_eq]
  exact hs.mirrored

/-- The processor is reachable, and each listener has received what was sent
since its registration. -/
structure Hub.Attended (crypto : Crypto) (prune : Bool) (hub : Hub) : Prop where
  reachable : Reachable crypto prune hub.processor
  since : ∀ l ∈ hub.listeners, l.since = .new ∨ Reachable crypto prune l.since
  received : ∀ l ∈ hub.listeners, hub.processor.tipChanges = l.since.tipChanges ++ l.received

/-- **One call** of the main loop. -/
theorem Hub.Attended.step {hub : Hub} (h : hub.Attended crypto prune) (call : Hub.Call) :
    (hub.step crypto prune call).Attended crypto prune := by
  cases call with
  | process call =>
    obtain ⟨c, K, hs⟩ := h.reachable.settled
    obtain ⟨t, c', K', -, hsent⟩ := hs.step_announced h.reachable (vouches_true call)
    refine ⟨.call call h.reachable trivial, fun l' hl' => ?_, fun l' hl' => ?_⟩
    · obtain ⟨l, hl, rfl⟩ := List.mem_map.mp hl'
      exact h.since l hl
    · obtain ⟨l, hl, rfl⟩ := List.mem_map.mp hl'
      show (hub.processor.step crypto prune call).1.tipChanges = _
      rw [hsent.tipChanges_eq, h.received l hl, List.append_assoc]
  | register channel =>
    simp only [Hub.step]
    split_ifs
    · exact h
    · refine ⟨h.reachable, List.forall_mem_cons.mpr ⟨Or.inr h.reachable, h.since⟩,
        List.forall_mem_cons.mpr ⟨?_, h.received⟩⟩
      exact (List.append_nil _).symm
  | unregister channel =>
    exact ⟨h.reachable, fun l hl => h.since l (List.mem_of_mem_filter hl),
      fun l hl => h.received l (List.mem_of_mem_filter hl)⟩

theorem Hub.Run.attended {hub : Hub} (h : Hub.Run crypto prune hub) :
    hub.Attended crypto prune := by
  induction h with
  | genesis channels now source hok =>
    refine ⟨.genesis now source (Prod.ext rfl hok), fun l hl => ?_, fun l hl => ?_⟩
    · obtain ⟨l₀, hl₀, rfl⟩ := List.mem_map.mp hl
      obtain ⟨channel, -, rfl⟩ := List.mem_map.mp hl₀
      exact Or.inl rfl
    · obtain ⟨l₀, hl₀, rfl⟩ := List.mem_map.mp hl
      obtain ⟨channel, -, rfl⟩ := List.mem_map.mp hl₀
      rfl
  | step call _ ih => exact ih.step call

theorem Hub.Run.steps {hub : Hub} (h : Hub.Run crypto prune hub) (calls : List Hub.Call) :
    Hub.Run crypto prune (calls.foldl (Hub.step crypto prune) hub) := by
  induction calls generalizing hub with
  | nil => exact h
  | cons call calls ih => exact ih (h.step call)

/-- **Tip notifications mirror the chain.** -/
theorem tip_notifications {hub : Hub} (h : Hub.Run crypto prune hub) :
    (∀ l ∈ hub.listeners, Leads l.since.mainChain l.received hub.processor.mainChain) ∧
    (∀ call, Concludes (hub.processor.step crypto prune call).1.ledger.chainTip
      (hub.processor.sent (hub.processor.step crypto prune call).1)) ∧
    ∀ now source, Concludes
      (Processor.new.step crypto prune (.block genesisBlock now source)).1.ledger.chainTip
      (Processor.new.sent (Processor.new.step crypto prune (.block genesisBlock now source)).1) := by
  have hub_attended := h.attended
  refine ⟨?_, ?_, genesis_concludes⟩
  · intro l hl
    have hnow := hub_attended.reachable.mirrored
    rw [hub_attended.received l hl] at hnow
    rcases hub_attended.since l hl with hnew | hsince
    · rw [hnew] at hnow ⊢
      exact hnow
    · exact hsince.mirrored.cancel hnow
  · intro call
    obtain ⟨c, K, hs⟩ := hub_attended.reachable.settled
    obtain ⟨t, c', K', hs', hsent⟩ :=
      hs.step_announced hub_attended.reachable (vouches_true call)
    exact hsent.concludes hs'

/-- The fork of the sample chain, a reorganisation that fails, a second listener
and a reorganisation that succeeds. -/
def Sample.notified : Hub :=
  [.process (.block Sample.sibling (Sample.time 1 + 7) ""),
    .process (.block (Sample.block 0 1) (Sample.time 1 + 8) ""),
    .process (.block Sample.unpaid (Sample.time 2 + 7) ""), .register 1,
    .process (.block (Sample.block 0 2) (Sample.time 2 + 8) "")].foldl
    (Hub.step Sample.crypto false)
    ((Hub.start [0]).step Sample.crypto false (.process genesisBlock.call))

theorem notification_of_reorganisations :
    ∃ late first, Hub.Run Sample.crypto false Sample.notified ∧
      Sample.notified.listeners = [late, first] ∧
      first.received =
        [.up "" false (Sample.entry 0 0),
          .up "" false (Sample.sibling.id Sample.crypto, Sample.sibling),
          .down "" (Sample.sibling.id Sample.crypto, Sample.sibling),
          .up "" true (Sample.entry 0 1), .down "" (Sample.entry 0 1),
          .up "" false (Sample.sibling.id Sample.crypto, Sample.sibling),
          .down "" (Sample.sibling.id Sample.crypto, Sample.sibling),
          .up "" true (Sample.entry 0 1), .up "" false (Sample.entry 0 2)] ∧
      late.received =
        [.down "" (Sample.sibling.id Sample.crypto, Sample.sibling), .up "" true (Sample.entry 0 1),
          .up "" false (Sample.entry 0 2)] ∧
      Leads first.since.mainChain first.received Sample.notified.processor.mainChain ∧
      Leads late.since.mainChain late.received Sample.notified.processor.mainChain := by
  have hrun : Hub.Run Sample.crypto false Sample.notified :=
    (Hub.Run.genesis [0] _ "" (Sample.genesis_ok false)).steps _
  obtain ⟨hforked, htips⟩ := Sample.fork_forked
  obtain ⟨hforked', -, htips'⟩ := hforked.refuses
  obtain ⟨-, -, htips''⟩ := hforked'.moves
  have hreceived := hrun.attended.received
  have hleads := (tip_notifications hrun).1
  obtain ⟨received', received, hlisteners⟩ : ∃ received' received, Sample.notified.listeners =
      [⟨1, (Sample.fork.step Sample.crypto false
        (.block Sample.unpaid (Sample.time 2 + 7) "")).1, received'⟩, ⟨0, .new, received⟩] :=
    ⟨_, _, rfl⟩
  rw [hlisteners] at hreceived hleads
  refine ⟨_, _, hrun, hlisteners, ?_, ?_, hleads _ (by simp), hleads _ (by simp)⟩
  · have hfirst := hreceived ⟨0, .new, received⟩ (by simp)
    refine hfirst.symm.trans (htips''.trans ?_)
    rw [htips', htips]
    rfl
  · have hlate := hreceived _ List.mem_cons_self
    exact List.append_cancel_left (hlate.symm.trans htips'')

end Notifications

end Cruzbit

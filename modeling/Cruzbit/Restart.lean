/-
Cruzbit/Restart.lean

The node stops at any moment and starts again from its databases.

A block costs one write to storage and then ledger writes, each of which is
one batch: a branch type, a connected block or a disconnected block.  A stop
leaves the databases as they are between two of these writes
(`Processor.databasesAt`), and on startup the processor runs on them with an
empty transaction queue and processes the genesis block (`Life`).

A reorganisation has several batches.  If the node stops between two of
them, the old tip is on a side branch and the main chain ends below it.
Nothing repairs that: the blocks above were processed already, so delivering
them again does nothing (`Settled.between_not_best`).  If no stop falls
between two batches of one call, every restart finds settled databases
(`Life.settled`), and the tip is the best known block at all times
(`restarted_tip_best`).
-/
import Cruzbit.Convergence

namespace Cruzbit

open Chain Lineage

/-! ### Stopping and starting -/

/-- What is on disk. -/
structure Databases where
  blockStore : BlockStorage
  ledger : Ledger

def Processor.databases (s : Processor) : Databases := ⟨s.blockStore, s.ledger⟩

/-- The databases when a batch of ledger writes is about to be made. -/
def Event.databases : Event → Option Databases
  | .connectBlock blockStore ledger _ => some ⟨blockStore, ledger⟩
  | .disconnectBlock blockStore ledger _ => some ⟨blockStore, ledger⟩
  | .reprocessQueue _ _ _ => none
  | .add _ _ _ => none

/-- The databases before each of the batches made between two states. -/
def Processor.batches (s s' : Processor) : List Databases :=
  (s'.events.drop s.events.length).filterMap Event.databases

/-- The moment in a call at which the node stops. -/
inductive Stop
  /-- Before the first write. -/
  | before
  /-- After the block was stored, before the first write to the ledger. -/
  | stored
  /-- Between two batches of ledger writes, `n + 1` of them made. -/
  | between (n : Nat)

/-- The stop does not fall between two batches. -/
def Stop.Clean : Stop → Prop
  | .between _ => False
  | _ => True

/-- The databases at which a call may stop.  After its last write, it is a stop
before the next call. -/
def Processor.databasesAt (crypto : Crypto) (prune : Bool) (s : Processor) (call : Call) :
    Stop → Option Databases
  | .before => some s.databases
  | .stored => some ⟨(s.step crypto prune call).1.blockStore, s.ledger⟩
  | .between n => (s.batches (s.step crypto prune call).1)[n + 1]?

/-- A processor on the databases found at startup.  The transaction queue is
lost.  The history is not part of the code and goes on. -/
def Processor.restart (s : Processor) (d : Databases) : Processor :=
  { s with blockStore := d.blockStore, ledger := d.ledger, txQueue := TransactionQueue.new }

/-- The states of a node over its life, with stops of the kind `A`.  The flag
says whether the genesis block has been processed since the last start: on
an error there the node does not come up. -/
inductive Life (crypto : Crypto) (prune : Bool) (A : Stop → Prop) : Bool → Processor → Prop
  | new : Life crypto prune A false Processor.new
  | boot {s s' : Processor} (now : Int) (source : String) : Life crypto prune A false s →
      s.step crypto prune (.block genesisBlock now source) = (s', .ok ()) →
      Life crypto prune A true s'
  | call {s : Processor} (call : Call) : Life crypto prune A true s →
      Life crypto prune A true (s.step crypto prune call).1
  | stop {s : Processor} {d : Databases} (call : Call) (stop : Stop) :
      Life crypto prune A true s → A stop → s.databasesAt crypto prune call stop = some d →
      Life crypto prune A false (s.restart d)
  | stopBoot {s : Processor} {d : Databases} (now : Int) (source : String) (stop : Stop) :
      Life crypto prune A false s → A stop →
      s.databasesAt crypto prune (.block genesisBlock now source) stop = some d →
      Life crypto prune A false (s.restart d)

/-- The calls deliver every block the node has processed again. -/
def Processor.Redelivers (crypto : Crypto) (s : Processor) (calls : List Call) : Prop :=
  ∀ id, s.ledger.Known id → ∃ b now source, Call.block b now source ∈ calls ∧ b.id crypto = id

/-- The tip is better than every other main or side branch block. -/
def Processor.BestTip (crypto : Crypto) (s : Processor) : Prop :=
  ∃ tip height, s.ledger.chainTip = some (tip, height) ∧
    ∀ id, s.ledger.Known id → id ≠ tip → Better crypto s.blockStore tip id

section Clean

variable {crypto : Crypto} {prune up : Bool} {P : Transaction → Prop} {Q : Processor → Prop}
  {s s' : Processor} {c : Chain} {K : Set BlockID} {d : Databases}

/-! ### Clean stops -/

theorem Settled.restart (h : Settled crypto prune P Q s c K) :
    Settled crypto prune P Q (s.restart s.databases) c K where
  describes := h.describes
  valid := h.valid
  stored := h.stored
  queue := TransactionQueue.wellFormed_new
  vouched := by simp [Processor.restart, TransactionQueue.new]
  exact := h.exact
  mirrored := h.mirrored
  unconfirmed := by simp [Unconfirmed, Processor.restart, TransactionQueue.new]
  admitted := h.admitted
  tree := h.tree
  best := h.best
  fresh := ⟨rfl, by simp [Processor.restart, TransactionQueue.new]⟩

/-- After a clean stop in a settled state the databases are settled. -/
theorem Settled.restart_clean (h : Settled crypto prune (fun _ => True) (fun _ => True) s c K)
    {call : Call} {stop : Stop} (hstop : stop.Clean)
    (hd : s.databasesAt crypto prune call stop = some d) :
    Settled crypto prune (fun _ => True) (fun _ => True) (s.restart d) c K := by
  cases stop with
  | between n => exact absurd hstop not_false
  | before =>
    obtain rfl := Option.some.inj hd
    exact h.restart
  | stored =>
    obtain rfl := Option.some.inj hd
    cases call with
    | transaction tx =>
      rw [(h.processTransaction_settled (vouches_true _)).2.2.1]
      exact h.restart
    | block b now source =>
      have hout := h.processBlock_cases trivial source (vouches_true (.block b now source))
      generalize (s.step crypto prune (.block b now source)).1 = s',
        (s.step crypto prune (.block b now source)).2 = r at hout ⊢
      cases hout with
      | known _ => exact h.restart
      | refused _ _ => exact h.restart
      | judged hpasses _ hstore _ =>
        rw [hstore]
        exact (h.store hpasses.unknown b now).restart

/-- With an empty ledger, a clean stop leaves it empty. -/
theorem Sync.restart_clean (h : Sync crypto prune (fun _ => True) s [] ∅) {call : Call}
    {stop : Stop} (hstop : stop.Clean) (hd : s.databasesAt crypto prune call stop = some d) :
    Sync crypto prune (fun _ => True) (s.restart d) [] ∅ := by
  have hledger : d.ledger = s.ledger := by
    cases stop with
    | between n => exact absurd hstop not_false
    | before => exact (congrArg Databases.ledger (Option.some.inj hd)).symm
    | stored => exact (congrArg Databases.ledger (Option.some.inj hd)).symm
  refine ⟨?_, h.valid, by simp [Stored], TransactionQueue.wellFormed_new,
    by simp [Processor.restart, TransactionQueue.new], h.exact, h.mirrored, by simp [Unconfirmed]⟩
  show Describes crypto prune d.ledger [] ∅
  rw [hledger]
  exact h.describes

/-- **Over a life with clean stops** the databases are settled, or the ledger is
still empty and the node is not up. -/
theorem Life.settled (h : Life crypto prune Stop.Clean up s) :
    (∃ c K, Settled crypto prune (fun _ => True) (fun _ => True) s c K) ∨
      up = false ∧ Sync crypto prune (fun _ => True) s [] ∅ := by
  induction h with
  | new => exact Or.inr ⟨rfl, sync_new⟩
  | boot now source _ hok ih =>
    refine Or.inl ?_
    rcases ih with ⟨c, K, hs⟩ | ⟨-, hs⟩
    · have hout := hs.processBlock_cases trivial source
        (vouches_true (.block genesisBlock now source))
      rw [hok] at hout
      exact hout.settled hs
    · exact ⟨_, _, (hs.settled_genesis hok).1⟩
  | call call _ ih =>
    obtain ⟨c, K, hs⟩ := ih.resolve_right (by simp)
    cases call with
    | block b now source =>
      exact Or.inl ((hs.processBlock_cases trivial source (vouches_true _)).settled hs)
    | transaction tx => exact Or.inl ⟨c, K, (hs.processTransaction_settled (vouches_true _)).1⟩
  | stop call stop _ hstop hd ih =>
    obtain ⟨c, K, hs⟩ := ih.resolve_right (by simp)
    exact Or.inl ⟨c, K, hs.restart_clean hstop hd⟩
  | stopBoot now source stop _ hstop hd ih =>
    rcases ih with ⟨c, K, hs⟩ | ⟨-, hs⟩
    · exact Or.inl ⟨c, K, hs.restart_clean hstop hd⟩
    · exact Or.inr ⟨rfl, hs.restart_clean hstop hd⟩

theorem Life.carryOut {A : Stop → Prop} (h : Life crypto prune A true s) (calls : List Call) :
    Life crypto prune A true (s.carryOut crypto prune calls) := by
  induction calls generalizing s with
  | nil => exact h
  | cons call calls ih => exact ih (.call call h)

theorem Settled.bestTip (h : Settled crypto prune P Q s c K) : s.BestTip crypto := by
  obtain ⟨t, c, rfl⟩ := List.exists_cons_of_ne_nil h.admitted.ne_nil
  refine ⟨t.1, _, h.describes.chainTip, fun id hid hne => ?_⟩
  exact h.best t rfl id ((h.describes.known_iff id).mp hid) hne

end Clean

/-! ### A stop between two batches -/

section Between

variable {crypto : Crypto} {prune : Bool} {P : Transaction → Prop} {Q : Processor → Prop}
  {s s' s'' : Processor} {c d : Chain} {K : Set BlockID} {t x : BlockID × Block}

/-- The first batch made between the two states is made on the databases of the
first state. -/
def Begins (s s' : Processor) : Prop :=
  ∃ e rest, s'.events = s.events ++ e :: rest ∧ e.databases = some s.databases

theorem Begins.of_extends (h : Begins s s') (h' : s'.events <+: s''.events) : Begins s s'' := by
  obtain ⟨e, rest, hevents, he⟩ := h
  obtain ⟨more, hmore⟩ := h'
  exact ⟨e, rest ++ more, by rw [← hmore, hevents, List.append_assoc, List.cons_append], he⟩

theorem Begins.events_extend (h : Begins s s') : s.events <+: s'.events := by
  obtain ⟨e, rest, hevents, -⟩ := h
  exact hevents ▸ List.prefix_append _ _

variable (crypto prune) in
theorem disconnectBlock_events (s : Processor) (id : BlockID) (block : Block) (source : String) :
    (s.disconnectBlock crypto prune id block source).1.events =
      s.events ++ [.disconnectBlock s.blockStore s.ledger block] := by
  simp only [Processor.disconnectBlock]
  split <;> rfl

variable (crypto prune) in
theorem disconnectBlock_begins (s : Processor) (id : BlockID) (block : Block) (source : String) :
    Begins s (s.disconnectBlock crypto prune id block source).1 :=
  ⟨_, [], disconnectBlock_events crypto prune s id block source, rfl⟩

variable (crypto prune) in
theorem connectBlock_begins (s : Processor) (id : BlockID) (block : Block) (source : String)
    (more : Bool) : Begins s (s.connectBlock crypto prune id block source more).1 := by
  simp only [Begins, Processor.connectBlock]
  split
  · exact ⟨.connectBlock s.blockStore s.ledger block, [], rfl, rfl⟩
  · cases more with
    | true => split <;> exact ⟨.connectBlock s.blockStore s.ledger block, [], rfl, rfl⟩
    | false =>
      split <;> exact ⟨.connectBlock s.blockStore s.ledger block, [_],
        List.append_assoc s.events [_] [_], rfl⟩

/-- A move followed by others, as the processor chains them. -/
theorem events_andThen {r : Processor × Res Unit} {next : Processor → Processor × Res Unit}
    (hnext : ∀ s', s'.events <+: (next s').1.events) :
    r.1.events <+: (match r with
      | (s', .error e) => ((s', .error e) : Processor × Res Unit)
      | (s', .ok ()) => next s').1.events := by
  obtain ⟨s₁, e | u⟩ := r
  · exact List.prefix_rfl
  · exact hnext s₁

theorem disconnectBlocks_events (s : Processor) (source : String) (ids : List BlockID) :
    s.events <+: (s.disconnectBlocks crypto prune source ids).1.events := by
  induction ids generalizing s with
  | nil => exact List.prefix_rfl
  | cons id ids ih =>
    rw [Processor.disconnectBlocks]
    split
    · exact List.prefix_rfl
    · exact (disconnectBlock_begins crypto prune s id _ source).events_extend.trans
        (events_andThen ih)

theorem connectBlocks_events (s : Processor) (source : String) (ids : List BlockID) :
    s.events <+: (s.connectBlocks crypto prune source ids).1.events := by
  induction ids generalizing s with
  | nil => exact List.prefix_rfl
  | cons id ids ih =>
    rw [Processor.connectBlocks]
    split
    · exact List.prefix_rfl
    · exact (connectBlock_begins crypto prune s id _ source true).events_extend.trans
        (events_andThen ih)

theorem disconnectBlocks_begins {y : BlockID × Block} {ids : List BlockID} (source : String)
    (hy : s.blockStore.getBlock y.1 = .ok y.2) :
    Begins s (s.disconnectBlocks crypto prune source (y.1 :: ids)).1 := by
  rw [Processor.disconnectBlocks, hy]
  exact (disconnectBlock_begins crypto prune s y.1 y.2 source).of_extends
    (events_andThen fun s' => disconnectBlocks_events s' source ids)

theorem connectBlocks_begins {y : BlockID × Block} {ids : List BlockID} (source : String)
    (hy : s.blockStore.getBlock y.1 = .ok y.2) :
    Begins s (s.connectBlocks crypto prune source (y.1 :: ids)).1 := by
  rw [Processor.connectBlocks, hy]
  exact (connectBlock_begins crypto prune s y.1 y.2 source true).of_extends
    (events_andThen fun s' => connectBlocks_events s' source ids)

theorem acceptBlockContinue_events (s : Processor) (id : BlockID) (block : Block) (blockWhen : Int)
    (prevHeader : Option BlockHeader) (source : String) :
    s.events <+:
      (s.acceptBlockContinue crypto prune id block blockWhen prevHeader source).1.events := by
  rw [Processor.acceptBlockContinue]
  split
  · exact List.prefix_rfl
  split_ifs
  · exact List.prefix_rfl
  · exact List.prefix_rfl
  split
  · exact List.prefix_rfl
  split
  · exact List.prefix_rfl
  refine (disconnectBlocks_events s source _).trans (events_andThen fun s₁ => ?_)
  refine (connectBlocks_events s₁ source _).trans (events_andThen fun s₂ => ?_)
  exact (connectBlock_begins crypto prune s₂ id block source false).events_extend

/-- **The first two batches of a reorganisation.**  The second one, whatever it
is, is made when the ledger is on the chain below the old tip. -/
theorem Placed.acceptBlockContinue_between (h : Placed crypto prune P Q s (t :: c) K)
    {tipWhen blockWhen : Int} (hw : s.blockStore[t.1]? = some ⟨t.2, tipWhen⟩)
    (hx : Admitted crypto P Q (x :: d)) (hst : Stored s.blockStore (x :: d))
    {p : BlockID × Block} (hp : d.head? = some p) (hne : x.1 ≠ t.1)
    (hbetter : x.2.header.compare crypto t.2.header blockWhen tipWhen = true) (source : String)
    (ht : t ∉ d) :
    ∃ l e e' rest, Describes crypto prune l c K ∧
      (s.acceptBlockContinue crypto prune x.1 x.2 blockWhen (some p.2.header) source).1.events =
        s.events ++ e :: e' :: rest ∧
      e.databases = some s.databases ∧ e'.databases = some ⟨s.blockStore, l⟩ := by
  have hdst : Stored s.blockStore d := fun y hy => hst y (List.mem_cons_of_mem _ hy)
  have hdadm : Admitted crypto P Q d := by
    apply hx.tail
    rintro rfl
    simp at hp
  have hprev : x.2.header.previous = p.1 := by
    cases hx with
    | genesis => exact absurd rfl hdadm.ne_nil
    | cons _ _ _ hx => exact (hx.parent p hp).1
  obtain ⟨cs, ds, f, common, hc, hd, hdisj, hfork⟩ :=
    h.admitted.exists_fork hdadm h.stored hdst rfl hp
  -- the old tip is not on the new line
  obtain ⟨cs, rfl⟩ : ∃ cs', cs = t :: cs' := by
    cases cs with
    | nil =>
      refine absurd ?_ ht
      rw [(List.cons.inj hc).1, hd]
      exact List.mem_append_right _ List.mem_cons_self
    | cons y cs => exact ⟨cs, by rw [(List.cons.inj hc).1]⟩
  obtain rfl : c = cs ++ f :: common := (List.cons.inj hc).2
  obtain ⟨s₁, hok₁, h₁, hst₁, -⟩ := h.disconnectBlock_eq source (by simp)
    (h.admitted.vouched t List.mem_cons_self)
  have hevents₁ := disconnectBlock_events crypto prune s t.1 t.2 source
  rw [hok₁] at hevents₁
  have hget {y : BlockID × Block} (hy : y ∈ cs ∨ y ∈ ds) :
      s₁.blockStore.getBlock y.1 = .ok y.2 := by
    rw [hst₁]
    rcases hy with hy | hy
    · exact h.stored.getBlock (List.mem_cons_of_mem _ (List.mem_append_left _ hy))
    · exact hdst.getBlock (hd ▸ List.mem_append_left _ hy)
  have hbegins : Begins s₁
      (s.acceptBlockContinue crypto prune x.1 x.2 blockWhen (some p.2.header) source).1 := by
    have hlast (s₂ : Processor) :
        s₂.events <+: (s₂.connectBlock crypto prune x.1 x.2 source false).1.events :=
      (connectBlock_begins crypto prune s₂ x.1 x.2 source false).events_extend
    simp only [Processor.acceptBlockContinue, h.getChainTipHeader hw, if_neg hne, hbetter,
      Bool.true_eq_false, if_false, hprev, hfork, ids, List.map_cons,
      Processor.disconnectBlocks, h.stored.getBlock List.mem_cons_self, hok₁]
    -- the next batch disconnects, connects a side branch block or connects the new one
    cases cs with
    | cons y cs =>
      refine (disconnectBlocks_begins source (hget (Or.inl List.mem_cons_self))).of_extends
        (events_andThen fun s₂ => ?_)
      exact (connectBlocks_events s₂ source _).trans (events_andThen hlast)
    | nil =>
      rw [← List.map_reverse]
      cases hds : ds.reverse with
      | nil => exact connectBlock_begins crypto prune s₁ x.1 x.2 source false
      | cons y ys =>
        have hy : y ∈ ds := List.mem_reverse.mp (hds ▸ List.mem_cons_self)
        exact (connectBlocks_begins source (hget (Or.inr hy))).of_extends (events_andThen hlast)
  obtain ⟨e', rest, hevents, he'⟩ := hbegins
  refine ⟨s₁.ledger, .disconnectBlock s.blockStore s.ledger t.2, e', rest, h₁.describes, ?_, rfl,
    ?_⟩
  · rw [hevents, hevents₁, List.append_assoc, List.singleton_append]
  · rw [he', ← hst₁]
    rfl

variable (crypto prune) in
theorem acceptCheckedBlock_events (s : Processor) (id : BlockID) (block : Block) (now : Int)
    (prevHeader : BlockHeader) (source : String) :
    (({ s with blockStore := s.blockStore.store id block now } : Processor).acceptBlockContinue
        crypto prune id block now (some prevHeader) source).1.events <+:
      (s.acceptCheckedBlock crypto prune id block now prevHeader source).1.events := by
  simp only [Processor.acceptCheckedBlock]
  split
  · rename_i heq
    rw [heq]
  · rename_i s₁ e heq
    rw [heq]
    split_ifs
    · exact List.prefix_rfl
    split
    · exact List.prefix_rfl
    · rename_i tipID _
      have hback : s₁.events <+: (s₁.reconnectTip crypto prune tipID source).1.events := by
        rw [Processor.reconnectTip]
        split
        · exact List.prefix_rfl
        · exact acceptBlockContinue_events s₁ _ _ _ _ source
      split <;> rename_i hmove <;> rw [hmove] at hback <;> exact hback

/-- **A reorganisation stopped after its first batch** leaves the ledger on the
chain below the old tip. -/
theorem Settled.databasesAt_between (h : Settled crypto prune P Q s (t :: c) K) {b : Block}
    {now tipWhen : Int} (hQ : Q s) {source : String}
    (hP : (Call.block b now source).Vouches crypto P) (hb : Passes crypto P Q s K b now d)
    (hw : s.blockStore[t.1]? = some ⟨t.2, tipWhen⟩)
    (hbetter : b.header.compare crypto t.2.header now tipWhen = true) (ht : t ∉ d) :
    ∃ l, s.databasesAt crypto prune (.block b now source) (.between 0) =
        some ⟨s.blockStore.store (b.id crypto) b now, l⟩ ∧ Describes crypto prune l c K := by
  have hadm := h.admitted_cons hQ hP hb
  obtain ⟨p, hp, hprev, hheight, hchecks⟩ := hb.parent
  have hpd : p ∈ d := List.mem_of_mem_head? hp
  have hne : b.id crypto ≠ t.1 := fun heq => hb.unknown (heq ▸ h.tip_mem)
  -- the processor after storing the block
  have h₁ := h.store hb.unknown b now
  have hw₁ : (s.blockStore.store (b.id crypto) b now)[t.1]? = some ⟨t.2, tipWhen⟩ := by
    rw [BlockStorage.get_store, if_neg hne, hw]
  have hst₁ : Stored (s.blockStore.store (b.id crypto) b now) ((b.id crypto, b) :: d) := by
    refine List.forall_mem_cons.mpr ⟨⟨now, ?_⟩, hb.stored.store (fun hmem => ?_) now⟩
    · rw [BlockStorage.get_store, if_pos rfl]
    · obtain ⟨y, hy, heq⟩ := List.mem_map.mp hmem
      exact hb.unknown (heq ▸ hb.known y hy)
  obtain ⟨l, e, e', rest, hl, hevents, he, he'⟩ :=
    h₁.acceptBlockContinue_between hw₁ hadm hst₁ hp hne hbetter source ht
  -- the call gets there
  have hstep : s.step crypto prune (.block b now source) =
      s.acceptCheckedBlock crypto prune (b.id crypto) b now p.2.header source := by
    have hknown := (h.describes.known_iff b.header.previous).mpr (hprev ▸ hb.known p hpd)
    have hunknown := (h.describes.getBranchType_eq_unknown (b.id crypto)).mpr hb.unknown
    obtain ⟨storedAt, hpst⟩ := hb.stored p hpd
    have hderef : s.blockStore.derefHeader b.header.previous = .ok p.2.header := by
      simp [hprev, BlockStorage.derefHeader, BlockStorage.getBlockHeader, hpst]
    rw [Processor.step, Processor.processBlock, if_neg (not_not.mpr hunknown), hb.checked]
    simp only
    rw [if_neg, Processor.acceptBlock, hderef]
    · simp only
      rw [if_neg (not_not.mpr hheight), if_neg (not_not.mpr hunknown), hchecks]
    · rw [not_and_or, not_not, not_not]
      exact hknown
  refine ⟨l, ?_, hl⟩
  obtain ⟨more, hmore⟩ := acceptCheckedBlock_events crypto prune s (b.id crypto) b now
    p.2.header source
  rw [hevents] at hmore
  rw [Processor.databasesAt, Processor.batches, hstep, ← hmore, List.append_assoc,
    List.drop_left]
  simp [he, he']

/-- On such databases the old tip is better than the new one. -/
theorem Settled.between_not_best (h : Settled crypto prune P Q s (t :: c) K) (hc : c ≠ [])
    {id : BlockID} (hid : id ∉ K) (block : Block) (now : Int) {l : Ledger}
    (hl : Describes crypto prune l c K) :
    ¬ (s.restart ⟨s.blockStore.store id block now, l⟩).BestTip crypto := by
  rintro ⟨tip, height, htip, hbest⟩
  obtain ⟨p, c, rfl⟩ := List.exists_cons_of_ne_nil hc
  have hchainTip : l.chainTip = some (tip, height) := htip
  rw [hl.chainTip] at hchainTip
  obtain rfl : p.1 = tip := congrArg Prod.fst (Option.some.inj hchainTip)
  have hnodup := BlockLine.ids_nodup (h.admitted.line h.stored) h.stored
  have hne : t.1 ≠ p.1 := by
    intro heq
    exact (List.nodup_cons.mp hnodup).1 (heq ▸ List.mem_cons_self)
  exact (h.store hid block now).not_better (hl.known _ List.mem_cons_self)
    (hbest t.1 ((hl.known_iff _).mpr h.tip_mem) hne)

/-- Processed blocks are ignored. -/
theorem step_of_known {b : Block} (h : s.ledger.Known (b.id crypto)) (now : Int) (source : String) :
    s.step crypto prune (.block b now source) = (s, .ok ()) := by
  rw [Processor.step, Processor.processBlock, if_pos]
  rcases h with h | h <;> simp [h]

/-- **Nothing repairs the tip**: delivering processed blocks again does nothing. -/
theorem carryOut_of_known {calls : List Call}
    (h : ∀ call ∈ calls, ∃ b now source, call = .block b now source ∧
      s.ledger.Known (b.id crypto)) :
    s.carryOut crypto prune calls = s := by
  induction calls with
  | nil => rfl
  | cons call calls ih =>
    obtain ⟨⟨b, now, source, rfl, hb⟩, hcalls⟩ := List.forall_mem_cons.mp h
    rw [Processor.carryOut, List.foldl_cons, step_of_known hb]
    exact ih hcalls

end Between

/-! ### A fork stopped half way -/

namespace Sample

theorem fork_life (A : Stop → Prop) : Life crypto false A true fork :=
  (Life.boot _ "" .new (Prod.ext rfl (genesis_ok false))).carryOut
    [.block sibling (time 1 + 7) "", .block (block 0 1) (time 1 + 8) ""]

/-- **A reorganisation stopped half way**: the third block arrives, and the node
stops when it has disconnected the tip. -/
theorem exists_half_way :
    ∃ s : Processor, Life crypto false (fun _ => True) false s ∧ ¬ s.BestTip crypto ∧
      ∀ id, s.ledger.Known id ↔ id ∈
        ({(block 0 1).id crypto, sibling.id crypto, genesisBlock.id crypto} : Set BlockID) := by
  have hfork := fork_forked.1
  have hs := hfork.settled
  -- the second block on top of the earlier one
  have hfollows : Follows crypto false ancestorTarget (chain 0 1) (entry 0 2) :=
    follows false (by decide) (Or.inl rfl) (by decide)
  have hpass := hfork.passes (time 2) hfollows.toProposed second_not_known (by decide)
  have htipNotIn : (sibling.id crypto, sibling) ∉ chain 0 1 := by
    intro hmem
    have hid := List.mem_map_of_mem (f := Prod.fst) hmem
    simp only [chain, entry, genesisEntry, List.map_cons, List.map_nil] at hid
    rw [block_id 0, sibling_id, genesis_id] at hid
    revert hid
    decide
  obtain ⟨l, hstop, hl⟩ := hs.databasesAt_between trivial (vouches_true _) hpass hfork.tip
    (compare_of_work (by decide)) htipNotIn
  refine ⟨_, (fork_life fun _ => True).stop (.block (block 0 2) (time 2) "") (.between 0) trivial hstop,
    hs.between_not_best (by simp) hpass.unknown (block 0 2) (time 2) hl, ?_⟩
  exact hl.known_iff

theorem redelivers_fork {s : Processor} (h : ∀ id, s.ledger.Known id ↔
    id ∈ ({(block 0 1).id crypto, sibling.id crypto, genesisBlock.id crypto} : Set BlockID)) :
    s.Redelivers crypto forkCalls ∧ s.carryOut crypto false forkCalls = s ∧
      ∀ now source, s.step crypto false (.block genesisBlock now source) = (s, .ok ()) := by
  refine ⟨fun id hid => ?_, carryOut_of_known fun call hcall => ?_,
    step_of_known ((h _).mpr (by simp))⟩
  · rcases (h id).mp hid with rfl | rfl | rfl
    · refine ⟨block 0 1, time 1 + 8, "", ?_, rfl⟩
      exact List.mem_cons_of_mem _ (List.mem_cons_of_mem _ List.mem_cons_self)
    · exact ⟨sibling, _, "", List.mem_cons_of_mem _ List.mem_cons_self, rfl⟩
    · exact ⟨genesisBlock, _, "", List.mem_cons_self, rfl⟩
  · simp only [forkCalls, List.mem_cons, List.not_mem_nil, or_false] at hcall
    rcases hcall with rfl | rfl | rfl <;> exact ⟨_, _, _, rfl, (h _).mpr (by simp)⟩

end Sample

/-! ### The tip after a restart -/

/-- **If no stop falls between two batches of a call**, then after every restart,
once the processed blocks have been delivered again, the tip is the best
main or side branch block. -/
theorem restarted_tip_best {crypto : Crypto} {prune : Bool} {s : Processor}
    (h : Life crypto prune Stop.Clean true s) :
    ∀ calls, s.Redelivers crypto calls → (s.carryOut crypto prune calls).BestTip crypto := by
  intro calls _
  obtain ⟨c, K, hs⟩ := (h.carryOut calls).settled.resolve_right (by simp)
  exact hs.bestTip

/-- The node stops after storing a third block, before it moves the tip. -/
theorem restarted_tip_of_fork :
    ∃ (s : Processor) (d : Databases),
      s.databasesAt Sample.crypto false (.block (Sample.block 0 2) (Sample.time 2) "") .stored =
        some d ∧ Life Sample.crypto false Stop.Clean true (s.restart d) ∧
      ((s.restart d).carryOut Sample.crypto false Sample.forkCalls).BestTip Sample.crypto := by
  have hs := Sample.fork_forked.1.settled
  obtain ⟨d, hd, hl⟩ : ∃ d, Sample.fork.databasesAt Sample.crypto false
      (.block (Sample.block 0 2) (Sample.time 2) "") .stored = some d ∧ d.ledger = Sample.fork.ledger :=
    ⟨_, rfl, rfl⟩
  have hdown := (Sample.fork_life Stop.Clean).stop _ .stored trivial hd
  have hknown : (Sample.fork.restart d).ledger = Sample.fork.ledger := hl
  obtain ⟨hre, -, hboot⟩ := Sample.redelivers_fork (s := Sample.fork.restart d) (by
    rw [hknown]
    exact hs.describes.known_iff)
  have hup := hdown.boot 0 "" (hboot 0 "")
  exact ⟨Sample.fork, d, hd, hup, restarted_tip_best hup _ hre⟩

/-- **A reorganisation that is stopped is not repaired.**  Every block the node
has processed is delivered again, and the tip is still the parent of the
block that was disconnected. -/
theorem stopped_reorganisation_not_repaired :
    ∃ (s : Processor) (calls : List Call), Life Sample.crypto false (fun _ => True) true s ∧
      s.Redelivers Sample.crypto calls ∧
      ¬ (s.carryOut Sample.crypto false calls).BestTip Sample.crypto := by
  obtain ⟨s, hdown, hnot, hknown⟩ := Sample.exists_half_way
  obtain ⟨hre, heq, hboot⟩ := Sample.redelivers_fork hknown
  refine ⟨s, Sample.forkCalls, hdown.boot 0 "" (hboot 0 ""), hre, ?_⟩
  rw [heq]
  exact hnot

end Cruzbit

/-
Cruzbit/FilterView.lean

What a wallet learns through its filter.

A wallet that is interested in a key loads a filter which matches it.  From
then on it is sent a `filter_block` or a `filter_block_undo` for every block
that joins or leaves the main chain.  Other transactions may be in it, since
a filter also matches what was never inserted, but none that involves the key
is left out (`filterTransactions_spec`).

So the wallet can follow the main chain: if it replays the messages on what
it knew when the filter was loaded, it always has exactly the transactions
that involve its key on the chain up to the last message, reorganisations
included, and those of the main chain itself once nothing is under way
(`filtered_blocks_mirror_chain`).  This is about a wallet that delivers no
blocks: nobody is told about a block of their own (`Listening`).
-/
import Cruzbit.KeyIndex
import Cruzbit.PeerLoop

namespace Cruzbit

open Chain Transition

/-! ### The wallet's side -/

/-- For each block, newest first, its transactions that involve the key. -/
abbrev KeyView := List (BlockID × List Transaction)

/-- The transactions that involve the key. -/
def involving (pk : PublicKey) (txs : List Transaction) : List Transaction :=
  txs.filter fun tx => decide (tx.Involves pk)

/-- The view of a chain. -/
def keyView (pk : PublicKey) (c : Chain) : KeyView :=
  c.map fun y => (y.1, involving pk y.2.transactions)

/-- Follow a message of the peer. -/
def KeyView.follow (pk : PublicKey) (v : KeyView) : PeerMessage → Option KeyView
  | .filterBlock fb => some ((fb.blockID, involving pk fb.transactions) :: v)
  | .filterBlockUndo fb =>
    match v with
    | [] => none
    | y :: v => if y.1 = fb.blockID then some v else none
  | _ => some v

/-- Messages that say nothing about blocks. -/
theorem KeyView.follow_nothing {ms : List PeerMessage}
    (h : ∀ m ∈ ms, ∀ pk v, KeyView.follow pk v m = some v) {pk : PublicKey} (v : KeyView) :
    ms.foldlM (KeyView.follow pk) v = some v := by
  induction ms with
  | nil => rfl
  | cons m ms ih =>
    obtain ⟨hm, hms⟩ := List.forall_mem_cons.mp h
    rw [List.foldlM_cons, hm]
    exact ih hms

/-! ### The filter leaves nothing out -/

section Filter

variable {hash64 : List UInt8 → UInt64 → UInt64} {pk : PublicKey} {filter : Option LoadedFilter}
  {tx : Transaction} {txs txs' : List Transaction}

/-- A filter is set that matches the key. -/
def FilterMatches (hash64 : List UInt8 → UInt64 → UInt64) (pk : PublicKey)
    (filter : Option LoadedFilter) : Prop :=
  ∃ f, filter = some f ∧ f.lookup hash64 pk = some true

theorem filterLookup_of_involves (h : FilterMatches hash64 pk filter) (hpk : tx.Involves pk)
    {interested : Bool} (hlookup : filterLookup hash64 filter tx = some interested) :
    interested = true := by
  obtain ⟨f, rfl, hf⟩ := h
  simp only [filterLookup] at hlookup
  split_ifs at hlookup with hcb
  · obtain rfl | ⟨hsigned, -⟩ := hpk
    · exact Option.some.inj (hlookup.symm.trans hf)
    · exact absurd hcb (by simp [hsigned])
  · split at hlookup
    · next hsender =>
      obtain rfl | ⟨-, rfl⟩ := hpk
      · exact Option.some.inj (hlookup.symm.trans hf)
      · exact absurd (hsender.symm.trans hf) (by simp)
    · next found hfound =>
      cases interested with
      | true => rfl
      | false => exact absurd hlookup hfound

/-- **No transaction that involves the key is filtered out.** -/
theorem filterTransactions_spec (h : FilterMatches hash64 pk filter)
    (htxs : filterTransactions hash64 filter txs = some txs') :
    involving pk txs' = involving pk txs := by
  induction txs generalizing txs' with
  | nil =>
    obtain rfl := Option.some.inj htxs
    rfl
  | cons tx txs ih =>
    simp only [filterTransactions, Option.bind_eq_bind, Option.bind_eq_some_iff, Option.pure_def,
      Option.some.injEq] at htxs
    obtain ⟨interested, hlookup, rest, hrest, rfl⟩ := htxs
    have hrest' := ih hrest
    simp only [involving] at hrest' ⊢
    by_cases hpk : tx.Involves pk
    · obtain rfl := filterLookup_of_involves h hpk hlookup
      simp [hpk, hrest']
    · cases interested <;> simp [hpk, hrest']

end Filter

/-! ### Messages in hand -/

/-- The tip change that the writer loop is working on. -/
def Stage.change : Stage → Option TipChange
  | .median _ _ change => change
  | .queue _ _ _ change => change
  | .target _ _ _ _ change => change
  | .announce m => some m
  | _ => none

namespace PeerLoop

/-- The tip changes that the peer has been told about, or need not be. -/
def heard (s : PeerLoop) : List TipChange :=
  s.feed.taken.take (s.feed.taken.length - s.stage.change.toList.length)

/-- The chain they lead to. -/
def reached (s : PeerLoop) : Chain := (s.heard.foldlM TipChange.replay []).getD []

/-- A step that has nothing to do with tip changes: whatever is sent says
nothing about blocks. -/
structure Aside (s s' : PeerLoop) : Prop where
  feed : ∃ txs, s'.feed = { s.feed with newTxChan := txs }
  addr : s'.addr = s.addr
  change : s'.stage.change = s.stage.change
  sent : ∃ ms, s'.sent = s.sent ++ ms ∧ ∀ m ∈ ms, ∀ pk v, KeyView.follow pk v m = some v

/-- What a step does about tip changes. -/
inductive Effect (hash64 : List UInt8 → UInt64 → UInt64) (crypto : Crypto) (prune : Bool)
    (s s' : PeerLoop) : PeerEvent → Prop
  | processor {l : FeedStep} {f : Feed} (hf : s.feed.step crypto prune l = some f)
      (hs : s' = { s with feed := f }) : Effect hash64 crypto prune s s' (.feed l)
  | process {now workID : Int} {b : Block} {f : Feed} {r : Res Unit}
      (hstage : s.stage = .submitting workID b)
      (hf : s.feed.step crypto prune (.block b now s.addr) = some f)
      (hs : s' =
        { s with
          feed := f
          shared := s.shared ++ sharedBy s.feed.processor f.processor (b.id crypto)
          stage := .awaiting workID r }) :
      Effect hash64 crypto prune s s' (.process now)
  | take {m : TipChange} {ms : List TipChange} (hstage : s.stage.change = none)
      (hchan : s.feed.tipChangeChan = m :: ms)
      (hfeed : s'.feed = { s.feed with tipChangeChan := ms }) (hchange : s'.stage.change = some m)
      (haddr : s'.addr = s.addr) (hfilter : s'.filter = s.filter) (hsent : s'.sent = s.sent) :
      Effect hash64 crypto prune s s' .takeTip
  | announce {m : TipChange} (hstage : s.stage = .announce m)
      (hs : s.announce hash64 m = some s') : Effect hash64 crypto prune s s' .announce
  | aside {l : PeerEvent} (h : Aside s s')
      (hfilter : (∃ filterType filterBytes, l = .filterLoad filterType filterBytes ∧
          s'.filter = (onFilterLoad s.filter filterType filterBytes).1) ∨
        (∃ keys a, l = .filterAdd keys ∧ onFilterAdd hash64 s.filter keys = some (s'.filter, a)) ∨
        s'.filter = s.filter) : Effect hash64 crypto prune s s' l

section Steps

variable {hash64 : List UInt8 → UInt64 → UInt64} {crypto : Crypto} {prune : Bool}
  {A : Call → Prop} {s s' s₀ : PeerLoop} {l : PeerEvent} {pk : PublicKey}

@[simp] theorem send_filter (s : PeerLoop) (m : PeerMessage) : (s.send m).filter = s.filter := rfl

@[simp] theorem send_sent (s : PeerLoop) (m : PeerMessage) : (s.send m).sent = s.sent ++ [m] := rfl

/-- A step that sends nothing. -/
theorem Aside.silent (hfeed : s'.feed = s.feed) (haddr : s'.addr = s.addr)
    (hchange : s'.stage.change = s.stage.change) (hsent : s'.sent = s.sent) : Aside s s' :=
  ⟨⟨_, hfeed⟩, haddr, hchange, [], by simp [hsent], by simp⟩

/-- A step that sends one message. -/
theorem Aside.saying {m : PeerMessage} (hfeed : s'.feed = s.feed) (haddr : s'.addr = s.addr)
    (hchange : s'.stage.change = s.stage.change) (hsent : s'.sent = s.sent ++ [m])
    (hm : ∀ pk v, KeyView.follow pk v m = some v) : Aside s s' :=
  ⟨⟨_, hfeed⟩, haddr, hchange, [m], hsent, by simpa using hm⟩

theorem createNewWorkBlock_change (s : PeerLoop) (tipID : BlockID) (tipHeader : BlockHeader)
    (change : Option TipChange) :
    (s.createNewWorkBlock tipID tipHeader change).stage.change = change ∧
      (s.createNewWorkBlock tipID tipHeader change).feed = s.feed ∧
      (s.createNewWorkBlock tipID tipHeader change).addr = s.addr ∧
      (s.createNewWorkBlock tipID tipHeader change).filter = s.filter ∧
      (s.createNewWorkBlock tipID tipHeader change).sent = s.sent := by
  unfold createNewWorkBlock
  split_ifs
  · cases change <;> exact ⟨rfl, rfl, rfl, rfl, rfl⟩
  · exact ⟨rfl, rfl, rfl, rfl, rfl⟩

theorem onTipChange_spec (s : PeerLoop) (m : TipChange) :
    (s.onTipChange m).stage.change = some m ∧ (s.onTipChange m).feed = s.feed ∧
      (s.onTipChange m).addr = s.addr ∧ (s.onTipChange m).filter = s.filter ∧
      (s.onTipChange m).sent = s.sent := by
  unfold onTipChange
  split_ifs
  · exact s.createNewWorkBlock_change _ _ _
  · exact ⟨rfl, rfl, rfl, rfl, rfl⟩

/-- A transaction is relayed or not. -/
theorem onNewTx_aside {m : NewTx} {ms : List NewTx}
    (hs : ({ s with feed := { s.feed with newTxChan := ms } } : PeerLoop).onNewTx hash64 m =
      some s') : Aside s s' ∧ s'.filter = s.filter := by
  unfold onNewTx at hs
  split_ifs at hs
  · obtain rfl := Option.some.inj hs
    exact ⟨⟨⟨ms, rfl⟩, rfl, rfl, [], by simp, by simp⟩, rfl⟩
  · obtain ⟨interested, -, hs⟩ := Option.bind_eq_some_iff.mp hs
    obtain rfl := Option.some.inj hs
    cases interested with
    | false => exact ⟨⟨⟨ms, rfl⟩, rfl, rfl, [], by simp, by simp⟩, rfl⟩
    | true => exact ⟨⟨⟨ms, rfl⟩, rfl, rfl, [_], rfl, by simp [KeyView.follow]⟩, rfl⟩

theorem onGetWork_aside {pubKeys : List PublicKey} {memo : List UInt8}
    (hstage : s.stage = .idle) (hs : s.onGetWork pubKeys memo = some s') :
    Aside s s' ∧ s'.filter = s.filter := by
  unfold onGetWork at hs
  split_ifs at hs
  · obtain rfl := Option.some.inj hs
    exact ⟨.saying rfl rfl rfl rfl fun _ _ => rfl, rfl⟩
  · obtain rfl := Option.some.inj hs
    exact ⟨.saying rfl rfl rfl rfl fun _ _ => rfl, rfl⟩
  · obtain rfl := Option.some.inj hs
    exact ⟨.saying rfl rfl rfl rfl fun _ _ => rfl, rfl⟩
  · split at hs
    · split_ifs at hs
      obtain rfl := Option.some.inj hs
      exact ⟨.saying rfl rfl rfl rfl fun _ _ => rfl, rfl⟩
    · next tipID tipHeader _ _ =>
      obtain rfl := Option.some.inj hs
      obtain ⟨hchange, hfeed, haddr, hfilter, hsent⟩ :=
        ({ s with pubKeys := pubKeys, memo := memo } : PeerLoop).createNewWorkBlock_change
          tipID tipHeader none
      exact ⟨.silent hfeed haddr (by rw [hchange, hstage]; rfl) hsent, hfilter⟩

theorem updateWorkCheck_aside (hstage : s.stage = .idle) (hs : s.updateWorkCheck = some s') :
    Aside s s' ∧ s'.filter = s.filter := by
  have hsame : Aside s s ∧ s.filter = s.filter := ⟨.silent rfl rfl rfl rfl, rfl⟩
  unfold updateWorkCheck at hs
  split at hs
  · obtain rfl := Option.some.inj hs
    exact hsame
  · split_ifs at hs
    · obtain rfl := Option.some.inj hs
      exact hsame
    · split at hs
      · split_ifs at hs
        obtain rfl := Option.some.inj hs
        exact hsame
      · next tipID tipHeader _ _ =>
        obtain rfl := Option.some.inj hs
        obtain ⟨hchange, hfeed, haddr, hfilter, hsent⟩ :=
          s.createNewWorkBlock_change tipID tipHeader none
        exact ⟨.silent hfeed haddr (by rw [hchange, hstage]; rfl) hsent, hfilter⟩
    · obtain rfl := Option.some.inj hs
      exact hsame

/-- Work is announced, or that there is none. -/
theorem issueWork_aside {tipID : BlockID} {tipHeader : BlockHeader} {pubKey : PublicKey}
    {txQueue : TransactionQueue} {change : Option TipChange} (r : Res Block)
    (hstage : s.stage = .target tipID tipHeader pubKey txQueue change) :
    Aside s ((s.issueWork r).resume change) ∧
      ((s.issueWork r).resume change).filter = s.filter := by
  have hchange : s.stage.change = change := by rw [hstage]; rfl
  cases r <;> cases change <;>
    exact ⟨.saying rfl rfl (by rw [hchange]; rfl) rfl fun _ _ => rfl, rfl⟩

theorem onSubmitWork_aside {workID : Int} {header : BlockHeader} (hstage : s.stage = .idle)
    (htaken : workID = s.workID → ∀ i ∈ s.shared, i < s.feed.taken.length)
    (hs : s.onSubmitWork workID header = some s') : Aside s s' ∧ s'.filter = s.filter := by
  rcases onSubmitWork_eq_some hs with ⟨e, rfl⟩ | ⟨hid, b, -, rfl⟩
  · exact ⟨.saying rfl rfl rfl rfl fun _ _ => rfl, rfl⟩
  · exact ⟨.silent (overwrite_eq (htaken hid) header) rfl (by rw [hstage]; rfl) rfl, rfl⟩

/-- **Every step has one of these effects.** -/
theorem step_effect (hl : s.Meets A l) (hs : s.step hash64 crypto prune l = some s') :
    Effect hash64 crypto prune s s' l := by
  have aside {l : PeerEvent} (h : Aside s s' ∧ s'.filter = s.filter) :
      Effect hash64 crypto prune s s' l := .aside h.1 (.inr (.inr h.2))
  cases l with
  | feed l =>
    obtain ⟨f, hf, heq⟩ := feed_eq_some hs
    exact .processor hf heq
  | filterLoad filterType filterBytes =>
    obtain ⟨-, rfl⟩ := filterLoad_eq_some hs
    exact .aside (.silent rfl rfl rfl rfl) (.inl ⟨_, _, rfl, rfl⟩)
  | filterAdd keys =>
    obtain ⟨-, filter, a, hadd, rfl⟩ := filterAdd_eq_some hs
    exact .aside (.silent rfl rfl rfl rfl) (.inr (.inl ⟨_, a, rfl, hadd⟩))
  | getFilterTransactionQueue =>
    obtain ⟨-, a, -, rfl⟩ := getFilterTransactionQueue_eq_some hs
    exact aside ⟨.silent rfl rfl rfl rfl, rfl⟩
  | reply =>
    obtain ⟨a, -, -, rfl⟩ := reply_eq_some hs
    exact aside ⟨.silent rfl rfl rfl rfl, rfl⟩
  | write =>
    obtain ⟨-, a, -, rfl⟩ := write_eq_some hs
    exact aside ⟨.saying rfl rfl rfl rfl fun _ _ => rfl, rfl⟩
  | takeTip =>
    obtain ⟨hstage, m, ms, hchan, rfl⟩ := takeTip_eq_some hs
    obtain ⟨hchange, hfeed, haddr, hfilter, hsent⟩ :=
      ({ s with feed := { s.feed with tipChangeChan := ms } } : PeerLoop).onTipChange_spec m
    exact .take (by rw [hstage]; rfl) hchan hfeed hchange haddr hfilter hsent
  | takeTx =>
    obtain ⟨-, m, ms, -, hnew⟩ := takeTx_eq_some hs
    exact aside (onNewTx_aside hnew)
  | announce =>
    obtain ⟨m, hstage, hannounce⟩ := announce_eq_some hs
    exact .announce hstage hannounce
  | getWork pubKeys memo =>
    obtain ⟨hstage, hget⟩ := getWork_eq_some hs
    exact aside (onGetWork_aside hstage hget)
  | updateWorkCheck =>
    obtain ⟨hstage, hupdate⟩ := updateWorkCheck_eq_some hs
    exact aside (updateWorkCheck_aside hstage hupdate)
  | median keyIndex workID =>
    obtain ⟨tipID, tipHeader, change, pubKey, hstage, -, rfl⟩ := median_eq_some hs
    exact aside ⟨.silent rfl rfl (by rw [hstage]; rfl) rfl, rfl⟩
  | readQueue =>
    obtain ⟨tipID, tipHeader, pubKey, change, hstage, rfl⟩ := readQueue_eq_some hs
    exact aside ⟨.silent rfl rfl (by rw [hstage]; rfl) rfl, rfl⟩
  | create draw =>
    obtain ⟨tipID, tipHeader, pubKey, txQueue, change, hstage, rfl⟩ := create_eq_some hs
    exact aside (issueWork_aside _ hstage)
  | submitWork workID header =>
    obtain ⟨hstage, hsubmit⟩ := submitWork_eq_some hs
    exact aside (onSubmitWork_aside hstage hl hsubmit)
  | process now =>
    obtain ⟨workID, block, f, hstage, hf, heq⟩ := process_eq_some hs
    exact .process hstage hf heq
  | submitted =>
    obtain ⟨workID, result, hstage, rfl⟩ := submitted_eq_some hs
    refine aside ⟨.saying rfl rfl (by rw [hstage]; rfl) rfl ?_, rfl⟩
    intro pk v
    cases result <;> rfl

theorem announce_spec {m : TipChange} (hs : s.announce hash64 m = some s') :
    s'.feed = s.feed ∧ s'.addr = s.addr ∧ s'.filter = s.filter ∧ s'.pubKeys = s.pubKeys ∧
      s'.stage = .idle := by
  simp only [announce] at hs
  split_ifs at hs
  · obtain rfl := Option.some.inj hs
    exact ⟨rfl, rfl, rfl, rfl, rfl⟩
  all_goals
    obtain ⟨fb, -, hs⟩ := Option.bind_eq_some_iff.mp hs
    obtain rfl := Option.some.inj hs
    cases fb <;> exact ⟨rfl, rfl, rfl, rfl, rfl⟩

/-- **A tip change is followed** as the chain follows it. -/
theorem announce_follow {m : TipChange} (hs : s.announce hash64 m = some s')
    (hsource : m.source ≠ s.addr) (hfilter : FilterMatches hash64 pk s.filter) {c c' : Chain}
    (hc : TipChange.replay c m = some c') :
    ∃ ms, s'.sent = s.sent ++ ms ∧
      ms.foldlM (KeyView.follow pk) (keyView pk c) = some (keyView pk c') := by
  have hblock {fb : Option FilterBlock} {filter : Option LoadedFilter}
      (hfilter : FilterMatches hash64 pk filter)
      (hfb : createFilterBlock hash64 filter m.blockID m.block = some fb) :
      ∃ txs, fb = some ⟨m.blockID, m.block.header, txs⟩ ∧
        involving pk txs = involving pk m.block.transactions := by
    obtain ⟨f, rfl, -⟩ := id hfilter
    obtain ⟨txs, htxs, hfb⟩ := Option.bind_eq_some_iff.mp hfb
    exact ⟨txs, (Option.some.inj hfb).symm, filterTransactions_spec hfilter htxs⟩
  simp only [announce, if_neg hsource] at hs
  unfold TipChange.replay at hc
  cases hconnect : m.connect with
  | true =>
    simp only [hconnect, if_true] at hs hc
    obtain ⟨fb, hfb, hs⟩ := Option.bind_eq_some_iff.mp hs
    obtain ⟨txs, rfl, htxs⟩ := hblock hfilter hfb
    obtain rfl := Option.some.inj hs
    split_ifs at hc
    obtain rfl := Option.some.inj hc
    exact ⟨[.invBlock [m.blockID], .filterBlock ⟨m.blockID, m.block.header, txs⟩], by simp,
      by simp [KeyView.follow, keyView, htxs]⟩
  | false =>
    simp only [hconnect, Bool.false_eq_true, if_false] at hs hc
    obtain ⟨fb, hfb, hs⟩ := Option.bind_eq_some_iff.mp hs
    obtain ⟨txs, rfl, -⟩ := hblock hfilter hfb
    obtain rfl := Option.some.inj hs
    split at hc
    · cases hc
    · split_ifs at hc with heq
      obtain rfl := Option.some.inj hc
      exact ⟨[.filterBlockUndo ⟨m.blockID, m.block.header, txs⟩], rfl,
        by simp [KeyView.follow, keyView, heq]⟩

/-- The feed is sound, and the tip change in hand is the last one taken. -/
structure Kept (crypto : Crypto) (prune : Bool) (A : Call → Prop) (s : PeerLoop) : Prop where
  sound : s.feed.Sound crypto prune A
  hand : s.stage.change.toList <:+ s.feed.taken

theorem heard_eq {done : List TipChange} (h : s.feed.taken = done ++ s.stage.change.toList) :
    s.heard = done := by
  rw [heard, h, List.length_append, Nat.add_sub_cancel, List.take_left]

theorem Kept.taken_eq (h : s.Kept crypto prune A) :
    s.feed.taken = s.heard ++ s.stage.change.toList := by
  obtain ⟨done, hdone⟩ := h.hand
  rw [heard_eq hdone.symm, hdone]

theorem Start.kept (h : Start crypto prune A s) : s.Kept crypto prune A := by
  obtain ⟨hfeed, hs⟩ := h
  refine ⟨hfeed.sound, ?_⟩
  rw [hs]
  exact List.nil_suffix

theorem Kept.step (h : s.Kept crypto prune A) (hl : s.Meets A l)
    (hs : s.step hash64 crypto prune l = some s') : s'.Kept crypto prune A := by
  cases step_effect hl hs with
  | processor hf heq =>
    subst heq
    obtain ⟨hsound, htaken, -⟩ := h.sound.step hl hf
    exact ⟨hsound, by rw [htaken]; exact h.hand⟩
  | process hstage hf heq =>
    subst heq
    exact ⟨(h.sound.block (hl _ _ hstage) hf).1, List.nil_suffix⟩
  | take hstage hchan hfeed hchange _ _ _ =>
    obtain ⟨hsound, htaken, -⟩ := h.sound.takeTip hchan
    refine ⟨by rw [hfeed]; exact hsound, ?_⟩
    rw [hfeed, htaken, hchange]
    exact List.suffix_append _ _
  | announce hstage hannounce =>
    obtain ⟨hfeed, -, -, -, hstage'⟩ := announce_spec hannounce
    refine ⟨by rw [hfeed]; exact h.sound, ?_⟩
    rw [hstage']
    exact List.nil_suffix
  | aside haside _ =>
    obtain ⟨txs, hfeed⟩ := haside.feed
    refine ⟨?_, ?_⟩
    · rw [hfeed]
      exact h.sound.of_eq rfl rfl rfl List.suffix_rfl
    · rw [haside.change, hfeed]
      exact h.hand

theorem reach_kept (h : Reach (Start crypto prune A) (step hash64 crypto prune) (Meets A) s) :
    s.Kept crypto prune A :=
  h.invariant (fun _ h => h.kept) fun _ _ _ h hl hs => h.step hl hs

/-! ### Following the chain -/

/-- **The condition on a step.**  The peer delivers no block itself, loads only
filters that match the key, and adds keys without fail and only to a filter with a power of two
of buckets. -/
def Listening (hash64 : List UInt8 → UInt64 → UInt64) (pk : PublicKey) (s : PeerLoop) :
    PeerEvent → Prop
  | .feed (.block _ _ source) => source ≠ s.addr
  | .process _ => False
  | .submitWork workID header => s.Meets (fun _ => True) (.submitWork workID header)
  | .filterLoad _ filterBytes => ∀ f, Cuckoo.decode filterBytes = .ok f →
      FilterMatches hash64 pk (some f)
  | .filterAdd keys => (∀ f ∈ s.filter, ∃ k, f.1 = 2 ^ k) ∧
      ∀ filter a, onFilterAdd hash64 s.filter keys = some (filter, a) →
        a ≠ .filterResult (some .unableToInsert)
  | _ => True

theorem Listening.meets (h : Listening hash64 pk s l) : s.Meets (fun _ => True) l := by
  cases l with
  | feed l => cases l <;> trivial
  | process now => exact absurd h id
  | submitWork workID header => exact h
  | _ => trivial

/-- The tip changes that the peer is still to be told about. -/
def ahead (s : PeerLoop) : List TipChange := s.stage.change.toList ++ s.feed.underWay

/-- What the peer has been sent since it had the view `v₀` and `sent₀` had been
sent leads to the view of the chain reached. -/
structure Mirrors (hash64 : List UInt8 → UInt64 → UInt64) (crypto : Crypto) (prune : Bool)
    (pk : PublicKey) (v₀ : KeyView) (sent₀ : List PeerMessage) (s : PeerLoop) : Prop where
  kept : s.Kept crypto prune fun _ => True
  filter : FilterMatches hash64 pk s.filter
  foreign : ∀ m ∈ s.ahead, m.source ≠ s.addr
  follows : ∃ ms, s.sent = sent₀ ++ ms ∧
    ms.foldlM (KeyView.follow pk) v₀ = some (keyView pk s.reached)

theorem reached_eq {c : Chain} (h : Leads [] s.heard c) : s.reached = c := by
  rw [reached, show s.heard.foldlM TipChange.replay [] = some c from h, Option.getD_some]

/-- What has been heard leads to the chain reached, and what is ahead from there
to the main chain. -/
theorem Kept.leads (h : s.Kept crypto prune A) :
    Leads [] s.heard s.reached ∧ Leads s.reached s.ahead s.feed.processor.mainChain := by
  obtain ⟨c, hc, hrest⟩ := h.sound.leads
  rw [h.taken_eq, Leads, List.foldlM_append] at hc
  obtain ⟨d, hd, hhand⟩ := Option.bind_eq_some_iff.mp hc
  rw [reached_eq hd]
  exact ⟨hd, Leads.append hhand hrest⟩

theorem onFilterLoad_matches {filter : Option LoadedFilter} (h : FilterMatches hash64 pk filter)
    {filterType : String} {filterBytes : List UInt8}
    (hl : ∀ f, Cuckoo.decode filterBytes = .ok f → FilterMatches hash64 pk (some f)) :
    FilterMatches hash64 pk (onFilterLoad filter filterType filterBytes).1 := by
  unfold onFilterLoad
  split_ifs
  · exact h
  · exact h
  · split
    · exact h
    · next f hf => exact hl f hf

/-- Adding keys to a filter leaves those that it matched, if it succeeds. -/
theorem onFilterAdd_matches {filter filter' : Option LoadedFilter}
    (h : FilterMatches hash64 pk filter) (hsize : ∀ f ∈ filter, ∃ k, f.1 = 2 ^ k)
    {keys : List (Cuckoo.Draw × PublicKey)} {a : Answer}
    (hadd : onFilterAdd hash64 filter keys = some (filter', a))
    (hok : a ≠ .filterResult (some .unableToInsert)) : FilterMatches hash64 pk filter' := by
  unfold onFilterAdd at hadd
  split_ifs at hadd
  · obtain ⟨rfl, -⟩ := Prod.mk.inj (Option.some.inj hadd)
    exact h
  · obtain ⟨⟨n, f⟩, rfl, hf⟩ := h
    obtain ⟨k, hk⟩ := hsize _ rfl
    obtain ⟨⟨f', ok⟩, hins, hadd⟩ := Option.bind_eq_some_iff.mp hadd
    obtain ⟨rfl, rfl⟩ := Prod.mk.inj (Option.some.inj hadd)
    have hok' : ok = true := by
      cases ok with
      | true => rfl
      | false => exact absurd rfl hok
    subst hok'
    cases n with
    | zero => exact absurd hf (by simp [LoadedFilter.lookup])
    | succ n =>
      simp only [Option.getD_some, LoadedFilter.insertAll, Option.some.injEq, Prod.mk.injEq] at hins
      obtain ⟨rfl, hins⟩ := hins
      refine ⟨_, rfl, ?_⟩
      simp only [LoadedFilter.lookup, Option.some.injEq] at hf ⊢
      exact Cuckoo.Filter.insertAll_lookup ⟨k, hk⟩ hins (.inl hf)

variable {v₀ : KeyView} {sent₀ : List PeerMessage}

/-- Only the chain, the filter and what is sent matter. -/
theorem Mirrors.of_eq (h : s.Mirrors hash64 crypto prune pk v₀ sent₀)
    (hkept : s'.Kept crypto prune fun _ => True) (hfilter : FilterMatches hash64 pk s'.filter)
    (haddr : s'.addr = s.addr) (hheard : s'.heard = s.heard)
    (hahead : ∀ m ∈ s'.ahead, m.source ≠ s.addr) (ms : List PeerMessage)
    (hsent : s'.sent = s.sent ++ ms) (hms : ∀ m ∈ ms, ∀ pk v, KeyView.follow pk v m = some v) :
    s'.Mirrors hash64 crypto prune pk v₀ sent₀ := by
  obtain ⟨ms₀, hsent₀, hfollows⟩ := h.follows
  have hreached : s'.reached = s.reached := by rw [reached, reached, hheard]
  refine ⟨hkept, hfilter, by rw [haddr]; exact hahead, ms₀ ++ ms, ?_, ?_⟩
  · rw [hsent, hsent₀, List.append_assoc]
  · rw [List.foldlM_append, hfollows, hreached]
    exact KeyView.follow_nothing hms _

theorem Mirrors.processor (h : s.Mirrors hash64 crypto prune pk v₀ sent₀) {l : FeedStep} {f : Feed}
    (hl : Listening hash64 pk s (.feed l)) (hf : s.feed.step crypto prune l = some f)
    (hs : s.step hash64 crypto prune (.feed l) = some { s with feed := f }) :
    ({ s with feed := f } : PeerLoop).Mirrors hash64 crypto prune pk v₀ sent₀ := by
  have hl' : Feed.Meets (fun _ => True) l := hl.meets
  have hkept := h.kept.step (l := .feed l) hl' hs
  obtain ⟨-, htaken, -⟩ := h.kept.sound.step hl' hf
  have hheard : ({ s with feed := f } : PeerLoop).heard = s.heard := by
    rw [heard, heard, htaken]
  -- only a block brings news, and then not from the peer
  have hunder : ∀ m ∈ f.underWay, m ∈ s.feed.underWay ∨ m.source ≠ s.addr := by
    intro m hm
    cases l with
    | block b now source =>
      obtain ⟨-, -, hunder, hsource⟩ := h.kept.sound.block trivial hf
      rw [hunder] at hm
      rcases List.mem_append.mp hm with hm | hm
      · exact .inl hm
      · rw [hsource m hm]
        exact .inr hl
    | transaction tx source =>
      obtain ⟨-, -, hunder⟩ := h.kept.sound.transaction trivial hf
      exact .inl (hunder ▸ hm)
    | move =>
      obtain ⟨-, -, hunder⟩ := h.kept.sound.move hf
      exact .inl (hunder ▸ hm)
    | notify =>
      obtain ⟨-, -, hunder, -⟩ := h.kept.sound.notify hf
      exact .inl (hunder ▸ hm)
  refine h.of_eq hkept h.filter rfl hheard (fun m hm => ?_) [] (List.append_nil _).symm (by simp)
  rcases List.mem_append.mp hm with hm | hm
  · exact h.foreign m (List.mem_append_left _ hm)
  · exact (hunder m hm).elim (fun hm => h.foreign m (List.mem_append_right _ hm)) id

/-- The loop takes a tip change in hand. -/
theorem Mirrors.take (h : s.Mirrors hash64 crypto prune pk v₀ sent₀)
    (hkept : s'.Kept crypto prune fun _ => True) {m : TipChange} {ms : List TipChange}
    (hstage : s.stage.change = none) (hchan : s.feed.tipChangeChan = m :: ms)
    (hfeed : s'.feed = { s.feed with tipChangeChan := ms }) (hchange : s'.stage.change = some m)
    (haddr : s'.addr = s.addr) (hfilter : s'.filter = s.filter) (hsent : s'.sent = s.sent) :
    s'.Mirrors hash64 crypto prune pk v₀ sent₀ := by
  obtain ⟨-, htaken, hunder⟩ := h.kept.sound.takeTip hchan
  rw [← hfeed] at htaken hunder
  have hall := h.kept.taken_eq
  rw [hstage, Option.toList_none, List.append_nil] at hall
  refine h.of_eq hkept (by rw [hfilter]; exact h.filter) haddr
    (heard_eq (by rw [htaken, hall, hchange]; rfl)) (fun m' hm' => h.foreign m' ?_) []
    (by rw [hsent, List.append_nil]) (by simp)
  rw [ahead, hstage, hunder]
  rw [ahead, hchange] at hm'
  exact hm'

/-- **The peer is told** about the tip change in hand. -/
theorem Mirrors.announce (h : s.Mirrors hash64 crypto prune pk v₀ sent₀)
    (hkept : s'.Kept crypto prune fun _ => True) {m : TipChange} (hstage : s.stage = .announce m)
    (hannounce : s.announce hash64 m = some s') :
    s'.Mirrors hash64 crypto prune pk v₀ sent₀ := by
  obtain ⟨hfeed, haddr, hfilter, -, hstage'⟩ := announce_spec hannounce
  have hhand : s.stage.change.toList = [m] := by rw [hstage]; rfl
  have hahead : s.ahead = m :: s'.ahead := by
    rw [ahead, ahead, hhand, hstage', hfeed]
    rfl
  have hheard : s'.heard = s.heard ++ [m] := by
    refine heard_eq ?_
    rw [hfeed, h.kept.taken_eq, hhand, hstage']
    simp [Stage.change]
  have hreplay : TipChange.replay s.reached m = some s'.reached := by
    have hheard' := hkept.leads.1
    rw [hheard] at hheard'
    have := h.kept.leads.1.cancel hheard'
    rw [Leads, List.foldlM_cons] at this
    obtain ⟨c, hc, hnil⟩ := Option.bind_eq_some_iff.mp this
    rw [hc, Option.some.inj hnil]
  have hsource := h.foreign m (by rw [hahead]; exact List.mem_cons_self)
  obtain ⟨ms, hsent, hfollow⟩ := announce_follow hannounce hsource h.filter hreplay
  obtain ⟨ms₀, hsent₀, hfollows⟩ := h.follows
  refine ⟨hkept, by rw [hfilter]; exact h.filter, fun m' hm' => ?_, ms₀ ++ ms, ?_, ?_⟩
  · rw [haddr]
    refine h.foreign m' ?_
    rw [hahead]
    exact List.mem_cons_of_mem _ hm'
  · rw [hsent, hsent₀, List.append_assoc]
  · rw [List.foldlM_append, hfollows]
    exact hfollow

/-- What has nothing to do with tip changes leaves the view as it is. -/
theorem Mirrors.aside (h : s.Mirrors hash64 crypto prune pk v₀ sent₀)
    (hkept : s'.Kept crypto prune fun _ => True) (haside : Aside s s')
    (hmatches : FilterMatches hash64 pk s'.filter) :
    s'.Mirrors hash64 crypto prune pk v₀ sent₀ := by
  obtain ⟨txs, hfeed⟩ := haside.feed
  obtain ⟨ms, hsent, hms⟩ := haside.sent
  refine h.of_eq hkept hmatches haside.addr ?_ (fun m hm => h.foreign m ?_) ms hsent hms
  · rw [heard, heard, haside.change, hfeed]
    rfl
  · rw [ahead, haside.change, hfeed] at hm
    exact hm

/-- **One step** keeps the view up to date. -/
theorem Mirrors.step (h : s.Mirrors hash64 crypto prune pk v₀ sent₀)
    (hl : Listening hash64 pk s l) (hs : s.step hash64 crypto prune l = some s') :
    s'.Mirrors hash64 crypto prune pk v₀ sent₀ := by
  have hkept : s'.Kept crypto prune fun _ => True := h.kept.step hl.meets hs
  cases step_effect hl.meets hs with
  | processor hf heq =>
    subst heq
    exact h.processor hl hf hs
  | process _ _ _ => exact absurd hl id
  | take hstage hchan hfeed hchange haddr hfilter hsent =>
    exact h.take hkept hstage hchan hfeed hchange haddr hfilter hsent
  | announce hstage hannounce => exact h.announce hkept hstage hannounce
  | aside haside hfilter =>
    refine h.aside hkept haside ?_
    rcases hfilter with ⟨filterType, filterBytes, rfl, hfilter⟩ | ⟨keys, a, rfl, hadd⟩ | hfilter
    · rw [hfilter]
      exact onFilterLoad_matches h.filter hl
    · exact onFilterAdd_matches h.filter hl.1 hadd (hl.2 _ _ hadd)
    · rw [hfilter]
      exact h.filter

/-! ### Catching up -/

/-- The peer wants no work, and its filter can be asked. -/
structure Calm (s : PeerLoop) : Prop where
  pubKeys : s.pubKeys = []
  stage : s.stage = .idle ∨ ∃ m, s.stage = .announce m
  filter : ∃ n f, s.filter = some ⟨n + 1, f⟩

theorem Calm.exists_filterLookup (hash64 : List UInt8 → UInt64 → UInt64) (h : s.Calm)
    (tx : Transaction) :
    ∃ interested, filterLookup hash64 s.filter tx = some interested := by
  obtain ⟨n, f, hf⟩ := h.filter
  rw [hf]
  simp only [filterLookup, LoadedFilter.lookup]
  split_ifs
  · exact ⟨_, rfl⟩
  · split <;> exact ⟨_, rfl⟩

theorem Calm.exists_createFilterBlock (hash64 : List UInt8 → UInt64 → UInt64) (h : s.Calm)
    (id : BlockID) (block : Block) :
    ∃ fb, createFilterBlock hash64 s.filter id block = some fb := by
  have htxs (txs : List Transaction) :
      ∃ txs', filterTransactions hash64 s.filter txs = some txs' := by
    induction txs with
    | nil => exact ⟨_, rfl⟩
    | cons tx txs ih =>
      obtain ⟨interested, hlookup⟩ := h.exists_filterLookup hash64 tx
      obtain ⟨txs', htxs'⟩ := ih
      exact ⟨_, by simp only [filterTransactions, hlookup, htxs']; rfl⟩
  obtain ⟨txs', htxs'⟩ := htxs block.transactions
  unfold createFilterBlock
  obtain ⟨n, f, hf⟩ := h.filter
  rw [hf] at htxs' ⊢
  exact ⟨_, by simp only [htxs']; rfl⟩

variable (hash64 crypto prune pk)

/-- The state can be reached by steps that meet the condition. -/
def CatchesUp (s s' : PeerLoop) : Prop :=
  Reach (· = s) (step hash64 crypto prune) (Listening hash64 pk) s'

variable {hash64 crypto prune pk} in
theorem CatchesUp.next {s₁ : PeerLoop} (h : CatchesUp hash64 crypto prune pk s s₁) (l : PeerEvent)
    (hl : Listening hash64 pk s₁ l) (hs : s₁.step hash64 crypto prune l = some s') :
    CatchesUp hash64 crypto prune pk s s' :=
  Reach.next h hl hs

variable {hash64 crypto prune pk} in
theorem CatchesUp.kept (h : CatchesUp hash64 crypto prune pk s s')
    (hs : s.Kept crypto prune fun _ => True) : s'.Kept crypto prune fun _ => True := by
  refine Reach.invariant h ?_ fun _ _ _ h hl hs => h.step hl.meets hs
  rintro s rfl
  exact hs

/-- A tip change in hand is announced. -/
theorem Calm.announce (h : s.Calm) :
    ∃ s', CatchesUp hash64 crypto prune pk s s' ∧ s'.Calm ∧ s'.stage = .idle ∧
      s'.feed = s.feed := by
  rcases h.stage with hidle | ⟨m, hm⟩
  · exact ⟨s, .init rfl, h, hidle, rfl⟩
  · obtain ⟨s', hs'⟩ : ∃ s', s.announce hash64 m = some s' := by
      simp only [PeerLoop.announce]
      split_ifs
      · exact ⟨_, rfl⟩
      all_goals
        obtain ⟨fb, hfb⟩ := h.exists_createFilterBlock hash64 m.blockID m.block
        exact ⟨_, by simp only [send_filter, hfb]; rfl⟩
    have hstep : s.step hash64 crypto prune .announce = some s' := by
      simp only [step, hm]
      exact hs'
    obtain ⟨hfeed, -, hfilter, hpubKeys, hstage⟩ := announce_spec hs'
    exact ⟨s', CatchesUp.next (.init rfl) .announce trivial hstep,
      ⟨hpubKeys.trans h.pubKeys, .inl hstage, by rw [hfilter]; exact h.filter⟩, hstage, hfeed⟩

/-- The channel for tip changes is emptied. -/
theorem Calm.takeTips (h : s.Calm) :
    ∃ s', CatchesUp hash64 crypto prune pk s s' ∧ s'.Calm ∧ s'.stage = .idle ∧
      s'.feed = { s.feed with tipChangeChan := [] } := by
  obtain ⟨s₁, hrun, h₁, hidle, hfeed⟩ := h.announce hash64 crypto prune pk
  rw [← hfeed]
  clear hfeed
  generalize hchan : s₁.feed.tipChangeChan = ms
  induction ms generalizing s₁ with
  | nil => exact ⟨s₁, hrun, h₁, hidle, by rw [← hchan]⟩
  | cons m ms ih =>
    have htaken : s₁.step hash64 crypto prune .takeTip =
        some { s₁ with feed := { s₁.feed with tipChangeChan := ms }, stage := .announce m } := by
      simp only [step, hidle, hchan, onTipChange, createNewWorkBlock]
      rw [if_pos h₁.pubKeys]
      split_ifs <;> rfl
    have h₁' : ({ s₁ with feed := { s₁.feed with tipChangeChan := ms }, stage := .announce m } :
        PeerLoop).Calm := ⟨h₁.pubKeys, .inr ⟨m, rfl⟩, h₁.filter⟩
    obtain ⟨s₂, hrun₂, h₂, hidle₂, hfeed₂⟩ := h₁'.announce hash64 crypto prune pk
    obtain ⟨s₃, hrun₃, h₃, hidle₃, hfeed₃⟩ := ih s₂
      (Reach.trans (hrun.next .takeTip trivial htaken) hrun₂) h₂ hidle₂ (by rw [hfeed₂])
    exact ⟨s₃, hrun₃, h₃, hidle₃, by rw [hfeed₃, hfeed₂]⟩

/-- The channel for transactions is emptied. -/
theorem Calm.takeTxs (h : s.Calm) (hidle : s.stage = .idle) :
    ∃ s', CatchesUp hash64 crypto prune pk s s' ∧ s'.Calm ∧ s'.stage = .idle ∧
      s'.feed = { s.feed with newTxChan := [] } := by
  generalize hchan : s.feed.newTxChan = ms
  induction ms generalizing s with
  | nil => exact ⟨s, .init rfl, h, hidle, by rw [← hchan]⟩
  | cons m ms ih =>
    obtain ⟨s₁, hs₁⟩ : ∃ s₁, ({ s with feed := { s.feed with newTxChan := ms } } :
        PeerLoop).onNewTx hash64 m = some s₁ := by
      unfold onNewTx
      split_ifs
      · exact ⟨_, rfl⟩
      · obtain ⟨interested, hlookup⟩ := h.exists_filterLookup hash64 m.transaction
        exact ⟨_, by simp only [hlookup]; rfl⟩
    have hstep : s.step hash64 crypto prune .takeTx = some s₁ := by
      simp only [step]
      split
      · next m' ms' _ hchan' =>
        obtain ⟨rfl, rfl⟩ := List.cons.inj (hchan.symm.trans hchan')
        exact hs₁
      · next hno => exact absurd hchan (hno m ms hidle)
    have hsame : s₁.feed = { s.feed with newTxChan := ms } ∧ s₁.pubKeys = s.pubKeys ∧
        s₁.stage = s.stage ∧ s₁.filter = s.filter := by
      unfold onNewTx at hs₁
      split_ifs at hs₁
      · obtain rfl := Option.some.inj hs₁
        exact ⟨rfl, rfl, rfl, rfl⟩
      · obtain ⟨interested, -, hs₁⟩ := Option.bind_eq_some_iff.mp hs₁
        obtain rfl := Option.some.inj hs₁
        cases interested <;> exact ⟨rfl, rfl, rfl, rfl⟩
    obtain ⟨hfeed, hpubKeys, hstage, hfilter⟩ := hsame
    obtain ⟨s₂, hrun₂, h₂, hidle₂, hfeed₂⟩ := ih (s := s₁)
      ⟨hpubKeys.trans h.pubKeys, .inl (hstage.trans hidle), by rw [hfilter]; exact h.filter⟩
      (hstage.trans hidle) (by rw [hfeed])
    exact ⟨s₂, Reach.trans (CatchesUp.next (.init rfl) .takeTx trivial hstep) hrun₂, h₂, hidle₂,
      by rw [hfeed₂, hfeed]⟩

/-- The processor gets rid of its messages. -/
theorem Calm.notify (h : s.Calm) :
    ∃ s', CatchesUp hash64 crypto prune pk s s' ∧ s'.Calm ∧ s'.stage = .idle ∧
      s'.feed = { s.feed with outbox := [], tipChangeChan := [], newTxChan := [] } := by
  generalize hout : s.feed.outbox = ms
  induction ms generalizing s with
  | nil =>
    obtain ⟨s₁, hrun₁, h₁, hidle₁, hfeed₁⟩ := h.takeTips hash64 crypto prune pk
    obtain ⟨s₂, hrun₂, h₂, hidle₂, hfeed₂⟩ := h₁.takeTxs hash64 crypto prune pk hidle₁
    exact ⟨s₂, Reach.trans hrun₁ hrun₂, h₂, hidle₂, by rw [hfeed₂, hfeed₁, ← hout]⟩
  | cons m ms ih =>
    -- make room first
    obtain ⟨s₁, hrun₁, h₁, hidle₁, hfeed₁⟩ := h.takeTips hash64 crypto prune pk
    obtain ⟨s₂, hrun₂, h₂, hidle₂, hfeed₂⟩ := h₁.takeTxs hash64 crypto prune pk hidle₁
    rw [hfeed₁] at hfeed₂
    obtain ⟨f, hf, hout', hsame⟩ : ∃ f, s₂.feed.step crypto prune .notify = some f ∧
        f.outbox = ms ∧ ({ f with outbox := [], tipChangeChan := [], newTxChan := [] } : Feed) =
          { s.feed with outbox := [], tipChangeChan := [], newTxChan := [] } := by
      rw [hfeed₂]
      cases m with
      | tipChange m =>
        simp only [Feed.step, hout]
        rw [if_pos (by decide)]
        exact ⟨_, rfl, rfl, rfl⟩
      | newTx m =>
        simp only [Feed.step, hout]
        rw [if_pos (by decide)]
        exact ⟨_, rfl, rfl, rfl⟩
    have hstep : s₂.step hash64 crypto prune (.feed .notify) = some { s₂ with feed := f } := by
      simp only [step, hf]
      rfl
    obtain ⟨s₃, hrun₃, h₃, hidle₃, hfeed₃⟩ := ih (s := { s₂ with feed := f })
      ⟨h₂.pubKeys, .inl hidle₂, h₂.filter⟩ hout'
    have hrun : CatchesUp hash64 crypto prune pk s s₂ := Reach.trans hrun₁ hrun₂
    exact ⟨s₃, Reach.trans (hrun.next (.feed .notify) trivial hstep) hrun₃, h₃, hidle₃,
      hfeed₃.trans hsame⟩

/-- **The peer catches up** once there is nothing new. -/
theorem Calm.catchesUp (h : s.Calm) :
    ∃ s', CatchesUp hash64 crypto prune pk s s' ∧ s'.Calm ∧ s'.stage = .idle ∧
      s'.feed.rest = [] ∧ s'.feed.outbox = [] ∧ s'.feed.tipChangeChan = [] ∧
      s'.feed.newTxChan = [] ∧ s'.feed.processor = s.feed.processor := by
  generalize hrest : s.feed.rest = ps
  induction ps generalizing s with
  | nil =>
    obtain ⟨s₁, hrun₁, h₁, hidle₁, hfeed₁⟩ := h.notify hash64 crypto prune pk
    exact ⟨s₁, hrun₁, h₁, hidle₁, by rw [hfeed₁]; exact hrest, by rw [hfeed₁], by rw [hfeed₁],
      by rw [hfeed₁], by rw [hfeed₁]⟩
  | cons p ps ih =>
    obtain ⟨s₁, hrun₁, h₁, hidle₁, hfeed₁⟩ := h.notify hash64 crypto prune pk
    have hmove : s₁.step hash64 crypto prune (.feed .move) = some { s₁ with feed :=
        { s₁.feed with
          view := p, rest := ps, outbox := (s₁.feed.view.sent p).map .tipChange } } := by
      have hrest₁ : s₁.feed.rest = p :: ps := by rw [hfeed₁]; exact hrest
      have hout₁ : s₁.feed.outbox = [] := by rw [hfeed₁]
      simp only [step, Feed.step, hrest₁, hout₁]
      rfl
    obtain ⟨s₂, hrun₂, h₂, hidle₂, hrest₂, hout₂, htips₂, htxs₂, hprocessor₂⟩ := ih
      (s := { s₁ with feed :=
        { s₁.feed with view := p, rest := ps, outbox := (s₁.feed.view.sent p).map .tipChange } })
      ⟨h₁.pubKeys, .inl hidle₁, h₁.filter⟩ rfl
    refine ⟨s₂, Reach.trans (hrun₁.next (.feed .move) trivial hmove) hrun₂, h₂, hidle₂,
      hrest₂, hout₂, htips₂, htxs₂, ?_⟩
    rw [hprocessor₂]
    show s₁.feed.processor = _
    rw [hfeed₁]

variable {hash64 crypto prune pk}

/-- A peer at rest has reached the main chain. -/
theorem Kept.ahead_eq_nil (h : s.Kept crypto prune A) (hstage : s.stage = .idle)
    (hrest : s.feed.rest = []) (hout : s.feed.outbox = []) (htips : s.feed.tipChangeChan = []) :
    s.ahead = [] := by
  simp [ahead, hstage, Stage.change, Feed.underWay, Feed.outboxTips, htips, hout,
    h.sound.view_eq hrest, Processor.sent]

theorem Kept.reached_eq (h : s.Kept crypto prune A) (hahead : s.ahead = []) :
    s.reached = s.feed.processor.mainChain := by
  have hleads := h.leads.2
  rw [hahead] at hleads
  exact Option.some.inj hleads

/-- **Filtered blocks mirror the chain.**  The messages sent since the filter
matched the key lead from the key's transactions on the chain reached then to
those on the chain reached now, which is the main chain once there is nothing
ahead.  The peer has delivered none of the blocks ahead and delivers none. -/
theorem filtered_blocks_mirror_chain
    (h₀ : Reach (Start crypto prune fun _ => True) (step hash64 crypto prune)
      (Meets fun _ => True) s₀)
    (hfilter : FilterMatches hash64 pk s₀.filter) (hforeign : ∀ m ∈ s₀.ahead, m.source ≠ s₀.addr)
    (h : Reach (· = s₀) (step hash64 crypto prune) (Listening hash64 pk) s) :
    (∃ ms, s.sent = s₀.sent ++ ms ∧
      ms.foldlM (KeyView.follow pk) (keyView pk s₀.reached) = some (keyView pk s.reached)) ∧
    Leads s.reached s.ahead s.feed.processor.mainChain := by
  have hmirrors : s.Mirrors hash64 crypto prune pk (keyView pk s₀.reached) s₀.sent := by
    refine h.invariant ?_ fun _ _ _ h hl hs => h.step hl hs
    rintro s rfl
    exact ⟨reach_kept h₀, hfilter, hforeign, [], (List.append_nil _).symm, rfl⟩
  exact ⟨hmirrors.follows, hmirrors.kept.leads.2⟩

end Steps

end PeerLoop

/-! ### A reorganisation -/

namespace Sample

open Cuckoo.Sample (hash64)

/-- A filter of two buckets that holds the fingerprint of the key of the sample chain. -/
def filterBytes : List UInt8 := [0, 0, 0, 0, 98, 0, 0, 0]

/-- The filter as it is loaded. -/
def loaded : LoadedFilter := ⟨2, Cuckoo.Filter.ofBytes 2 filterBytes⟩

/-- A wallet connected to a processor between two calls. -/
def wallet (p : Processor) (filter : Option LoadedFilter) (reply : Option Answer) : PeerLoop :=
  ⟨⟨p, p, [], [], [], []⟩, "wallet", filter, reply, none, [], [], 0, none, [], 0, .idle, []⟩

/-- The wallet's filter is loaded. -/
theorem wallet_filterLoad (crypto : Crypto) (prune : Bool) (p : Processor) :
    (wallet p none none).step hash64 crypto prune (.filterLoad "cuckoo" filterBytes) =
      some (wallet p (some loaded) (some (.filterResult none))) := rfl

theorem loaded_matches : FilterMatches hash64 genesisCoinbase.recipient (some loaded) :=
  ⟨_, rfl, by decide +kernel⟩

/-- The wallet has loaded its filter at the fork. -/
theorem wallet_reached : Reach (PeerLoop.Start crypto false fun _ => True)
    (PeerLoop.step hash64 crypto false) (PeerLoop.Meets fun _ => True)
    (wallet fork (some loaded) (some (.filterResult none))) := by
  have hrun : Reachable crypto false fork := fork_forked.1.run.mono fun _ _ => trivial
  have hstart : Reach (PeerLoop.Start crypto false fun _ => True)
      (PeerLoop.step hash64 crypto false) (PeerLoop.Meets fun _ => True) (wallet fork none none) :=
    .init ⟨⟨hrun, rfl⟩, rfl⟩
  exact .next (l := .filterLoad "cuckoo" filterBytes) hstart trivial
    (wallet_filterLoad crypto false fork)

end Sample

/-- **The wallet follows a reorganisation** from the arrival of the block: its view of the
sibling is undone, and it is sent both blocks of the other branch. -/
theorem filtered_blocks_of_reorganisation :
    ∃ (s₀ s : PeerLoop) (ms : List PeerMessage),
      FilterMatches Cuckoo.Sample.hash64 genesisCoinbase.recipient s₀.filter ∧
      s₀.reached = [(Sample.sibling.id Sample.crypto, Sample.sibling), Sample.entry 0 0] ∧
      s.reached = Sample.chain 0 2 ∧ s.sent = s₀.sent ++ ms ∧
      ms.foldlM (KeyView.follow genesisCoinbase.recipient) (keyView genesisCoinbase.recipient
          [(Sample.sibling.id Sample.crypto, Sample.sibling), Sample.entry 0 0]) =
        some (keyView genesisCoinbase.recipient (Sample.chain 0 2)) := by
  have hfork := Sample.fork_forked.1
  have hkept₀ := PeerLoop.reach_kept Sample.wallet_reached
  have hahead₀ : (Sample.wallet Sample.fork (some Sample.loaded)
      (some (.filterResult none))).ahead = [] := hkept₀.ahead_eq_nil rfl rfl rfl rfl
  -- the block arrives from somebody else
  obtain ⟨s₁, hs₁, hcalm, hprocessor⟩ : ∃ s₁, (Sample.wallet Sample.fork (some Sample.loaded)
      (some (.filterResult none))).step Cuckoo.Sample.hash64 Sample.crypto false
        (.feed (.block (Sample.block 0 2) (Sample.time 2 + 8) "")) = some s₁ ∧
      s₁.Calm ∧ s₁.feed.processor = (Sample.fork.step Sample.crypto false
        (.block (Sample.block 0 2) (Sample.time 2 + 8) "")).1 :=
    ⟨_, rfl, ⟨rfl, .inl rfl, 1, _, rfl⟩, rfl⟩
  have harrived : PeerLoop.CatchesUp Cuckoo.Sample.hash64 Sample.crypto false
      genesisCoinbase.recipient (Sample.wallet Sample.fork (some Sample.loaded)
        (some (.filterResult none))) s₁ :=
    PeerLoop.CatchesUp.next (.init rfl) (.feed (.block (Sample.block 0 2) (Sample.time 2 + 8) ""))
      (show "" ≠ "wallet" by decide) hs₁
  -- and the wallet is told
  obtain ⟨s, hrun, -, hidle, hrest, hout, htips, -, hprocessor'⟩ := hcalm.catchesUp
    Cuckoo.Sample.hash64 Sample.crypto false genesisCoinbase.recipient
  have htold : PeerLoop.CatchesUp Cuckoo.Sample.hash64 Sample.crypto false
      genesisCoinbase.recipient (Sample.wallet Sample.fork (some Sample.loaded)
        (some (.filterResult none))) s := Transition.Reach.trans harrived hrun
  have hkept := htold.kept hkept₀
  have hahead := hkept.ahead_eq_nil hidle hrest hout htips
  have hreached₀ := (hkept₀.reached_eq hahead₀).trans hfork.settled.mainChain_eq
  have hreached : s.reached = Sample.chain 0 2 := by
    obtain ⟨-, ⟨K, hmoved⟩, -⟩ := hfork.moves
    rw [hkept.reached_eq hahead, hprocessor', hprocessor, hmoved.mainChain_eq]
  obtain ⟨⟨ms, hsent, hfollow⟩, -⟩ := PeerLoop.filtered_blocks_mirror_chain Sample.wallet_reached
    Sample.loaded_matches (by rw [hahead₀]; simp) htold
  rw [hreached₀, hreached] at hfollow
  exact ⟨_, s, ms, Sample.loaded_matches, hreached₀, hreached, hsent, hfollow⟩

end Cruzbit

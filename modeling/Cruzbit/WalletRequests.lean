/-
Cruzbit/WalletRequests.lean

The wallet's synchronous requests (`wallet.go`), against a peer that answers
each of them with one message and also sends messages nobody asked for.

A caller writes its request and waits on the result channel.  The reader loop
forwards the messages whose type it knows to be a reply, and all calls share
the one channel.  So a call gets its reply exactly if the reader forwards the
type of that reply (`dispatch`), which it does for all of them but `balances`.

Without GetBalances, the request of a waiting call or its reply is always in
exactly one place on its way (`Linked`), and results and replies match
(`replies_reach_requests`).  With it the reply is dropped and the call waits
for ever (`balances_never_received`).

Calls are made one after the other, as the wallet's users do: the channel has
nothing to tell two waiting callers apart.
-/
import Cruzbit.Transition
import Mathlib.Data.List.Forall2
import Mathlib.Tactic.Common

namespace Cruzbit

open Transition

/-! ### Messages -/

/-- The types of the messages that a wallet receives. -/
inductive MessageType
  | balance
  | balances
  | tipHeader
  | transactionRelayPolicy
  | pushTransactionResult
  | transaction
  | publicKeyTransactions
  | filterResult
  | pushTransaction
  | filterBlock
  | filterBlockUndo
  | invBlock
  deriving DecidableEq, Repr

/-- The types of the messages that a wallet sends. -/
inductive RequestType
  | getBalance
  | getBalances
  | getTipHeader
  | getTransactionRelayPolicy
  | filterLoad
  | filterAdd
  | pushTransaction
  | getTransaction
  | getPublicKeyTransactions
  deriving DecidableEq, Repr

/-- The type of the message with which a peer answers, errors included. -/
def RequestType.reply : RequestType → MessageType
  | .getBalance => .balance
  | .getBalances => .balances
  | .getTipHeader => .tipHeader
  | .getTransactionRelayPolicy => .transactionRelayPolicy
  | .filterLoad => .filterResult
  | .filterAdd => .filterResult
  | .pushTransaction => .pushTransactionResult
  | .getTransaction => .transaction
  | .getPublicKeyTransactions => .publicKeyTransactions

/-- The wallet's synchronous calls. -/
inductive WalletCall
  | getBalance
  | getBalances
  | getTipHeader
  | getTransactionRelayPolicy
  | setFilter
  | addFilter
  | send
  | getTransaction
  | getPublicKeyTransactions
  deriving DecidableEq, Repr

/-- The requests of a call: the first one, and the others if all goes well. -/
def WalletCall.requests : WalletCall → RequestType × List RequestType
  | .getBalance => (.getBalance, [])
  | .getBalances => (.getBalances, [])
  | .getTipHeader => (.getTipHeader, [])
  | .getTransactionRelayPolicy => (.getTransactionRelayPolicy, [])
  | .setFilter => (.filterLoad, [])
  | .addFilter => (.filterAdd, [])
  | .send => (.getTipHeader, [.pushTransaction])
  | .getTransaction => (.getTransaction, [])
  | .getPublicKeyTransactions => (.getPublicKeyTransactions, [])

/-- The messages that a peer sends on its own. -/
inductive Push
  | pushTransaction
  | filterBlock
  | filterBlockUndo
  | invBlock

def Push.type : Push → MessageType
  | .pushTransaction => .pushTransaction
  | .filterBlock => .filterBlock
  | .filterBlockUndo => .filterBlockUndo
  | .invBlock => .invBlock

structure WireMessage where
  type : MessageType
  body : List UInt8
  deriving DecidableEq, Repr

/-- Used to hold the result of synchronous requests. -/
structure WalletResult where
  err : List UInt8
  message : List UInt8
  deriving DecidableEq, Repr

/-- The switch of the reader loop: the result that a message is forwarded as.
`unmarshal` reads the error text of a filter_result, or fails. -/
def dispatch (unmarshal : List UInt8 → Except (List UInt8) (List UInt8)) (m : WireMessage) :
    Option WalletResult :=
  match m.type with
  | .balance => some ⟨[], m.body⟩
  | .tipHeader => some ⟨[], m.body⟩
  | .transactionRelayPolicy => some ⟨[], m.body⟩
  | .pushTransactionResult => some ⟨[], m.body⟩
  | .transaction => some ⟨[], m.body⟩
  | .publicKeyTransactions => some ⟨[], m.body⟩
  | .filterResult =>
    if m.body.length ≠ 0 then
      match unmarshal m.body with
      | .error err => some ⟨err, []⟩
      | .ok err => some ⟨err, []⟩
    else some ⟨[], []⟩
  -- handed to a callback
  | .pushTransaction => none
  | .filterBlock => none
  -- no case
  | .balances => none
  | .filterBlockUndo => none
  | .invBlock => none

/-! ### The connection -/

/-- The wallet, the peer and what is on the way between them.  The last three
fields record the history, in order. -/
structure WalletLink where
  /-- The requests that are left to the call that waits. -/
  waiting : Option (List RequestType)
  toPeer : List RequestType
  toWallet : List WireMessage
  resultChan : List WalletResult
  requests : List RequestType
  replies : List WireMessage
  results : List WalletResult

inductive LinkStep
  /-- The user makes a call, when the last one has returned. -/
  | call (c : WalletCall)
  /-- The peer answers the next request. -/
  | answer (body : List UInt8)
  /-- The peer sends something else. -/
  | push (p : Push) (body : List UInt8)
  /-- The reader loop takes the next message. -/
  | read
  /-- The caller takes the result; it returns, or goes on with its next request. -/
  | receive (goOn : Bool)

namespace WalletLink

/-- A request is written, and its caller waits. -/
def ask (s : WalletLink) (r : RequestType) (left : List RequestType) : WalletLink :=
  { s with
    waiting := some left
    toPeer := s.toPeer ++ [r]
    requests := s.requests ++ [r] }

def step (unmarshal : List UInt8 → Except (List UInt8) (List UInt8)) (s : WalletLink) :
    LinkStep → Option WalletLink
  | .call c =>
    match s.waiting with
    | none => some (s.ask c.requests.1 c.requests.2)
    | some _ => none
  | .answer body =>
    match s.toPeer with
    | [] => none
    | r :: rs =>
      some
        { s with
          toPeer := rs
          toWallet := s.toWallet ++ [⟨r.reply, body⟩]
          replies := s.replies ++ [⟨r.reply, body⟩] }
  | .push p body => some { s with toWallet := s.toWallet ++ [⟨p.type, body⟩] }
  | .read =>
    match s.toWallet with
    | [] => none
    | m :: ms =>
      match dispatch unmarshal m with
      | none => some { s with toWallet := ms }
      | some x =>
        -- the result channel has room for one
        if s.resultChan.length < 1 then
          some { s with toWallet := ms, resultChan := s.resultChan ++ [x] }
        else none
  | .receive goOn =>
    match s.waiting, s.resultChan with
    | some left, x :: xs =>
      let s := { s with resultChan := xs, results := s.results ++ [x] }
      match goOn, left with
      | true, r :: rs => some (s.ask r rs)
      | _, _ => some { s with waiting := none }
    | _, _ => none

/-- Just connected. -/
def Connected (s : WalletLink) : Prop := s = ⟨none, [], [], [], [], [], []⟩

/-- No call of GetBalances. -/
def NoBalances (_ : WalletLink) : LinkStep → Prop
  | .call c => c ≠ .getBalances
  | _ => True

/-! ### Where the reply is -/

variable {unmarshal : List UInt8 → Except (List UInt8) (List UInt8)} {s s' : WalletLink}

/-- The reader forwards none of the messages. -/
def Quiet (unmarshal : List UInt8 → Except (List UInt8) (List UInt8)) (ms : List WireMessage) :
    Prop :=
  ∀ m ∈ ms, dispatch unmarshal m = none

/-- The requests have been answered and their replies received, in order. -/
structure Answered (unmarshal : List UInt8 → Except (List UInt8) (List UInt8))
    (rs : List RequestType) (ms : List WireMessage) (xs : List WalletResult) : Prop where
  replies : List.Forall₂ (fun r m => m.type = r.reply) rs ms
  results : List.Forall₂ (fun m x => dispatch unmarshal m = some x) ms xs

/-- A call waits for its request `r`, the one after those with the replies `old`. -/
def Pending (unmarshal : List UInt8 → Except (List UInt8) (List UInt8)) (s : WalletLink)
    (old : List WireMessage) (r : RequestType) : Prop :=
  ∃ rs left, s.requests = rs ++ [r] ∧ Answered unmarshal rs old s.results ∧
    s.waiting = some left ∧ .getBalances ∉ left

/-- The peer has answered with `m`, which the reader forwards as `x`. -/
def Replied (unmarshal : List UInt8 → Except (List UInt8) (List UInt8)) (s : WalletLink)
    (m : WireMessage) (x : WalletResult) : Prop :=
  ∃ old r, Pending unmarshal s old r ∧ s.replies = old ++ [m] ∧ m.type = r.reply ∧
    dispatch unmarshal m = some x

/-- The places where a request or its reply can be. -/
inductive Linked (unmarshal : List UInt8 → Except (List UInt8) (List UInt8)) (s : WalletLink) :
    Prop
  /-- Everything has been answered and received. -/
  | idle (hall : Answered unmarshal s.requests s.replies s.results) (hwaiting : s.waiting = none)
      (hpeer : s.toPeer = []) (hquiet : Quiet unmarshal s.toWallet) (hchan : s.resultChan = [])
  /-- The last request is on its way to the peer. -/
  | asked {r : RequestType} (hpending : Pending unmarshal s s.replies r) (hne : r ≠ .getBalances)
      (hpeer : s.toPeer = [r]) (hquiet : Quiet unmarshal s.toWallet) (hchan : s.resultChan = [])
  /-- Its reply is on its way to the wallet. -/
  | answered {m : WireMessage} {x : WalletResult} {before after : List WireMessage}
      (hreplied : Replied unmarshal s m x) (hpeer : s.toPeer = [])
      (hwallet : s.toWallet = before ++ m :: after) (hquiet : Quiet unmarshal (before ++ after))
      (hchan : s.resultChan = [])
  /-- Its reply is in the result channel. -/
  | forwarded {m : WireMessage} {x : WalletResult} (hreplied : Replied unmarshal s m x)
      (hpeer : s.toPeer = []) (hquiet : Quiet unmarshal s.toWallet) (hchan : s.resultChan = [x])

theorem Answered.append {rs : List RequestType} {ms : List WireMessage} {xs : List WalletResult}
    (h : Answered unmarshal rs ms xs) {r : RequestType} {m : WireMessage} {x : WalletResult}
    (htype : m.type = r.reply) (hresult : dispatch unmarshal m = some x) :
    Answered unmarshal (rs ++ [r]) (ms ++ [m]) (xs ++ [x]) :=
  ⟨List.rel_append h.replies (.cons htype .nil), List.rel_append h.results (.cons hresult .nil)⟩

/-- Every reply but `balances` is forwarded. -/
theorem dispatch_reply {r : RequestType} (h : r ≠ .getBalances) (body : List UInt8) :
    ∃ x, dispatch unmarshal ⟨r.reply, body⟩ = some x := by
  cases r with
  | getBalances => exact absurd rfl h
  | filterLoad | filterAdd =>
    unfold dispatch RequestType.reply
    dsimp only
    split_ifs
    · cases unmarshal body <;> exact ⟨_, rfl⟩
    · exact ⟨_, rfl⟩
  | _ => exact ⟨_, rfl⟩

theorem dispatch_push (p : Push) (body : List UInt8) :
    dispatch unmarshal ⟨p.type, body⟩ = none := by
  cases p <;> rfl

theorem Quiet.push {ms : List WireMessage} (h : Quiet unmarshal ms) (p : Push)
    (body : List UInt8) : Quiet unmarshal (ms ++ [⟨p.type, body⟩]) := by
  intro m hm
  rcases List.mem_append.mp hm with hm | hm
  · exact h m hm
  · rw [List.mem_singleton.mp hm]
    exact dispatch_push p body

theorem requests_ne {c : WalletCall} (h : c ≠ .getBalances) :
    c.requests.1 ≠ .getBalances ∧ .getBalances ∉ c.requests.2 := by
  cases c <;> simp_all [WalletCall.requests]

/-! ### What a step does -/

theorem call_eq_some {c : WalletCall} (h : step unmarshal s (.call c) = some s') :
    s.waiting = none ∧ s' = s.ask c.requests.1 c.requests.2 := by
  unfold step at h
  cases hw : s.waiting with
  | none => simp_all
  | some left => simp [hw] at h

theorem answer_eq_some {body : List UInt8} (h : step unmarshal s (.answer body) = some s') :
    ∃ r rs, s.toPeer = r :: rs ∧ s' =
      { s with
        toPeer := rs
        toWallet := s.toWallet ++ [⟨r.reply, body⟩]
        replies := s.replies ++ [⟨r.reply, body⟩] } := by
  unfold step at h
  cases hp : s.toPeer with
  | nil => simp [hp] at h
  | cons r rs => exact ⟨r, rs, rfl, by simpa [hp] using h.symm⟩

theorem read_eq_some (h : step unmarshal s .read = some s') :
    ∃ m ms, s.toWallet = m :: ms ∧
      ((dispatch unmarshal m = none ∧ s' = { s with toWallet := ms }) ∨
        ∃ x, dispatch unmarshal m = some x ∧
          s' = { s with toWallet := ms, resultChan := s.resultChan ++ [x] }) := by
  unfold step at h
  cases hw : s.toWallet with
  | nil => simp [hw] at h
  | cons m ms =>
    refine ⟨m, ms, rfl, ?_⟩
    cases hd : dispatch unmarshal m with
    | none => simp_all
    | some x =>
      simp only [hw, hd] at h
      split_ifs at h
      exact .inr ⟨x, rfl, (Option.some.inj h).symm⟩

theorem receive_eq_some {goOn : Bool} (h : step unmarshal s (.receive goOn) = some s') :
    ∃ left x xs, s.waiting = some left ∧ s.resultChan = x :: xs ∧
      (s' = { s with waiting := none, resultChan := xs, results := s.results ++ [x] } ∨
        ∃ r rs, left = r :: rs ∧
          s' = { s with resultChan := xs, results := s.results ++ [x] }.ask r rs) := by
  unfold step at h
  cases hw : s.waiting with
  | none => simp [hw] at h
  | some left =>
    cases hc : s.resultChan with
    | nil => simp [hw, hc] at h
    | cons x xs =>
      refine ⟨left, x, xs, rfl, rfl, ?_⟩
      simp only [hw, hc] at h
      cases goOn with
      | false => exact .inl (Option.some.inj h).symm
      | true =>
        cases left with
        | nil => exact .inl (Option.some.inj h).symm
        | cons r rs => exact .inr ⟨r, rs, rfl, (Option.some.inj h).symm⟩

/-! ### The reply stays on its way -/

theorem Pending.waiting_ne {old : List WireMessage} {r : RequestType}
    (h : Pending unmarshal s old r) : s.waiting ≠ none := by
  obtain ⟨_, _, _, _, hwaiting, _⟩ := h
  rw [hwaiting]
  exact nofun

theorem Replied.waiting_ne {m : WireMessage} {x : WalletResult} (h : Replied unmarshal s m x) :
    s.waiting ≠ none := by
  obtain ⟨_, _, hpending, _⟩ := h
  exact hpending.waiting_ne

theorem Replied.answered {m : WireMessage} {x : WalletResult} (h : Replied unmarshal s m x) :
    Answered unmarshal s.requests s.replies (s.results ++ [x]) := by
  obtain ⟨old, r, ⟨rs, left, hrequests, hall, -, -⟩, hreplies, htype, hresult⟩ := h
  rw [hrequests, hreplies]
  exact hall.append htype hresult

theorem Linked.call {c : WalletCall} (h : Linked unmarshal s) (hc : c ≠ .getBalances)
    (hs : step unmarshal s (.call c) = some s') : Linked unmarshal s' := by
  obtain ⟨hidle, rfl⟩ := call_eq_some hs
  obtain ⟨hfirst, hrest⟩ := requests_ne hc
  cases h with
  | idle hall _ hpeer hquiet hchan =>
    refine .asked ⟨_, _, rfl, hall, rfl, hrest⟩ hfirst ?_ hquiet hchan
    show s.toPeer ++ [_] = _
    rw [hpeer, List.nil_append]
  | asked hpending => exact absurd hidle hpending.waiting_ne
  | answered hreplied => exact absurd hidle hreplied.waiting_ne
  | forwarded hreplied => exact absurd hidle hreplied.waiting_ne

theorem Linked.answer {body : List UInt8} (h : Linked unmarshal s)
    (hs : step unmarshal s (.answer body) = some s') : Linked unmarshal s' := by
  obtain ⟨r, rs, hrs, rfl⟩ := answer_eq_some hs
  cases h with
  | idle _ _ hpeer => exact absurd (hpeer.symm.trans hrs) nofun
  | asked hpending hne hpeer hquiet hchan =>
    obtain ⟨rfl, rfl⟩ : _ = r ∧ [] = rs := List.cons.inj (hpeer.symm.trans hrs)
    obtain ⟨x, hx⟩ := dispatch_reply hne body
    refine .answered ⟨s.replies, _, hpending, rfl, rfl, hx⟩ rfl rfl ?_ hchan
    rw [List.append_nil]
    exact hquiet
  | answered _ hpeer => exact absurd (hpeer.symm.trans hrs) nofun
  | forwarded _ hpeer => exact absurd (hpeer.symm.trans hrs) nofun

theorem Linked.push {p : Push} {body : List UInt8} (h : Linked unmarshal s) :
    Linked unmarshal { s with toWallet := s.toWallet ++ [⟨p.type, body⟩] } := by
  cases h with
  | idle hall hwaiting hpeer hquiet hchan =>
    exact .idle hall hwaiting hpeer (hquiet.push p body) hchan
  | asked hpending hne hpeer hquiet hchan =>
    exact .asked hpending hne hpeer (hquiet.push p body) hchan
  | @answered m x before after hreplied hpeer hwallet hquiet hchan =>
    have hwallet' : s.toWallet ++ [⟨p.type, body⟩] =
        before ++ m :: (after ++ [⟨p.type, body⟩]) := by
      rw [hwallet, List.append_assoc, List.cons_append]
    refine .answered hreplied hpeer hwallet' ?_ hchan
    rw [← List.append_assoc]
    exact hquiet.push p body
  | forwarded hreplied hpeer hquiet hchan =>
    exact .forwarded hreplied hpeer (hquiet.push p body) hchan

/-- A read drops a message that nobody waits for, or forwards the reply. -/
theorem Linked.read (h : Linked unmarshal s) (hs : step unmarshal s .read = some s') :
    Linked unmarshal s' := by
  obtain ⟨m, ms, hm, hread⟩ := read_eq_some hs
  -- in the quiet places the message is not forwarded
  have hdropped (hquiet : Quiet unmarshal s.toWallet) :
      s' = { s with toWallet := ms } ∧ Quiet unmarshal ms := by
    rw [hm] at hquiet
    obtain ⟨hnone, hrest⟩ := List.forall_mem_cons.mp hquiet
    obtain ⟨-, rfl⟩ | ⟨x, hx, -⟩ := hread
    · exact ⟨rfl, hrest⟩
    · exact absurd (hnone.symm.trans hx) nofun
  cases h with
  | idle hall hwaiting hpeer hquiet hchan =>
    obtain ⟨rfl, hrest⟩ := hdropped hquiet
    exact .idle hall hwaiting hpeer hrest hchan
  | asked hpending hne hpeer hquiet hchan =>
    obtain ⟨rfl, hrest⟩ := hdropped hquiet
    exact .asked hpending hne hpeer hrest hchan
  | forwarded hreplied hpeer hquiet hchan =>
    obtain ⟨rfl, hrest⟩ := hdropped hquiet
    exact .forwarded hreplied hpeer hrest hchan
  | @answered m' x' before after hreplied hpeer hwallet hquiet hchan =>
    have hresult : dispatch unmarshal m' = some x' := by
      obtain ⟨_, _, _, _, _, hresult⟩ := hreplied
      exact hresult
    cases before with
    | nil =>
      obtain ⟨rfl, rfl⟩ : m = m' ∧ ms = after := List.cons.inj (hm.symm.trans hwallet)
      obtain ⟨hnone, -⟩ | ⟨x, hx, rfl⟩ := hread
      · exact absurd (hnone.symm.trans hresult) nofun
      · obtain rfl : x = x' := Option.some.inj (hx.symm.trans hresult)
        refine .forwarded hreplied hpeer hquiet ?_
        show s.resultChan ++ [x] = [x]
        rw [hchan, List.nil_append]
    | cons m'' before =>
      obtain ⟨rfl, rfl⟩ : m = m'' ∧ ms = before ++ m' :: after :=
        List.cons.inj (hm.symm.trans hwallet)
      obtain ⟨hnone, hrest⟩ := List.forall_mem_cons.mp hquiet
      obtain ⟨-, rfl⟩ | ⟨x, hx, -⟩ := hread
      · exact .answered hreplied hpeer rfl hrest hchan
      · exact absurd (hnone.symm.trans hx) nofun

theorem Linked.receive {goOn : Bool} (h : Linked unmarshal s)
    (hs : step unmarshal s (.receive goOn) = some s') : Linked unmarshal s' := by
  obtain ⟨left, x, xs, hleft, hxs, hreceived⟩ := receive_eq_some hs
  cases h with
  | idle _ _ _ _ hchan => exact absurd (hchan.symm.trans hxs) nofun
  | asked _ _ _ _ hchan => exact absurd (hchan.symm.trans hxs) nofun
  | answered _ _ _ _ hchan => exact absurd (hchan.symm.trans hxs) nofun
  | @forwarded m x' hreplied hpeer hquiet hchan =>
    obtain ⟨rfl, rfl⟩ : x' = x ∧ [] = xs := List.cons.inj (hchan.symm.trans hxs)
    have hdone := hreplied.answered
    obtain rfl | ⟨r, rs, rfl, rfl⟩ := hreceived
    · exact .idle hdone rfl hpeer hquiet rfl
    · obtain ⟨_, _, ⟨_, left, _, _, hwaiting, hbalances⟩, _⟩ := hreplied
      obtain rfl : r :: rs = left := Option.some.inj (hleft.symm.trans hwaiting)
      obtain ⟨hr, hrs⟩ := List.ne_and_not_mem_of_not_mem_cons hbalances
      refine .asked ⟨_, _, rfl, hdone, rfl, hrs⟩ hr.symm ?_ hquiet rfl
      show s.toPeer ++ [r] = [r]
      rw [hpeer, List.nil_append]

theorem linked (h : Reach Connected (step unmarshal) NoBalances s) : Linked unmarshal s := by
  refine h.invariant ?_ ?_
  · rintro s rfl
    exact .idle ⟨.nil, .nil⟩ rfl rfl (fun _ hm => absurd hm List.not_mem_nil) rfl
  · intro s l s' h hc hs
    cases l with
    | call c => exact h.call hc hs
    | answer body => exact h.answer hs
    | push p body =>
      obtain rfl := Option.some.inj hs
      exact h.push
    | read => exact h.read hs
    | receive goOn => exact h.receive hs

/-! ### The reply arrives -/

/-- Only what carries a request and its reply along. -/
def Delivering (_ : WalletLink) : LinkStep → Prop
  | .answer _ => True
  | .read => True
  | .receive goOn => goOn = false
  | _ => False

/-- Steps that deliver lead to the return of the call, with all results received. -/
def Returns (unmarshal : List UInt8 → Except (List UInt8) (List UInt8)) (s : WalletLink) : Prop :=
  ∃ s', Reach (· = s) (step unmarshal) Delivering s' ∧ s'.requests = s.requests ∧
    s'.waiting = none ∧ Answered unmarshal s'.requests s'.replies s'.results

theorem Returns.of_step {l : LinkStep} {s₁ : WalletLink} (hs : step unmarshal s l = some s₁)
    (hl : Delivering s l) (hrequests : s₁.requests = s.requests) (h : Returns unmarshal s₁) :
    Returns unmarshal s := by
  obtain ⟨s', hreach, hsame, hend⟩ := h
  have hfirst : Reach (· = s) (step unmarshal) Delivering s₁ := .next (.init rfl) hl hs
  exact ⟨s', hfirst.trans hreach, hsame.trans hrequests, hend⟩

theorem Replied.returns {m : WireMessage} {x : WalletResult} (h : Replied unmarshal s m x)
    (hchan : s.resultChan = [x]) : Returns unmarshal s := by
  have hdone := h.answered
  obtain ⟨_, _, ⟨_, left, _, _, hwaiting, _⟩, _⟩ := h
  have hs : step unmarshal s (.receive false) =
      some { s with waiting := none, resultChan := [], results := s.results ++ [x] } := by
    simp [step, hwaiting, hchan]
  have hlast : Delivering s (.receive false) := rfl
  exact .of_step hs hlast rfl ⟨_, .init rfl, rfl, rfl, hdone⟩

/-- The reader gets to the reply. -/
theorem Replied.read_returns {before after : List WireMessage} {m : WireMessage}
    {x : WalletResult} (h : Replied unmarshal s m x)
    (hwallet : s.toWallet = before ++ m :: after) (hquiet : Quiet unmarshal before)
    (hchan : s.resultChan = []) : Returns unmarshal s := by
  have hread : Delivering s .read := trivial
  -- on the messages before the reply
  induction before generalizing s with
  | nil =>
    have hresult : dispatch unmarshal m = some x := by
      obtain ⟨_, _, _, _, _, hresult⟩ := h
      exact hresult
    have hs : step unmarshal s .read = some { s with toWallet := after, resultChan := [x] } := by
      simp [step, hwallet, hresult, hchan]
    have hreplied : Replied unmarshal { s with toWallet := after, resultChan := [x] } m x := h
    exact .of_step hs hread rfl (hreplied.returns rfl)
  | cons m' before ih =>
    obtain ⟨hnone, hrest⟩ := List.forall_mem_cons.mp hquiet
    have hs : step unmarshal s .read = some { s with toWallet := before ++ m :: after } := by
      simp [step, hwallet, hnone]
    have hreplied : Replied unmarshal { s with toWallet := before ++ m :: after } m x := h
    exact .of_step hs hread rfl (ih hreplied rfl hrest hchan trivial)

/-- From every place the call returns. -/
theorem Linked.returns (h : Linked unmarshal s) : Returns unmarshal s := by
  cases h with
  | idle hall hwaiting => exact ⟨s, .init rfl, rfl, hwaiting, hall⟩
  | @asked r hpending hne hpeer hquiet hchan =>
    let s₁ : WalletLink :=
      { s with
        toPeer := []
        toWallet := s.toWallet ++ [⟨r.reply, []⟩]
        replies := s.replies ++ [⟨r.reply, []⟩] }
    have hs : step unmarshal s (.answer []) = some s₁ := by simp [step, hpeer, s₁]
    obtain ⟨x, hx⟩ := dispatch_reply hne []
    have hreplied : Replied unmarshal s₁ ⟨r.reply, []⟩ x :=
      ⟨s.replies, r, hpending, rfl, rfl, hx⟩
    have hanswer : Delivering s (.answer []) := trivial
    exact .of_step hs hanswer rfl (hreplied.read_returns rfl hquiet hchan)
  | answered hreplied _ hwallet hquiet hchan =>
    exact hreplied.read_returns hwallet (fun m hm => hquiet m (List.mem_append_left _ hm)) hchan
  | forwarded hreplied _ _ hchan => exact hreplied.returns hchan

/-! ### Results and replies -/

/-- The result holds what the reply says: its body, or the error text of a filter_result. -/
structure Carries (unmarshal : List UInt8 → Except (List UInt8) (List UInt8)) (m : WireMessage)
    (x : WalletResult) : Prop where
  body : m.type ≠ .filterResult → x = ⟨[], m.body⟩
  accepted : m.type = .filterResult → m.body = [] → x = ⟨[], []⟩
  refused : m.type = .filterResult → m.body ≠ [] →
    ∀ err, unmarshal m.body = .ok err ∨ unmarshal m.body = .error err → x = ⟨err, []⟩

theorem carries_of_dispatch {m : WireMessage} {x : WalletResult}
    (h : dispatch unmarshal m = some x) : Carries unmarshal m x := by
  obtain ⟨type, body⟩ := m
  constructor
  · intro htype
    cases type <;> simp_all [dispatch]
  · rintro rfl rfl
    exact (Option.some.inj h).symm
  · rintro rfl hbody err (herr | herr)
    · simp_all [dispatch]
    · simp_all [dispatch]

/-- The replies answer the requests one by one, and the results carry the replies. -/
structure Received (unmarshal : List UInt8 → Except (List UInt8) (List UInt8))
    (rs : List RequestType) (ms : List WireMessage) (xs : List WalletResult) : Prop where
  replies : List.Forall₂ (fun r m => m.type = r.reply) rs ms
  results : List.Forall₂ (Carries unmarshal) ms xs

theorem Answered.received {rs : List RequestType} {ms : List WireMessage}
    {xs : List WalletResult} (h : Answered unmarshal rs ms xs) : Received unmarshal rs ms xs :=
  ⟨h.replies, h.results.imp fun _ _ => carries_of_dispatch⟩

/-- All requests but the one that is waited for have been answered and received. -/
theorem Linked.answered_prefix (h : Linked unmarshal s) :
    ∃ rs ms, rs <+: s.requests ∧ ms <+: s.replies ∧ Answered unmarshal rs ms s.results ∧
      if s.waiting = none then s.requests.length = rs.length
      else s.requests.length = rs.length + 1 := by
  have hwaits {old : List WireMessage} {r : RequestType} (hpending : Pending unmarshal s old r)
      (hold : old <+: s.replies) :
      ∃ rs ms, rs <+: s.requests ∧ ms <+: s.replies ∧ Answered unmarshal rs ms s.results ∧
        if s.waiting = none then s.requests.length = rs.length
        else s.requests.length = rs.length + 1 := by
    have hne := hpending.waiting_ne
    obtain ⟨rs, _, hrequests, hall, -⟩ := hpending
    refine ⟨rs, old, hrequests ▸ List.prefix_append _ _, hold, hall, ?_⟩
    rw [if_neg hne, hrequests, List.length_append, List.length_singleton]
  cases h with
  | idle hall hwaiting =>
    exact ⟨s.requests, s.replies, List.prefix_rfl, List.prefix_rfl, hall, by rw [if_pos hwaiting]⟩
  | asked hpending => exact hwaits hpending List.prefix_rfl
  | answered hreplied =>
    obtain ⟨old, r, hpending, hreplies, -⟩ := hreplied
    exact hwaits hpending (hreplies ▸ List.prefix_append _ _)
  | forwarded hreplied =>
    obtain ⟨old, r, hpending, hreplies, -⟩ := hreplied
    exact hwaits hpending (hreplies ▸ List.prefix_append _ _)

/-- **Replies reach their requests.**  In every run without GetBalances, each
result received so far carries the reply to the request in the same place, at
most the last request is without a result, and if so steps that deliver lead to
a state where its call has returned with the result of its own reply. -/
theorem replies_reach_requests (h : Reach Connected (step unmarshal) NoBalances s) :
    (∃ rs ms, rs <+: s.requests ∧ ms <+: s.replies ∧ Received unmarshal rs ms s.results ∧
      if s.waiting = none then s.requests.length = rs.length
      else s.requests.length = rs.length + 1) ∧
    ∃ s', Reach (· = s) (step unmarshal) Delivering s' ∧ s'.requests = s.requests ∧
      s'.waiting = none ∧ Received unmarshal s'.requests s'.replies s'.results := by
  have hlinked := linked h
  constructor
  · obtain ⟨rs, ms, hrs, hms, hall, hlast⟩ := hlinked.answered_prefix
    exact ⟨rs, ms, hrs, hms, hall.received, hlast⟩
  · obtain ⟨s', hreach, hrequests, hwaiting, hall⟩ := hlinked.returns
    exact ⟨s', hreach, hrequests, hwaiting, hall.received⟩

/-- Send has its tip header and waits for its transaction to be pushed. -/
theorem replies_reach_requests_send :
    ∃ s, Reach Connected (step .ok) NoBalances s ∧ s.waiting = some [] ∧
      s.requests = [.getTipHeader, .pushTransaction] ∧
      ∃ s', Reach (· = s) (step .ok) Delivering s' ∧ s'.requests = s.requests ∧
        s'.waiting = none ∧ Received .ok s'.requests s'.replies s'.results := by
  have hsteps : steps (step .ok) ⟨none, [], [], [], [], [], []⟩
      [.call .send, .push .invBlock [7], .answer [1, 2], .read, .read, .receive true] =
        some _ := rfl
  have hstart : Reach Connected (step .ok) NoBalances ⟨none, [], [], [], [], [], []⟩ := .init rfl
  have hrun := hstart.steps_of (by simp [NoBalances]) hsteps
  exact ⟨_, hrun, rfl, rfl, (replies_reach_requests hrun).2⟩

/-- The reply is gone and its call still waits. -/
structure Dropped (unmarshal : List UInt8 → Except (List UInt8) (List UInt8)) (s : WalletLink) :
    Prop where
  waiting : s.waiting ≠ none
  toPeer : s.toPeer = []
  quiet : Quiet unmarshal s.toWallet
  resultChan : s.resultChan = []
  results : s.results = []

theorem Dropped.step {l : LinkStep} (h : Dropped unmarshal s)
    (hs : step unmarshal s l = some s') : Dropped unmarshal s' := by
  cases l with
  | call c => exact absurd (call_eq_some hs).1 h.waiting
  | answer body =>
    obtain ⟨r, rs, hrs, -⟩ := answer_eq_some hs
    exact absurd (h.toPeer.symm.trans hrs) nofun
  | push p body =>
    obtain rfl := Option.some.inj hs
    exact { h with quiet := h.quiet.push p body }
  | read =>
    obtain ⟨m, ms, hm, hread⟩ := read_eq_some hs
    have hquiet := h.quiet
    rw [hm] at hquiet
    obtain ⟨hnone, hrest⟩ := List.forall_mem_cons.mp hquiet
    obtain ⟨-, rfl⟩ | ⟨x, hx, -⟩ := hread
    · exact { h with quiet := hrest }
    · exact absurd (hnone.symm.trans hx) nofun
  | receive goOn =>
    obtain ⟨left, x, xs, -, hxs, -⟩ := receive_eq_some hs
    exact absurd (h.resultChan.symm.trans hxs) nofun

/-- **The reply to GetBalances is dropped.**  The peer has answered and the
reader has read the answer, but no run that follows brings a result. -/
theorem balances_never_received :
    ∃ s, Transition.Run Connected (step .ok) s ∧ s.requests = [.getBalances] ∧
      s.replies = [⟨.balances, [1, 2]⟩] ∧
      ∀ s', Transition.Run (· = s) (step .ok) s' → s'.waiting ≠ none ∧ s'.results = [] := by
  have hstart : Transition.Run Connected (step .ok) ⟨none, [], [], [], [], [], []⟩ := .init rfl
  have hsteps : steps (step .ok) ⟨none, [], [], [], [], [], []⟩
      [.call .getBalances, .answer [1, 2], .read] = some _ := rfl
  refine ⟨_, hstart.steps hsteps, rfl, rfl, fun s' hrun => ?_⟩
  have hdropped : Dropped .ok s' := by
    refine hrun.invariant ?_ fun _ _ _ h _ hs => h.step hs
    rintro _ rfl
    exact ⟨nofun, rfl, fun _ hm => absurd hm List.not_mem_nil, rfl, rfl⟩
  exact ⟨hdropped.waiting, hdropped.results⟩

end WalletLink

end Cruzbit

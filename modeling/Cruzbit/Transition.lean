/-
Cruzbit/Transition.lean

Labelled transition systems, given by the states they start in and a partial
function that takes a step.

A run may be restricted to steps that meet a condition on the state before
the step and its label.  `Reach.invariant` is the induction rule: what holds at
the start and is kept by every such step holds in every state reached.
`Descends.not_forever` is the rule for termination: if every such step goes down
in rank, no run goes on forever.
-/
import Mathlib.Logic.Basic

namespace Transition

variable {S L : Type}

/-- The states reached from a start by steps that meet the condition. -/
inductive Reach (start : S → Prop) (step : S → L → Option S) (C : S → L → Prop) : S → Prop
  | init {s : S} (h : start s) : Reach start step C s
  | next {s s' : S} {l : L} (h : Reach start step C s) (hc : C s l) (hs : step s l = some s') :
      Reach start step C s'

/-- The run without a condition. -/
abbrev Run (start : S → Prop) (step : S → L → Option S) : S → Prop :=
  Reach start step fun _ _ => True

/-- Steps with the given labels, one after the other. -/
def steps (step : S → L → Option S) (s : S) (ls : List L) : Option S := ls.foldlM step s

variable {start : S → Prop} {step : S → L → Option S} {C : S → L → Prop} {s s' : S}

/-- **The invariant rule.** -/
theorem Reach.invariant {I : S → Prop} (h : Reach start step C s) (hinit : ∀ s, start s → I s)
    (hstep : ∀ s l s', I s → C s l → step s l = some s' → I s') : I s := by
  induction h with
  | init h => exact hinit _ h
  | next _ hc hs ih => exact hstep _ _ _ ih hc hs

theorem Reach.mono {C' : S → L → Prop} (h : Reach start step C s) (hC : ∀ s l, C s l → C' s l) :
    Reach start step C' s := by
  induction h with
  | init h => exact .init h
  | next _ hc hs ih => exact .next ih (hC _ _ hc) hs

theorem Reach.trans (h : Reach start step C s) (h' : Reach (· = s) step C s') :
    Reach start step C s' := by
  induction h' with
  | init heq => exact heq ▸ h
  | next _ hc hs ih => exact .next ih hc hs

/-- Steps whose labels meet the condition in any state. -/
theorem Reach.steps_of {ls : List L} (h : Reach start step C s) (hc : ∀ l ∈ ls, ∀ s, C s l)
    (hs : steps step s ls = some s') : Reach start step C s' := by
  induction ls generalizing s with
  | nil =>
    obtain rfl : s = s' := Option.some.inj hs
    exact h
  | cons l ls ih =>
    obtain ⟨hl, hls⟩ := List.forall_mem_cons.mp hc
    rw [Transition.steps, List.foldlM_cons] at hs
    obtain ⟨s₁, hs₁, hs⟩ := Option.bind_eq_some_iff.mp hs
    exact ih (.next h (hl s) hs₁) hls hs

theorem Reach.steps {ls : List L} (h : Run start step s) (hs : steps step s ls = some s') :
    Run start step s' :=
  h.steps_of (fun _ _ _ => trivial) hs

/-! ### Termination -/

/-- No step that meets the condition is possible. -/
def Stuck (step : S → L → Option S) (C : S → L → Prop) (s : S) : Prop :=
  ∀ l, C s l → step s l = none

/-- A state may have several ranks.  From each of them every step that meets the
condition goes down. -/
def Descends {α : Type} (step : S → L → Option S) (C : S → L → Prop) (r : α → α → Prop)
    (R : S → α → Prop) : Prop :=
  ∀ s a l s', R s a → C s l → step s l = some s' → ∃ a', R s' a' ∧ r a' a

variable {α : Type} {r : α → α → Prop} {R : S → α → Prop} {a : α}

theorem Descends.exists_rank (h : Descends step C r R) (hreach : Reach (· = s) step C s')
    (h₀ : R s a) : ∃ a', R s' a' := by
  refine hreach.invariant (I := fun s₁ => ∃ a', R s₁ a') (fun s₁ heq => ⟨a, heq ▸ h₀⟩) ?_
  rintro s₁ l s₂ ⟨b, hb⟩ hc hs
  obtain ⟨b', hb', -⟩ := h s₁ b l s₂ hb hc hs
  exact ⟨b', hb'⟩

/-- **The termination rule.** -/
theorem Descends.not_forever (h : Descends step C r R) (hr : WellFounded r) {f : Nat → S}
    (h₀ : R (f 0) a) : ¬ ∀ n, ∃ l, C (f n) l ∧ step (f n) l = some (f (n + 1)) := by
  induction a using hr.induction generalizing f with
  | _ a ih =>
    intro hrun
    obtain ⟨l, hl, hs⟩ := hrun 0
    obtain ⟨a', h', hlt⟩ := h _ _ _ _ h₀ hl hs
    -- what is left of the run has a lower rank
    exact ih a' hlt (f := fun n => f (n + 1)) h' fun n => hrun (n + 1)

/-- Some run comes to an end. -/
theorem Descends.exists_stuck (h : Descends step C r R) (hr : WellFounded r) (h₀ : R s a) :
    ∃ s', Reach (· = s) step C s' ∧ Stuck step C s' := by
  induction a using hr.induction generalizing s with
  | _ a ih =>
    by_cases hstuck : Stuck step C s
    · exact ⟨s, .init rfl, hstuck⟩
    · obtain ⟨l, hl⟩ := not_forall.mp hstuck
      obtain ⟨hl, hsome⟩ := Classical.not_imp.mp hl
      obtain ⟨s₁, hs₁⟩ := Option.ne_none_iff_exists'.mp hsome
      obtain ⟨a', h', hlt⟩ := h _ _ _ _ h₀ hl hs₁
      obtain ⟨s', hreach, hend⟩ := ih a' hlt h'
      have hfirst : Reach (· = s) step C s₁ := .next (.init rfl) hl hs₁
      exact ⟨s', hfirst.trans hreach, hend⟩

end Transition

import Mathlib.Logic.Relation

/-!
# Machines with a computed step

A `Machine` is a transition system whose step is a partial function of the
state and an action, so that concrete runs can be replayed by evaluation.
`ReachableVia ok` keeps only the runs all of whose steps satisfy `ok`; plain
reachability is the case where every step is allowed.

* `ReachableVia.invariant` packages the induction over a run.
* `ReachableVia.run` turns an evaluated list of actions into a run.
* `ReachableVia.simulate` and `ReachableVia.refine` carry runs of one machine
  to runs of another one, along a projection or along a relation.
-/

namespace Cccp

universe u v w x

/-- A transition system whose steps are computed: `step s a` is `none` where
the action `a` is not enabled in `s`. -/
structure Machine (σ : Type u) (α : Type v) where
  init : σ → Prop
  step : σ → α → Option σ

namespace Machine

variable {σ : Type u} {α : Type v} {τ : Type w} {β : Type x}

/-- The states reached by runs all of whose steps satisfy `ok`. -/
inductive ReachableVia (M : Machine σ α) (ok : σ → α → Prop) : σ → Prop
  | init {s : σ} (start : M.init s) : ReachableVia M ok s
  | step {s s' : σ} {a : α} (reached : ReachableVia M ok s) (allowed : ok s a)
      (next : M.step s a = some s') : ReachableVia M ok s'

/-- The states reached by any run. -/
abbrev Reachable (M : Machine σ α) : σ → Prop :=
  M.ReachableVia fun _ _ => True

variable {M : Machine σ α} {N : Machine τ β} {ok ok' : σ → α → Prop}

theorem ReachableVia.mono (weaker : ∀ s a, ok s a → ok' s a) {s : σ}
    (reached : M.ReachableVia ok s) : M.ReachableVia ok' s := by
  induction reached with
  | init start => exact .init start
  | step _ allowed next ih => exact .step ih (weaker _ _ allowed) next

theorem ReachableVia.reachable {s : σ} (reached : M.ReachableVia ok s) :
    M.Reachable s :=
  reached.mono fun _ _ _ => trivial

/-- **Invariant rule.**  What holds initially and is kept by every allowed step
from a reached state holds in every reached state. -/
theorem ReachableVia.invariant {inv : σ → Prop}
    (start : ∀ s, M.init s → inv s)
    (keep : ∀ s a s', M.ReachableVia ok s → inv s → ok s a →
      M.step s a = some s' → inv s')
    {s : σ} (reached : M.ReachableVia ok s) : inv s := by
  induction reached with
  | init h => exact start _ h
  | step before allowed next ih => exact keep _ _ _ before ih allowed next

/-! ## Replaying a list of actions -/

/-- Run a list of actions, stopping at the first one that is not enabled. -/
def run (M : Machine σ α) : σ → List α → Option σ
  | s, [] => some s
  | s, a :: rest => (M.step s a).bind fun s' => M.run s' rest

@[simp] theorem run_nil (s : σ) : M.run s [] = some s := rfl

theorem run_cons (s : σ) (a : α) (rest : List α) :
    M.run s (a :: rest) = (M.step s a).bind fun s' => M.run s' rest := rfl

theorem run_append (s : σ) (first second : List α) :
    M.run s (first ++ second) = (M.run s first).bind fun s' => M.run s' second := by
  induction first generalizing s with
  | nil => rfl
  | cons a rest ih =>
      simp only [List.cons_append, run_cons]
      cases M.step s a with
      | none => rfl
      | some s' => exact ih s'

theorem ReachableVia.run {s s' : σ} {actions : List α}
    (reached : M.ReachableVia (fun _ _ => True) s)
    (ran : M.run s actions = some s') : M.Reachable s' := by
  induction actions generalizing s with
  | nil =>
      cases ran
      exact reached
  | cons a rest ih =>
      rw [run_cons] at ran
      obtain ⟨next, stepped, ran⟩ := Option.bind_eq_some_iff.mp ran
      exact ih (.step reached trivial stepped) ran

/-- An evaluated run whose actions are allowed in every state. -/
theorem ReachableVia.runAll {s s' : σ} {actions : List α} (reached : M.ReachableVia ok s)
    (allowed : ∀ a ∈ actions, ∀ s, ok s a) (ran : M.run s actions = some s') :
    M.ReachableVia ok s' := by
  induction actions generalizing s with
  | nil =>
      cases ran
      exact reached
  | cons a rest ih =>
      obtain ⟨first, later⟩ := List.forall_mem_cons.mp allowed
      rw [run_cons] at ran
      obtain ⟨next, stepped, ran⟩ := Option.bind_eq_some_iff.mp ran
      exact ih (.step reached (first s) stepped) later ran

/-- An evaluated run from an initial state ends in a reachable state. -/
theorem reachable_of_run {s s' : σ} {actions : List α} (start : M.init s)
    (ran : M.run s actions = some s') : M.Reachable s' :=
  ReachableVia.run (.init start) ran

/-- An evaluated run that ends in a state with a tested property. -/
theorem reachable_of_test {s : σ} (start : M.init s) (actions : List α) (test : σ → Bool)
    (passed : (M.run s actions).any test = true) : ∃ s', M.Reachable s' ∧ test s' = true := by
  cases ran : M.run s actions with
  | none =>
      rw [ran] at passed
      cases passed
  | some s' =>
      rw [ran] at passed
      exact ⟨s', reachable_of_run start ran, passed⟩

/-- `run` with a test on every step: the run stops where the test fails. -/
def runVia (M : Machine σ α) (ok : σ → α → Bool) : σ → List α → Option σ
  | s, [] => some s
  | s, a :: rest =>
      if ok s a then (M.step s a).bind fun s' => M.runVia ok s' rest else none

/-- An evaluated run whose steps all pass a test. -/
theorem ReachableVia.runVia {test : σ → α → Bool} {s s' : σ} {actions : List α}
    (reached : M.ReachableVia (fun s a => test s a = true) s)
    (ran : M.runVia test s actions = some s') :
    M.ReachableVia (fun s a => test s a = true) s' := by
  induction actions generalizing s with
  | nil =>
      cases ran
      exact reached
  | cons a rest ih =>
      unfold Machine.runVia at ran
      split at ran
      next allowed =>
        obtain ⟨next, stepped, ran⟩ := Option.bind_eq_some_iff.mp ran
        exact ih (.step reached allowed stepped) ran
      next => cases ran

/-- An evaluated run whose steps all pass one test and that ends in a state that passes
another one. -/
theorem reachableVia_of_test {s : σ} (start : M.init s) (actions : List α) (each : σ → α → Bool)
    (test : σ → Bool) (passed : (M.runVia each s actions).any test = true) :
    ∃ s', M.ReachableVia (fun s a => each s a = true) s' ∧ test s' = true := by
  cases ran : M.runVia each s actions with
  | none =>
      rw [ran] at passed
      cases passed
  | some s' =>
      rw [ran] at passed
      exact ⟨s', (ReachableVia.init start).runVia ran, passed⟩

/-! ## Carrying runs from one machine to another -/

/-- **Projection.**  If every allowed step of `M` is, under `f`, either no change
or an allowed step of `N`, then `f` maps reached states to reached states. -/
theorem ReachableVia.simulate {okN : τ → β → Prop} (f : σ → τ)
    (start : ∀ s, M.init s → N.init (f s))
    (match_ : ∀ s a s', M.ReachableVia ok s → ok s a → M.step s a = some s' →
      f s' = f s ∨ ∃ b, okN (f s) b ∧ N.step (f s) b = some (f s'))
    {s : σ} (reached : M.ReachableVia ok s) : N.ReachableVia okN (f s) := by
  induction reached with
  | init h => exact .init (start _ h)
  | step before allowed next ih =>
      rcases match_ _ _ _ before allowed next with same | ⟨b, allowedN, stepN⟩
      · rw [same]
        exact ih
      · exact .step ih allowedN stepN

/-- **Refinement.**  If every allowed step of `M` from a state related to a
reached state of `N` leads to a state related to a reached state of `N`, then so
does every run. -/
theorem ReachableVia.refine (R : σ → τ → Prop)
    (start : ∀ s, M.init s → ∃ t, N.init t ∧ R s t)
    (match_ : ∀ s a s' t, M.ReachableVia ok s → N.Reachable t → R s t → ok s a →
      M.step s a = some s' → R s' t ∨ ∃ b t', N.step t b = some t' ∧ R s' t')
    {s : σ} (reached : M.ReachableVia ok s) : ∃ t, N.Reachable t ∧ R s t := by
  induction reached with
  | init h =>
      obtain ⟨t, initial, related⟩ := start _ h
      exact ⟨t, .init initial, related⟩
  | step before allowed next ih =>
      obtain ⟨t, reachedN, related⟩ := ih
      rcases match_ _ _ _ _ before reachedN related allowed next with
        related | ⟨b, t', stepN, related⟩
      · exact ⟨t, reachedN, related⟩
      · exact ⟨t', .step reachedN trivial stepN, related⟩

end Machine

end Cccp

import Cccp.Lib.Machine
import Mathlib.Data.List.Count

/-!
# Balances over runs

Some actions of a machine earn, some pay.  What every step keeps in balance is in balance
over every run (`run_balance`), and what no step exceeds is not exceeded by a run
(`run_credit`).

`run_window` bounds what any part of a run pays by what that part earns and the most that
can have been saved up before it.
-/

namespace Cccp

universe u v

namespace Machine

variable {σ : Type u} {α : Type v} {M : Machine σ α} {inv : σ → Prop} {s s' : σ}
  {actions : List α}

/-- **Run rule.**  A relation of the states before and after a run and of its actions, by
induction on the actions. -/
theorem run_relates {R : σ → List α → σ → Prop} (nil : ∀ s, inv s → R s [] s)
    (cons : ∀ s a s' rest t, inv s → M.step s a = some s' → R s' rest t → R s (a :: rest) t)
    (keep : ∀ s a s', inv s → M.step s a = some s' → inv s')
    (start : inv s) (ran : M.run s actions = some s') : R s actions s' := by
  induction actions generalizing s with
  | nil =>
      cases ran
      exact nil _ start
  | cons a rest ih =>
      rw [run_cons] at ran
      obtain ⟨next, stepped, ran⟩ := Option.bind_eq_some_iff.mp ran
      exact cons s a next rest s' start stepped (ih (keep s a next start stepped) ran)

theorem run_keeps (keep : ∀ s a s', inv s → M.step s a = some s' → inv s')
    (start : inv s) (ran : M.run s actions = some s') : inv s' := by
  apply run_relates (R := fun _ _ s' => inv s') ?_ ?_ keep start ran
  · intro s holds
    exact holds
  · intro s a s' rest t before next kept
    exact kept

variable (saved : σ → Nat) (earns pays : α → Bool)

theorem run_balance (keep : ∀ s a s', inv s → M.step s a = some s' → inv s')
    (each : ∀ s a s', inv s → M.step s a = some s' →
      saved s' + (if pays a then 1 else 0) = saved s + if earns a then 1 else 0)
    (start : inv s) (ran : M.run s actions = some s') :
    saved s' + actions.countP pays = saved s + actions.countP earns := by
  apply run_relates (R := fun s actions s' =>
    saved s' + actions.countP pays = saved s + actions.countP earns) ?_ ?_ keep
    start ran
  · intro s _
    rw [List.countP_nil, List.countP_nil]
  · intro s a s' rest t before next balance
    have one := each s a s' before next
    rw [List.countP_cons, List.countP_cons]
    omega

theorem run_credit (keep : ∀ s a s', inv s → M.step s a = some s' → inv s')
    (each : ∀ s a s', inv s → M.step s a = some s' →
      saved s' + (if pays a then 1 else 0) ≤ saved s + if earns a then 1 else 0)
    (start : inv s) (ran : M.run s actions = some s') :
    saved s' + actions.countP pays ≤ saved s + actions.countP earns := by
  apply run_relates (R := fun s actions s' =>
    saved s' + actions.countP pays ≤ saved s + actions.countP earns) ?_ ?_ keep
    start ran
  · intro s _
    exact Nat.le_refl _
  · intro s a s' rest t before next credit
    have one := each s a s' before next
    rw [List.countP_cons, List.countP_cons]
    omega

/-- **Window rule.**  No part of a run pays more than it earns and what can be saved up. -/
theorem run_window {limit : Nat} {before window after : List α}
    (keep : ∀ s a s', inv s → M.step s a = some s' → inv s')
    (each : ∀ s a s', inv s → M.step s a = some s' →
      saved s' + (if pays a then 1 else 0) ≤ saved s + if earns a then 1 else 0)
    (bounded : ∀ s, inv s → saved s ≤ limit)
    (start : inv s) (ran : M.run s (before ++ window ++ after) = some s') :
    window.countP pays ≤ window.countP earns + limit := by
  rw [run_append, run_append] at ran
  obtain ⟨closed, ran, -⟩ := Option.bind_eq_some_iff.mp ran
  obtain ⟨opened, earlier, ran⟩ := Option.bind_eq_some_iff.mp ran
  have holds := run_keeps keep start earlier
  have credit := run_credit saved earns pays keep each holds ran
  have most := bounded opened holds
  omega

end Machine

end Cccp

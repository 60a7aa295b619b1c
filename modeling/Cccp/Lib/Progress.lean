import Cccp.Lib.Machine

/-!
# Goals that stay in reach

`M.Reaches ok s t`: some allowed steps lead from `s` to `t`.  A goal stays in reach when it is
reached from every state that keeps an invariant; `reaches_goal` is the rule for it, with a
variant that a few steps decrease as long as the goal is not reached.
-/

namespace Cccp

universe u v

namespace Machine

variable {σ : Type u} {α : Type v} {M : Machine σ α} {ok ok' : σ → α → Prop} {s t : σ}

/-- An allowed step leads from one state to the other. -/
def Leads (M : Machine σ α) (ok : σ → α → Prop) (s t : σ) : Prop :=
  ∃ a, ok s a ∧ M.step s a = some t

/-- Allowed steps lead from one state to the other. -/
abbrev Reaches (M : Machine σ α) (ok : σ → α → Prop) : σ → σ → Prop :=
  Relation.ReflTransGen (M.Leads ok)

theorem Reaches.single {a : α} (allowed : ok s a) (next : M.step s a = some t) :
    M.Reaches ok s t :=
  Relation.ReflTransGen.single ⟨a, allowed, next⟩

theorem Reaches.mono (weaker : ∀ s a, ok s a → ok' s a) (reaches : M.Reaches ok s t) :
    M.Reaches ok' s t := by
  refine Relation.ReflTransGen.mono ?_ _ _ reaches
  rintro s t ⟨a, allowed, next⟩
  exact ⟨a, weaker s a allowed, next⟩

/-- Allowed steps keep what each of them keeps. -/
theorem Reaches.keeps {inv : σ → Prop}
    (keep : ∀ s a t, inv s → ok s a → M.step s a = some t → inv t)
    (reaches : M.Reaches ok s t) (start : inv s) : inv t := by
  induction reaches with
  | refl => exact start
  | tail _ leads ih =>
      obtain ⟨a, allowed, next⟩ := leads
      exact keep _ a _ ih allowed next

theorem ReachableVia.reaches (reached : M.ReachableVia ok s) (reaches : M.Reaches ok s t) :
    M.ReachableVia ok t :=
  reaches.keeps (fun _ _ _ reached allowed next => .step reached allowed next) reached

/-- **Variant rule.**  If from every state of the invariant outside the goal some allowed
steps lead to a state of the invariant with a smaller variant, then the goal is reached. -/
theorem reaches_goal {inv : σ → Prop} (goal : σ → Prop) (variant : σ → Nat)
    (advance : ∀ s, inv s → ¬ goal s → ∃ t, M.Reaches ok s t ∧ inv t ∧ variant t < variant s)
    (start : inv s) : ∃ t, M.Reaches ok s t ∧ inv t ∧ goal t := by
  induction size : variant s using Nat.strongRecOn generalizing s with
  | ind n ih =>
      by_cases done : goal s
      · exact ⟨s, .refl, start, done⟩
      · obtain ⟨t, reaches, keeps, smaller⟩ := advance s start done
        obtain ⟨end_, further, inv, done⟩ := ih (variant t) (size ▸ smaller) keeps rfl
        exact ⟨end_, reaches.trans further, inv, done⟩

end Machine

end Cccp

import Mathlib.Algebra.GroupWithZero.Nat
import Mathlib.Data.List.Count

/-!
# Counting in a list of which one entry changes

The tasks of a program are a list, and a step replaces one of them.  `countP_set_add` is
what that does to a count, `sum_map_set_add` what it does to a sum, `map_set_same` that it
leaves what it keeps of every task, `two_le_countP` what two places say about a count, and
`countP_mem_comm` counts what two lists without duplicates have in common from either side.
-/

namespace Cccp

variable {α β : Type*} {p : α → Bool} {l : List α} {i j : Nat} {a b : α}

theorem countP_set_add (here : l[i]? = some a) (b : α) :
    (l.set i b).countP p + (if p a then 1 else 0) = l.countP p + if p b then 1 else 0 := by
  obtain ⟨bound, rfl⟩ := List.getElem?_eq_some_iff.mp here
  have replaced := List.countP_set (p := p) (a := b) bound
  have there : (if p l[i] then 1 else 0) ≤ l.countP p := by
    split
    next is => exact List.countP_pos_iff.mpr ⟨_, List.getElem_mem bound, is⟩
    next => exact Nat.zero_le _
  omega

theorem sum_map_set_add {f : α → Nat} (here : l[i]? = some a) (b : α) :
    ((l.set i b).map f).sum + f a = (l.map f).sum + f b := by
  induction l generalizing i with
  | nil => cases here
  | cons first rest ih =>
      cases i with
      | zero =>
          obtain rfl := Option.some.inj here
          simp only [List.set_cons_zero, List.map_cons, List.sum_cons]
          omega
      | succ i =>
          have := ih here
          simp only [List.set_cons_succ, List.map_cons, List.sum_cons]
          omega

theorem map_set_same {f : α → β} (here : l[i]? = some a) (same : f b = f a) :
    (l.set i b).map f = l.map f := by
  refine List.ext_getElem? fun j => ?_
  rw [List.getElem?_map, List.getElem?_map, List.getElem?_set]
  split
  next own =>
    subst own
    have bound := (List.getElem?_eq_some_iff.mp here).1
    rw [if_pos bound, here, Option.map_some, Option.map_some, same]
  next => rfl

theorem two_le_countP (apart : i ≠ j) (here : l[i]? = some a) (there : l[j]? = some b)
    (first : p a = true) (second : p b = true) : 2 ≤ l.countP p := by
  -- the entry at `j` counted twice does not hide the one at `i`
  have split : l.countP p = (l.take (max i j)).countP p + (l.drop (max i j)).countP p := by
    rw [← List.countP_append, List.take_append_drop]
  have front : 0 < (l.take (max i j)).countP p := by
    rcases Nat.lt_or_ge i j with below | above
    · refine List.countP_pos_iff.mpr ⟨a, List.mem_of_getElem? (i := i) ?_, first⟩
      rw [List.getElem?_take_of_lt (by omega)]
      exact here
    · refine List.countP_pos_iff.mpr ⟨b, List.mem_of_getElem? (i := j) ?_, second⟩
      rw [List.getElem?_take_of_lt (by omega)]
      exact there
  have back : 0 < (l.drop (max i j)).countP p := by
    rcases Nat.lt_or_ge i j with below | above
    · refine List.countP_pos_iff.mpr ⟨b, List.mem_of_getElem? (i := 0) ?_, second⟩
      rw [List.getElem?_drop, Nat.max_eq_right (by omega)]
      exact there
    · refine List.countP_pos_iff.mpr ⟨a, List.mem_of_getElem? (i := 0) ?_, first⟩
      rw [List.getElem?_drop, Nat.max_eq_left (by omega)]
      exact here
  omega

theorem countP_mem_comm [BEq α] [LawfulBEq α] {l' : List α} (nodup : l.Nodup) (nodup' : l'.Nodup) :
    l.countP (fun x => decide (x ∈ l')) = l'.countP (fun x => decide (x ∈ l)) := by
  rw [List.countP_eq_length_filter, List.countP_eq_length_filter]
  refine List.Perm.length_eq ?_
  refine (List.perm_ext_iff_of_nodup (nodup.filter _) (nodup'.filter _)).mpr fun x => ?_
  rw [List.mem_filter, List.mem_filter, decide_eq_true_iff, decide_eq_true_iff]
  exact and_comm

end Cccp

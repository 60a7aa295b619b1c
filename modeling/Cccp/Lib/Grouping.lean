import Mathlib.Data.List.AList

/-!
# Grouping pairs by their first components

`group` folds pairs into a map from their first components to the lists of their second
ones, and `ungroup` is the pairs a map stands for.  Grouping keeps every pair as often as it
is there (`ungroup_group`), and the order of those of one key (`lookup_group`).
-/

namespace Cccp

namespace Grouping

variable {κ α : Type} [DecidableEq κ]

/-- The values of a key. -/
def valuesAt (map : AList fun _ : κ => List α) (key : κ) : List α := (map.lookup key).getD []

/-- Put a value behind those of its key. -/
def push (map : AList fun _ : κ => List α) (pair : κ × α) : AList fun _ : κ => List α :=
  map.insert pair.1 (valuesAt map pair.1 ++ [pair.2])

def group (pairs : List (κ × α)) : AList fun _ : κ => List α := pairs.foldl push ∅

/-- The pairs of the entries. -/
def pairsOf (entries : List (Sigma fun _ : κ => List α)) : List (κ × α) :=
  entries.flatMap fun entry => entry.2.map fun value => (entry.1, value)

def ungroup (map : AList fun _ : κ => List α) : List (κ × α) := pairsOf map.entries

variable {map : AList fun _ : κ => List α} {pairs : List (κ × α)}

/-! ## One key -/

theorem valuesAt_push (pair : κ × α) (key : κ) :
    valuesAt (push map pair) key =
      valuesAt map key ++ ([pair].filter fun pair => decide (pair.1 = key)).map Prod.snd := by
  rw [valuesAt, push]
  by_cases own : key = pair.1
  · subst own
    rw [AList.lookup_insert, List.filter_singleton, decide_eq_true rfl]
    rfl
  · rw [AList.lookup_insert_ne own, List.filter_singleton, decide_eq_false (Ne.symm own)]
    exact (List.append_nil _).symm

theorem valuesAt_foldl (key : κ) : valuesAt (pairs.foldl push map) key =
    valuesAt map key ++ (pairs.filter fun pair => decide (pair.1 = key)).map Prod.snd := by
  induction pairs generalizing map with
  | nil => exact (List.append_nil _).symm
  | cons pair rest ih =>
      rw [List.foldl_cons, ih, valuesAt_push, List.append_assoc, ← List.map_append,
        ← List.filter_append]
      rfl

/-- The values of a key are in order. -/
theorem lookup_group (key : κ) : valuesAt (group pairs) key =
    (pairs.filter fun pair => decide (pair.1 = key)).map Prod.snd := by
  rw [group, valuesAt_foldl, valuesAt, AList.lookup_empty]
  rfl

/-! ## All pairs -/

/-- The pairs of a key apart from the others. -/
theorem ungroup_perm (map : AList fun _ : κ => List α) (key : κ) :
    (ungroup map).Perm
      ((valuesAt map key).map (fun value => (key, value)) ++ pairsOf (map.entries.kerase key)) := by
  by_cases known : key ∈ map.entries.keys
  · obtain ⟨values, before, behind, -, entries, erased⟩ := List.exists_of_kerase known
    have mem : Sigma.mk key values ∈ map.entries := by
      rw [entries]
      exact List.mem_append_right _ List.mem_cons_self
    have here : map.lookup key = some values := AList.mem_lookup_iff.mpr mem
    rw [ungroup, valuesAt, here, erased, entries, pairsOf, pairsOf, List.flatMap_append,
      List.flatMap_append, List.flatMap_cons, Option.getD_some, ← List.append_assoc,
      ← List.append_assoc]
    exact List.perm_append_comm.append_right _
  · have absent : map.lookup key = none := AList.lookup_eq_none.mpr known
    rw [valuesAt, absent, List.kerase_of_notMem_keys known]
    exact List.Perm.refl _

theorem ungroup_push (pair : κ × α) : (ungroup (push map pair)).Perm (ungroup map ++ [pair]) := by
  have entries : ungroup (push map pair) =
      (valuesAt map pair.1).map (fun value => (pair.1, value)) ++
        ([pair] ++ pairsOf (map.entries.kerase pair.1)) := by
    rw [ungroup, push, AList.entries_insert, pairsOf, List.flatMap_cons, List.map_append,
      List.append_assoc]
    rfl
  rw [entries]
  apply (List.perm_append_comm.append_left _).trans
  rw [← List.append_assoc]
  exact (ungroup_perm map pair.1).symm.append_right _

theorem ungroup_foldl : (ungroup (pairs.foldl push map)).Perm (ungroup map ++ pairs) := by
  induction pairs generalizing map with
  | nil => rw [List.append_nil, List.foldl_nil]
  | cons pair rest ih =>
      rw [List.foldl_cons]
      apply ih.trans
      rw [← List.singleton_append, ← List.append_assoc]
      exact (ungroup_push pair).append_right _

/-- No pair is lost or doubled. -/
theorem ungroup_group : (ungroup (group pairs)).Perm pairs := ungroup_foldl

end Grouping

end Cccp

import Mathlib.Data.List.AList

/-!
# Collecting

What a list of results collected with `mapM`, a list that is related to another one, or a map
collected by inserting, has in it.
-/

namespace Cccp

variable {α β κ : Type} {f : α → Option β} {xs : List α} {ys : List β}

/-- What was collected is the images, in their order. -/
theorem forall₂_of_mapM (all : xs.mapM f = some ys) :
    List.Forall₂ (fun x y => f x = some y) xs ys := by
  induction xs generalizing ys with
  | nil =>
      cases all
      exact .nil
  | cons x xs ih =>
      rw [List.mapM_cons] at all
      obtain ⟨first, made, all⟩ := Option.bind_eq_some_iff.mp all
      obtain ⟨rest, others, same⟩ := Option.bind_eq_some_iff.mp all
      cases same
      exact .cons made (ih others)

/-- An element of one list has its partner in the other. -/
theorem exists_of_mem_forall₂ {R : α → β → Prop} (each : List.Forall₂ R xs ys) {x : α}
    (mem : x ∈ xs) : ∃ y ∈ ys, R x y := by
  induction each with
  | nil => cases mem
  | @cons _ y _ _ holds _ ih =>
      rcases List.mem_cons.mp mem with rfl | mem
      · exact ⟨y, List.mem_cons_self, holds⟩
      · obtain ⟨y', mem', holds'⟩ := ih mem
        exact ⟨y', List.mem_cons_of_mem _ mem', holds'⟩

/-- What was collected is the image of an element. -/
theorem exists_of_mem_mapM (all : xs.mapM f = some ys) {y : β} (mem : y ∈ ys) :
    ∃ x ∈ xs, f x = some y :=
  exists_of_mem_forall₂ (forall₂_of_mapM all).flip mem

/-- The image of every element was collected. -/
theorem exists_mem_of_mapM (all : xs.mapM f = some ys) {x : α} (mem : x ∈ xs) :
    ∃ y ∈ ys, f x = some y :=
  exists_of_mem_forall₂ (forall₂_of_mapM all) mem

/-- Where every element has an image, they are collected. -/
theorem exists_mapM (each : ∀ x ∈ xs, ∃ y, f x = some y) : ∃ ys, xs.mapM f = some ys := by
  induction xs with
  | nil => exact ⟨[], rfl⟩
  | cons x xs ih =>
      obtain ⟨y, here⟩ := each x List.mem_cons_self
      obtain ⟨ys, rest⟩ := ih fun other mem => each other (List.mem_cons_of_mem x mem)
      rw [List.mapM_cons, here, rest]
      exact ⟨y :: ys, rfl⟩

/-- What is kept of a list keeps its keys. -/
theorem map_filterMap_sublist {keep : α → Option β} {f : α → κ} {g : β → κ}
    (same : ∀ x y, keep x = some y → g y = f x) (xs : List α) :
    ((xs.filterMap keep).map g).Sublist (xs.map f) := by
  induction xs with
  | nil => exact .slnil
  | cons x xs ih =>
      rw [List.filterMap_cons, List.map_cons]
      split
      next => exact ih.cons _
      next y kept =>
        rw [List.map_cons, same x y kept]
        exact ih.cons_cons _

/-! ## Maps -/

variable [DecidableEq κ]

/-- What is found after an insertion was inserted, or it was found before. -/
theorem lookup_insert_cases {map : AList fun _ : κ => β} {key other : κ} {value found : β}
    (look : (map.insert key value).lookup other = some found) :
    (other = key ∧ found = value) ∨ map.lookup other = some found := by
  rcases eq_or_ne other key with rfl | differs
  · rw [AList.lookup_insert] at look
    exact .inl ⟨rfl, (Option.some.inj look).symm⟩
  · rw [AList.lookup_insert_ne differs] at look
    exact .inr look

/-- What is found after a removal was found before. -/
theorem lookup_of_lookup_erase {map : AList fun _ : κ => β} {key other : κ} {found : β}
    (look : (map.erase key).lookup other = some found) : map.lookup other = some found := by
  rcases eq_or_ne other key with rfl | differs
  · rw [AList.lookup_erase] at look
    cases look
  · rw [AList.lookup_erase_ne differs] at look
    exact look

/-- An entry of a map collected by inserting was inserted, or it was there before. -/
theorem mem_foldl_insert {pairs : List (κ × β)} {map : AList fun _ : κ => β}
    {entry : (_ : κ) × β}
    (mem : entry ∈ (pairs.foldl (fun map pair => map.insert pair.1 pair.2) map).entries) :
    entry ∈ map.entries ∨ (entry.1, entry.2) ∈ pairs := by
  induction pairs generalizing map with
  | nil => exact .inl mem
  | cons pair pairs ih =>
      rcases ih mem with mem | mem
      · rw [AList.entries_insert, List.mem_cons] at mem
        rcases mem with rfl | mem
        · exact .inr List.mem_cons_self
        · exact .inl ((List.kerase_sublist _ _).subset mem)
      · exact .inr (List.mem_cons_of_mem _ mem)

/-- Inserting others does not change what is found. -/
theorem lookup_foldl_insert_of_notMem {pairs : List (κ × β)} {map : AList fun _ : κ => β} {key : κ}
    (absent : key ∉ pairs.map Prod.fst) :
    (pairs.foldl (fun map pair => map.insert pair.1 pair.2) map).lookup key = map.lookup key := by
  induction pairs generalizing map with
  | nil => rfl
  | cons pair pairs ih =>
      rw [List.map_cons, List.mem_cons, not_or] at absent
      rw [List.foldl_cons, ih absent.2, AList.lookup_insert_ne absent.1]

/-- With distinct keys, what was inserted is found. -/
theorem lookup_foldl_insert {pairs : List (κ × β)} {map : AList fun _ : κ => β} {key : κ}
    {value : β} (distinct : (pairs.map Prod.fst).Nodup) (mem : (key, value) ∈ pairs) :
    (pairs.foldl (fun map pair => map.insert pair.1 pair.2) map).lookup key = some value := by
  induction pairs generalizing map with
  | nil => cases mem
  | cons pair pairs ih =>
      obtain ⟨fresh, distinct⟩ := List.nodup_cons.mp distinct
      rw [List.foldl_cons]
      rcases List.mem_cons.mp mem with rfl | mem
      · rw [lookup_foldl_insert_of_notMem fresh, AList.lookup_insert]
      · exact ih distinct mem

theorem length_keys_insert_le (map : AList fun _ : κ => β) (key : κ) (value : β) :
    (map.insert key value).keys.length ≤ map.keys.length + 1 := by
  rw [AList.keys_insert, List.length_cons]
  exact Nat.succ_le_succ List.length_erase_le

theorem length_keys_erase {map : AList fun _ : κ => β} {key : κ} (mem : key ∈ map) :
    (map.erase key).keys.length + 1 = map.keys.length := by
  rw [AList.keys_erase, List.length_erase_of_mem mem]
  exact Nat.sub_add_cancel (List.length_pos_of_mem mem)

end Cccp

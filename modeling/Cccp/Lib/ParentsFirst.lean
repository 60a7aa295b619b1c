import Mathlib.Data.List.Basic

/-!
# Parents first

Paths as lists of their components, where the parent of a path is the path without its last
component.  `ParentsFirst known paths` says that each of the paths comes after its parent,
or its parent is known.
-/

namespace Cccp

universe u v

variable {α : Type u} {β : Type v}

def ParentsFirst (known : List (List α)) : List (List α) → Prop
  | [] => True
  | path :: rest => path.dropLast ∈ known ∧ ParentsFirst (path :: known) rest

namespace ParentsFirst

variable {known known' paths more : List (List α)}

theorem mono (first : ParentsFirst known paths) (wider : known ⊆ known') :
    ParentsFirst known' paths := by
  induction paths generalizing known known' with
  | nil => trivial
  | cons path rest ih => exact ⟨wider first.1, ih first.2 (List.cons_subset_cons path wider)⟩

theorem append (first : ParentsFirst known paths) (second : ParentsFirst known more) :
    ParentsFirst known (paths ++ more) := by
  induction paths generalizing known with
  | nil => exact second
  | cons path rest ih =>
      exact ⟨first.1, ih first.2 (second.mono (List.subset_cons_self path known))⟩

/-- Images of paths, where the parent of an image is the image of the parent. -/
theorem map (first : ParentsFirst known paths) (f : List α → List β)
    (parent : ∀ path ∈ paths, (f path).dropLast = f path.dropLast) :
    ParentsFirst (known.map f) (paths.map f) := by
  induction paths generalizing known with
  | nil => trivial
  | cons path rest ih =>
      refine ⟨?_, ih first.2 fun other mem => parent other (List.mem_cons_of_mem _ mem)⟩
      rw [parent path List.mem_cons_self]
      exact List.mem_map_of_mem first.1

/-- The parent of each path is known, or it is one of the paths before it. -/
theorem mem_before {before after : List (List α)} {path : List α}
    (first : ParentsFirst known (before ++ path :: after)) :
    path.dropLast ∈ known ∨ path.dropLast ∈ before := by
  induction before generalizing known with
  | nil => exact .inl first.1
  | cons other before ih =>
      rcases ih first.2 with mem | mem
      · rcases List.mem_cons.mp mem with same | mem
        · exact .inr (List.mem_cons.mpr (.inl same))
        · exact .inl mem
      · exact .inr (List.mem_cons_of_mem _ mem)

end ParentsFirst

end Cccp

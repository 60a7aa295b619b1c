import Mathlib.Algebra.GroupWithZero.Nat
import Mathlib.Data.List.Basic

/-!
# Tilings

A stretch that is handed out in portions, each of which is cut into tiles of `size` and what
is left of it.  `pieces` gives every tile its place.

`starts_eq_grid_iff`: the tiles stand on the grid of `size` exactly if every portion but the
last is a multiple of it.
-/

namespace Cccp

namespace Tiling

variable (size : Nat)

/-- The tiles of a portion: as many whole ones as there are, and the rest. -/
def tiles (portion : Nat) : List Nat :=
  List.replicate (portion / size) size ++ if portion % size = 0 then [] else [portion % size]

/-- Where the tiles stand, one behind the other, and how long they are. -/
def pieces : Nat → List Nat → List (Nat × Nat)
  | _, [] => []
  | at_, n :: rest => (at_, n) :: pieces (at_ + n) rest

/-- The multiples of `size` from `first` on, below `stop`. -/
def grid (first stop : Nat) : List Nat :=
  List.range' first ((stop - first + (size - 1)) / size) size

variable {size} {at_ portion : Nat} {portions : List Nat}

@[simp] theorem tiles_zero : tiles size 0 = [] := by
  simp [tiles]

/-- A portion of at most one tile is that tile. -/
theorem tiles_of_le (some_ : 0 < portion) (le : portion ≤ size) :
    tiles size portion = [portion] := by
  rcases Nat.lt_or_eq_of_le le with less | rfl
  · rw [tiles, Nat.div_eq_of_lt less, Nat.mod_eq_of_lt less, if_neg (by omega)]
    rfl
  · rw [tiles, Nat.div_self some_, Nat.mod_self, if_pos rfl]
    rfl

theorem tiles_add (pos : 0 < size) (portion : Nat) :
    tiles size (size + portion) = size :: tiles size portion := by
  rw [tiles, tiles, Nat.add_div_left _ pos, Nat.add_mod_left, List.replicate_succ,
    List.cons_append]

/-- Behind whole tiles the next portion is cut as before. -/
theorem tiles_append (pos : 0 < size) {whole : Nat} (aligned : size ∣ whole) (portion : Nat) :
    tiles size (whole + portion) = tiles size whole ++ tiles size portion := by
  obtain ⟨count, rfl⟩ := aligned
  induction count with
  | zero => rw [Nat.mul_zero, Nat.zero_add, tiles_zero, List.nil_append]
  | succ count ih =>
      rw [Nat.mul_succ, Nat.add_comm (size * count), Nat.add_assoc, tiles_add pos, tiles_add pos,
        ih, List.cons_append]

/-- The first tile of a portion, and those of what is left. -/
theorem tiles_step (pos : 0 < size) (some_ : 0 < portion) :
    tiles size portion = min size portion :: tiles size (portion - size) := by
  rcases Nat.le_total portion size with le | ge
  · rw [tiles_of_le some_ le, Nat.min_eq_right le, Nat.sub_eq_zero_of_le le, tiles_zero]
  · rw [Nat.min_eq_left ge, ← tiles_add pos, Nat.add_sub_cancel' ge]

@[simp] theorem sum_tiles (portion : Nat) : (tiles size portion).sum = portion := by
  have whole := Nat.div_add_mod portion size
  rw [Nat.mul_comm] at whole
  rw [tiles, List.sum_append, List.sum_replicate_nat]
  split
  next none_ => rwa [none_] at whole
  next => rwa [List.sum_singleton]

theorem mem_tiles (pos : 0 < size) {tile : Nat} (mem : tile ∈ tiles size portion) :
    0 < tile ∧ tile ≤ size := by
  rw [tiles, List.mem_append, List.mem_replicate] at mem
  rcases mem with ⟨-, rfl⟩ | mem
  · exact ⟨pos, Nat.le_refl _⟩
  · split at mem
    next => cases mem
    next some_ =>
      rw [List.mem_singleton.mp mem]
      exact ⟨by omega, Nat.le_of_lt (Nat.mod_lt _ pos)⟩

theorem length_tiles_le (portion : Nat) : (tiles size portion).length ≤ portion := by
  rcases Nat.eq_zero_or_pos size with rfl | pos
  · unfold tiles
    split
    next => simp
    next some_ =>
      simp
      omega
  · induction portion using Nat.strongRecOn with
    | ind portion ih =>
        rcases Nat.eq_zero_or_pos portion with rfl | some_
        · simp
        · have shorter := ih (portion - size) (by omega)
          rw [tiles_step pos some_, List.length_cons]
          omega

theorem length_flatMap_tiles_le (portions : List Nat) :
    (portions.flatMap (tiles size)).length ≤ portions.sum := by
  induction portions with
  | nil => exact Nat.le_refl 0
  | cons portion portions ih =>
      rw [List.flatMap_cons, List.length_append, List.sum_cons]
      exact Nat.add_le_add (length_tiles_le portion) ih

theorem pieces_append (first second : List Nat) :
    pieces at_ (first ++ second) = pieces at_ first ++ pieces (at_ + first.sum) second := by
  induction first generalizing at_ with
  | nil => simp [pieces]
  | cons n first ih =>
      rw [List.cons_append, pieces, pieces, ih, List.sum_cons, Nat.add_assoc, List.cons_append]

/-- No piece reaches beyond the stretch. -/
theorem mem_pieces_le {piece : Nat × Nat} (mem : piece ∈ pieces at_ portions) :
    piece.1 + piece.2 ≤ at_ + portions.sum := by
  induction portions generalizing at_ with
  | nil => cases mem
  | cons n rest ih =>
      rw [List.sum_cons]
      rcases List.mem_cons.mp mem with rfl | mem
      · omega
      · have later := ih mem
        omega

/-- The last piece reaches its end. -/
theorem exists_piece_to_end (some_ : portions ≠ []) :
    ∃ piece ∈ pieces at_ portions, piece.1 + piece.2 = at_ + portions.sum := by
  induction portions generalizing at_ with
  | nil => exact absurd rfl some_
  | cons n rest ih =>
      rw [List.sum_cons]
      by_cases last : rest = []
      · refine ⟨(at_, n), List.mem_cons_self, ?_⟩
        rw [last, List.sum_nil, Nat.add_zero]
      · obtain ⟨piece, mem, to_end⟩ := @ih (at_ + n) last
        refine ⟨piece, List.mem_cons_of_mem _ mem, ?_⟩
        omega

theorem sum_flatMap_tiles (portions : List Nat) :
    (portions.flatMap (tiles size)).sum = portions.sum := by
  induction portions with
  | nil => rfl
  | cons n rest ih => rw [List.flatMap_cons, List.sum_append, sum_tiles, ih, List.sum_cons]

theorem starts_replicate (count : Nat) :
    (pieces at_ (List.replicate count size)).map Prod.fst = List.range' at_ count size := by
  induction count generalizing at_ with
  | zero => rfl
  | succ count ih =>
      rw [List.replicate_succ, pieces, List.map_cons, ih, List.range'_succ]

/-- The tiles of one portion stand on the grid. -/
theorem starts_tiles (pos : 0 < size) :
    (pieces at_ (tiles size portion)).map Prod.fst = grid size at_ (at_ + portion) := by
  have whole := Nat.div_add_mod portion size
  have rest := Nat.mod_lt portion pos
  rw [grid, Nat.add_sub_cancel_left, tiles, pieces_append, List.map_append, starts_replicate]
  split
  next none_ =>
    have count : (portion + (size - 1)) / size = portion / size := by
      rw [Nat.div_eq_iff pos]
      rw [none_, Nat.mul_comm] at whole
      omega
    rw [count]
    exact List.append_nil _
  next some_ =>
    have count : (portion + (size - 1)) / size = portion / size + 1 := by
      rw [Nat.div_eq_iff pos, Nat.add_mul]
      rw [Nat.mul_comm] at whole
      omega
    rw [count, List.range'_concat, List.sum_replicate_nat, Nat.mul_comm size]
    rfl

/-- Each tile of a portion is whole or reaches to its end. -/
theorem length_of_mem_tiles (pos : 0 < size) {piece : Nat × Nat}
    (mem : piece ∈ pieces at_ (tiles size portion)) :
    piece.2 = min size (at_ + portion - piece.1) := by
  induction portion using Nat.strongRecOn generalizing at_ with
  | ind portion ih =>
      rcases Nat.eq_zero_or_pos portion with rfl | some_
      · rw [tiles_zero] at mem
        cases mem
      · rw [tiles_step pos some_, pieces] at mem
        rcases List.mem_cons.mp mem with rfl | mem
        · rw [Nat.add_sub_cancel_left]
        · rw [ih _ (by omega) mem]
          congr 2
          omega

/-- Portions that end on the grid are cut like one. -/
theorem flatMap_tiles (pos : 0 < size) (aligned : ∀ n ∈ portions.dropLast, size ∣ n) :
    portions.flatMap (tiles size) = tiles size portions.sum := by
  induction portions with
  | nil => exact tiles_zero.symm
  | cons first rest ih =>
      cases rest with
      | nil => simp
      | cons next rest =>
          rw [List.dropLast_cons_of_ne_nil (List.cons_ne_nil _ _)] at aligned
          rw [List.flatMap_cons, ih fun n mem => aligned n (List.mem_cons_of_mem _ mem)]
          exact (tiles_append pos (aligned first List.mem_cons_self) _).symm

theorem dvd_of_mem_grid {first stop place : Nat} (mem : place ∈ grid size first stop) :
    size ∣ place - first := by
  obtain ⟨i, -, rfl⟩ := List.mem_range'.mp mem
  rw [Nat.add_sub_cancel_left]
  exact Nat.dvd_mul_right _ _

theorem mem_grid (pos : 0 < size) {first stop place : Nat} (above : first ≤ place)
    (below : place < stop) (aligned : size ∣ place - first) : place ∈ grid size first stop := by
  obtain ⟨i, same⟩ := aligned
  refine List.mem_range'.mpr ⟨i, ?_, by omega⟩
  rw [Nat.lt_div_iff_mul_lt pos, Nat.mul_comm]
  omega

/-- Behind every place on the grid but the last there is room for a tile. -/
theorem lt_of_mem_dropLast_grid (pos : 0 < size) {first stop place : Nat}
    (mem : place ∈ (grid size first stop).dropLast) : place + size < stop := by
  rw [grid] at mem
  rcases count : (stop - first + (size - 1)) / size with - | count
  · rw [count] at mem
    cases mem
  · rw [count, List.range'_concat, List.dropLast_concat] at mem
    obtain ⟨i, below, rfl⟩ := List.mem_range'.mp mem
    have whole := (Nat.div_eq_iff pos).mp count
    have room := Nat.mul_le_mul_left size below
    rw [Nat.mul_succ] at room
    rw [Nat.add_mul, Nat.mul_comm] at whole
    omega

/-- Where portions begin off the grid, so does a tile. -/
theorem dvd_of_starts (pos : 0 < size) (some_ : ∀ n ∈ portions, 0 < n)
    (on : ∀ place ∈ (pieces at_ (portions.flatMap (tiles size))).map Prod.fst, size ∣ place - at_) :
    ∀ n ∈ portions.dropLast, size ∣ n := by
  induction portions generalizing at_ with
  | nil => nofun
  | cons first rest ih =>
      cases rest with
      | nil => nofun
      | cons next rest =>
          rw [List.flatMap_cons, pieces_append, sum_tiles, List.map_append] at on
          have begins : at_ + first ∈
              (pieces (at_ + first) ((next :: rest).flatMap (tiles size))).map Prod.fst := by
            have tile := tiles_step pos (some_ next (by simp))
            rw [List.flatMap_cons, tile, List.cons_append, pieces]
            exact List.mem_cons_self
          have aligned : size ∣ first := by
            have here := on _ (List.mem_append_right _ begins)
            rwa [Nat.add_sub_cancel_left] at here
          have later : ∀ place ∈
              (pieces (at_ + first) ((next :: rest).flatMap (tiles size))).map Prod.fst,
              size ∣ place - (at_ + first) := by
            intro place mem
            rw [← Nat.sub_sub]
            exact Nat.dvd_sub (on place (List.mem_append_right _ mem)) aligned
          intro n mem
          rw [List.dropLast_cons_of_ne_nil (List.cons_ne_nil _ _)] at mem
          rcases List.mem_cons.mp mem with rfl | mem
          · exact aligned
          · exact ih (fun n mem => some_ n (List.mem_cons_of_mem _ mem)) later n mem

/-- **The tiles stand on the grid** exactly if every portion but the last is a multiple of
their size. -/
theorem starts_eq_grid_iff (pos : 0 < size) (some_ : ∀ n ∈ portions, 0 < n) :
    (pieces at_ (portions.flatMap (tiles size))).map Prod.fst =
        grid size at_ (at_ + portions.sum) ↔
      ∀ n ∈ portions.dropLast, size ∣ n := by
  constructor
  · intro same
    exact dvd_of_starts pos some_ fun place mem => dvd_of_mem_grid (same ▸ mem)
  · intro aligned
    rw [flatMap_tiles pos aligned, starts_tiles pos]

end Tiling

end Cccp

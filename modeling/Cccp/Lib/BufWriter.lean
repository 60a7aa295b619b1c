import Mathlib.Algebra.GroupWithZero.Nat
import Mathlib.Data.List.Basic

/-!
# Buffered writing

A buffer before a file collects what is written to it, and passes it on when the next write
does not fit; a write as large as the buffer goes past it.  Only lengths matter here.
`dvd_passedAll`: of writes of whole units, whole units are passed on, even if the last write
is a rest.
-/

namespace Cccp

namespace BufWriter

/-- How much a write of `count` bytes passes on of the `held` bytes before it and of its own. -/
def passed (capacity held count : Nat) : Nat :=
  (if capacity < held + count then held else 0) + (if capacity ≤ count then count else 0)

/-- How much writes pass on, one after another. -/
def passedAll (capacity : Nat) : Nat → List Nat → Nat
  | _, [] => 0
  | held, count :: rest =>
      passed capacity held count +
        passedAll capacity (held + count - passed capacity held count) rest

variable {capacity held count unit : Nat} {counts : List Nat}

theorem passed_le (capacity held count : Nat) : passed capacity held count ≤ held + count := by
  unfold passed
  split <;> split <;> omega

theorem passedAll_le (capacity held : Nat) (counts : List Nat) :
    passedAll capacity held counts ≤ held + counts.sum := by
  induction counts generalizing held with
  | nil => exact Nat.zero_le _
  | cons count rest ih =>
      have first := passed_le capacity held count
      have later := ih (held + count - passed capacity held count)
      rw [passedAll, List.sum_cons]
      omega

/-- A small write stays in the buffer. -/
theorem dvd_passed (small : count < capacity) (units : unit ∣ held) :
    unit ∣ passed capacity held count := by
  rw [passed, if_neg (Nat.not_le.mpr small), Nat.add_zero]
  split
  next => exact units
  next => exact Nat.dvd_zero _

theorem dvd_passedAll (small : ∀ count ∈ counts, count < capacity) (units : unit ∣ held)
    (whole : ∀ count ∈ counts.dropLast, unit ∣ count) :
    unit ∣ passedAll capacity held counts := by
  induction counts generalizing held with
  | nil => exact Nat.dvd_zero _
  | cons count rest ih =>
      obtain ⟨first, later⟩ := List.forall_mem_cons.mp small
      have front := dvd_passed first units
      refine Nat.dvd_add front ?_
      cases rest with
      | nil => exact Nat.dvd_zero _
      | cons next rest =>
          rw [List.dropLast_cons_cons] at whole
          obtain ⟨piece, whole⟩ := List.forall_mem_cons.mp whole
          exact ih later (Nat.dvd_sub (Nat.dvd_add units piece) front) whole

end BufWriter

end Cccp

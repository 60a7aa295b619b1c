import Mathlib.Data.Finset.Card

/-!
# Putting pieces back in order

A consumer that needs pieces in order and gets them in any order: it consumes the
piece at its position, keeps the pieces ahead of it, and drops those behind it.
Only positions are followed here; `len p` is the length of the piece at position
`p`, so that the piece after it stands at `p + len p`.

* `Accepted` is what the consumer has taken charge of: consumed or kept, where an
  empty piece at the position counts as consumed.  An arrival is accepted
  (`accepted_accept`) and stays so (`Accepted.accept`).
* `position_not_mem_accept`: the consumer never waits for a piece it keeps.
* `reaches_stop`: once every piece below `stop` has been accepted, the position
  has reached `stop`.
-/

namespace Cccp

/-- The position of a consumer and the positions of the pieces it keeps. -/
structure Reorder where
  position : Nat
  cache : Finset Nat
  deriving DecidableEq

namespace Reorder

variable (len : Nat → Nat)

/-- Consume the piece at the position, from the cache if it is there. -/
def advance (r : Reorder) : Reorder where
  position := r.position + len r.position
  cache := r.cache.erase r.position

/-- Consume kept pieces as long as the next one is there. -/
def drain : Nat → Reorder → Reorder
  | 0, r => r
  | fuel + 1, r => if r.position ∈ r.cache then drain fuel (r.advance len) else r

/-- The arrival of the piece at position `index`. -/
def accept (r : Reorder) (index : Nat) : Reorder :=
  if index < r.position then r
  else if r.position < index then { r with cache := insert index r.cache }
  else drain len r.cache.card (r.advance len)

/-- The piece at position `index` was consumed or is kept; an empty piece at the position
is as good as consumed. -/
def Accepted (r : Reorder) (index : Nat) : Prop :=
  index < r.position ∨ index ∈ r.cache ∨ index = r.position ∧ len r.position = 0

instance (r : Reorder) (index : Nat) : Decidable (r.Accepted len index) :=
  inferInstanceAs (Decidable (_ ∨ _))

variable {len} {r : Reorder} {index : Nat}

/-! ## Acceptance -/

/-- The piece at the position is accepted when it is consumed. -/
theorem accepted_advance : (r.advance len).Accepted len r.position := by
  by_cases empty : len r.position = 0
  · right; right
    simp [advance, empty]
  · left
    simp only [advance]
    omega

theorem Accepted.advance (accepted : r.Accepted len index) :
    (r.advance len).Accepted len index := by
  rcases accepted with consumed | kept | ⟨rfl, -⟩
  · exact .inl (Nat.lt_add_right _ consumed)
  · by_cases same : index = r.position
    · exact same ▸ accepted_advance
    · exact .inr (.inl (Finset.mem_erase.mpr ⟨same, kept⟩))
  · exact accepted_advance

theorem Accepted.drain {fuel : Nat} (accepted : r.Accepted len index) :
    (r.drain len fuel).Accepted len index := by
  induction fuel generalizing r with
  | zero => exact accepted
  | succ fuel ih =>
      rw [Reorder.drain]
      split
      next => exact ih accepted.advance
      next => exact accepted

/-- What was accepted before an arrival is accepted after it. -/
theorem Accepted.accept {arrived : Nat} (accepted : r.Accepted len index) :
    (r.accept len arrived).Accepted len index := by
  rw [Reorder.accept]
  split
  next => exact accepted
  next =>
    split
    next => exact accepted.imp_right (Or.imp_left Finset.mem_insert_of_mem)
    next => exact accepted.advance.drain

/-- An arrival is accepted. -/
theorem accepted_accept : (r.accept len index).Accepted len index := by
  rw [Reorder.accept]
  split
  next behind => exact .inl behind
  next =>
    split
    next => exact .inr (.inl (Finset.mem_insert_self _ _))
    next =>
      obtain rfl : index = r.position := by omega
      exact accepted_advance.drain

/-! ## Where the consumer stands -/

theorem position_not_mem_drain {fuel : Nat} (enough : r.cache.card ≤ fuel) :
    (r.drain len fuel).position ∉ (r.drain len fuel).cache := by
  induction fuel generalizing r with
  | zero =>
      have empty : r.cache = ∅ := Finset.card_eq_zero.mp (by omega)
      simp [Reorder.drain, empty]
  | succ fuel ih =>
      rw [Reorder.drain]
      split
      next kept =>
        apply ih
        rw [Reorder.advance, Finset.card_erase_of_mem kept]
        omega
      next missing => exact missing

/-- The consumer never waits for a piece it keeps. -/
theorem position_not_mem_accept (before : r.position ∉ r.cache) :
    (r.accept len index).position ∉ (r.accept len index).cache := by
  rw [Reorder.accept]
  split
  next => exact before
  next =>
    split
    next ahead =>
      simp only [Finset.mem_insert, not_or]
      exact ⟨by omega, before⟩
    next => exact position_not_mem_drain (Finset.card_le_card (Finset.erase_subset _ _))

/-- Once every piece below `stop` has been accepted, the consumer stands at `stop` or
past it, provided it is not waiting for a piece it keeps. -/
theorem reaches_stop {stop : Nat} (waiting : r.position ∉ r.cache)
    (progress : ∀ p < stop, 0 < len p)
    (all : r.position < stop → r.Accepted len r.position) : stop ≤ r.position := by
  by_contra short
  have below : r.position < stop := by omega
  rcases all below with consumed | kept | ⟨-, empty⟩
  · omega
  · exact waiting kept
  · have := progress _ below
    omega

end Reorder

end Cccp

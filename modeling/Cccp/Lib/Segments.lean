import Mathlib.Data.List.Basic

/-!
# Streams that arrive in segments

What is written to a stream arrives in segments, cut anywhere.  `readExact` fills a buffer
from as many of them as it takes: only the concatenation of the segments matters
(`readExact_eq_take`), and nothing is taken before there is enough (`enough_of_readExact`).
-/

namespace Cccp

namespace Segments

universe u

variable {α : Type u}

/-- Cut what is written into segments that are not empty.  The lengths are those of the
segments less one; what is left after the last of them is one segment. -/
def cut : List Nat → List α → List (List α)
  | _, [] => []
  | [], byte :: rest => [byte :: rest]
  | length :: lengths, byte :: rest =>
      (byte :: rest.take length) :: cut lengths (rest.drop length)

/-- Fill a buffer, or `none` while there is not enough. -/
def readExact : Nat → List (List α) → Option (List α × List (List α))
  | 0, segments => some ([], segments)
  | _ + 1, [] => none
  | count + 1, segment :: rest =>
      if segment.length ≤ count + 1 then
        (readExact (count + 1 - segment.length) rest).map fun read => (segment ++ read.1, read.2)
      else some (segment.take (count + 1), segment.drop (count + 1) :: rest)

theorem flatten_cut (lengths : List Nat) (bytes : List α) :
    (cut lengths bytes).flatten = bytes := by
  fun_induction cut lengths bytes with
  | case1 => rfl
  | case2 => exact List.append_nil _
  | case3 length lengths byte rest ih =>
      rw [List.flatten_cons, ih, List.cons_append, List.take_append_drop]

/-- Every segmentation is a cut. -/
theorem exists_cut {segments : List (List α)} (filled : ∀ segment ∈ segments, segment ≠ []) :
    ∃ lengths, cut lengths segments.flatten = segments := by
  induction segments with
  | nil => exact ⟨[], rfl⟩
  | cons segment rest ih =>
      obtain ⟨lengths, same⟩ := ih fun other mem => filled other (List.mem_cons_of_mem _ mem)
      obtain ⟨byte, bytes, rfl⟩ := List.exists_cons_of_ne_nil (filled segment List.mem_cons_self)
      refine ⟨bytes.length :: lengths, ?_⟩
      rw [List.flatten_cons, List.cons_append, cut, List.take_left, List.drop_left, same]

/-- The buffer holds what was written first, however it was cut. -/
theorem readExact_eq_take {count : Nat} {segments : List (List α)}
    (enough : count ≤ segments.flatten.length) :
    ∃ rest, readExact count segments = some (segments.flatten.take count, rest) ∧
      rest.flatten = segments.flatten.drop count := by
  fun_induction readExact count segments with
  | case1 segments => exact ⟨segments, rfl, rfl⟩
  | case2 => exact absurd enough (Nat.not_succ_le_zero _)
  | case3 count segment rest within ih =>
      rw [List.flatten_cons, List.length_append] at enough
      obtain ⟨left, read, same⟩ := ih (by omega)
      refine ⟨left, ?_, ?_⟩
      · rw [read, List.flatten_cons, List.take_append, List.take_of_length_le within]
        rfl
      · rw [same, List.flatten_cons, List.drop_append, List.drop_of_length_le within]
        rfl
  | case4 count segment rest longer =>
      have within : count + 1 ≤ segment.length := Nat.le_of_not_le longer
      refine ⟨segment.drop (count + 1) :: rest, ?_, ?_⟩
      · rw [List.flatten_cons, List.take_append_of_le_length within]
      · rw [List.flatten_cons, List.flatten_cons, List.drop_append_of_le_length within]

/-- A buffer is filled only if there is enough. -/
theorem enough_of_readExact {count : Nat} {segments : List (List α)}
    {read : List α × List (List α)} (filled : readExact count segments = some read) :
    count ≤ segments.flatten.length := by
  fun_induction readExact count segments generalizing read with
  | case1 segments => exact Nat.zero_le _
  | case2 => cases filled
  | case3 count segment rest within ih =>
      obtain ⟨more, filled, -⟩ := Option.map_eq_some_iff.mp filled
      have enough := ih filled
      rw [List.flatten_cons, List.length_append]
      omega
  | case4 count segment rest longer =>
      rw [List.flatten_cons, List.length_append]
      omega

end Segments

end Cccp

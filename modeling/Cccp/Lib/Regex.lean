import Mathlib.Data.List.Basic

/-!
# Leftmost-first matching

Regular expressions with greedy repetition and numbered groups.  `ways` lists the ways in
which an expression matches a beginning of a text, in the order in which a backtracking
matcher tries them; the match is the first way at the first place that has one.

`ways_many_seq` is the rule for the usual shape of a field: a repetition of a class whose
continuation cannot begin in the class has one way or none.
-/

namespace Cccp

variable {α : Type}

/-- A regular expression over the characters `α`. -/
inductive Regex (α : Type) where
  | chars (class_ : α → Bool)
  | many (class_ : α → Bool)
  | seq (first second : Regex α)
  | optional (inner : Regex α)
  | group (number : Nat) (inner : Regex α)

namespace Regex

abbrev Captures (α : Type) := Nat → Option (List α)

def Captures.set (captures : Captures α) (number : Nat) (text : List α) : Captures α :=
  fun other => if other = number then some text else captures other

/-- A way to match: what the groups capture, and what is left of the text. -/
structure Way (α : Type) where
  captures : Captures α
  rest : List α

/-- What is left after one or more characters of a class, the longest match first. -/
def manyRests (class_ : α → Bool) : List α → List (List α)
  | [] => []
  | c :: rest => if class_ c then manyRests class_ rest ++ [rest] else []

/-- The ways to match a beginning of the text, in order of preference. -/
def ways : Regex α → List α → Captures α → List (Way α)
  | chars class_, c :: rest, captures => if class_ c then [⟨captures, rest⟩] else []
  | chars _, [], _ => []
  | many class_, text, captures => (manyRests class_ text).map fun rest => ⟨captures, rest⟩
  | seq first second, text, captures =>
      (ways first text captures).flatMap fun way => ways second way.rest way.captures
  | optional inner, text, captures => ways inner text captures ++ [⟨captures, text⟩]
  | group number inner, text, captures =>
      (ways inner text captures).map fun way =>
        ⟨way.captures.set number (text.take (text.length - way.rest.length)), way.rest⟩

/-- `Regex::captures`: the first way at the first place that has one. -/
def find (regex : Regex α) : List α → Option (Captures α)
  | [] => (regex.ways [] fun _ => none).head?.map Way.captures
  | c :: rest =>
      ((regex.ways (c :: rest) fun _ => none).head?.map Way.captures).or (regex.find rest)

variable {class_ : α → Bool} {text : List α} {captures : Captures α} {number : Nat}
  {first second third : Regex α}

theorem ways_seq_assoc :
    ways (seq (seq first second) third) text captures =
      ways (seq first (seq second third)) text captures :=
  List.flatMap_assoc

/-- An optional part is tried first, and left out then. -/
theorem ways_optional_seq :
    ways (seq (optional first) second) text captures =
      ways (seq first second) text captures ++ ways second text captures := by
  simp only [ways, List.flatMap_append, List.flatMap_cons, List.flatMap_nil, List.append_nil]

theorem ways_chars_seq_cons (c : α) (rest : List α) :
    ways (seq (chars class_) second) (c :: rest) captures =
      if class_ c then ways second rest captures else [] := by
  simp only [ways]
  split
  next => simp only [List.flatMap_cons, List.flatMap_nil, List.append_nil]
  next => rfl

/-! ## Repetitions -/

/-- The longest match of a repetition is tried first; the others leave a character of the
class. -/
theorem manyRests_cases (class_ : α → Bool) (text : List α) :
    (text.takeWhile class_ = [] ∧ manyRests class_ text = []) ∨
      text.takeWhile class_ ≠ [] ∧ ∃ shorter,
        manyRests class_ text = text.dropWhile class_ :: shorter ∧
          ∀ rest ∈ shorter, ∃ c more, rest = c :: more ∧ class_ c = true := by
  induction text with
  | nil => exact .inl ⟨rfl, rfl⟩
  | cons c rest ih =>
      by_cases is : class_ c = true
      · right
        rw [List.takeWhile_cons_of_pos is, List.dropWhile_cons_of_pos is, manyRests, if_pos is]
        refine ⟨List.cons_ne_nil _ _, ?_⟩
        rcases ih with ⟨none_, empty⟩ | ⟨some_, shorter, shape, others⟩
        · refine ⟨[], ?_, nofun⟩
          rw [empty, List.nil_append]
          have same := List.takeWhile_append_dropWhile (p := class_) (l := rest)
          rw [none_, List.nil_append] at same
          rw [same]
        · refine ⟨shorter ++ [rest], by rw [shape]; rfl, ?_⟩
          intro other mem
          rcases List.mem_append.mp mem with mem | last
          · exact others other mem
          · obtain rfl := List.mem_singleton.mp last
            cases other with
            | nil => exact absurd rfl some_
            | cons c more =>
                refine ⟨c, more, rfl, ?_⟩
                by_contra no
                exact some_ (List.takeWhile_cons_of_neg no)
      · exact .inl ⟨List.takeWhile_cons_of_neg is, if_neg is⟩

/-- What a group around the longest match of a repetition captures. -/
theorem take_takeWhile (class_ : α → Bool) (text : List α) :
    text.take (text.length - (text.dropWhile class_).length) = text.takeWhile class_ := by
  have general : ∀ first second : List α,
      (first ++ second).take ((first ++ second).length - second.length) = first := by
    intro first second
    rw [List.length_append, Nat.add_sub_cancel, List.take_left]
  have taken := general (text.takeWhile class_) (text.dropWhile class_)
  rwa [List.takeWhile_append_dropWhile] at taken

/-- **A captured repetition whose continuation cannot begin in its class** takes all of the
class there is. -/
theorem ways_many_seq (stops : ∀ c rest captures, class_ c = true →
      ways second (c :: rest) captures = []) :
    ways (seq (group number (many class_)) second) text captures =
      if text.takeWhile class_ = [] then []
      else ways second (text.dropWhile class_) (captures.set number (text.takeWhile class_)) := by
  rw [ways, ways, ways]
  rcases manyRests_cases class_ text with ⟨none_, empty⟩ | ⟨some_, shorter, shape, others⟩
  · rw [if_pos none_, empty]
    rfl
  · have lost : (shorter.map fun rest => (⟨captures.set number
        (text.take (text.length - rest.length)), rest⟩ : Way α)).flatMap
          (fun way => ways second way.rest way.captures) = [] := by
      rw [List.flatMap_map, List.flatMap_eq_nil_iff]
      intro rest mem
      obtain ⟨c, more, rfl, is⟩ := others rest mem
      exact stops c more _ is
    rw [if_neg some_, shape, List.map_map, List.map_cons, List.flatMap_cons, ← take_takeWhile]
    exact (congrArg _ lost).trans (List.append_nil _)

/-- A captured repetition takes all of the class first. -/
theorem head?_ways_many :
    (ways (group number (many class_)) text captures).head? =
      if text.takeWhile class_ = [] then none
      else some ⟨captures.set number (text.takeWhile class_), text.dropWhile class_⟩ := by
  rw [ways, ways]
  rcases manyRests_cases class_ text with ⟨none_, empty⟩ | ⟨some_, shorter, shape, -⟩
  · rw [if_pos none_, empty]
    rfl
  · rw [if_neg some_, shape, ← take_takeWhile]
    rfl

end Regex

end Cccp

import Cccp.Lib.OsPath

/-!
# Lossy text

`String::from_utf8_lossy`: what is not UTF-8 becomes the replacement character, one for
each maximal piece of an encoding that breaks off.  ASCII bytes stay, and the text of a
path is the text of its names (`toStringLossy_intercalate`).
-/

namespace Cccp

/-- The ranges of the bytes that continue an encoding with this first byte; `none` for a
byte that begins none. -/
def continuations (first : UInt8) : Option (List (UInt8 × UInt8)) :=
  if first < 0x80 then some []
  else if first < 0xC2 then none
  else if first < 0xE0 then some [(0x80, 0xBF)]
  else if first = 0xE0 then some [(0xA0, 0xBF), (0x80, 0xBF)]
  else if first = 0xED then some [(0x80, 0x9F), (0x80, 0xBF)]
  else if first < 0xF0 then some [(0x80, 0xBF), (0x80, 0xBF)]
  else if first = 0xF0 then some [(0x90, 0xBF), (0x80, 0xBF), (0x80, 0xBF)]
  else if first < 0xF4 then some [(0x80, 0xBF), (0x80, 0xBF), (0x80, 0xBF)]
  else if first = 0xF4 then some [(0x80, 0x8F), (0x80, 0xBF), (0x80, 0xBF)]
  else none

/-- How many of the next bytes are in their ranges. -/
def matching : List (UInt8 × UInt8) → Bytes → Nat
  | (low, high) :: ranges, byte :: rest =>
      if low ≤ byte ∧ byte ≤ high then matching ranges rest + 1 else 0
  | _, _ => 0

/-- The encoding of U+FFFD. -/
def replacement : Bytes := [0xEF, 0xBF, 0xBD]

/-- The text of the bytes, with fuel for each of them. -/
def lossyFrom : Nat → Bytes → Bytes
  | fuel + 1, first :: rest =>
      match continuations first with
      | none => replacement ++ lossyFrom fuel rest
      | some ranges =>
          let count := matching ranges rest
          (if count = ranges.length then first :: rest.take count else replacement) ++
            lossyFrom fuel (rest.drop count)
  | _, _ => []

/-- `String::from_utf8_lossy`. -/
def toStringLossy (bytes : Bytes) : Bytes :=
  lossyFrom bytes.length bytes

variable {fuel : Nat} {byte : UInt8} {bytes before after : Bytes} {ranges : List (UInt8 × UInt8)}

/-- ASCII bytes continue no encoding. -/
theorem continuations_high {first : UInt8} (found : continuations first = some ranges) :
    ∀ range ∈ ranges, 0x80 ≤ range.1 := by
  have all : ranges.all (fun range => decide (0x80 ≤ range.1)) = true := by
    unfold continuations at found
    repeat' split at found
    all_goals cases found
    all_goals decide
  exact fun range mem => of_decide_eq_true (List.all_eq_true.mp all range mem)

theorem continuations_of_ascii (ascii : byte < 0x80) : continuations byte = some [] :=
  if_pos ascii

theorem matching_le : matching ranges bytes ≤ bytes.length := by
  fun_induction matching ranges bytes with
  | case1 low high ranges byte rest inside ih => exact Nat.succ_le_succ ih
  | case2 | case3 => exact Nat.zero_le _

/-- An ASCII byte ends what matches. -/
theorem matching_append (high : ∀ range ∈ ranges, 0x80 ≤ range.1) (ascii : byte < 0x80) :
    matching ranges (before ++ byte :: after) = matching ranges before := by
  induction before generalizing ranges with
  | nil =>
      cases ranges with
      | nil => rfl
      | cons range ranges =>
          have outside : ¬ (range.1 ≤ byte ∧ byte ≤ range.2) := by
            rintro ⟨low, -⟩
            have above := UInt8.le_trans (high range List.mem_cons_self) low
            exact UInt8.lt_irrefl _ (UInt8.lt_of_lt_of_le ascii above)
          exact if_neg outside
  | cons first before ih =>
      cases ranges with
      | nil => rfl
      | cons range ranges =>
          rw [List.cons_append, matching, matching,
            ih fun other mem => high other (List.mem_cons_of_mem _ mem)]

/-- More fuel than bytes makes no difference. -/
theorem lossyFrom_fuel (enough : bytes.length ≤ fuel) :
    lossyFrom fuel bytes = toStringLossy bytes := by
  have general : ∀ fuel fuel' (bytes : Bytes), bytes.length ≤ fuel → bytes.length ≤ fuel' →
      lossyFrom fuel bytes = lossyFrom fuel' bytes := by
    intro fuel
    induction fuel with
    | zero =>
        intro fuel' bytes none_ _
        obtain rfl := List.length_eq_zero_iff.mp (Nat.le_zero.mp none_)
        cases fuel' <;> rfl
    | succ fuel ih =>
        intro fuel' bytes enough enough'
        cases bytes with
        | nil => cases fuel' <;> rfl
        | cons first rest =>
            cases fuel' with
            | zero => cases enough'
            | succ fuel' =>
                have less : ∀ count, (rest.drop count).length ≤ rest.length := fun count => by
                  rw [List.length_drop]
                  exact Nat.sub_le _ _
                have enough := Nat.le_of_succ_le_succ enough
                have enough' := Nat.le_of_succ_le_succ enough'
                simp only [lossyFrom]
                split
                next => rw [ih fuel' rest enough enough']
                next ranges _ =>
                  rw [ih fuel' _ (Nat.le_trans (less _) enough) (Nat.le_trans (less _) enough')]
  exact general _ _ _ enough (Nat.le_refl _)

theorem toStringLossy_cons_of_ascii (ascii : byte < 0x80) :
    toStringLossy (byte :: bytes) = byte :: toStringLossy bytes := by
  rw [toStringLossy, List.length_cons, lossyFrom, continuations_of_ascii ascii]
  have none_ : matching [] bytes = 0 := by
    cases bytes <;> rfl
  simp only [none_]
  rfl

/-- **The text falls apart at every ASCII byte.** -/
theorem toStringLossy_append_cons (ascii : byte < 0x80) :
    toStringLossy (before ++ byte :: after) = toStringLossy before ++ byte :: toStringLossy after := by
  have general : ∀ fuel (before : Bytes), before.length ≤ fuel →
      lossyFrom (fuel + (after.length + 1)) (before ++ byte :: after) =
        lossyFrom fuel before ++ byte :: toStringLossy after := by
    intro fuel
    induction fuel with
    | zero =>
        intro before none_
        obtain rfl := List.length_eq_zero_iff.mp (Nat.le_zero.mp none_)
        rw [List.nil_append, lossyFrom_fuel (by rw [List.length_cons]; omega),
          toStringLossy_cons_of_ascii ascii]
        rfl
    | succ fuel ih =>
        intro before enough
        cases before with
        | nil =>
            rw [List.nil_append, lossyFrom_fuel (by rw [List.length_cons]; omega),
              toStringLossy_cons_of_ascii ascii]
            rfl
        | cons first rest =>
            have enough := Nat.le_of_succ_le_succ enough
            rw [Nat.add_right_comm, List.cons_append, lossyFrom, lossyFrom]
            cases found : continuations first with
            | none =>
                simp only
                rw [ih rest enough, List.append_assoc]
            | some ranges =>
                have count_le := @matching_le rest ranges
                have less : (rest.drop (matching ranges rest)).length ≤ fuel := by
                  rw [List.length_drop]
                  omega
                simp only
                rw [matching_append (continuations_high found) ascii,
                  List.drop_append_of_le_length count_le, List.take_append_of_le_length count_le,
                  ih _ less, List.append_assoc]
  have joined := general before.length before (Nat.le_refl _)
  rw [lossyFrom_fuel (by simp), lossyFrom_fuel (Nat.le_refl _)] at joined
  exact joined

/-! ## Names -/

/-- A byte of the text is a byte of the input, or it is not ASCII. -/
theorem mem_toStringLossy (mem : byte ∈ toStringLossy bytes) : byte ∈ bytes ∨ 0x80 ≤ byte := by
  have general : ∀ fuel (bytes : Bytes), byte ∈ lossyFrom fuel bytes →
      byte ∈ bytes ∨ 0x80 ≤ byte := by
    have replaced : byte ∈ replacement → 0x80 ≤ byte := by
      intro mem
      simp only [replacement, List.mem_cons, List.not_mem_nil, or_false] at mem
      rcases mem with rfl | rfl | rfl <;> decide
    intro fuel bytes
    fun_induction lossyFrom fuel bytes with
    | case1 fuel first rest none_ ih =>
        intro mem
        rcases List.mem_append.mp mem with mem | mem
        · exact .inr (replaced mem)
        · exact (ih mem).imp_left (List.mem_cons_of_mem _)
    | case2 fuel first rest ranges found count ih =>
        intro mem
        rcases List.mem_append.mp mem with mem | mem
        · split at mem
          next =>
            refine .inl ?_
            rcases List.mem_cons.mp mem with rfl | mem
            · exact List.mem_cons_self
            · exact List.mem_cons_of_mem _ (List.mem_of_mem_take mem)
          next => exact .inr (replaced mem)
        · exact (ih mem).imp_left fun mem => List.mem_cons_of_mem _ (List.mem_of_mem_drop mem)
    | case3 =>
        intro mem
        cases mem
  exact general _ _ mem

/-- Text that is ASCII throughout is the input. -/
theorem eq_of_toStringLossy_ascii (ascii : ∀ byte ∈ toStringLossy bytes, byte < 0x80) :
    toStringLossy bytes = bytes := by
  have high : ∀ {rest : Bytes}, ¬ ∀ byte ∈ replacement ++ rest, byte < 0x80 := by
    intro rest ascii
    exact absurd (ascii 0xEF (List.mem_append_left _ List.mem_cons_self)) (by decide)
  induction bytes with
  | nil => rfl
  | cons first rest ih =>
      by_cases low : first < 0x80
      · rw [toStringLossy_cons_of_ascii low] at ascii ⊢
        rw [ih fun byte mem => ascii byte (List.mem_cons_of_mem _ mem)]
      · exfalso
        rw [toStringLossy, List.length_cons, lossyFrom] at ascii
        split at ascii
        next => exact high ascii
        next =>
          dsimp only at ascii
          split at ascii
          next => exact low (ascii first List.mem_cons_self)
          next => exact high ascii

theorem toStringLossy_ne_nil (nonempty : bytes ≠ []) : toStringLossy bytes ≠ [] := by
  intro empty
  have same : Cccp.toStringLossy bytes = bytes :=
    eq_of_toStringLossy_ascii (by rw [empty]; rintro _ ⟨⟩)
  exact nonempty (same.symm.trans empty)

/-- The text of a name is a name. -/
theorem IsName.toStringLossy (is_name : IsName bytes) : IsName (toStringLossy bytes) where
  nonempty := toStringLossy_ne_nil is_name.nonempty
  plain mem := (mem_toStringLossy mem).elim is_name.plain (by decide)
  not_dot same := by
    have ascii : Cccp.toStringLossy bytes = bytes := by
      apply eq_of_toStringLossy_ascii
      rw [same]
      exact List.forall_mem_singleton.mpr (by decide)
    exact is_name.not_dot (ascii.symm.trans same)
  not_dotdot same := by
    have ascii : Cccp.toStringLossy bytes = bytes := by
      apply eq_of_toStringLossy_ascii
      rw [same]
      exact List.forall_mem_cons.mpr ⟨by decide, List.forall_mem_singleton.mpr (by decide)⟩
    exact is_name.not_dotdot (ascii.symm.trans same)

/-- The text of a path is the text of its names. -/
theorem toStringLossy_intercalate (names : List Bytes) :
    toStringLossy ([OsPath.separator].intercalate names) =
      [OsPath.separator].intercalate (names.map Cccp.toStringLossy) := by
  induction names with
  | nil => rfl
  | cons name names ih =>
      cases names with
      | nil => simp [List.intercalate]
      | cons next names =>
          have step : ∀ (a b : Bytes) (more : List Bytes),
              [OsPath.separator].intercalate (a :: b :: more) =
                a ++ OsPath.separator :: [OsPath.separator].intercalate (b :: more) := by
            intro a b more
            simp [List.intercalate]
          rw [step, toStringLossy_append_cons (by decide), ih]
          exact (step _ _ _).symm

end Cccp

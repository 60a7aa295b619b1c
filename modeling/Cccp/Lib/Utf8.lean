import Cccp.Lib.Lossy
import Mathlib.Data.List.Forall2

/-!
# Text that stays as it is

`continuations` describes the encodings of characters: `inside_encodeChar` and `exists_char`
are the two directions of that.  `toStringLossy_eq_iff`: the text of bytes is the bytes
themselves exactly if they are UTF-8.
-/

namespace Cccp

/-! ## Encodings -/

theorem toNat_continuations (first : UInt8) : continuations first =
  if first.toNat < 0x80 then some []
  else if first.toNat < 0xC2 then none
  else if first.toNat < 0xE0 then some [(0x80, 0xBF)]
  else if first.toNat = 0xE0 then some [(0xA0, 0xBF), (0x80, 0xBF)]
  else if first.toNat = 0xED then some [(0x80, 0x9F), (0x80, 0xBF)]
  else if first.toNat < 0xF0 then some [(0x80, 0xBF), (0x80, 0xBF)]
  else if first.toNat = 0xF0 then some [(0x90, 0xBF), (0x80, 0xBF), (0x80, 0xBF)]
  else if first.toNat < 0xF4 then some [(0x80, 0xBF), (0x80, 0xBF), (0x80, 0xBF)]
  else if first.toNat = 0xF4 then some [(0x80, 0x8F), (0x80, 0xBF), (0x80, 0xBF)]
  else none := by
  simp only [continuations, UInt8.lt_iff_toNat_lt, ← UInt8.toNat_inj]
  rfl

variable {first : UInt8} {rest : Bytes} {ranges : List (UInt8 × UInt8)}

theorem continuations_one (ascii : first.toNat < 0x80) : continuations first = some [] := by
  rw [toNat_continuations, if_pos ascii]

theorem continuations_two (lead : 0xC2 ≤ first.toNat) (below : first.toNat < 0xE0) :
    continuations first = some [(0x80, 0xBF)] := by
  rw [toNat_continuations, if_neg (by omega), if_neg (by omega), if_pos below]

/-- The second of three bytes is restricted where two would do, and where the value would be a
surrogate. -/
theorem continuations_three (lead : 0xE0 ≤ first.toNat) (below : first.toNat < 0xF0) :
    continuations first = some [(if first.toNat = 0xE0 then 0xA0 else 0x80,
      if first.toNat = 0xED then 0x9F else 0xBF), (0x80, 0xBF)] := by
  rw [toNat_continuations, if_neg (by omega), if_neg (by omega), if_neg (by omega)]
  split
  next e0 => rw [if_neg (by omega)]
  next =>
    split
    next => rfl
    next => rfl

/-- The second of four bytes is restricted where three would do, and where the value would be
too large. -/
theorem continuations_four (lead : 0xF0 ≤ first.toNat) (below : first.toNat < 0xF5) :
    continuations first = some [(if first.toNat = 0xF0 then 0x90 else 0x80,
      if first.toNat = 0xF4 then 0x8F else 0xBF), (0x80, 0xBF), (0x80, 0xBF)] := by
  rw [toNat_continuations, if_neg (by omega), if_neg (by omega), if_neg (by omega),
    if_neg (by omega), if_neg (by omega), if_neg (by omega)]
  split
  next f0 => rw [if_neg (by omega)]
  next =>
    split
    next => rw [if_neg (by omega)]
    next => rw [if_pos (by omega), if_pos (by omega)]

/-- What begins an encoding begins one of this many bytes. -/
theorem lead_cases (found : continuations first = some ranges) :
    first.toNat < 0x80 ∨ (0xC2 ≤ first.toNat ∧ first.toNat < 0xE0) ∨
      (0xE0 ≤ first.toNat ∧ first.toNat < 0xF0) ∨ 0xF0 ≤ first.toNat ∧ first.toNat < 0xF5 := by
  rw [toNat_continuations] at found
  repeat' split at found
  all_goals cases found
  all_goals omega

/-- The bytes are in the ranges, one in each. -/
abbrev Inside : List (UInt8 × UInt8) → Bytes → Prop :=
  List.Forall₂ fun range byte => range.1 ≤ byte ∧ byte ≤ range.2

theorem toNat_ofNat_of_lt {n : Nat} (small : n < 256) : (UInt8.ofNat n).toNat = n := by
  rw [UInt8.toNat_ofNat', Nat.mod_eq_of_lt small]

theorem ofNat_le_ofNat (n m : Nat) (le : n ≤ m) (small : m < 256) :
    UInt8.ofNat n ≤ UInt8.ofNat m := by
  rw [UInt8.le_iff_toNat_le, toNat_ofNat_of_lt (by omega), toNat_ofNat_of_lt small]
  exact le

theorem continuing (n : Nat) :
    0x80 ≤ UInt8.ofNat (n % 64 + 128) ∧ UInt8.ofNat (n % 64 + 128) ≤ 0xBF :=
  ⟨ofNat_le_ofNat 0x80 _ (by omega) (by omega), ofNat_le_ofNat _ 0xBF (by omega) (by omega)⟩

/-- A byte in the range of those that continue an encoding, or in a smaller one. -/
theorem restricted {p q : Prop} [Decidable p] [Decidable q] {low high byte : UInt8}
    (above : p → low ≤ byte) (below : q → byte ≤ high) (inside : 0x80 ≤ byte ∧ byte ≤ 0xBF) :
    (if p then low else 0x80) ≤ byte ∧ byte ≤ if q then high else 0xBF := by
  constructor
  · split
    next restricts => exact above restricts
    next => exact inside.1
  · split
    next restricts => exact below restricts
    next => exact inside.2

/-- The encoding of a character is a byte that begins one, and bytes that continue it. -/
theorem inside_encodeChar (c : Char) : ∃ first rest ranges,
    String.utf8EncodeChar c = first :: rest ∧ continuations first = some ranges ∧
      Inside ranges rest := by
  have valid : c.val.toNat < 0xD800 ∨ 0xDFFF < c.val.toNat ∧ c.val.toNat < 0x110000 := c.valid
  fun_cases String.utf8EncodeChar c with
  | case1 v small =>
      have lead := @toNat_ofNat_of_lt v (by omega)
      exact ⟨_, _, _, rfl, continuations_one (by omega), .nil⟩
  | case2 v _ small =>
      have lead := @toNat_ofNat_of_lt (v / 64 % 32 + 192) (by omega)
      refine ⟨_, _, _, rfl, continuations_two (by omega) (by omega), .cons ?_ .nil⟩
      exact continuing v
  | case3 v _ _ small =>
      have lead := @toNat_ofNat_of_lt (v / 4096 % 16 + 224) (by omega)
      refine ⟨_, _, _, rfl, continuations_three (by omega) (by omega),
        .cons (restricted ?_ ?_ (continuing (v / 64))) (.cons (continuing v) .nil)⟩
      · exact fun e0 => ofNat_le_ofNat 0xA0 _ (by omega) (by omega)
      · exact fun ed => ofNat_le_ofNat _ 0x9F (by omega) (by omega)
  | case4 v _ _ large =>
      have lead := @toNat_ofNat_of_lt (v / 262144 % 8 + 240) (by omega)
      refine ⟨_, _, _, rfl, continuations_four (by omega) (by omega),
        .cons (restricted ?_ ?_ (continuing (v / 4096)))
          (.cons (continuing (v / 64)) (.cons (continuing v) .nil))⟩
      · exact fun f0 => ofNat_le_ofNat 0x90 _ (by omega) (by omega)
      · exact fun f4 => ofNat_le_ofNat _ 0x8F (by omega) (by omega)

/-- A Unicode scalar value is that of a character, which is encoded by size. -/
theorem encodeChar_of_scalar {v : Nat} (valid : v < 0xD800 ∨ 0xDFFF < v ∧ v < 0x110000) :
    ∃ c : Char, String.utf8EncodeChar c =
      if v ≤ 0x7f then [UInt8.ofNat v]
      else if v ≤ 0x7ff then [UInt8.ofNat (v / 64 % 32 + 0xc0), UInt8.ofNat (v % 64 + 0x80)]
      else if v ≤ 0xffff then
        [UInt8.ofNat (v / 4096 % 16 + 0xe0), UInt8.ofNat (v / 64 % 64 + 0x80),
          UInt8.ofNat (v % 64 + 0x80)]
      else
        [UInt8.ofNat (v / 262144 % 8 + 0xf0), UInt8.ofNat (v / 4096 % 64 + 0x80),
          UInt8.ofNat (v / 64 % 64 + 0x80), UInt8.ofNat (v % 64 + 0x80)] := by
  have value : (Char.ofNat v).val.toNat = v := by
    rw [Char.ofNat, dif_pos valid]
    rfl
  refine ⟨Char.ofNat v, ?_⟩
  rw [String.utf8EncodeChar, value]

theorem ofNat_eq {n : Nat} {byte : UInt8} (same : n = byte.toNat) : UInt8.ofNat n = byte := by
  rw [same, UInt8.ofNat_toNat]

/-- A byte that goes on with an encoding. -/
def Continues (byte : UInt8) : Prop := 0x80 ≤ byte.toNat ∧ byte.toNat ≤ 0xBF

/-- A restricted second byte is one that goes on. -/
theorem second_of_restricted {p q : Prop} [Decidable p] [Decidable q] {low high byte : UInt8}
    (inner : 0x80 ≤ low) (inner' : high ≤ 0xBF) (above : (if p then low else 0x80) ≤ byte)
    (below : byte ≤ if q then high else 0xBF) : Continues byte := by
  constructor
  · split at above
    next => exact UInt8.le_trans inner above
    next => exact above
  · split at below
    next => exact UInt8.le_trans below inner'
    next => exact below

variable {a b c d : UInt8}

theorem exists_char_two (lead : 0xC2 ≤ a.toNat) (below : a.toNat < 0xE0) (second : Continues b) :
    ∃ char, String.utf8EncodeChar char = [a, b] := by
  obtain ⟨low, high⟩ := second
  obtain ⟨char, same⟩ := @encodeChar_of_scalar ((a.toNat - 0xC0) * 64 + (b.toNat - 0x80)) (by omega)
  refine ⟨char, same.trans ?_⟩
  rw [if_neg (by omega), if_pos (by omega), @ofNat_eq _ a (by omega), @ofNat_eq _ b (by omega)]

theorem exists_char_three (lead : 0xE0 ≤ a.toNat) (below : a.toNat < 0xF0) (second : Continues b)
    (third : Continues c) (long : a.toNat = 0xE0 → 0xA0 ≤ b.toNat)
    (scalar : a.toNat = 0xED → b.toNat ≤ 0x9F) :
    ∃ char, String.utf8EncodeChar char = [a, b, c] := by
  obtain ⟨low, high⟩ := second
  obtain ⟨low', high'⟩ := third
  obtain ⟨char, same⟩ := @encodeChar_of_scalar
    ((a.toNat - 0xE0) * 4096 + (b.toNat - 0x80) * 64 + (c.toNat - 0x80)) (by omega)
  refine ⟨char, same.trans ?_⟩
  rw [if_neg (by omega), if_neg (by omega), if_pos (by omega), @ofNat_eq _ a (by omega),
    @ofNat_eq _ b (by omega), @ofNat_eq _ c (by omega)]

theorem exists_char_four (lead : 0xF0 ≤ a.toNat) (below : a.toNat < 0xF5) (second : Continues b)
    (third : Continues c) (fourth : Continues d) (long : a.toNat = 0xF0 → 0x90 ≤ b.toNat)
    (scalar : a.toNat = 0xF4 → b.toNat ≤ 0x8F) :
    ∃ char, String.utf8EncodeChar char = [a, b, c, d] := by
  obtain ⟨low, high⟩ := second
  obtain ⟨low', high'⟩ := third
  obtain ⟨low'', high''⟩ := fourth
  obtain ⟨char, same⟩ := @encodeChar_of_scalar ((a.toNat - 0xF0) * 262144 +
    (b.toNat - 0x80) * 4096 + (c.toNat - 0x80) * 64 + (d.toNat - 0x80)) (by omega)
  refine ⟨char, same.trans ?_⟩
  rw [if_neg (by omega), if_neg (by omega), if_neg (by omega), @ofNat_eq _ a (by omega),
    @ofNat_eq _ b (by omega), @ofNat_eq _ c (by omega), @ofNat_eq _ d (by omega)]

/-- Bytes in their ranges are the encoding of a character. -/
theorem exists_char (found : continuations first = some ranges) (inside : Inside ranges rest) :
    ∃ char, String.utf8EncodeChar char = first :: rest := by
  rcases lead_cases found with one | ⟨lead, below⟩ | ⟨lead, below⟩ | ⟨lead, below⟩
  · rw [continuations_one one] at found
    cases found
    cases inside
    obtain ⟨char, same⟩ := @encodeChar_of_scalar first.toNat (by omega)
    rw [if_pos (by omega), UInt8.ofNat_toNat] at same
    exact ⟨char, same⟩
  · rw [continuations_two lead below] at found
    cases found
    rcases inside with _ | ⟨second, _ | _⟩
    exact exists_char_two lead below second
  · rw [continuations_three lead below] at found
    cases found
    rcases inside with _ | ⟨⟨low, high⟩, _ | ⟨third, _ | _⟩⟩
    have second := second_of_restricted (by decide) (by decide) low high
    apply exists_char_three lead below second third
    · intro e0
      rw [if_pos e0] at low
      exact low
    · intro ed
      rw [if_pos ed] at high
      exact high
  · rw [continuations_four lead below] at found
    cases found
    rcases inside with _ | ⟨⟨low, high⟩, _ | ⟨third, _ | ⟨fourth, _ | _⟩⟩⟩
    have second := second_of_restricted (by decide) (by decide) low high
    apply exists_char_four lead below second third fourth
    · intro f0
      rw [if_pos f0] at low
      exact low
    · intro f4
      rw [if_pos f4] at high
      exact high

/-! ## Lossy text -/

variable {fuel : Nat} {bytes : Bytes}

theorem matching_of_inside (inside : Inside ranges bytes) :
    matching ranges (bytes ++ rest) = ranges.length := by
  induction inside with
  | nil => exact matching.eq_def [] rest
  | @cons range byte ranges bytes here _ ih =>
      rw [List.cons_append, matching, if_pos here, ih, List.length_cons]

theorem inside_of_matching (all : matching ranges bytes = ranges.length) :
    Inside ranges (bytes.take ranges.length) := by
  fun_induction matching ranges bytes with
  | case1 low high ranges byte rest here ih => exact .cons here (ih (Nat.succ.inj all))
  | case2 => cases all
  | case3 ranges bytes other =>
      cases ranges with
      | nil => exact .nil
      | cons range ranges => cases all

/-- The encoding of a character stays. -/
theorem toStringLossy_encodeChar_append (char : Char) :
    toStringLossy (String.utf8EncodeChar char ++ rest) =
      String.utf8EncodeChar char ++ toStringLossy rest := by
  obtain ⟨first, conts, ranges, encoded, found, inside⟩ := inside_encodeChar char
  have count : matching ranges (conts ++ rest) = ranges.length := matching_of_inside inside
  have length : ranges.length = conts.length := inside.length_eq
  rw [encoded, List.cons_append, toStringLossy, List.length_cons, lossyFrom, found]
  simp only [count, if_true]
  rw [length, List.take_left, List.drop_left, lossyFrom_fuel]
  rw [List.length_append]
  exact Nat.le_add_left _ _

theorem toStringLossy_of_isUtf8 (text : isUtf8 bytes = true) : toStringLossy bytes = bytes := by
  obtain ⟨chars, rfl⟩ := isUtf8_iff.mp text
  induction chars with
  | nil => rfl
  | cons char chars ih =>
      rw [List.flatMap_cons, toStringLossy_encodeChar_append, ih (isUtf8_iff.mpr ⟨chars, rfl⟩)]

/-- What is replaced does not stay: the replacement character is not broken off. -/
theorem isUtf8_of_lossyFrom (enough : bytes.length ≤ fuel) (same : lossyFrom fuel bytes = bytes) :
    isUtf8 bytes = true := by
  fun_induction lossyFrom fuel bytes with
  | case1 fuel first rest none_ ih =>
      obtain ⟨rfl, -⟩ := List.cons.inj same
      cases none_
  | case2 fuel first rest ranges found count ih =>
      split at same
      next all =>
        obtain ⟨-, same⟩ := List.cons.inj same
        have parts := List.take_append_drop count rest
        have kept := List.append_cancel_left (same.trans parts.symm)
        have fewer : (rest.drop count).length ≤ fuel := by
          rw [List.length_cons] at enough
          rw [List.length_drop]
          omega
        have tail := ih fewer kept
        obtain ⟨char, encoded⟩ := exists_char found (all ▸ inside_of_matching all)
        have head : isUtf8 (first :: rest.take count) = true :=
          isUtf8_iff.mpr ⟨[char], by rw [List.flatMap_singleton, encoded]⟩
        have whole := isUtf8_append head tail
        rwa [List.cons_append, parts] at whole
      next broken =>
        obtain ⟨rfl, behind⟩ := List.cons.inj same
        cases found
        refine absurd ?_ broken
        change matching _ rest = 2
        rw [← behind]
        rfl
  | case3 fuel bytes other =>
      exact isUtf8_iff.mpr ⟨[], same.symm⟩

/-- **The text of bytes is the bytes themselves** exactly if they are UTF-8. -/
theorem toStringLossy_eq_iff : toStringLossy bytes = bytes ↔ isUtf8 bytes = true :=
  ⟨isUtf8_of_lossyFrom (Nat.le_refl _), toStringLossy_of_isUtf8⟩

end Cccp

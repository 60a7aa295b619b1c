import Cccp.Lib.Bytes

/-!
# Base64

The standard alphabet without padding.  Three bytes are four digits; one or two bytes at the
end are two or three digits, the last of which ends in zeros.

`decode_encode` is the round trip, and `mem_encode` the alphabet.
-/

namespace Cccp

namespace Base64

/-! ## Symbols -/

def symbol (digit : Nat) : Char :=
  if digit < 26 then Char.ofNat (65 + digit)
  else if digit < 52 then Char.ofNat (71 + digit)
  else if digit < 62 then Char.ofNat (digit - 4)
  else if digit = 62 then '+'
  else '/'

def value (c : Char) : Option Nat :=
  if c.isUpper then some (c.toNat - 65)
  else if c.isLower then some (c.toNat - 71)
  else if c.isDigit then some (c.toNat + 4)
  else if c = '+' then some 62
  else if c = '/' then some 63
  else none

theorem symbol_spec {digit : Nat} (small : digit < 64) : value (symbol digit) = some digit ∧
    ((symbol digit).isAlphanum = true ∨ symbol digit = '+' ∨ symbol digit = '/') := by
  have all : (List.range 64).all (fun digit => decide (value (symbol digit) = some digit ∧
      ((symbol digit).isAlphanum = true ∨ symbol digit = '+' ∨ symbol digit = '/'))) = true := by
    decide
  exact of_decide_eq_true (List.all_eq_true.mp all digit (List.mem_range.mpr small))

theorem mapM_value {digits : List Nat} (small : ∀ digit ∈ digits, digit < 64) :
    (digits.map symbol).mapM value = some digits := by
  induction digits with
  | nil => rfl
  | cons digit digits ih =>
      rw [List.map_cons, List.mapM_cons, (symbol_spec (small digit List.mem_cons_self)).1,
        ih fun other mem => small other (List.mem_cons_of_mem _ mem)]
      rfl

/-! ## Groups of three bytes -/

def digits : Bytes → List Nat
  | a :: b :: c :: rest =>
      a.toNat / 4 :: (a.toNat % 4 * 16 + b.toNat / 16) :: (b.toNat % 16 * 4 + c.toNat / 64) ::
        c.toNat % 64 :: digits rest
  | [a, b] => [a.toNat / 4, a.toNat % 4 * 16 + b.toNat / 16, b.toNat % 16 * 4]
  | [a] => [a.toNat / 4, a.toNat % 4 * 16]
  | [] => []

/-- The bytes of some digits; one digit too many, or bits that are left over, are an error. -/
def undigits : List Nat → Option Bytes
  | p :: q :: r :: s :: rest =>
      (undigits rest).map fun bytes => UInt8.ofNat (p * 4 + q / 16) ::
        UInt8.ofNat (q % 16 * 16 + r / 4) :: UInt8.ofNat (r % 4 * 64 + s) :: bytes
  | [p, q, r] =>
      if r % 4 = 0 then
        some [UInt8.ofNat (p * 4 + q / 16), UInt8.ofNat (q % 16 * 16 + r / 4)]
      else none
  | [p, q] => if q % 16 = 0 then some [UInt8.ofNat (p * 4 + q / 16)] else none
  | [_] => none
  | [] => some []

theorem ofNat_eq {n : Nat} (byte : UInt8) (same : n = byte.toNat) : UInt8.ofNat n = byte := by
  rw [same, UInt8.ofNat_toNat]

theorem undigits_digits (bytes : Bytes) : undigits (digits bytes) = some bytes := by
  induction bytes using digits.induct with
  | case1 a b c rest ih =>
      have ha := a.toNat_lt
      have hb := b.toNat_lt
      have hc := c.toNat_lt
      rw [digits, undigits, ih, Option.map_some, ofNat_eq a (by omega),
        ofNat_eq b (by omega), ofNat_eq c (by omega)]
  | case2 a b =>
      have ha := a.toNat_lt
      have hb := b.toNat_lt
      rw [digits, undigits, if_pos (by omega), ofNat_eq a (by omega),
        ofNat_eq b (by omega)]
  | case3 a =>
      have ha := a.toNat_lt
      rw [digits, undigits, if_pos (by omega), ofNat_eq a (by omega)]
  | case4 => rfl

theorem digits_lt (bytes : Bytes) : ∀ digit ∈ digits bytes, digit < 64 := by
  induction bytes using digits.induct with
  | case1 a b c rest ih =>
      have ha := a.toNat_lt
      have hb := b.toNat_lt
      have hc := c.toNat_lt
      simp only [digits, List.forall_mem_cons]
      exact ⟨by omega, by omega, by omega, by omega, ih⟩
  | case2 a b =>
      have ha := a.toNat_lt
      have hb := b.toNat_lt
      simp only [digits, List.forall_mem_cons]
      exact ⟨by omega, by omega, by omega, List.forall_mem_nil _⟩
  | case3 a =>
      have ha := a.toNat_lt
      simp only [digits, List.forall_mem_cons]
      exact ⟨by omega, by omega, List.forall_mem_nil _⟩
  | case4 => exact List.forall_mem_nil _

/-! ## Texts -/

def encode (bytes : Bytes) : List Char := (digits bytes).map symbol

def decode (text : List Char) : Option Bytes := (text.mapM value).bind undigits

/-- What is decoded is what was encoded. -/
theorem decode_encode (bytes : Bytes) : decode (encode bytes) = some bytes := by
  rw [decode, encode, mapM_value (digits_lt bytes), Option.bind_some, undigits_digits]

/-- The alphabet. -/
theorem mem_encode {bytes : Bytes} {c : Char} (mem : c ∈ encode bytes) :
    c.isAlphanum = true ∨ c = '+' ∨ c = '/' := by
  obtain ⟨digit, there, rfl⟩ := List.mem_map.mp mem
  exact (symbol_spec (digits_lt bytes digit there)).2

example : encode [102, 111, 111, 98] = "Zm9vYg".toList := by decide

end Base64

end Cccp

import Cccp.Lib.Base64
import Cccp.Options.Command
import Cccp.Sender.Manifest

/-!
# Keys as text

`Crypto::from_str` reads a cipher, and a key and an iv in base64 or drawn at random;
`Display` writes what the remote side reads again.  In between `next_iv` and `random_iv` may
replace the iv.

`crypto_round_trip`: whatever `from_str` returns and whatever becomes of its iv, key and iv have
the lengths of the cipher, nothing panics on them, and the text is read back as it was written.
-/

namespace Cccp

/-! ## Ciphers by number and by name -/

/-- `cipher as i32` -/
def Cipher.number : Cipher → Int32
  | none => 0
  | chacha8 => 1
  | aes128 => 2
  | aes192 => 3
  | chacha20 => 4
  | aes256 => 5

/-- `Cipher::from_str_name`, with the names of `items.proto`. -/
def Cipher.fromStrName (value : List Char) : Option Cipher :=
  if value = "NONE".toList then some none
  else if value = "CHACHA8".toList then some chacha8
  else if value = "AES128".toList then some aes128
  else if value = "AES192".toList then some aes192
  else if value = "CHACHA20".toList then some chacha20
  else if value = "AES256".toList then some aes256
  else Option.none

theorem Cipher.ofNumber_number (cipher : Cipher) : ofNumber cipher.number = some cipher := by
  cases cipher <;> rfl

theorem Cipher.fromStrName_display (cipher : Cipher) : fromStrName cipher.display = some cipher := by
  cases cipher <;> decide

/-- A name has no separator and nothing to put into upper case. -/
theorem Cipher.mem_display {cipher : Cipher} {c : Char} (mem : c ∈ cipher.display) :
    c ≠ ':' ∧ c.toNat < 128 ∧ c.toUpper = c := by
  have all : cipher.display.all
      (fun c => decide (c ≠ ':' ∧ c.toNat < 128 ∧ c.toUpper = c)) = true := by
    cases cipher <;> decide
  exact of_decide_eq_true (List.all_eq_true.mp all c mem)

/-! ## Reading and writing -/

/-- The texts of the crates and of the standard library: `STANDARD_NO_PAD` also decodes, and
`to_uppercase` is that of Unicode. -/
structure TextCrates (ε : Type) extends Formats where
  decode : List Char → Except ε Bytes
  toUppercase : List Char → List Char
  decode_base64 : ∀ bytes, decode (base64 bytes) = .ok bytes
  toUppercase_ascii : ∀ text, (∀ c ∈ text, c.toNat < 128) →
    toUppercase text = text.map Char.toUpper

/-- A source of bytes that fills any buffer. -/
structure Generator where
  fillBytes : Nat → Bytes
  length_fillBytes : ∀ len, (fillBytes len).length = len

/-- The errors of `Crypto::from_str`. -/
inductive CryptoError (ε : Type) where
  | decode (error : ε)
  | invalidCipher
  | invalidKey
  | invalidIv

namespace Crypto

variable {ε : Type} (crates : TextCrates ε)

/-- A key or iv: the capture if there is one, and `random_bytes` if not. -/
def decodeOr (capture : Option (List Char)) (drawn : Bytes) : Except (CryptoError ε) Bytes :=
  match capture with
  | none => .ok drawn
  | some text =>
      match crates.decode text with
      | .ok bytes => .ok bytes
      | .error error => .error (.decode error)

/-- `Crypto::from_str`, with what is drawn for an absent key and an absent iv. -/
def fromStr (keys ivs : Generator) (s : List Char) : Except (CryptoError ε) Crypto := do
  let captures := s.splitOn ':'
  -- there will always be at least one capture
  let cipherStr := crates.toUppercase (captures.headD [])
  match Cipher.fromStrName cipherStr with
  | none => .error .invalidCipher
  | some cipher =>
      let key ← decodeOr crates captures[1]? (keys.fillBytes cipher.keyLength)
      let iv ← decodeOr crates captures[2]? (ivs.fillBytes cipher.ivLength)
      if key.length ≠ cipher.keyLength then .error .invalidKey
      else if iv.length ≠ cipher.ivLength then .error .invalidIv
      else .ok ⟨cipher.number, key, iv⟩

/-- `Display`, which fails for an unknown cipher. -/
def display (formats : Formats) (crypto : Crypto) : Option (List Char) :=
  (Cipher.ofNumber crypto.cipher).map fun cipher =>
    cipher.display ++ ':' :: (formats.base64 crypto.key ++ ':' :: formats.base64 crypto.iv)

/-- What is displayed of a parsed `Crypto` on the command line. -/
theorem display_parsed (formats : Formats) (x : ParsedCrypto) :
    x.crypto.display formats = some (x.display formats) := by
  rw [display, Option.eq_some_of_isSome x.known]
  rfl

/-! ## New ivs -/

/-- `Crypto::next_iv`, with the generator `StdRng` makes of a seed; `none` if the slice for the
seed panics. -/
def nextIv (stdRng : UInt64 → Generator) (crypto : Crypto) : Option Crypto :=
  if crypto.cipher = Cipher.none.number then some crypto
  else if crypto.iv.length < 8 then none
  else
    let seed := UInt64.ofNat (Bytes.fromBE (crypto.iv.take 8))
    some { crypto with iv := (stdRng seed).fillBytes crypto.iv.length }

/-- What becomes of a `Crypto` by any number of `next_iv` and `random_iv`. -/
inductive Derived (stdRng : UInt64 → Generator) (first : Crypto) : Crypto → Prop
  | parsed : Derived stdRng first first
  | next {crypto crypto' : Crypto} (derived : Derived stdRng first crypto)
      (next : crypto.nextIv stdRng = some crypto') : Derived stdRng first crypto'
  | random {crypto : Crypto} (osRng : Generator) (derived : Derived stdRng first crypto) :
      Derived stdRng first (crypto.randomIv (osRng.fillBytes crypto.iv.length))

/-! ## Lengths -/

/-- The key and the iv have the lengths the cipher requires. -/
structure Fits (cipher : Cipher) (crypto : Crypto) : Prop where
  number : crypto.cipher = cipher.number
  key : crypto.key.length = cipher.keyLength
  iv : crypto.iv.length = cipher.ivLength

variable {crates} {stdRng : UInt64 → Generator} {cipher : Cipher} {crypto crypto' : Crypto}

theorem fits_of_fromStr {keys ivs : Generator} {s : List Char}
    (parsed : fromStr crates keys ivs s = .ok crypto) : ∃ cipher, crypto.Fits cipher := by
  unfold fromStr at parsed
  simp only at parsed
  split at parsed
  next => cases parsed
  next cipher _ =>
    cases key : decodeOr crates (s.splitOn ':')[1]? (keys.fillBytes cipher.keyLength) with
    | error _ =>
        rw [key] at parsed
        cases parsed
    | ok k =>
        cases iv : decodeOr crates (s.splitOn ':')[2]? (ivs.fillBytes cipher.ivLength) with
        | error _ =>
            rw [key, iv] at parsed
            cases parsed
        | ok v =>
            rw [key, iv] at parsed
            dsimp only [bind, Except.bind] at parsed
            split at parsed
            next => cases parsed
            next sameKey =>
              split at parsed
              next => cases parsed
              next sameIv =>
                cases parsed
                exact ⟨cipher, rfl, Decidable.not_not.mp sameKey, Decidable.not_not.mp sameIv⟩

theorem Fits.nextIv_eq (fits : crypto.Fits cipher) : crypto.nextIv stdRng = some
    (if cipher = .none then crypto
    else { crypto with
      iv := (stdRng (UInt64.ofNat (Bytes.fromBE (crypto.iv.take 8)))).fillBytes
        crypto.iv.length }) := by
  have long : cipher ≠ .none → 8 ≤ cipher.ivLength := by
    cases cipher <;> decide
  have number : cipher.number = Cipher.none.number ↔ cipher = .none := by
    cases cipher <;> decide
  unfold nextIv
  rw [fits.number, fits.iv]
  split
  next same => rw [if_pos (number.mp same)]
  next other =>
    have known := mt number.mpr other
    rw [if_neg (Nat.not_lt.mpr (long known)), if_neg known]

/-- A new iv is as long as the old one. -/
theorem Fits.replaceIv (fits : crypto.Fits cipher) (generator : Generator) :
    Fits cipher { crypto with iv := generator.fillBytes crypto.iv.length } :=
  ⟨fits.number, fits.key, (generator.length_fillBytes _).trans fits.iv⟩

theorem Fits.nextIv (fits : crypto.Fits cipher) (next : crypto.nextIv stdRng = some crypto') :
    crypto'.Fits cipher := by
  rw [fits.nextIv_eq] at next
  cases next
  split
  next => exact fits
  next => exact fits.replaceIv _

theorem Fits.randomIv (fits : crypto.Fits cipher) (osRng : Generator) :
    (crypto.randomIv (osRng.fillBytes crypto.iv.length)).Fits cipher := by
  unfold Crypto.randomIv
  split
  next => exact fits
  next => exact fits.replaceIv osRng

theorem Derived.fits {first : Crypto} (derived : Derived stdRng first crypto)
    (fits : first.Fits cipher) : crypto.Fits cipher := by
  induction derived with
  | parsed => exact fits
  | next _ next ih => exact ih.nextIv next
  | random osRng _ ih => exact ih.randomIv osRng

/-- The slices of `make_cipher` are in range. -/
theorem Fits.makeCipher (fits : crypto.Fits cipher) (cipherCrates : CipherCrates) :
    ∃ made, crypto.makeCipher cipherCrates = .made made := by
  unfold Crypto.makeCipher
  rw [fits.number, Cipher.ofNumber_number, fits.key, fits.iv]
  dsimp only
  rw [if_neg (by omega)]
  exact ⟨_, rfl⟩

/-! ## The round trip -/

/-- The segments of a text are its cipher, its key and its iv. -/
theorem splitOn_display (formats : Formats) (cipher : Cipher) (key iv : Bytes) :
    (cipher.display ++ ':' :: (formats.base64 key ++ ':' :: formats.base64 iv)).splitOn ':' =
      [cipher.display, formats.base64 key, formats.base64 iv] := by
  have base64 : ∀ bytes, ':' ∉ formats.base64 bytes := by
    intro bytes mem
    rcases formats.base64_alphabet bytes ':' mem with is | is | is
    · exact absurd is (by decide)
    · exact absurd is (by decide)
    · exact absurd is (by decide)
  have name : ':' ∉ cipher.display := by
    intro mem
    exact (Cipher.mem_display mem).1 rfl
  have joined : cipher.display ++ ':' :: (formats.base64 key ++ ':' :: formats.base64 iv) =
      [':'].intercalate [cipher.display, formats.base64 key, formats.base64 iv] := by
    simp
  rw [joined]
  apply List.splitOn_intercalate
  · simp [name, base64]
  · exact List.cons_ne_nil _ _

theorem toUppercase_display (cipher : Cipher) :
    crates.toUppercase cipher.display = cipher.display := by
  have same : cipher.display.map Char.toUpper = cipher.display.map id := by
    apply List.map_congr_left
    intro c mem
    exact (Cipher.mem_display mem).2.2
  rw [crates.toUppercase_ascii _ fun c mem => (Cipher.mem_display mem).2.1, same, List.map_id]

theorem decodeOr_base64 (bytes drawn : Bytes) :
    decodeOr crates (some (crates.base64 bytes)) drawn = .ok bytes := by
  rw [decodeOr, crates.decode_base64]

theorem Fits.display_eq (fits : crypto.Fits cipher) (formats : Formats) :
    crypto.display formats = some (cipher.display ++ ':' ::
      (formats.base64 crypto.key ++ ':' :: formats.base64 crypto.iv)) := by
  rw [display, fits.number, Cipher.ofNumber_number]
  rfl

theorem Fits.fromStr_display (fits : crypto.Fits cipher) (keys ivs : Generator) :
    fromStr crates keys ivs (cipher.display ++ ':' ::
      (crates.base64 crypto.key ++ ':' :: crates.base64 crypto.iv)) = .ok crypto := by
  simp only [fromStr, splitOn_display, List.headD_cons, toUppercase_display,
    Cipher.fromStrName_display, List.getElem?_cons_succ, List.getElem?_cons_zero,
    decodeOr_base64]
  dsimp only [bind, Except.bind]
  rw [if_neg (not_not_intro fits.key), if_neg (not_not_intro fits.iv), ← fits.number]

/-- **Keys survive as text.**  Of whatever `from_str` returns, with whatever iv replaced it,
key and iv have the lengths of the cipher, `next_iv` and `make_cipher` do not panic, and the
text `Display` writes is read back as the same cipher, key and iv. -/
theorem crypto_round_trip {keys ivs : Generator} {s : List Char} {first : Crypto}
    (parsed : fromStr crates keys ivs s = .ok first) (derived : Derived stdRng first crypto) :
    (∃ cipher, Cipher.ofNumber crypto.cipher = some cipher ∧
        crypto.key.length = cipher.keyLength ∧ crypto.iv.length = cipher.ivLength) ∧
      (∃ crypto', crypto.nextIv stdRng = some crypto') ∧
      (∀ cipherCrates, ∃ made, crypto.makeCipher cipherCrates = .made made) ∧
      ∃ text, crypto.display crates.toFormats = some text ∧
        ∀ keys ivs, fromStr crates keys ivs text = .ok crypto := by
  obtain ⟨cipher, start⟩ := fits_of_fromStr parsed
  have fits := derived.fits start
  refine ⟨⟨cipher, ?_, fits.key, fits.iv⟩, ⟨_, fits.nextIv_eq⟩, fits.makeCipher,
    _, fits.display_eq _, fits.fromStr_display⟩
  rw [fits.number, Cipher.ofNumber_number]

end Crypto

/-! ## A key for AES128 -/

/-- Base64, and upper case on ASCII. -/
def asciiTexts : TextCrates Unit where
  base64 := Base64.encode
  byteSize := plainFormats.byteSize
  base64_alphabet _ _ := Base64.mem_encode
  byteSize_alphabet := plainFormats.byteSize_alphabet
  decode text := (Base64.decode text).elim (.error ()) .ok
  toUppercase text := text.map Char.toUpper
  decode_base64 bytes := by
    rw [Base64.decode_encode]
    rfl
  toUppercase_ascii _ _ := rfl

/-- A generator that always draws the same byte. -/
def constant (byte : UInt8) : Generator where
  fillBytes len := List.replicate len byte
  length_fillBytes _ := List.length_replicate

/-- The key is given, the iv is drawn and drawn again. -/
theorem crypto_round_trip_aes128 : ∃ first crypto,
    Crypto.fromStr asciiTexts (constant 0) (constant 7) "aes128:AAAAAAAAAAAAAAAAAAAAAA".toList =
        .ok first ∧
      crypto.display asciiTexts.toFormats =
        some "AES128:AAAAAAAAAAAAAAAAAAAAAA:CQkJCQkJCQkJCQkJCQkJCQ".toList ∧
      ∃ text, crypto.display asciiTexts.toFormats = some text ∧
        ∀ keys ivs, Crypto.fromStr asciiTexts keys ivs text = .ok crypto := by
  have parsed : Crypto.fromStr asciiTexts (constant 0) (constant 7)
      "aes128:AAAAAAAAAAAAAAAAAAAAAA".toList =
        .ok ⟨2, List.replicate 16 0, List.replicate 16 7⟩ := by
    rfl
  have derived : Crypto.Derived (fun _ => constant 0) ⟨2, List.replicate 16 0, List.replicate 16 7⟩
      ⟨2, List.replicate 16 0, List.replicate 16 9⟩ :=
    .random (constant 9) .parsed
  exact ⟨_, _, parsed, by rfl, (Crypto.crypto_round_trip parsed derived).2.2.2⟩

end Cccp

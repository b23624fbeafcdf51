import Revng.Lib.CStringLiteral

/-!
# String literals

`CTokenEmitter::emitStringLiteral` writes the bytes of a string, some of them as escapes.  Which
escape a byte gets depends on the next byte, because a digit after a hexadecimal escape would be
read as part of it.

`isHexDigit` takes `8` and `9` for no digits.  So a string is read back exactly when no byte that
gets a hexadecimal escape stands before one of them (`roundTrips_iff_noMissedDigit`).
-/

namespace PTML

open CStringLiteral

/-! ## Emission -/

/-- ASCII control characters, and the non-ASCII characters, which are negative. -/
def requiresStringEscaping (character : UInt8) : Bool :=
  character = '\\'.toUInt8 || character = '"'.toUInt8 || character = 0x7F ||
    (character.toInt8 < 32)

def isOctDigit (value : UInt8) : Bool := '0'.toUInt8 ≤ value ∧ value ≤ '7'.toUInt8

def isHexDigit (value : UInt8) : Bool :=
  -- The last decimal digits are missing here.
  if '0'.toUInt8 ≤ value ∧ value ≤ '7'.toUInt8 then true
  else if 'a'.toUInt8 ≤ value ∧ value ≤ 'f'.toUInt8 then true
  else if 'A'.toUInt8 ≤ value ∧ value ≤ 'F'.toUInt8 then true
  else false

def getHexDigit (value : UInt8) (_ : value < 0x10) : UInt8 :=
  if value < 10 then '0'.toUInt8 + value else ('a'.toUInt8 - 10) + value

theorem toNat_shiftRight_four (value : UInt8) : (value >>> 4).toNat = value.toNat / 16 := by
  rw [UInt8.toNat_shiftRight, Nat.shiftRight_eq_div_pow]
  rfl

theorem toNat_and_fifteen (value : UInt8) : (value &&& 0x0F).toNat = value.toNat % 16 := by
  rw [UInt8.toNat_and]
  exact Nat.and_two_pow_sub_one_eq_mod value.toNat 4

theorem shiftRight_lt (value : UInt8) : value >>> 4 < 0x10 := by
  rw [UInt8.lt_iff_toNat_lt, toNat_shiftRight_four]
  exact Nat.div_lt_of_lt_mul value.toNat_lt

theorem and_lt (value : UInt8) : value &&& 0x0F < 0x10 := by
  rw [UInt8.lt_iff_toNat_lt, toNat_and_fifteen]
  exact Nat.mod_lt _ (by decide)

namespace StringEscape

def single (character : UInt8) : List UInt8 := ['\\'.toUInt8, character]

def twoDigitHex (value : UInt8) : List UInt8 :=
  ['\\'.toUInt8, 'x'.toUInt8, getHexDigit (value >>> 4) (shiftRight_lt value),
    getHexDigit (value &&& 0x0F) (and_lt value)]

def oneDigitOctal (value : UInt8) (_ : value < 8) : List UInt8 :=
  ['\\'.toUInt8, '0'.toUInt8 + value]

def threeDigitOctal (value : UInt8) : List UInt8 :=
  ['\\'.toUInt8, '0'.toUInt8 + (value >>> 6 &&& 0b111), '0'.toUInt8 + (value >>> 3 &&& 0b111),
    '0'.toUInt8 + (value &&& 0b111)]

def numeric (value nextValue : UInt8) : List UInt8 :=
  if h : value < 8 then
    if isOctDigit nextValue then threeDigitOctal value else oneDigitOctal value h
  else if isHexDigit nextValue then threeDigitOctal value
  else twoDigitHex value

end StringEscape

open StringEscape

def getStringEscape (character nextCharacter : UInt8) : List UInt8 :=
  if character = '\t'.toUInt8 then single 't'.toUInt8
  else if character = '\n'.toUInt8 then single 'n'.toUInt8
  else if character = 0x0B then single 'v'.toUInt8
  else if character = 0x0C then single 'f'.toUInt8
  else if character = '\r'.toUInt8 then single 'r'.toUInt8
  else if character = '\\'.toUInt8 then single '\\'.toUInt8
  else if character = '"'.toUInt8 then single '"'.toUInt8
  else numeric character nextCharacter

/-- The loop, which emits a run of plain characters and the escape after it. -/
def emitCharacters : Nat → List UInt8 → List UInt8
  | 0, _ => []
  | fuel + 1, string =>
      string.takeWhile (! requiresStringEscaping ·) ++
        match string.dropWhile (! requiresStringEscaping ·) with
        | [] => []
        | thisChar :: rest =>
            getStringEscape thisChar (rest.headD 0) ++ emitCharacters fuel rest

def emitStringLiteral (string : List UInt8) : List UInt8 :=
  '"'.toUInt8 :: emitCharacters (string.length + 1) string ++ ['"'.toUInt8]

/-! ## The bytes one by one -/

/-- What a byte becomes in front of the others. -/
def emitCharacter (character : UInt8) (rest : List UInt8) : List UInt8 :=
  if requiresStringEscaping character then getStringEscape character (rest.headD 0)
  else [character]

def emitEach : List UInt8 → List UInt8
  | [] => []
  | character :: rest => emitCharacter character rest ++ emitEach rest

theorem takeWhile_append_emitEach (string : List UInt8) :
    string.takeWhile (! requiresStringEscaping ·) ++
      emitEach (string.dropWhile (! requiresStringEscaping ·)) = emitEach string := by
  induction string with
  | nil => rfl
  | cons character rest ih =>
    cases h : requiresStringEscaping character with
    | true => simp [h]
    | false => simp [h, emitEach, emitCharacter, ih]

variable {string : List UInt8}

/-- The fuel is enough. -/
theorem emitCharacters_eq {fuel : Nat} (h : string.length < fuel) :
    emitCharacters fuel string = emitEach string := by
  induction fuel generalizing string with
  | zero => omega
  | succ fuel ih =>
    rw [emitCharacters, ← takeWhile_append_emitEach string]
    congr 1
    have hlen := (List.dropWhile_sublist (! requiresStringEscaping ·) (l := string)).length_le
    have hhead := List.head?_dropWhile_not (! requiresStringEscaping ·) string
    cases hdrop : string.dropWhile (! requiresStringEscaping ·) with
    | nil => rfl
    | cons thisChar rest =>
      rw [hdrop, List.length_cons] at hlen
      have hthis : requiresStringEscaping thisChar = true := by simpa [hdrop] using hhead
      simp only [emitEach, emitCharacter, hthis, if_true]
      rw [ih (by omega)]

theorem emitStringLiteral_eq (string : List UInt8) :
    emitStringLiteral string = '"'.toUInt8 :: emitEach string ++ ['"'.toUInt8] := by
  rw [emitStringLiteral, emitCharacters_eq (Nat.lt_succ_self _)]

/-! ## Digits -/

/-- A byte that gets a hexadecimal escape when no digit follows. -/
def IsHexEscaped (b : UInt8) : Prop := b = 8 ∨ (14 ≤ b ∧ b < 32) ∨ 0x7F ≤ b

instance : DecidablePred IsHexEscaped := fun _ => inferInstanceAs (Decidable (_ ∨ _))

/-- The next byte is taken for no digit, but it is one. -/
def IsMissedDigit (next : UInt8) : Prop := next = '8'.toUInt8 ∨ next = '9'.toUInt8

instance : DecidablePred IsMissedDigit := fun _ => inferInstanceAs (Decidable (_ ∨ _))

/-- What is tested of a byte and what it is as a digit, by looking at each byte. -/
theorem byte_digits (b : UInt8) : isOctDigit b = (digit 8 b).isSome ∧
    isHexDigit b = ((digit 16 b).isSome && ! decide (IsMissedDigit b)) ∧
    (b < 8 → digit 8 ('0'.toUInt8 + b) = some b.toNat) ∧
    (∀ h : b < 0x10, digit 16 (getHexDigit b h) = some b.toNat) ∧
    (IsMissedDigit b → ∃ d : Fin 10, digit 16 b = some d.val ∧ 8 ≤ d.val) := by
  revert b
  decide +kernel

theorem isOctDigit_eq (b : UInt8) : isOctDigit b = (digit 8 b).isSome := (byte_digits b).1

theorem isHexDigit_eq (b : UInt8) :
    isHexDigit b = ((digit 16 b).isSome && ! decide (IsMissedDigit b)) := (byte_digits b).2.1

variable {b : UInt8}

theorem digit_octal_one (h : b < 8) : digit 8 ('0'.toUInt8 + b) = some b.toNat :=
  (byte_digits b).2.2.1 h

theorem digit_getHexDigit (h : b < 0x10) :
    digit 16 (getHexDigit b h) = some b.toNat := (byte_digits b).2.2.2.1 h

theorem digit_missed (h : IsMissedDigit b) :
    ∃ d : Fin 10, digit 16 b = some d.val ∧ 8 ≤ d.val := (byte_digits b).2.2.2.2 h

theorem digit_getHexDigit_high (b : UInt8) :
    digit 16 (getHexDigit (b >>> 4) (shiftRight_lt b)) = some (b.toNat / 16) := by
  rw [digit_getHexDigit, toNat_shiftRight_four]

theorem digit_getHexDigit_low (b : UInt8) :
    digit 16 (getHexDigit (b &&& 0x0F) (and_lt b)) = some (b.toNat % 16) := by
  rw [digit_getHexDigit, toNat_and_fifteen]

theorem digit_octal_low (b : UInt8) :
    digit 8 ('0'.toUInt8 + (b &&& 0b111)) = some (b.toNat % 8) := by
  have hmod : (b &&& 0b111).toNat = b.toNat % 8 := by
    rw [UInt8.toNat_and]
    exact Nat.and_two_pow_sub_one_eq_mod b.toNat 3
  have hlt : b &&& 0b111 < 8 := by
    rw [UInt8.lt_iff_toNat_lt, hmod]
    exact Nat.mod_lt _ (by decide)
  rw [digit_octal_one hlt, hmod]

theorem digit_octal_middle (b : UInt8) :
    digit 8 ('0'.toUInt8 + (b >>> 3 &&& 0b111)) = some (b.toNat / 8 % 8) := by
  rw [digit_octal_low, UInt8.toNat_shiftRight, Nat.shiftRight_eq_div_pow]
  rfl

theorem digit_octal_high (b : UInt8) :
    digit 8 ('0'.toUInt8 + (b >>> 6 &&& 0b111)) = some (b.toNat / 64) := by
  have hshift : (b >>> 6).toNat = b.toNat / 64 := by
    rw [UInt8.toNat_shiftRight, Nat.shiftRight_eq_div_pow]
    rfl
  have hlt := b.toNat_lt
  rw [digit_octal_low, hshift, Nat.mod_eq_of_lt (by omega)]

/-- Which bytes are escaped, by looking at each byte. -/
theorem byte_escaping (b : UInt8) :
    (requiresStringEscaping b = false → b ≠ '\\'.toUInt8 ∧ b ≠ '\n'.toUInt8 ∧ b ≠ '"'.toUInt8) ∧
    (requiresStringEscaping b = true → digitValue '\\'.toUInt8 = digitValue b ∧
      ((b < 8 ∨ IsHexEscaped b) ∨ b ∈ ['\t'.toUInt8, '\n'.toUInt8, 0x0B, 0x0C, '\r'.toUInt8,
        '\\'.toUInt8, '"'.toUInt8])) := by
  revert b
  decide +kernel

theorem byte_hexEscaped : IsHexEscaped b → requiresStringEscaping b = true ∧ ¬b < 8 ∧
    b ≠ '\t'.toUInt8 ∧ b ≠ '\n'.toUInt8 ∧ b ≠ 0x0B ∧ b ≠ 0x0C ∧ b ≠ '\r'.toUInt8 ∧
    b ≠ '\\'.toUInt8 ∧ b ≠ '"'.toUInt8 := by
  revert b
  decide +kernel

/-! ## Reading an escape back -/

/-- The three ways of writing a byte. -/
theorem emitCharacter_cases (b : UInt8) (rest : List UInt8) :
    (emitCharacter b rest = [b] ∧ b ≠ '\\'.toUInt8 ∧ b ≠ '\n'.toUInt8 ∧ b ≠ '"'.toUInt8) ∨
      (∃ c, emitCharacter b rest = single c ∧ simpleEscape c = some b) ∨
      (emitCharacter b rest = numeric b (rest.headD 0) ∧ (b < 8 ∨ IsHexEscaped b)) := by
  obtain ⟨hplain, hescaped⟩ := byte_escaping b
  cases h : requiresStringEscaping b with
  | false => exact .inl ⟨by rw [emitCharacter, h]; rfl, hplain h⟩
  | true =>
    right
    simp only [emitCharacter, h, if_true, getStringEscape]
    split_ifs with h₁ h₂ h₃ h₄ h₅ h₆ h₇
    · exact .inl ⟨'t'.toUInt8, rfl, by rw [h₁]; rfl⟩
    · exact .inl ⟨'n'.toUInt8, rfl, by rw [h₂]; rfl⟩
    · exact .inl ⟨'v'.toUInt8, rfl, by rw [h₃]; rfl⟩
    · exact .inl ⟨'f'.toUInt8, rfl, by rw [h₄]; rfl⟩
    · exact .inl ⟨'r'.toUInt8, rfl, by rw [h₅]; rfl⟩
    · exact .inl ⟨'\\'.toUInt8, rfl, by rw [h₆]; rfl⟩
    · exact .inl ⟨'"'.toUInt8, rfl, by rw [h₇]; rfl⟩
    · exact .inr ⟨rfl, (hescaped h).2.resolve_right (by simp [h₁, h₂, h₃, h₄, h₅, h₆, h₇])⟩

variable {text rest : List UInt8}

theorem readNumber_toNat {radix limit d : Nat} (hd : firstDigit radix text = some d)
    (h : readDigits radix limit 0 text = (b.toNat, rest)) :
    readNumber radix limit text = some (b, rest) := by
  rw [readNumber_eq hd h, if_pos b.toNat_lt, UInt8.ofNat_toNat]

theorem readCharacter_threeDigitOctal (b : UInt8) (text : List UInt8) :
    readCharacter (threeDigitOctal b ++ text) = some (b, text) := by
  have hvalue : ((0 * 8 + b.toNat / 64) * 8 + b.toNat / 8 % 8) * 8 + b.toNat % 8 = b.toNat := by
    omega
  rw [threeDigitOctal, List.cons_append, readCharacter_backslash, List.cons_append,
    readEscape_octal (digit_octal_high b)]
  refine readNumber_toNat (digit_octal_high b) ?_
  rw [readDigits_cons (digit_octal_high b), List.cons_append,
    readDigits_cons (digit_octal_middle b), List.cons_append,
    readDigits_cons (digit_octal_low b), hvalue]
  rfl

theorem readCharacter_oneDigitOctal (hb : b < 8) (h : firstDigit 8 text = none) :
    readCharacter (oneDigitOctal b hb ++ text) = some (b, text) := by
  rw [oneDigitOctal, List.cons_append, readCharacter_backslash, List.cons_append,
    readEscape_octal (digit_octal_one hb)]
  refine readNumber_toNat (digit_octal_one hb) ?_
  rw [readDigits_cons (digit_octal_one hb), List.nil_append, readDigits_of_firstDigit h,
    Nat.zero_mul, Nat.zero_add]

/-- The digits of a hexadecimal escape, with those that follow. -/
theorem readCharacter_twoDigitHex (b : UInt8) (text : List UInt8) :
    readCharacter (twoDigitHex b ++ text) =
      if (readDigits 16 text.length b.toNat text).1 < 256 then
        some (UInt8.ofNat (readDigits 16 text.length b.toNat text).1,
          (readDigits 16 text.length b.toNat text).2)
      else none := by
  have hvalue : (0 * 16 + b.toNat / 16) * 16 + b.toNat % 16 = b.toNat := by omega
  rw [twoDigitHex, List.cons_append, readCharacter_backslash, List.cons_append, readEscape_hex]
  refine readNumber_eq (digit_getHexDigit_high b) ?_
  rw [List.cons_append, List.cons_append, List.nil_append, List.length_cons, List.length_cons,
    readDigits_cons (digit_getHexDigit_high b), readDigits_cons (digit_getHexDigit_low b), hvalue]

/-- An escape is read back in front of a text that starts as the next byte does. -/
theorem readCharacter_numeric {next : UInt8} (h₈ : firstDigit 8 text = digit 8 next)
    (h₁₆ : firstDigit 16 text = digit 16 next) (h : ¬(IsHexEscaped b ∧ IsMissedDigit next))
    (hb : b < 8 ∨ IsHexEscaped b) : readCharacter (numeric b next ++ text) = some (b, text) := by
  rw [numeric, isOctDigit_eq, isHexDigit_eq]
  split_ifs with hlt hoct hhex
  · exact readCharacter_threeDigitOctal b text
  · refine readCharacter_oneDigitOctal hlt ?_
    rw [h₈]
    simpa using hoct
  · exact readCharacter_threeDigitOctal b text
  · have hmissed : ¬IsMissedDigit next := fun hmissed => h ⟨hb.resolve_left hlt, hmissed⟩
    have hdigit : digit 16 next = none := by simpa [hmissed] using hhex
    rw [readCharacter_twoDigitHex, readDigits_of_firstDigit (h₁₆.trans hdigit), if_pos b.toNat_lt,
      UInt8.ofNat_toNat]

/-- A digit that is missed changes the byte, or makes the escape too large. -/
theorem readCharacter_numeric_ne {next : UInt8} {more : List UInt8}
    (h₁₆ : firstDigit 16 text = digit 16 next) (hb : IsHexEscaped b) (hnext : IsMissedDigit next) :
    readCharacter (numeric b next ++ text) ≠ some (b, more) := by
  obtain ⟨-, hlt, -⟩ := byte_hexEscaped hb
  have hle : 8 ≤ b.toNat := Nat.le_of_not_lt hlt
  obtain ⟨d, hd, hd₈⟩ := digit_missed hnext
  have hvalue : b.toNat < (readDigits 16 text.length b.toNat text).1 := by
    cases text with
    | nil => cases h₁₆.trans hd
    | cons first rest =>
      rw [List.length_cons, readDigits_cons (h₁₆.trans hd)]
      calc b.toNat < b.toNat * 16 + d.val := by omega
        _ ≤ _ := le_readDigits (by decide) _ _ _
  have hhex : isHexDigit next = false := by
    rw [isHexDigit_eq, decide_eq_true hnext, Bool.not_true, Bool.and_false]
  rw [numeric, dif_neg hlt, hhex, if_neg Bool.false_ne_true, readCharacter_twoDigitHex]
  split_ifs with hfits
  · intro heq
    have hsame := congrArg (UInt8.toNat ∘ Prod.fst) (Option.some.inj heq)
    simp only [Function.comp_apply, UInt8.toNat_ofNat_of_lt' hfits] at hsame
    omega
  · exact (nomatch ·)

/-! ## Reading a literal back -/

/-- No byte that gets a hexadecimal escape stands before `8` or `9`. -/
def NoMissedDigit (string : List UInt8) : Prop :=
  string.IsChain fun b next => ¬(IsHexEscaped b ∧ IsMissedDigit next)

instance : DecidablePred NoMissedDigit := fun _ => inferInstanceAs (Decidable (List.IsChain _ _))

theorem noMissedDigit_cons_iff :
    NoMissedDigit (b :: string) ↔
      ¬(IsHexEscaped b ∧ IsMissedDigit (string.headD 0)) ∧ NoMissedDigit string := by
  cases string with
  | nil =>
    have hnul : ¬IsMissedDigit 0 := by decide
    exact ⟨fun _ => ⟨fun h => hnul h.2, .nil⟩, fun _ => .singleton b⟩
  | cons next rest => exact List.isChain_cons_cons

theorem getStringEscape_eq_cons (b next : UInt8) :
    ∃ more, getStringEscape b next = '\\'.toUInt8 :: more := by
  rw [getStringEscape, numeric]
  split_ifs <;> exact ⟨_, rfl⟩

/-- A byte is written as itself, or as something that starts with a backslash. -/
theorem emitCharacter_eq_cons (b : UInt8) (rest : List UInt8) :
    ∃ first more, emitCharacter b rest = first :: more ∧ first ≠ '"'.toUInt8 ∧
      digitValue first = digitValue b := by
  obtain ⟨hplain, hescaped⟩ := byte_escaping b
  rw [emitCharacter]
  cases h : requiresStringEscaping b with
  | false => exact ⟨b, [], rfl, (hplain h).2.2, rfl⟩
  | true =>
    obtain ⟨more, hmore⟩ := getStringEscape_eq_cons b (rest.headD 0)
    exact ⟨_, more, hmore, by decide, (hescaped h).1⟩

/-- What follows a byte starts with a digit when the next byte is one. -/
theorem firstDigit_emitEach (radix : Nat) (string rest : List UInt8) :
    firstDigit radix (emitEach string ++ '"'.toUInt8 :: rest) = digit radix (string.headD 0) := by
  cases string with
  | nil => rfl
  | cons b string =>
    obtain ⟨first, more, hfirst, -, hdigit⟩ := emitCharacter_eq_cons b string
    rw [emitEach, hfirst, List.cons_append, List.cons_append, firstDigit_cons, digit, hdigit]
    rfl

theorem requiresStringEscaping_of_isHexEscaped (h : IsHexEscaped b) :
    requiresStringEscaping b = true := (byte_hexEscaped h).1

theorem getStringEscape_of_isHexEscaped {next : UInt8} (h : IsHexEscaped b) :
    getStringEscape b next = numeric b next := by
  obtain ⟨-, -, h₁, h₂, h₃, h₄, h₅, h₆, h₇⟩ := byte_hexEscaped h
  rw [getStringEscape, if_neg h₁, if_neg h₂, if_neg h₃, if_neg h₄, if_neg h₅, if_neg h₆, if_neg h₇]

/-- A byte is read back when it is not written in front of a digit that is missed. -/
theorem readCharacter_emitCharacter (h : ¬(IsHexEscaped b ∧ IsMissedDigit (string.headD 0))) :
    readCharacter (emitCharacter b string ++ (emitEach string ++ '"'.toUInt8 :: rest)) =
      some (b, emitEach string ++ '"'.toUInt8 :: rest) := by
  rcases emitCharacter_cases b string with ⟨heq, hbackslash, hnewline, -⟩ | ⟨c, heq, hc⟩ | ⟨heq, hb⟩
  · rw [heq]
    exact readCharacter_of_ne hbackslash hnewline _
  · rw [heq]
    exact (readCharacter_backslash _).trans (readEscape_of_simple hc _)
  · rw [heq]
    exact readCharacter_numeric (firstDigit_emitEach 8 string rest)
      (firstDigit_emitEach 16 string rest) h hb

theorem readCharacter_emitCharacter_ne {more : List UInt8} (hb : IsHexEscaped b)
    (hnext : IsMissedDigit (string.headD 0)) :
    readCharacter (emitCharacter b string ++ (emitEach string ++ '"'.toUInt8 :: rest)) ≠
      some (b, more) := by
  rw [emitCharacter, requiresStringEscaping_of_isHexEscaped hb, if_pos rfl,
    getStringEscape_of_isHexEscaped hb]
  exact readCharacter_numeric_ne (firstDigit_emitEach 16 string rest) hb hnext

/-- A literal is read until its closing quote exactly when no digit is missed. -/
theorem readCharacters_emitEach_iff {fuel : Nat} (rest : List UInt8)
    (hfuel : string.length < fuel) :
    readCharacters fuel (emitEach string ++ '"'.toUInt8 :: rest) = some (string, rest) ↔
      NoMissedDigit string := by
  induction string generalizing fuel with
  | nil =>
    obtain ⟨fuel, rfl⟩ := Nat.exists_eq_add_one.2 hfuel
    exact ⟨fun _ => .nil, fun _ => readCharacters_quote fuel rest⟩
  | cons b string ih =>
    obtain ⟨fuel, rfl⟩ := Nat.exists_eq_add_one.2 (Nat.zero_lt_of_lt hfuel)
    obtain ⟨first, more, hfirst, hquote, -⟩ := emitCharacter_eq_cons b string
    rw [noMissedDigit_cons_iff, ← ih (Nat.lt_of_succ_lt_succ hfuel), emitEach, List.append_assoc,
      hfirst, List.cons_append, readCharacters_eq_cons_iff hquote, ← List.cons_append, ← hfirst]
    by_cases hmissed : IsHexEscaped b ∧ IsMissedDigit (string.headD 0)
    · constructor
      · rintro ⟨more, hmore, -⟩
        exact absurd hmore (readCharacter_emitCharacter_ne hmissed.1 hmissed.2)
      · exact fun h => absurd hmissed h.1
    · rw [readCharacter_emitCharacter hmissed]
      constructor
      · rintro ⟨_, ⟨⟩, hothers⟩
        exact ⟨hmissed, hothers⟩
      · exact fun h => ⟨_, rfl, h.2⟩

/-- The literal is read back, whatever follows it. -/
def RoundTrips (string : List UInt8) : Prop :=
  ∀ rest, readLiteral (emitStringLiteral string ++ rest) = some (string, rest)

theorem length_le_emitEach (string : List UInt8) : string.length ≤ (emitEach string).length := by
  induction string with
  | nil => exact Nat.le_refl _
  | cons b string ih =>
    obtain ⟨first, more, hfirst, -, -⟩ := emitCharacter_eq_cons b string
    rw [emitEach, hfirst, List.length_append, List.length_cons, List.length_cons]
    omega

theorem roundTrips_iff_noMissedDigit (string : List UInt8) : RoundTrips string ↔ NoMissedDigit string := by
  have hread : ∀ rest, readLiteral (emitStringLiteral string ++ rest) = some (string, rest) ↔
      NoMissedDigit string := by
    intro rest
    have hfuel : string.length < (emitEach string ++ '"'.toUInt8 :: rest).length := by
      have hle := length_le_emitEach string
      rw [List.length_append, List.length_cons]
      omega
    rw [← readCharacters_emitEach_iff rest hfuel, emitStringLiteral_eq, List.cons_append,
      List.cons_append, List.append_assoc, List.singleton_append]
    rfl
  exact ⟨fun h => (hread []).1 (h []), fun h rest => (hread rest).2 h⟩

/-- The byte `1F` in front of the digit `8`. -/
theorem not_roundTrips_missed : ¬∀ string, RoundTrips string := by
  intro h
  exact absurd (h [0x1F, 0x38] []) (by decide +kernel)

end PTML

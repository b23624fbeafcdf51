import Mathlib.Data.FinEnum

/-!
# String literals of C

`readLiteral` reads the bytes that a string literal stands for and what is behind it.  An escape
is simple, or octal with at most three digits, or hexadecimal with as many digits as there are.
-/

namespace CStringLiteral

/-! ## Digits -/

def digitValue (b : UInt8) : Option Nat :=
  if '0'.toUInt8 ≤ b ∧ b ≤ '9'.toUInt8 then some (b.toNat - '0'.toNat)
  else if 'a'.toUInt8 ≤ b ∧ b ≤ 'f'.toUInt8 then some (b.toNat - 'a'.toNat + 10)
  else if 'A'.toUInt8 ≤ b ∧ b ≤ 'F'.toUInt8 then some (b.toNat - 'A'.toNat + 10)
  else none

/-- The value of a digit of this radix. -/
def digit (radix : Nat) (b : UInt8) : Option Nat := (digitValue b).filter (· < radix)

/-- The digit that a text starts with. -/
def firstDigit (radix : Nat) (text : List UInt8) : Option Nat := text.head?.bind (digit radix)

/-- Read the digits of a number, at most `limit` of them. -/
def readDigits (radix : Nat) : Nat → Nat → List UInt8 → Nat × List UInt8
  | 0, value, text => (value, text)
  | _ + 1, value, [] => (value, [])
  | limit + 1, value, b :: rest =>
      match digit radix b with
      | some d => readDigits radix limit (value * radix + d) rest
      | none => (value, b :: rest)

/-! ## Literals -/

def simpleEscape (b : UInt8) : Option UInt8 :=
  if b = 'n'.toUInt8 then some 10
  else if b = 't'.toUInt8 then some 9
  else if b = 'v'.toUInt8 then some 11
  else if b = 'b'.toUInt8 then some 8
  else if b = 'r'.toUInt8 then some 13
  else if b = 'f'.toUInt8 then some 12
  else if b = 'a'.toUInt8 then some 7
  else if b = '\\'.toUInt8 ∨ b = '?'.toUInt8 ∨ b = '\''.toUInt8 ∨ b = '"'.toUInt8 then some b
  else none

/-- Read a number with at least one digit, which has to fit into a byte. -/
def readNumber (radix limit : Nat) (text : List UInt8) : Option (UInt8 × List UInt8) := do
  let _ ← firstDigit radix text
  let (value, rest) := readDigits radix limit 0 text
  if value < 256 then return (UInt8.ofNat value, rest) else none

/-- Read what follows a backslash. -/
def readEscape : List UInt8 → Option (UInt8 × List UInt8)
  | [] => none
  | b :: rest =>
      match simpleEscape b with
      | some value => some (value, rest)
      | none =>
          if b = 'x'.toUInt8 then readNumber 16 rest.length rest
          else readNumber 8 3 (b :: rest)

def readCharacter : List UInt8 → Option (UInt8 × List UInt8)
  | [] => none
  | b :: rest =>
      if b = '\\'.toUInt8 then readEscape rest
      else if b = '\n'.toUInt8 then none
      else some (b, rest)

/-- Read the characters up to the closing quote. -/
def readCharacters : Nat → List UInt8 → Option (List UInt8 × List UInt8)
  | 0, _ => none
  | _ + 1, [] => none
  | fuel + 1, b :: rest =>
      if b = '"'.toUInt8 then some ([], rest)
      else do
        let (character, rest) ← readCharacter (b :: rest)
        let (characters, rest) ← readCharacters fuel rest
        return (character :: characters, rest)

def readLiteral : List UInt8 → Option (List UInt8 × List UInt8)
  | [] => none
  | b :: rest => if b = '"'.toUInt8 then readCharacters rest.length rest else none

/-! ## Reading digits -/

theorem firstDigit_cons (radix : Nat) (b : UInt8) (rest : List UInt8) :
    firstDigit radix (b :: rest) = digit radix b := rfl

variable {radix : Nat} {text : List UInt8}

theorem readDigits_of_firstDigit {limit value : Nat} (h : firstDigit radix text = none) :
    readDigits radix limit value text = (value, text) := by
  cases limit with
  | zero => rfl
  | succ limit =>
    cases text with
    | nil => rfl
    | cons b rest =>
      rw [firstDigit_cons] at h
      rw [readDigits, h]

variable {b : UInt8} {rest : List UInt8}

theorem readDigits_cons {limit value d : Nat} (h : digit radix b = some d) :
    readDigits radix (limit + 1) value (b :: rest) =
      readDigits radix limit (value * radix + d) rest := by
  rw [readDigits, h]

/-- More digits never make the number smaller. -/
theorem le_readDigits (hr : 0 < radix) (limit value : Nat) (text : List UInt8) :
    value ≤ (readDigits radix limit value text).1 := by
  fun_induction readDigits radix limit value text with
  | case1 => exact Nat.le_refl _
  | case2 => exact Nat.le_refl _
  | case3 limit value b rest d _ ih =>
    calc value ≤ value * radix := Nat.le_mul_of_pos_right value hr
      _ ≤ value * radix + d := Nat.le_add_right _ _
      _ ≤ _ := ih
  | case4 => exact Nat.le_refl _

theorem readNumber_eq {limit value : Nat} {d : Nat} (hd : firstDigit radix text = some d)
    (h : readDigits radix limit 0 text = (value, rest)) :
    readNumber radix limit text =
      if value < 256 then some (UInt8.ofNat value, rest) else none := by
  simp only [readNumber, hd, h, Option.bind_eq_bind, Option.bind_some, Option.pure_def]

/-! ## Reading characters -/

theorem readEscape_of_simple {value : UInt8} (h : simpleEscape b = some value) (rest : List UInt8) :
    readEscape (b :: rest) = some (value, rest) := by
  rw [readEscape, h]

theorem readEscape_hex (rest : List UInt8) :
    readEscape ('x'.toUInt8 :: rest) = readNumber 16 rest.length rest := rfl

theorem simpleEscape_of_digit : (digit 8 b).isSome → simpleEscape b = none ∧ b ≠ 'x'.toUInt8 := by
  revert b
  decide +kernel

theorem readEscape_octal {d : Nat} (h : digit 8 b = some d) (rest : List UInt8) :
    readEscape (b :: rest) = readNumber 8 3 (b :: rest) := by
  obtain ⟨hsimple, hx⟩ := simpleEscape_of_digit (Option.isSome_of_eq_some h)
  rw [readEscape, hsimple]
  exact if_neg hx

theorem readCharacter_of_ne (h₁ : b ≠ '\\'.toUInt8) (h₂ : b ≠ '\n'.toUInt8) (rest : List UInt8) :
    readCharacter (b :: rest) = some (b, rest) := by
  rw [readCharacter, if_neg h₁, if_neg h₂]

theorem readCharacter_backslash (rest : List UInt8) :
    readCharacter ('\\'.toUInt8 :: rest) = readEscape rest := by
  rw [readCharacter, if_pos rfl]

theorem readCharacters_quote (fuel : Nat) (rest : List UInt8) :
    readCharacters (fuel + 1) ('"'.toUInt8 :: rest) = some ([], rest) := by
  rw [readCharacters, if_pos rfl]

/-- A literal is read back when its first character and the others are. -/
theorem readCharacters_eq_cons_iff {fuel : Nat} {c : UInt8} {cs : List UInt8}
    (h : b ≠ '"'.toUInt8) :
    readCharacters (fuel + 1) (b :: text) = some (c :: cs, rest) ↔
      ∃ more, readCharacter (b :: text) = some (c, more) ∧
        readCharacters fuel more = some (cs, rest) := by
  rw [readCharacters, if_neg h]
  cases readCharacter (b :: text) with
  | none => simp
  | some first =>
    obtain ⟨character, more⟩ := first
    simp only [Option.bind_eq_bind, Option.bind_some, Option.bind_eq_some_iff, Option.pure_def,
      Option.some.injEq, Prod.mk.injEq, List.cons.injEq]
    constructor
    · rintro ⟨⟨_, _⟩, hcs, ⟨hc, rfl⟩, rfl⟩
      exact ⟨more, ⟨hc, rfl⟩, hcs⟩
    · rintro ⟨_, ⟨hc, rfl⟩, hcs⟩
      exact ⟨_, hcs, ⟨hc, rfl⟩, rfl⟩

end CStringLiteral

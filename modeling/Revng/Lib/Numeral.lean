import Mathlib.Algebra.Group.Nat.Defs
import Mathlib.Data.List.Basic

/-!
# Numerals

`writeDigits` writes a number in a radix up to 16, with capital letters.  `readDigits` reads
digits of either case in a radix up to 36.

`readInteger` finds the radix in the text itself: `0x`, `0b` and `0o` say it, a zero before
another digit means 8, and everything else is decimal.  The number has to fit the given bits.
It reads back what `writeDigits` has written in decimal (`readInteger_writeDigits_ten`) and
what it has written in hexadecimal after `0x` (`readInteger_writeDigits_sixteen`).
-/

namespace Numeral

/-! ## Digits -/

def digitValue (c : Char) : Option Nat :=
  if '0' ≤ c ∧ c ≤ '9' then some (c.toNat - '0'.toNat)
  else if 'a' ≤ c ∧ c ≤ 'z' then some (c.toNat - 'a'.toNat + 10)
  else if 'A' ≤ c ∧ c ≤ 'Z' then some (c.toNat - 'A'.toNat + 10)
  else none

def writeDigits (radix n : Nat) : List Char := (Nat.toDigits radix n).map Char.toUpper

/-- Read digits after the number `n`. -/
def readDigits (radix n : Nat) : List Char → Option Nat
  | [] => some n
  | c :: rest =>
      match digitValue c with
      | some d => if d < radix then readDigits radix (n * radix + d) rest else none
      | none => none

variable {radix n : Nat}

theorem readDigits_append {m : Nat} {x y : List Char} (h : readDigits radix n x = some m) :
    readDigits radix n (x ++ y) = readDigits radix m y := by
  induction x generalizing n with
  | nil => rw [List.nil_append, Option.some.inj h]
  | cons c x ih =>
    rw [readDigits] at h
    rw [List.cons_append, readDigits]
    split at h
    next d hd =>
      split at h
      next hlt =>
        simp only [if_pos hlt]
        exact ih h
      next => cases h
    next => cases h

theorem digitValue_digitChar {d : Nat} (h : d < 16) :
    digitValue d.digitChar.toUpper = some d := by
  revert d
  decide

theorem isAlphanum_digitChar {d : Nat} (h : d < 16) : d.digitChar.toUpper.isAlphanum = true := by
  revert d
  decide

theorem isDigit_digitChar {d : Nat} (h : d < 10) : d.digitChar.toUpper.isDigit = true := by
  revert d
  decide

theorem writeDigits_of_lt (h : n < radix) : writeDigits radix n = [n.digitChar.toUpper] := by
  rw [writeDigits, Nat.toDigits_of_lt_base h, List.map_singleton]

theorem length_writeDigits_le_iff {k : Nat} (hone : 1 < radix) (hk : 0 < k) :
    (writeDigits radix n).length ≤ k ↔ n < radix ^ k := by
  rw [writeDigits, List.length_map, Nat.length_toDigits_le_iff hone hk]

section Write

variable {radix : Nat} (hone : 1 < radix)
include hone

theorem writeDigits_of_le {n : Nat} (h : radix ≤ n) :
    writeDigits radix n = writeDigits radix (n / radix) ++ [(n % radix).digitChar.toUpper] := by
  rw [writeDigits, Nat.toDigits_of_base_le hone h, List.map_append, List.map_singleton,
    writeDigits]

theorem writeDigits_ne_nil (n : Nat) : writeDigits radix n ≠ [] := by
  rcases Nat.lt_or_ge n radix with h | h
  · simp [writeDigits_of_lt h]
  · simp [writeDigits_of_le hone h]

/-- Every digit that is written is the one of a number below the radix. -/
theorem forall_mem_writeDigits {p : Char → Prop} (h : ∀ d < radix, p d.digitChar.toUpper) (n : Nat) :
    ∀ c ∈ writeDigits radix n, p c := by
  induction n using Nat.strongRecOn with
  | ind n ih =>
    intro c hc
    rcases Nat.lt_or_ge n radix with hn | hn
    · rw [writeDigits_of_lt hn, List.mem_singleton] at hc
      subst hc
      exact h n hn
    · rw [writeDigits_of_le hone hn, List.mem_append, List.mem_singleton] at hc
      rcases hc with hc | rfl
      · exact ih (n / radix) (Nat.div_lt_self (by omega) hone) c hc
      · exact h _ (Nat.mod_lt _ (by omega))

theorem readDigits_writeDigits (hradix : radix ≤ 16) (n : Nat) :
    readDigits radix 0 (writeDigits radix n) = some n := by
  have hlast (m d : Nat) (hd : d < radix) :
      readDigits radix m [d.digitChar.toUpper] = some (m * radix + d) := by
    simp [readDigits, digitValue_digitChar (Nat.lt_of_lt_of_le hd hradix), hd]
  induction n using Nat.strongRecOn with
  | ind n ih =>
    rcases Nat.lt_or_ge n radix with h | h
    · rw [writeDigits_of_lt h, hlast 0 n h, Nat.zero_mul, Nat.zero_add]
    · rw [writeDigits_of_le hone h,
        readDigits_append (ih (n / radix) (Nat.div_lt_self (by omega) hone)),
        hlast _ _ (Nat.mod_lt _ (by omega)), Nat.div_add_mod']

end Write

theorem writeDigits_injective {m : Nat} (hone : 1 < radix) (hradix : radix ≤ 16)
    (h : writeDigits radix n = writeDigits radix m) : n = m := by
  have hread := readDigits_writeDigits hone hradix n
  rw [h, readDigits_writeDigits hone hradix m] at hread
  exact (Option.some.inj hread).symm

theorem isAlphanum_of_mem_writeDigits {c : Char} (h : c ∈ writeDigits 16 n) : c.isAlphanum = true :=
  forall_mem_writeDigits (p := fun c => c.isAlphanum = true) (by decide)
    (fun _ hd => isAlphanum_digitChar hd) n c h

theorem isDigit_of_mem_writeDigits {c : Char} (h : c ∈ writeDigits 10 n) : c.isDigit = true :=
  forall_mem_writeDigits (p := fun c => c.isDigit = true) (by decide)
    (fun _ hd => isDigit_digitChar hd) n c h

theorem head_digitChar_ne_zero {d : Nat} (h : d < 10) (hd : 0 < d) :
    [d.digitChar.toUpper].head? ≠ some '0' := by
  revert d
  decide

/-- A decimal number has no leading zero. -/
theorem head_writeDigits_ne_zero (hn : 0 < n) : (writeDigits 10 n).head? ≠ some '0' := by
  induction n using Nat.strongRecOn with
  | ind n ih =>
    rcases Nat.lt_or_ge n 10 with h | h
    · rw [writeDigits_of_lt h]
      exact head_digitChar_ne_zero h hn
    · rw [writeDigits_of_le (by decide) h]
      have hne := writeDigits_ne_nil (by decide : 1 < 10) (n / 10)
      rw [List.head?_append_of_ne_nil _ hne]
      exact ih (n / 10) (by omega) (by omega)

/-! ## The radix in the text -/

/-- The radix of a text, and its digits. -/
def senseRadix : List Char → Nat × List Char
  | '0' :: c :: rest =>
      if c = 'x' ∨ c = 'X' then (16, rest)
      else if c = 'b' ∨ c = 'B' then (2, rest)
      else if c = 'o' then (8, rest)
      else if c.isDigit then (8, c :: rest)
      else (10, '0' :: c :: rest)
  | x => (10, x)

/-- The whole text has to be a number that fits the bits. -/
def readInteger (bits : Nat) (x : List Char) : Option Nat :=
  let (radix, digits) := senseRadix x
  if digits = [] then none else (readDigits radix 0 digits).filter (· < 2 ^ bits)

theorem readInteger_writeDigits_sixteen {bits : Nat} (h : n < 2 ^ bits) :
    readInteger bits ('0' :: 'x' :: writeDigits 16 n) = some n := by
  have hne := writeDigits_ne_nil (by decide : 1 < 16) n
  simp [readInteger, senseRadix, hne, readDigits_writeDigits, h]

theorem readInteger_writeDigits_ten {bits : Nat} (h : n < 2 ^ bits) :
    readInteger bits (writeDigits 10 n) = some n := by
  have hne := writeDigits_ne_nil (by decide : 1 < 10) n
  have hsense : senseRadix (writeDigits 10 n) = (10, writeDigits 10 n) := by
    cases n with
    | zero => rfl
    | succ n =>
      have hhead := head_writeDigits_ne_zero n.succ_pos
      unfold senseRadix
      split
      next heq => simp [heq] at hhead
      next => rfl
  simp [readInteger, hsense, hne, readDigits_writeDigits, h]

end Numeral

import Mathlib.Data.List.Nodup

/-!
# Base64

Three bytes are written as four digits of six bits.  A last group of one or two bytes is
written with two or three digits and filled up with `=`.

`decode` reads digits one at a time and is lenient: characters that are neither digits nor `=`
are skipped, and the text may go on after the padding.  It fails on a last group that is
neither complete nor padded.  It reads back what `encode` has written (`decode_encode`), and
no text yields more than three bytes for four characters (`length_decode_le`).
-/

namespace Base64

def alphabet : List Char :=
  "ABCDEFGHIJKLMNOPQRSTUVWXYZabcdefghijklmnopqrstuvwxyz0123456789+/".toList

/-- The digit of a value below 64. -/
def digit (n : Nat) : Char := alphabet.getD n '='

def value? (c : Char) : Option Nat := alphabet.findIdx? (· == c)

/-! ## Writing -/

def encode : List UInt8 → List Char
  | [] => []
  | [a] => [digit (a.toNat / 4), digit (a.toNat % 4 * 16), '=', '=']
  | [a, b] =>
      [digit (a.toNat / 4), digit (a.toNat % 4 * 16 + b.toNat / 16), digit (b.toNat % 16 * 4),
        '=']
  | a :: b :: c :: rest =>
      digit (a.toNat / 4) :: digit (a.toNat % 4 * 16 + b.toNat / 16) ::
        digit (b.toNat % 16 * 4 + c.toNat / 64) :: digit (c.toNat % 64) :: encode rest

/-! ## Reading -/

/-- How much of a group of four digits has been read, with the bits that belong to the next
byte. -/
inductive Quad where
  | zero
  | one (left : Nat)
  | two (left : Nat) (padded : Bool)
  | three (left : Nat)
deriving DecidableEq, Repr

/-- The bytes a group that has been started still lacks. -/
def Quad.missing : Quad → Nat
  | .zero => 0
  | .one _ => 3
  | .two _ _ => 2
  | .three _ => 1

def decodeFrom : Quad → List Char → Option (List UInt8)
  | .zero, [] => some []
  | _, [] => none
  | q, c :: rest =>
      if c = '=' then
        match q with
        -- The last group is complete, and the rest of the text is not looked at.
        | .three _ | .two _ true => some []
        | .two left false => decodeFrom (.two left true) rest
        -- Padding at another place is skipped.
        | .zero => decodeFrom .zero rest
        | .one left => decodeFrom (.one left) rest
      else
        match value? c with
        | none => decodeFrom q rest
        | some v =>
            match q with
            | .zero => decodeFrom (.one v) rest
            | .one left =>
                (decodeFrom (.two (v % 16) false) rest).map (UInt8.ofNat (left * 4 + v / 16) :: ·)
            | .two left _ =>
                (decodeFrom (.three (v % 4)) rest).map (UInt8.ofNat (left * 16 + v / 4) :: ·)
            | .three left =>
                (decodeFrom .zero rest).map (UInt8.ofNat (left * 64 + v) :: ·)

def decode (x : List Char) : Option (List UInt8) := decodeFrom .zero x

/-! ## The digits -/

theorem alphabet_eq : alphabet =
    ['A', 'B', 'C', 'D', 'E', 'F', 'G', 'H', 'I', 'J', 'K', 'L', 'M', 'N', 'O', 'P', 'Q', 'R',
      'S', 'T', 'U', 'V', 'W', 'X', 'Y', 'Z', 'a', 'b', 'c', 'd', 'e', 'f', 'g', 'h', 'i', 'j',
      'k', 'l', 'm', 'n', 'o', 'p', 'q', 'r', 's', 't', 'u', 'v', 'w', 'x', 'y', 'z', '0', '1',
      '2', '3', '4', '5', '6', '7', '8', '9', '+', '/'] := by
  decide

theorem length_alphabet : alphabet.length = 64 := by rw [alphabet_eq]; rfl

theorem nodup_alphabet : alphabet.Nodup := by
  refine List.Nodup.of_map Char.toNat ?_
  rw [alphabet_eq]
  decide

theorem digit_eq {n : Nat} (h : n < alphabet.length) : digit n = alphabet[n] :=
  (List.getElem_eq_getD '=').symm

theorem value?_digit {n : Nat} (h : n < 64) : value? (digit n) = some n := by
  rw [← length_alphabet] at h
  rw [value?, digit_eq h, List.findIdx?_eq_some_iff_getElem]
  refine ⟨h, beq_self_eq_true _, fun j hj => ?_⟩
  have hne : alphabet[j] ≠ alphabet[n] := fun heq =>
    absurd (nodup_alphabet.getElem_inj_iff.1 heq) (Nat.ne_of_lt hj)
  simpa using hne

theorem digit_mem {n : Nat} (h : n < 64) : digit n ∈ alphabet := by
  rw [← length_alphabet] at h
  rw [digit_eq h]
  exact List.getElem_mem h

theorem ne_pad_of_mem {c : Char} (h : c ∈ alphabet) : c ≠ '=' := by
  rintro rfl
  rw [alphabet_eq] at h
  revert h
  decide

/-! ## Reading what was written -/

section Digits

variable {n : Nat} (h : n < 64) (rest : List Char)
include h

/-- What a digit adds to the group it is read in. -/
theorem decodeFrom_digit (q : Quad) : decodeFrom q (digit n :: rest) =
    match q with
    | .zero => decodeFrom (.one n) rest
    | .one left =>
      (decodeFrom (.two (n % 16) false) rest).map (UInt8.ofNat (left * 4 + n / 16) :: ·)
    | .two left _ =>
      (decodeFrom (.three (n % 4)) rest).map (UInt8.ofNat (left * 16 + n / 4) :: ·)
    | .three left => (decodeFrom .zero rest).map (UInt8.ofNat (left * 64 + n) :: ·) := by
  rw [decodeFrom.eq_def]
  simp only [ne_pad_of_mem (digit_mem h), if_false, value?_digit h]

theorem decodeFrom_digit_zero :
    decodeFrom .zero (digit n :: rest) = decodeFrom (.one n) rest := decodeFrom_digit h rest .zero

theorem decodeFrom_digit_one (left : Nat) :
    decodeFrom (.one left) (digit n :: rest) =
      (decodeFrom (.two (n % 16) false) rest).map (UInt8.ofNat (left * 4 + n / 16) :: ·) :=
  decodeFrom_digit h rest (.one left)

theorem decodeFrom_digit_two (left : Nat) (padded : Bool) :
    decodeFrom (.two left padded) (digit n :: rest) =
      (decodeFrom (.three (n % 4)) rest).map (UInt8.ofNat (left * 16 + n / 4) :: ·) :=
  decodeFrom_digit h rest (.two left padded)

theorem decodeFrom_digit_three (left : Nat) :
    decodeFrom (.three left) (digit n :: rest) =
      (decodeFrom .zero rest).map (UInt8.ofNat (left * 64 + n) :: ·) :=
  decodeFrom_digit h rest (.three left)

end Digits

theorem decodeFrom_pad_two (left : Nat) (rest : List Char) :
    decodeFrom (.two left false) ('=' :: rest) = decodeFrom (.two left true) rest := rfl

theorem decodeFrom_padded_two (left : Nat) (rest : List Char) :
    decodeFrom (.two left true) ('=' :: rest) = some [] := rfl

theorem decodeFrom_pad_three (left : Nat) (rest : List Char) :
    decodeFrom (.three left) ('=' :: rest) = some [] := rfl

theorem ofNat_of_eq {a : UInt8} {n : Nat} (h : n = a.toNat) : UInt8.ofNat n = a := by
  rw [h, UInt8.ofNat_toNat]

attribute [elab_as_elim] encode.induct_unfolding

theorem decode_encode (x : List UInt8) : decode (encode x) = some x := by
  unfold decode
  fun_induction encode x with
  | case1 => rfl
  | case2 a =>
    have ha := a.toNat_lt
    rw [decodeFrom_digit_zero (by omega), decodeFrom_digit_one (by omega), decodeFrom_pad_two,
      decodeFrom_padded_two, Option.map_some, ofNat_of_eq (a := a) (by omega)]
  | case3 a b =>
    have ha := a.toNat_lt
    have hb := b.toNat_lt
    rw [decodeFrom_digit_zero (by omega), decodeFrom_digit_one (by omega),
      decodeFrom_digit_two (by omega), decodeFrom_pad_three]
    simp only [Option.map_some]
    rw [ofNat_of_eq (a := a) (by omega), ofNat_of_eq (a := b) (by omega)]
  | case4 a b c rest ih =>
    have ha := a.toNat_lt
    have hb := b.toNat_lt
    have hc := c.toNat_lt
    rw [decodeFrom_digit_zero (by omega), decodeFrom_digit_one (by omega),
      decodeFrom_digit_two (by omega), decodeFrom_digit_three (by omega), ih]
    simp only [Option.map_some]
    rw [ofNat_of_eq (a := a) (by omega), ofNat_of_eq (a := b) (by omega),
      ofNat_of_eq (a := c) (by omega)]

/-! ## Characters and lengths -/

theorem mem_encode {c : Char} {x : List UInt8} (h : c ∈ encode x) : c ∈ alphabet ∨ c = '=' := by
  fun_induction encode x with
  | case1 => cases h
  | case2 a =>
    have ha := a.toNat_lt
    simp only [List.mem_cons, List.not_mem_nil, or_false] at h
    rcases h with rfl | rfl | rfl | rfl
    · exact Or.inl (digit_mem (by omega))
    · exact Or.inl (digit_mem (by omega))
    · exact Or.inr rfl
    · exact Or.inr rfl
  | case3 a b =>
    have ha := a.toNat_lt
    have hb := b.toNat_lt
    simp only [List.mem_cons, List.not_mem_nil, or_false] at h
    rcases h with rfl | rfl | rfl | rfl
    · exact Or.inl (digit_mem (by omega))
    · exact Or.inl (digit_mem (by omega))
    · exact Or.inl (digit_mem (by omega))
    · exact Or.inr rfl
  | case4 a b c' rest ih =>
    have ha := a.toNat_lt
    have hb := b.toNat_lt
    have hc := c'.toNat_lt
    simp only [List.mem_cons] at h
    rcases h with rfl | rfl | rfl | rfl | h
    · exact Or.inl (digit_mem (by omega))
    · exact Or.inl (digit_mem (by omega))
    · exact Or.inl (digit_mem (by omega))
    · exact Or.inl (digit_mem (by omega))
    · exact ih h

/-- Without padding every digit counts. -/
theorem length_encode_of_getLast? {x : List UInt8} (h : (encode x).getLast? ≠ some '=') :
    3 * (encode x).length = 4 * x.length := by
  fun_induction encode x with
  | case1 => rfl
  | case2 a => simp at h
  | case3 a b => simp at h
  | case4 a b c rest ih =>
    have hrest : (encode rest).getLast? ≠ some '=' := by
      cases hcase : encode rest with
      | nil => simp
      | cons d ds => simpa [hcase] using h
    have := ih hrest
    simp only [List.length_cons]
    omega

theorem length_decodeFrom_le {q : Quad} {x : List Char} {bytes : List UInt8}
    (h : decodeFrom q x = some bytes) : 4 * bytes.length ≤ 3 * x.length + q.missing := by
  fun_induction decodeFrom q x generalizing bytes with
  | case1 =>
    cases h
    exact Nat.zero_le _
  | case2 => cases h
  | case3 | case4 =>
    cases h
    exact Nat.zero_le _
  | case5 rest left ih | case6 rest ih | case7 rest left ih =>
    have := ih h
    simp only [List.length_cons, Quad.missing] at this ⊢
    omega
  | case8 q c rest hpad hvalue ih =>
    have := ih h
    simp only [List.length_cons]
    omega
  | case9 c rest hpad v hvalue ih =>
    have := ih h
    simp only [List.length_cons, Quad.missing] at this ⊢
    omega
  | case10 c rest hpad v hvalue left ih | case11 c rest hpad v hvalue left padded ih
  | case12 c rest hpad v hvalue left ih =>
    obtain ⟨bytes', hrest, rfl⟩ := Option.map_eq_some_iff.mp h
    have := ih hrest
    simp only [List.length_cons, Quad.missing] at this ⊢
    omega

/-- Three bytes take four characters. -/
theorem length_decode_le {x : List Char} {bytes : List UInt8} (h : decode x = some bytes) :
    4 * bytes.length ≤ 3 * x.length := length_decodeFrom_le h

end Base64

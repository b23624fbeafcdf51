import Revng.Lib.LittleEndian

/-!
# UTF-16

A code point is written as one unit of 16 bits, or as two when it does not fit one: a high
surrogate and a low one.  The surrogates themselves are no code points.
-/

namespace Utf16

def IsScalar (c : Nat) : Prop := c < 0xD800 ∨ 0xDFFF < c ∧ c ≤ 0x10FFFF

instance (c : Nat) : Decidable (IsScalar c) := inferInstanceAs (Decidable (_ ∨ _))

/-- The code units of a code point. -/
def units (c : Nat) : List Nat :=
  if c < 0x10000 then [c]
  else [0xD800 + (c - 0x10000) / 0x400, 0xDC00 + (c - 0x10000) % 0x400]

def unitBytes (littleEndian : Bool) (unit : Nat) : List UInt8 :=
  if littleEndian then LittleEndian.write 2 unit else (LittleEndian.write 2 unit).reverse

def encode (littleEndian : Bool) (codePoints : List Nat) : List UInt8 :=
  (codePoints.flatMap units).flatMap (unitBytes littleEndian)

/-- The number that two bytes stand for. -/
def codeUnit (littleEndian : Bool) (first second : UInt8) : Nat :=
  if littleEndian then first.toNat ||| second.toNat <<< 8
  else second.toNat ||| first.toNat <<< 8

/-! ## Units -/

variable {littleEndian : Bool} {first second : UInt8} {unit : Nat}

theorem codeUnit_eq : codeUnit littleEndian first second =
    if littleEndian then first.toNat + 256 * second.toNat
    else second.toNat + 256 * first.toNat := by
  have hor (low high : UInt8) : low.toNat ||| high.toNat <<< 8 = low.toNat + 256 * high.toNat := by
    have h := Nat.shiftLeft_add_eq_or_of_lt low.toNat_lt high.toNat
    rw [Nat.or_comm, ← h, Nat.shiftLeft_eq]
    omega
  simp only [codeUnit, hor]

theorem codeUnit_lt : codeUnit littleEndian first second < 0x10000 := by
  have hfirst := first.toNat_lt
  have hsecond := second.toNat_lt
  rw [codeUnit_eq]
  split <;> omega

theorem unitBytes_codeUnit : unitBytes littleEndian (codeUnit littleEndian first second) =
    [first, second] := by
  have hlow (low high : UInt8) : UInt8.ofNat (low.toNat + 256 * high.toNat) = low := by
    apply UInt8.toNat_inj.mp
    simp
  have hhigh (low high : UInt8) : UInt8.ofNat ((low.toNat + 256 * high.toNat) / 256) = high := by
    apply UInt8.toNat_inj.mp
    have := low.toNat_lt
    have := high.toNat_lt
    simp
    omega
  rw [codeUnit_eq]
  cases littleEndian <;> simp [unitBytes, LittleEndian.write, hlow, hhigh]

theorem codeUnit_of_unitBytes (h : unit < 0x10000)
    (hbytes : unitBytes littleEndian unit = [first, second]) :
    codeUnit littleEndian first second = unit := by
  rw [codeUnit_eq]
  cases littleEndian <;> simp [unitBytes, LittleEndian.write] at hbytes <;>
    obtain ⟨rfl, rfl⟩ := hbytes <;> simp <;> omega

@[simp] theorem length_unitBytes : (unitBytes littleEndian unit).length = 2 := by
  cases littleEndian <;> simp [unitBytes]

/-! ## Code points -/

@[simp] theorem encode_nil : encode littleEndian [] = [] := rfl

theorem encode_append (cs ds : List Nat) :
    encode littleEndian (cs ++ ds) = encode littleEndian cs ++ encode littleEndian ds := by
  simp [encode]

theorem encode_singleton_of_lt {c : Nat} (h : c < 0x10000) :
    encode littleEndian [c] = unitBytes littleEndian c := by
  simp [encode, units, h]

end Utf16

/-!
## UTF-8

A code point is written as a lead byte and up to three continuation bytes of six bits each.
The mark of the lead byte tells how many continuation bytes there are, and a code point takes
as few of them as it can.
-/

namespace Utf8

open Utf16 (IsScalar)

/-- How many continuation bytes a code point takes. -/
def extra (c : Nat) : Nat := if c < 0x80 then 0 else if c < 0x800 then 1 else if c < 0x10000 then 2 else 3

def leadMark : Nat → Nat
  | 0 => 0
  | 1 => 0xC0
  | 2 => 0xE0
  | _ => 0xF0

/-- How many values a lead byte has room for. -/
def leadRoom : Nat → Nat
  | 0 => 0x80
  | 1 => 0x20
  | 2 => 0x10
  | _ => 0x08

/-- The lowest bits of a code point, six in a byte. -/
def continuation : Nat → Nat → List UInt8
  | 0, _ => []
  | n + 1, c => UInt8.ofNat (0x80 + c / 64 ^ n % 64) :: continuation n c

def lead (n value : Nat) : UInt8 := UInt8.ofNat (leadMark n + value)

/-- The bytes of a code point. -/
def bytes (c : Nat) : List UInt8 := lead (extra c) (c / 64 ^ extra c) :: continuation (extra c) c

def encode (codePoints : List Nat) : List UInt8 := codePoints.flatMap bytes

def IsContinuation (b : UInt8) : Prop := 0x80 ≤ b.toNat ∧ b.toNat < 0xC0

/-! ## One code point -/

variable {n c value : Nat}

@[simp] theorem length_continuation : ∀ n c : Nat, (continuation n c).length = n
  | 0, _ => rfl
  | n + 1, c => by rw [continuation, List.length_cons, length_continuation n c]

theorem isContinuation_of_mem {b : UInt8} (h : b ∈ continuation n c) : IsContinuation b := by
  induction n with
  | zero => cases h
  | succ n ih =>
    rcases List.mem_cons.mp h with rfl | h
    · have hlow : c / 64 ^ n % 64 < 64 := Nat.mod_lt _ (by decide)
      rw [IsContinuation, UInt8.toNat_ofNat']
      omega
    · exact ih h

theorem toNat_lead (hn : n ≤ 3) (hvalue : value < leadRoom n) :
    (lead n value).toNat = leadMark n + value := by
  have hlt : leadMark n + value < 256 := by
    match n, hn with
    | 0, _ | 1, _ | 2, _ | 3, _ =>
      simp only [leadRoom] at hvalue
      simp only [leadMark]
      omega
  rw [lead, UInt8.toNat_ofNat', Nat.mod_eq_of_lt hlt]

theorem extra_le (c : Nat) : extra c ≤ 3 := by
  unfold extra
  split_ifs <;> decide

theorem div_lt_leadRoom (h : IsScalar c) : c / 64 ^ extra c < leadRoom (extra c) := by
  rw [IsScalar] at h
  unfold extra
  split_ifs <;> rw [leadRoom] <;> omega

theorem length_bytes (c : Nat) : (bytes c).length = extra c + 1 := by
  rw [bytes, List.length_cons, length_continuation]

theorem zero_notMem_bytes (h : IsScalar c) (hzero : c ≠ 0) : 0 ∉ bytes c := by
  intro hmem
  rcases List.mem_cons.mp hmem with hlead | hrest
  · have hnat := congrArg UInt8.toNat hlead
    rw [toNat_lead (extra_le c) (div_lt_leadRoom h)] at hnat
    unfold extra at hnat
    split_ifs at hnat <;> simp only [leadMark, UInt8.toNat_zero, pow_zero, Nat.div_one] at hnat <;>
      omega
  · exact absurd (isContinuation_of_mem hrest).1 (by decide)

/-! ## Code points -/

@[simp] theorem encode_nil : encode [] = [] := rfl

@[simp] theorem encode_cons (c : Nat) (cs : List Nat) : encode (c :: cs) = bytes c ++ encode cs :=
  rfl

theorem encode_append (cs ds : List Nat) : encode (cs ++ ds) = encode cs ++ encode ds := by
  simp [encode]

theorem encode_concat_nul (cs : List Nat) : encode (cs ++ [0]) = encode cs ++ [0] :=
  encode_append cs [0]

theorem zero_notMem_encode {cs : List Nat} (h : ∀ c ∈ cs, IsScalar c ∧ c ≠ 0) : 0 ∉ encode cs := by
  intro hmem
  obtain ⟨c, hc, hbyte⟩ := List.mem_flatMap.mp hmem
  exact zero_notMem_bytes (h c hc).1 (h c hc).2 hbyte

theorem length_le_length_encode (cs : List Nat) : cs.length ≤ (encode cs).length := by
  induction cs with
  | nil => exact Nat.le_refl _
  | cons c cs ih =>
    rw [encode_cons, List.length_append, length_bytes, List.length_cons]
    omega

end Utf8

import Revng.Binary.FromUtf16

/-!
# Decoding UTF-8

`fromUTF8` looks for a string at the start of a buffer, as `fromUTF16` does, and hands over each
code point with its own offset.

The check for a cut sequence lets it end one byte behind the buffer, so a buffer that ends right
before the last byte of a sequence is read one byte too far.  Nothing else goes wrong
(`decodesUTF8_iff`).
-/

namespace Binary

open Utf8
open Utf16 (IsScalar)

/-! ## Decoding -/

/-- The bits of a code point in the byte it starts with, and how many bytes follow. -/
def leadBits (byte : UInt8) : Option (Nat × Nat) :=
  if byte &&& 0b10000000 = 0 then some (byte.toNat, 0)
  else if byte &&& 0b11100000 = 0b11000000 then some ((byte &&& 0b00011111).toNat, 1)
  else if byte &&& 0b11110000 = 0b11100000 then some ((byte &&& 0b00001111).toNat, 2)
  else if byte &&& 0b11111000 = 0b11110000 then some ((byte &&& 0b00000111).toNat, 3)
  else none

/-- Consume the lowest six bits of each extra byte, from an offset on.  A byte outside of the
buffer has no result, and `some none` is a byte that does not go on with the sequence. -/
def readExtraBytes (data : List UInt8) (position : Nat) : Nat → Nat → Option (Option Nat)
  | 0, codePoint => some (some codePoint)
  | extraBytes + 1, codePoint => do
      let byte ← data[position]?
      if byte &&& 0b11000000 ≠ 0b10000000 then return none
      else
        let codePoint := codePoint <<< 6 ||| (byte &&& 0b00111111).toNat
        readExtraBytes data (position + 1) extraBytes codePoint

/-- Overlong encodings and invalid ranges. -/
def isRejected (codePoint extraBytes : Nat) : Bool :=
  (codePoint < 0x80 ∧ 0 < extraBytes) ∨ (codePoint < 0x800 ∧ 1 < extraBytes) ∨
    (codePoint < 0x10000 ∧ 2 < extraBytes) ∨ (0xD800 ≤ codePoint ∧ codePoint ≤ 0xDFFF) ∨
    0x10FFFF < codePoint

/-- Read a code point.  `current` is an offset into the buffer. -/
def readUTF8 (data : List UInt8) (current codePointIndex : Nat) : Option Reading := do
  let byte ← data[current]?
  if byte = 0 then
    if current = 0 then return .done .invalid
    else return .done (← UnicodeCStringView.make (data.take (current + 1)) .utf8 codePointIndex)
  else
    match leadBits byte with
    | none => return .done .invalid
    | some (bits, extraBytes) =>
        if data.length < current + extraBytes then return .done .invalid
        else
          match ← readExtraBytes data (current + 1) extraBytes bits with
          | none => return .done .invalid
          | some codePoint =>
              if isRejected codePoint extraBytes then return .done .invalid
              else return .codePoint (current + 1 + extraBytes) codePoint

/-- The loop, with the calls so far. -/
def fromUTF8Loop (data : List UInt8) (processCodePoint : CodePointProcessor) :
    Nat → Nat → Nat → List CodePointCall → Option (UnicodeCStringView × List CodePointCall)
  | 0, _, _, _ => none
  | fuel + 1, current, codePointIndex, calls =>
      if current < data.length then do
        match ← readUTF8 data current codePointIndex with
        | .done view => return (view, calls)
        | .codePoint next codePoint =>
            let call := ⟨current, codePointIndex, codePoint⟩
            if processCodePoint call then
              fromUTF8Loop data processCodePoint fuel next (codePointIndex + 1) (calls ++ [call])
            else return (.invalid, calls ++ [call])
      else return (.invalid, calls)

def fromUTF8 (data : List UInt8) (processCodePoint : CodePointProcessor) :
    Option (UnicodeCStringView × List CodePointCall) :=
  fromUTF8Loop data processCodePoint (data.length + 1) 0 0 []

/-! ## The strings in a buffer -/

/-- The buffer starts with the string of these code points and its NUL. -/
def IsUTF8CString (data : List UInt8) (codePoints : List Nat) : Prop :=
  (∀ c ∈ codePoints, IsScalar c ∧ c ≠ 0) ∧ encode (codePoints ++ [0]) <+: data

/-- The code points with their offsets. -/
def utf8Calls : Nat → Nat → List Nat → List CodePointCall
  | _, _, [] => []
  | offset, index, c :: cs =>
      ⟨offset, index, c⟩ :: utf8Calls (offset + (bytes c).length) (index + 1) cs

/-- The decoder reads inside the buffer and finds the string when there is one, and the processor
gets its code points. -/
def DecodesUTF8 (data : List UInt8) (processCodePoint : CodePointProcessor) : Prop :=
  ∃ view calls, fromUTF8 data processCodePoint = some (view, calls) ∧
    (∀ codePoints ≠ [], IsUTF8CString data codePoints →
      calls = callsMade processCodePoint (utf8Calls 0 0 codePoints) ∧
      view = if (utf8Calls 0 0 codePoints).all processCodePoint then
          ⟨encode (codePoints ++ [0]), .utf8, codePoints.length⟩
        else .invalid) ∧
    ((¬∃ codePoints ≠ [], IsUTF8CString data codePoints) → view = .invalid)

/-- The bytes are a sequence without its last byte. -/
def IsCut (rest : List UInt8) : Prop :=
  ∃ n < 3, ∃ value < leadRoom (n + 1), ∃ more : List UInt8, more.length = n ∧
    (∀ b ∈ more, IsContinuation b) ∧ rest = lead (n + 1) value :: more

/-- The buffer ends in a cut sequence, after code points that the processor accepts. -/
def EndsCut (data : List UInt8) (processCodePoint : CodePointProcessor) : Prop :=
  ∃ codePoints rest, (∀ c ∈ codePoints, IsScalar c ∧ c ≠ 0) ∧
    (utf8Calls 0 0 codePoints).all processCodePoint ∧
    data = encode codePoints ++ rest ∧ IsCut rest

/-! ## One byte -/

theorem forall_byte {P : UInt8 → Prop} (h : ∀ n : Fin 256, P (UInt8.ofNat n)) (b : UInt8) : P b := by
  have hb := h ⟨b.toNat, b.toNat_lt⟩
  rwa [UInt8.ofNat_toNat] at hb

/-- A byte goes on with a sequence when its mark says so. -/
theorem and_continuation_iff (b : UInt8) :
    b &&& 0b11000000 = 0b10000000 ↔ 0x80 ≤ b.toNat ∧ b.toNat < 0xC0 := by
  revert b
  refine forall_byte ?_
  decide +kernel

theorem toNat_and_continuation (b : UInt8) : (b &&& 0b00111111).toNat = b.toNat % 64 := by
  rw [UInt8.toNat_and]
  exact Nat.and_two_pow_sub_one_eq_mod b.toNat 6

theorem leadBits_eq (b : UInt8) : leadBits b =
    if b.toNat < 0x80 then some (b.toNat, 0)
    else if b.toNat < 0xC0 then none
    else if b.toNat < 0xE0 then some (b.toNat - 0xC0, 1)
    else if b.toNat < 0xF0 then some (b.toNat - 0xE0, 2)
    else if b.toNat < 0xF8 then some (b.toNat - 0xF0, 3)
    else none := by
  revert b
  refine forall_byte ?_
  decide +kernel

variable {n value : Nat}

theorem leadBits_lead (hn : n ≤ 3) (hvalue : value < leadRoom n) :
    leadBits (lead n value) = some (value, n) := by
  rw [leadBits_eq, toNat_lead hn hvalue]
  match n, hn with
  | 0, _ | 1, _ | 2, _ | 3, _ =>
    simp only [leadRoom] at hvalue
    simp only [leadMark]
    split_ifs <;> first | omega | simp

theorem eq_lead_of_leadBits {b : UInt8} (h : leadBits b = some (value, n)) :
    n ≤ 3 ∧ value < leadRoom n ∧ b = lead n value := by
  have hbyte := b.toNat_lt
  have hmain : n ≤ 3 ∧ value < leadRoom n ∧ leadMark n + value = b.toNat := by
    rw [leadBits_eq] at h
    split_ifs at h <;> simp only [Option.some.injEq, Prod.mk.injEq] at h <;>
      obtain ⟨hvalue, rfl⟩ := h <;> simp only [leadRoom, leadMark] <;> omega
  refine ⟨hmain.1, hmain.2.1, ?_⟩
  rw [lead, hmain.2.2, UInt8.ofNat_toNat]

theorem shiftLeft_or_eq (codePoint : Nat) (b : UInt8) :
    codePoint <<< 6 ||| (b &&& 0b00111111).toNat = codePoint * 64 + b.toNat % 64 := by
  rw [toNat_and_continuation,
    ← Nat.shiftLeft_add_eq_or_of_lt (Nat.mod_lt _ (by decide) : b.toNat % 64 < 2 ^ 6),
    Nat.shiftLeft_eq]

/-! ## The extra bytes -/

variable {data : List UInt8} {processCodePoint : CodePointProcessor}

variable {position : Nat}

variable {codePoint : Nat} {rest : List UInt8}

theorem readExtraBytes_cons {extraBytes : Nat} {b : UInt8}
    (hdata : data.drop position = b :: rest) :
    readExtraBytes data position (extraBytes + 1) codePoint =
      if b.toNat < 0x80 ∨ 0xC0 ≤ b.toNat then some none
      else readExtraBytes data (position + 1) extraBytes (codePoint * 64 + b.toNat % 64) := by
  have hbyte : data[position]? = some b := by rw [← List.head?_drop, hdata, List.head?_cons]
  have hmark : b &&& 0b11000000 ≠ 0b10000000 ↔ b.toNat < 0x80 ∨ 0xC0 ≤ b.toNat := by
    rw [Ne, and_continuation_iff]
    omega
  rw [readExtraBytes, hbyte]
  simp only [Option.bind_eq_bind, Option.bind_some, hmark, shiftLeft_or_eq]
  rfl

theorem readExtraBytes_nil {extraBytes : Nat} (hdata : data.drop position = []) :
    readExtraBytes data position (extraBytes + 1) codePoint = none := by
  have hbyte : data[position]? = none := by rw [← List.head?_drop, hdata, List.head?_nil]
  rw [readExtraBytes, hbyte]
  rfl

theorem drop_succ_of_drop {b : UInt8} (hdata : data.drop position = b :: rest) :
    data.drop (position + 1) = rest := by
  rw [← List.tail_drop, hdata, List.tail_cons]

/-- The bits of a code point are put together again. -/
theorem readExtraBytes_continuation {c : Nat}
    (hdata : data.drop position = continuation n c ++ rest) :
    readExtraBytes data position n (c / 64 ^ n) = some (some c) := by
  induction n generalizing position with
  | zero => rw [readExtraBytes, pow_zero, Nat.div_one]
  | succ n ih =>
    have hbyte : (UInt8.ofNat (0x80 + c / 64 ^ n % 64)).toNat = 0x80 + c / 64 ^ n % 64 := by
      rw [UInt8.toNat_ofNat']
      omega
    have hvalue : c / 64 ^ (n + 1) * 64 + (0x80 + c / 64 ^ n % 64) % 64 = c / 64 ^ n := by
      rw [pow_succ, ← Nat.div_div_eq_div_mul]
      omega
    rw [readExtraBytes_cons hdata, hbyte, if_neg (by omega), hvalue]
    exact ih (drop_succ_of_drop hdata)

/-- What the extra bytes are like when they are read to a code point, and when the buffer ends
before the last of them. -/
theorem readExtraBytes_cases (n position codePoint : Nat) :
    (∃ c rest, readExtraBytes data position n codePoint = some (some c) ∧ codePoint = c / 64 ^ n ∧
      data.drop position = continuation n c ++ rest) ∨
    readExtraBytes data position n codePoint = some none ∨
    (readExtraBytes data position n codePoint = none ∧ (data.drop position).length < n ∧
      ∀ b ∈ data.drop position, IsContinuation b) := by
  induction n generalizing position codePoint with
  | zero => exact Or.inl ⟨codePoint, data.drop position, rfl, by rw [pow_zero, Nat.div_one], rfl⟩
  | succ n ih =>
    cases hdata : data.drop position with
    | nil => exact Or.inr (Or.inr ⟨readExtraBytes_nil hdata, Nat.succ_pos n, by simp⟩)
    | cons b rest =>
      rw [readExtraBytes_cons hdata]
      split
      next => exact Or.inr (Or.inl rfl)
      next hmark =>
        have hcontinuation : IsContinuation b := by
          rw [IsContinuation]
          omega
        have hrest := ih (position + 1) (codePoint * 64 + b.toNat % 64)
        rw [drop_succ_of_drop hdata] at hrest
        rcases hrest with ⟨c, more, hread, hc, rfl⟩ | hread | ⟨hread, hlength, hmore⟩
        · refine Or.inl ⟨c, more, hread, ?_, ?_⟩
          · rw [pow_succ, ← Nat.div_div_eq_div_mul, ← hc]
            omega
          · have hbyte : 0x80 + c / 64 ^ n % 64 = b.toNat := by
              have hle := hcontinuation.1
              have hlt := hcontinuation.2
              omega
            rw [continuation, hbyte, UInt8.ofNat_toNat, List.cons_append]
        · exact Or.inr (Or.inl hread)
        · refine Or.inr (Or.inr ⟨hread, Nat.succ_lt_succ hlength, ?_⟩)
          exact List.forall_mem_cons.mpr ⟨hcontinuation, hmore⟩

variable {more : List UInt8}

/-- No byte that goes on with the sequence is turned down. -/
theorem readExtraBytes_ne_invalid (hdata : data.drop position = more)
    (hmore : ∀ b ∈ more, IsContinuation b) :
    readExtraBytes data position n codePoint ≠ some none := by
  induction n generalizing position codePoint more with
  | zero => exact nofun
  | succ n ih =>
    cases more with
    | nil =>
      rw [readExtraBytes_nil hdata]
      exact nofun
    | cons b more =>
      obtain ⟨hb, hmore⟩ := List.forall_mem_cons.mp hmore
      rw [readExtraBytes_cons hdata, if_neg (by rw [IsContinuation] at hb; omega)]
      exact ih (drop_succ_of_drop hdata) hmore

/-! ## One code point -/

theorem isRejected_eq_false_iff {c : Nat} (hn : n ≤ 3) (hroom : c / 64 ^ n < leadRoom n) :
    isRejected c n = false ↔ IsScalar c ∧ extra c = n := by
  have hfalse : isRejected c n = false ↔ ¬((c < 0x80 ∧ 0 < n) ∨ (c < 0x800 ∧ 1 < n) ∨
      (c < 0x10000 ∧ 2 < n) ∨ (0xD800 ≤ c ∧ c ≤ 0xDFFF) ∨ 0x10FFFF < c) := decide_eq_false_iff_not
  rw [hfalse, IsScalar, extra]
  obtain rfl | rfl | rfl | rfl : n = 0 ∨ n = 1 ∨ n = 2 ∨ n = 3 := by omega
  all_goals
    simp only [leadRoom] at hroom
    split_ifs <;> grind

variable {current codePointIndex : Nat}

/-- What is read where a sequence starts. -/
theorem readUTF8_lead (hn : n ≤ 3) (hvalue : value < leadRoom n) (hzero : lead n value ≠ 0)
    (hdata : data.drop current = lead n value :: more) :
    readUTF8 data current codePointIndex =
      if more.length + 1 < n then some (.done .invalid)
      else (readExtraBytes data (current + 1) n value).map fun
        | none => .done .invalid
        | some c =>
          if isRejected c n then .done .invalid else .codePoint (current + 1 + n) c := by
  have hbyte : data[current]? = some (lead n value) := by
    rw [← List.head?_drop, hdata, List.head?_cons]
  have hlength : data.length < current + n ↔ more.length + 1 < n := by
    have hdrop := congrArg List.length hdata
    rw [List.length_drop, List.length_cons] at hdrop
    omega
  simp only [readUTF8, hbyte, Option.bind_eq_bind, Option.bind_some, if_neg hzero,
    leadBits_lead hn hvalue, hlength]
  split
  · rfl
  · cases readExtraBytes data (current + 1) n value with
    | none => rfl
    | some codePoint? =>
      cases codePoint? with
      | none => rfl
      | some c =>
        dsimp only [Option.bind_some, Option.map_some]
        split <;> rfl

theorem readUTF8_bytes {c : Nat} (hc : IsScalar c) (hzero : c ≠ 0)
    (hdata : data.drop current = bytes c ++ more) :
    readUTF8 data current codePointIndex =
      some (.codePoint (current + (bytes c).length) c) := by
  have hlead : lead (extra c) (c / 64 ^ extra c) ≠ 0 := fun heq =>
    zero_notMem_bytes hc hzero (heq ▸ List.mem_cons_self)
  rw [bytes, List.cons_append] at hdata
  rw [readUTF8_lead (extra_le c) (div_lt_leadRoom hc) hlead hdata,
    readExtraBytes_continuation (drop_succ_of_drop hdata), if_neg, Option.map_some]
  · have hkept : isRejected c (extra c) = false :=
      (isRejected_eq_false_iff (extra_le c) (div_lt_leadRoom hc)).mpr ⟨hc, rfl⟩
    dsimp only
    rw [hkept, length_bytes, Nat.add_comm (extra c), ← Nat.add_assoc]
    rfl
  · rw [List.length_append, length_continuation]
    omega

theorem lead_succ_ne_zero (hn : n < 3) (hvalue : value < leadRoom (n + 1)) :
    lead (n + 1) value ≠ 0 := by
  intro heq
  have hnat := congrArg UInt8.toNat heq
  rw [toNat_lead hn hvalue] at hnat
  match n, hn with
  | 0, _ | 1, _ | 2, _ => simp [leadMark] at hnat

/-- The byte behind the buffer is read. -/
theorem readUTF8_cut (hcut : IsCut (data.drop current)) :
    readUTF8 data current codePointIndex = none := by
  obtain ⟨n, hn, value, hvalue, more, hlength, hmore, hdata⟩ := hcut
  rw [readUTF8_lead hn hvalue (lead_succ_ne_zero hn hvalue) hdata, if_neg (by omega),
    Option.map_eq_none_iff]
  have hrest := drop_succ_of_drop hdata
  rcases readExtraBytes_cases (n + 1) (current + 1) value with
    ⟨c, rest, -, -, hbytes⟩ | hread | ⟨hread, -⟩
  · rw [hrest] at hbytes
    have hlong := congrArg List.length hbytes
    rw [List.length_append, length_continuation] at hlong
    omega
  · exact absurd hread (readExtraBytes_ne_invalid hrest hmore)
  · exact hread

theorem readUTF8_nul (hdata : data.drop current = 0 :: more) :
    readUTF8 data current codePointIndex =
      if current = 0 then some (.done .invalid)
      else (UnicodeCStringView.make (data.take (current + 1)) .utf8 codePointIndex).map .done := by
  have hbyte : data[current]? = some 0 := by rw [← List.head?_drop, hdata, List.head?_cons]
  simp only [readUTF8, hbyte, Option.bind_eq_bind, Option.bind_some, if_pos]
  split
  · rfl
  · cases UnicodeCStringView.make (data.take (current + 1)) .utf8 codePointIndex <;> rfl

/-- What starts with no NUL is a code point, is turned down or is cut. -/
theorem readUTF8_cases {b : UInt8} (hdata : data.drop current = b :: more) (hzero : b ≠ 0) :
    (∃ c rest, IsScalar c ∧ c ≠ 0 ∧ b :: more = bytes c ++ rest) ∨
    readUTF8 data current codePointIndex = some (.done .invalid) ∨ IsCut (b :: more) := by
  cases hbits : leadBits b with
  | none =>
    have hbyte : data[current]? = some b := by rw [← List.head?_drop, hdata, List.head?_cons]
    refine Or.inr (Or.inl ?_)
    simp only [readUTF8, hbyte, Option.bind_eq_bind, Option.bind_some, if_neg hzero, hbits]
    rfl
  | some bits =>
    obtain ⟨value, n⟩ := bits
    obtain ⟨hn, hvalue, rfl⟩ := eq_lead_of_leadBits hbits
    rw [readUTF8_lead hn hvalue hzero hdata]
    split
    next => exact Or.inr (Or.inl rfl)
    next hlength =>
      have hrest := drop_succ_of_drop hdata
      rcases readExtraBytes_cases n (current + 1) value with
        ⟨c, rest, hread, rfl, hbytes⟩ | hread | ⟨hread, hshort, hmore⟩
      · cases hrejected : isRejected c n with
        | true =>
          refine Or.inr (Or.inl ?_)
          rw [hread, Option.map_some]
          dsimp only
          rw [hrejected]
          rfl
        | false =>
          obtain ⟨hscalar, rfl⟩ := (isRejected_eq_false_iff hn hvalue).mp hrejected
          rw [hrest] at hbytes
          refine Or.inl ⟨c, rest, hscalar, ?_, by rw [bytes, List.cons_append, hbytes]⟩
          rintro rfl
          exact hzero rfl
      · refine Or.inr (Or.inl ?_)
        rw [hread]
        rfl
      · rw [hrest] at hshort hmore
        obtain ⟨m, rfl⟩ : ∃ m, n = m + 1 := ⟨n - 1, by omega⟩
        exact Or.inr (Or.inr ⟨m, hn, value, hvalue, more, by omega, hmore, rfl⟩)

/-! ## The loop -/

theorem UnicodeCStringView.make_utf8 {cs : List Nat} (hne : cs ≠ [])
    (h : ∀ c ∈ cs, IsScalar c ∧ c ≠ 0) :
    make (encode (cs ++ [0])) .utf8 cs.length =
      some ⟨encode (cs ++ [0]), .utf8, cs.length⟩ := by
  have hpos : 0 < cs.length := List.length_pos_of_ne_nil hne
  have hlength : cs.length ≤ (encode (cs ++ [0])).length := by
    have := length_le_length_encode cs
    rw [Utf8.encode_concat_nul, List.length_append]
    omega
  have hsuffix : [0] <:+ encode (cs ++ [0]) := ⟨encode cs, (Utf8.encode_concat_nul cs).symm⟩
  have hzero : 0 ∉ (encode (cs ++ [0])).dropLast := by
    rw [Utf8.encode_concat_nul, List.dropLast_concat]
    exact zero_notMem_encode h
  simp [make, hpos, hlength, hsuffix, hzero]

/-- The loop goes over code points that the processor accepts. -/
theorem fromUTF8Loop_accepted {ds : List Nat} {fuel index : Nat}
    (hds : ∀ d ∈ ds, IsScalar d ∧ d ≠ 0) (hdata : data.drop current = encode ds ++ rest)
    (haccepted : (utf8Calls current index ds).all processCodePoint) (calls : List CodePointCall) :
    fromUTF8Loop data processCodePoint (fuel + ds.length) current index calls =
      fromUTF8Loop data processCodePoint fuel (current + (encode ds).length)
        (index + ds.length) (calls ++ utf8Calls current index ds) := by
  induction ds generalizing current index calls with
  | nil => simp [utf8Calls]
  | cons d ds ih =>
    obtain ⟨⟨hd, hzero⟩, hds⟩ := List.forall_mem_cons.mp hds
    rw [utf8Calls, List.all_cons, Bool.and_eq_true] at haccepted
    rw [encode_cons, List.append_assoc] at hdata
    have hlt : current < data.length := by
      by_contra hge
      rw [List.drop_eq_nil_of_le (Nat.le_of_not_lt hge), bytes] at hdata
      cases hdata
    have hrest : data.drop (current + (bytes d).length) = encode ds ++ rest := by
      rw [← List.drop_drop, hdata, List.drop_left]
    rw [List.length_cons, ← Nat.add_assoc, fromUTF8Loop, if_pos hlt,
      readUTF8_bytes hd hzero hdata]
    dsimp only [Option.bind_eq_bind, Option.bind_some]
    rw [if_pos haccepted.1, ih hds hrest haccepted.2, encode_cons, List.length_append, utf8Calls,
      List.append_assoc, List.singleton_append]
    congr 1 <;> omega

theorem utf8Calls_append (offset index : Nat) (cs ds : List Nat) :
    utf8Calls offset index (cs ++ ds) = utf8Calls offset index cs ++
      utf8Calls (offset + (encode cs).length) (index + cs.length) ds := by
  induction cs generalizing offset index with
  | nil => rfl
  | cons c cs ih =>
    rw [List.cons_append, utf8Calls, ih, utf8Calls, List.cons_append, encode_cons,
      List.length_append, List.length_cons]
    congr 3 <;> omega

/-- A string is read to its end, or to the first code point that the processor turns down. -/
theorem fromUTF8Loop_string {ds : List Nat} {fuel : Nat} (hfuel : ds.length < fuel) :
    ∀ {cs : List Nat} {tail : List UInt8} (calls : List CodePointCall), cs ++ ds ≠ [] →
      (∀ c ∈ cs ++ ds, IsScalar c ∧ c ≠ 0) → data = encode cs ++ (encode ds ++ 0 :: tail) →
      fromUTF8Loop data processCodePoint fuel (encode cs).length cs.length calls =
        some (if (utf8Calls (encode cs).length cs.length ds).all processCodePoint then
            ⟨encode (cs ++ ds ++ [0]), .utf8, (cs ++ ds).length⟩ else .invalid,
          calls ++ callsMade processCodePoint
            (utf8Calls (encode cs).length cs.length ds)) := by
  induction ds generalizing fuel with
  | nil =>
    intro cs tail calls hne hscalar hdata
    obtain ⟨fuel, rfl⟩ : ∃ n, fuel = n + 1 := ⟨fuel - 1, by rw [List.length_nil] at hfuel; omega⟩
    rw [List.append_nil] at hne hscalar
    rw [encode_nil, List.nil_append] at hdata
    have hpos : (encode cs).length ≠ 0 := by
      have hle := length_le_length_encode cs
      have hcs := List.length_pos_of_ne_nil hne
      omega
    have hlt : (encode cs).length < data.length := by
      rw [hdata, List.length_append, List.length_cons]
      omega
    have htake : data.take ((encode cs).length + 1) = encode (cs ++ [0]) := by
      rw [Utf8.encode_concat_nul, hdata, List.take_length_add_append]
      rfl
    rw [fromUTF8Loop, if_pos hlt, readUTF8_nul (by rw [hdata, List.drop_left]), if_neg hpos,
      htake, UnicodeCStringView.make_utf8 hne hscalar]
    simp [utf8Calls, callsMade]
  | cons d ds ih =>
    intro cs tail calls hne hscalar hdata
    obtain ⟨fuel, rfl⟩ : ∃ n, fuel = n + 1 := ⟨fuel - 1, by rw [List.length_cons] at hfuel; omega⟩
    obtain ⟨hd, hzero⟩ := hscalar d (by simp)
    have hdrop : data.drop (encode cs).length = bytes d ++ (encode ds ++ 0 :: tail) := by
      rw [hdata, List.drop_left, encode_cons, List.append_assoc]
    have hlt : (encode cs).length < data.length := by
      rw [hdata, List.length_append, List.length_append, List.length_cons]
      omega
    have hlength : (encode cs).length + (bytes d).length =
        (encode (cs ++ [d])).length := by
      rw [encode_append, List.length_append]
      simp
    rw [fromUTF8Loop, if_pos hlt, readUTF8_bytes hd hzero hdrop]
    dsimp only [Option.bind_eq_bind, Option.bind_some]
    rw [utf8Calls, List.all_cons, callsMade]
    by_cases hcall : processCodePoint ⟨(encode cs).length, cs.length, d⟩
    · have hconcat : cs ++ d :: ds = cs ++ [d] ++ ds := by simp
      have hdata' : data = encode (cs ++ [d]) ++ (encode ds ++ 0 :: tail) := by
        rw [hdata, encode_append, encode_cons, encode_cons, encode_nil]
        simp
      have hrest := ih (Nat.lt_of_succ_lt_succ hfuel)
        (calls ++ [⟨(encode cs).length, cs.length, d⟩]) (hconcat ▸ hne) (hconcat ▸ hscalar) hdata'
      rw [List.length_append, List.length_singleton, ← hlength] at hrest
      rw [if_pos hcall, hrest, hcall, Bool.true_and, if_pos rfl, hconcat, List.append_assoc calls]
      rfl
    · rw [if_neg hcall, Bool.eq_false_iff.mpr hcall]
      rfl

/-- The loop ends at a cut sequence, turns the buffer down, or comes to the end of a string. -/
theorem fromUTF8Loop_cases {fuel : Nat} : ∀ {cs : List Nat} {rest : List UInt8}
    (calls : List CodePointCall), (∀ c ∈ cs, IsScalar c ∧ c ≠ 0) → data = encode cs ++ rest →
      (utf8Calls 0 0 cs).all processCodePoint → rest.length < fuel →
      EndsCut data processCodePoint ∨
      (∃ more, fromUTF8Loop data processCodePoint fuel (encode cs).length cs.length calls =
        some (.invalid, more)) ∨
      ∃ codePoints ≠ [], IsUTF8CString data codePoints := by
  induction fuel with
  | zero => exact fun _ _ _ _ hfuel => absurd hfuel (Nat.not_lt_zero _)
  | succ fuel ih =>
    intro cs rest calls hcs hdata haccepted hfuel
    have hdrop : data.drop (encode cs).length = rest := by rw [hdata, List.drop_left]
    rw [fromUTF8Loop]
    split
    case isFalse => exact Or.inr (Or.inl ⟨_, rfl⟩)
    case isTrue hlt =>
      cases rest with
      | nil =>
        rw [hdata, List.append_nil] at hlt
        exact absurd hlt (Nat.lt_irrefl _)
      | cons b rest =>
        by_cases hzero : b = 0
        · subst hzero
          by_cases hnil : cs = []
          · subst hnil
            rw [readUTF8_nul hdrop, encode_nil, if_pos List.length_nil]
            exact Or.inr (Or.inl ⟨_, rfl⟩)
          · refine Or.inr (Or.inr ⟨cs, hnil, hcs, rest, ?_⟩)
            rw [hdata, Utf8.encode_concat_nul, List.append_assoc, List.singleton_append]
        · rcases readUTF8_cases hdrop hzero with
            ⟨c, more, hc, hne, hbytes⟩ | hread | hcut
          · rw [hbytes] at hdrop
            rw [readUTF8_bytes hc hne hdrop]
            dsimp only [Option.bind_eq_bind, Option.bind_some]
            split
            next hcall =>
              have hlength : (encode cs).length + (bytes c).length =
                  (encode (cs ++ [c])).length := by
                rw [encode_append, List.length_append]
                simp
              have hcs' : ∀ d ∈ cs ++ [c], IsScalar d ∧ d ≠ 0 := by
                rw [List.forall_mem_append, List.forall_mem_singleton]
                exact ⟨hcs, hc, hne⟩
              have haccepted' : (utf8Calls 0 0 (cs ++ [c])).all processCodePoint := by
                rw [utf8Calls_append, List.all_append, haccepted]
                simpa [utf8Calls] using hcall
              have hmore : more.length < fuel := by
                have hlong := congrArg List.length hbytes
                rw [List.length_append, length_bytes] at hlong
                omega
              have hrest := ih
                (calls ++ [⟨(encode cs).length, cs.length, c⟩]) hcs'
                (by rw [hdata, hbytes, encode_append]; simp) haccepted' hmore
              rwa [List.length_append, List.length_singleton, ← hlength] at hrest
            next => exact Or.inr (Or.inl ⟨_, rfl⟩)
          · rw [hread]
            exact Or.inr (Or.inl ⟨_, rfl⟩)
          · exact Or.inl ⟨cs, b :: rest, hcs, haccepted, hdata, hcut⟩

/-! ## The strings that are decoded -/

theorem fromUTF8_endsCut (h : EndsCut data processCodePoint) :
    fromUTF8 data processCodePoint = none := by
  obtain ⟨cs, rest, hcs, haccepted, hdata, hcut⟩ := h
  have hne : rest ≠ [] := by
    obtain ⟨n, -, value, -, more, -, -, rfl⟩ := hcut
    exact List.cons_ne_nil _ _
  have hpos := List.length_pos_of_ne_nil hne
  have hlength : data.length = (encode cs).length + rest.length := by
    rw [hdata, List.length_append]
  have hle := length_le_length_encode cs
  obtain ⟨fuel, hfuel⟩ : ∃ n, data.length + 1 = (n + 1) + cs.length :=
    ⟨data.length - cs.length, by omega⟩
  rw [fromUTF8, hfuel, fromUTF8Loop_accepted hcs (by rw [List.drop_zero, hdata])
    haccepted, Nat.zero_add, Nat.zero_add, fromUTF8Loop, if_pos (by omega),
    readUTF8_cut (by rwa [hdata, List.drop_left])]
  rfl

theorem fromUTF8_string {cs : List Nat} (hne : cs ≠ []) (h : IsUTF8CString data cs) :
    fromUTF8 data processCodePoint =
      some (if (utf8Calls 0 0 cs).all processCodePoint then
          ⟨encode (cs ++ [0]), .utf8, cs.length⟩ else .invalid,
        callsMade processCodePoint (utf8Calls 0 0 cs)) := by
  obtain ⟨hscalar, tail, hdata⟩ := h
  have hfuel : cs.length < data.length + 1 := by
    have hle := length_le_length_encode (cs ++ [0])
    rw [← hdata, List.length_append]
    rw [List.length_append] at hle
    omega
  rw [Utf8.encode_concat_nul, List.append_assoc] at hdata
  exact @fromUTF8Loop_string _ _ _ _ hfuel [] tail [] hne hscalar hdata.symm

/-- Every buffer is decoded as it should be, unless it ends in a cut sequence. -/
theorem decodesUTF8_iff (data : List UInt8) (processCodePoint : CodePointProcessor) :
    DecodesUTF8 data processCodePoint ↔ ¬EndsCut data processCodePoint := by
  constructor
  · rintro ⟨view, calls, hresult, -⟩ hcut
    rw [fromUTF8_endsCut hcut] at hresult
    cases hresult
  · intro hcut
    by_cases hstring : ∃ codePoints ≠ [], IsUTF8CString data codePoints
    · obtain ⟨cs, hne, h⟩ := hstring
      refine ⟨_, _, fromUTF8_string hne h, fun ds hds hds' => ?_, fun hnot => absurd ⟨cs, hne, h⟩ hnot⟩
      have heq := Option.some.inj ((fromUTF8_string hne h).symm.trans
        (fromUTF8_string hds hds' : fromUTF8 data processCodePoint = _))
      exact ⟨congrArg Prod.snd heq, congrArg Prod.fst heq⟩
    · rcases fromUTF8Loop_cases [] (List.forall_mem_nil _) rfl rfl
        (Nat.lt_succ_self _) with hends | ⟨calls, hresult⟩ | hfound
      · exact absurd hends hcut
      · exact ⟨.invalid, calls, hresult, fun ds hds hds' => absurd ⟨ds, hds, hds'⟩ hstring,
          fun _ => rfl⟩
      · exact absurd hfound hstring

example : fromUTF8 [0xE2, 0x82, 0xAC, 0x21, 0, 7] (fun _ => true) =
    some (⟨[0xE2, 0x82, 0xAC, 0x21, 0], .utf8, 2⟩, [⟨0, 0, 0x20AC⟩, ⟨3, 1, 0x21⟩]) := by decide

/-- A buffer of the first byte of a sequence of two. -/
theorem not_decodesUTF8_cut : ¬DecodesUTF8 [0xC3] fun _ => true := by
  rintro ⟨view, calls, hresult, -⟩
  have hnone : fromUTF8 [0xC3] (fun _ => true) = none := by decide
  rw [hnone] at hresult
  cases hresult

end Binary

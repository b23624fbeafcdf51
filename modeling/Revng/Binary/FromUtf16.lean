import Mathlib.Data.Option.Basic
import Revng.Lib.Unicode

/-!
# Decoding UTF-16

`fromUTF16` looks for a string at the start of a buffer and hands its code points to a
processor, which may turn the string down.  The result is a view of the string with its NUL,
or the invalid view.

A read outside of the buffer and a failing assertion have no result.  The code points that
were handed over are kept beside the view.

The second unit of a surrogate pair is read from the bytes of the first one, so no pair is
ever accepted, and a code point comes with the offset of what follows it
(`decodesUTF16_iff`).
-/

namespace Binary

open Utf16

/-! ## Views -/

inductive Encoding where
  | invalid
  | utf8
  | utf16le
  | utf16be
  deriving DecidableEq, Repr

@[ext]
structure UnicodeCStringView where
  data : List UInt8
  encoding : Encoding
  codePointCount : Nat
  deriving DecidableEq, Repr

namespace UnicodeCStringView

def invalid : UnicodeCStringView := ⟨[], .invalid, 0⟩

def isValid (view : UnicodeCStringView) : Bool := view.encoding ≠ .invalid

/-- `StringRef::find`. -/
def find (text str : List UInt8) (start : Nat) : Option Nat :=
  (List.range text.length).find? fun i => start ≤ i ∧ str <+: text.drop i

/-- Two zeros in a text must not be aligned.  The search goes on after each of them, and the
fuel is for the loop. -/
def checkUnaligned (text : List UInt8) : Nat → Option Nat → Option Unit
  | 0, _ => none
  | fuel + 1, none => if text.length < 2 then checkUnaligned text fuel (find text [0, 0] 0) else some ()
  | fuel + 1, some index => do
      guard (index % 2 = 1)
      checkUnaligned text fuel (find text [0, 0] (index + 1))

/-- The constructor, with its assertions. -/
def make (data : List UInt8) (encoding : Encoding) (codePointCount : Nat) :
    Option UnicodeCStringView := do
  match encoding with
  | .invalid =>
      guard (data = [])
      guard (codePointCount = 0)
  | .utf8 =>
      guard (0 < codePointCount)
      guard (codePointCount ≤ data.length)
      guard ([0] <:+ data)
      guard (0 ∉ data.dropLast)
  | .utf16le | .utf16be =>
      guard (data.length % 2 = 0)
      guard (0 < codePointCount)
      guard (2 * codePointCount ≤ data.length)
      guard ([0, 0] <:+ data)
      let text := data.take (data.length - 2)
      checkUnaligned text (text.length + 1) (find text [0, 0] 0)
  return ⟨data, encoding, codePointCount⟩

end UnicodeCStringView

/-! ## Decoding -/

/-- What the processor is called with. -/
structure CodePointCall where
  offset : Nat
  codePointIndex : Nat
  codePoint : Nat
  deriving DecidableEq, Repr

abbrev CodePointProcessor := CodePointCall → Bool

def utf16Encoding (littleEndian : Bool) : Encoding :=
  if littleEndian then .utf16le else .utf16be

/-- What the body of the loop comes to before the processor is called. -/
inductive Reading where
  | done (view : UnicodeCStringView)
  | codePoint (current codePoint : Nat)
  deriving DecidableEq, Repr

/-- Read a code point.  `current` is an offset into the buffer. -/
def readUTF16 (littleEndian : Bool) (data : List UInt8) (current codePointIndex : Nat) :
    Option Reading := do
  let firstByte ← data[current]?
  let secondByte ← data[current + 1]?
  let unit := codeUnit littleEndian firstByte secondByte
  let current := current + 2
  if unit = 0 then
    if current - 2 = 0 then return .done .invalid
    else return .done (← UnicodeCStringView.make (data.take current) (utf16Encoding littleEndian) codePointIndex)
  else if unit < 0xD800 ∨ 0xDFFF < unit then return .codePoint current unit
  else if unit &&& 0b1111110000000000 = 0b1101100000000000 then
    if data.length ≤ current + 1 then return .done .invalid
    else
      -- The bytes are still those of the first unit.
      let lowUnit := codeUnit littleEndian firstByte secondByte
      let current := current + 2
      if lowUnit &&& 0b1111110000000000 ≠ 0b1101110000000000 then return .done .invalid
      else
        let low10Bits := 0b0000001111111111
        return .codePoint current
          (0x10000 + ((unit &&& low10Bits) <<< 10 ||| lowUnit &&& low10Bits))
  else return .done .invalid

/-- The loop, with the calls so far. -/
def fromUTF16Loop (littleEndian : Bool) (data : List UInt8) (processCodePoint : CodePointProcessor) :
    Nat → Nat → Nat → List CodePointCall → Option (UnicodeCStringView × List CodePointCall)
  | 0, _, _, _ => none
  | fuel + 1, current, codePointIndex, calls =>
      if current + 1 < data.length then do
        match ← readUTF16 littleEndian data current codePointIndex with
        | .done view => return (view, calls)
        | .codePoint current codePoint =>
            if 0x10FFFF < codePoint then return (.invalid, calls)
            else
              let call := ⟨current, codePointIndex, codePoint⟩
              if processCodePoint call then
                fromUTF16Loop littleEndian data processCodePoint fuel current (codePointIndex + 1)
                  (calls ++ [call])
              else return (.invalid, calls ++ [call])
      else return (.invalid, calls)

def fromUTF16 (littleEndian : Bool) (data : List UInt8) (processCodePoint : CodePointProcessor) :
    Option (UnicodeCStringView × List CodePointCall) :=
  fromUTF16Loop littleEndian data processCodePoint (data.length + 1) 0 0 []

/-! ## The strings in a buffer -/

/-- The buffer starts with the string of these code points and its NUL. -/
def IsUTF16CString (littleEndian : Bool) (data : List UInt8) (codePoints : List Nat) : Prop :=
  (∀ c ∈ codePoints, IsScalar c ∧ c ≠ 0) ∧ encode littleEndian (codePoints ++ [0]) <+: data

/-- The code points with their offsets. -/
def utf16Calls (littleEndian : Bool) : Nat → Nat → List Nat → List CodePointCall
  | _, _, [] => []
  | offset, index, c :: cs =>
      ⟨offset, index, c⟩ ::
        utf16Calls littleEndian (offset + (encode littleEndian [c]).length) (index + 1) cs

/-- A call that turns the string down is the last one. -/
def callsMade (processCodePoint : CodePointProcessor) : List CodePointCall → List CodePointCall
  | [] => []
  | call :: calls => call :: if processCodePoint call then callsMade processCodePoint calls else []

/-- The decoder finds the string when there is one, and the processor gets its code points. -/
def DecodesUTF16 (littleEndian : Bool) (data : List UInt8)
    (processCodePoint : CodePointProcessor) : Prop :=
  ∃ view calls, fromUTF16 littleEndian data processCodePoint = some (view, calls) ∧
    (∀ codePoints ≠ [], IsUTF16CString littleEndian data codePoints →
      calls = callsMade processCodePoint (utf16Calls littleEndian 0 0 codePoints) ∧
      view = if (utf16Calls littleEndian 0 0 codePoints).all processCodePoint then
          ⟨encode littleEndian (codePoints ++ [0]), utf16Encoding littleEndian, codePoints.length⟩
        else .invalid) ∧
    ((¬∃ codePoints ≠ [], IsUTF16CString littleEndian data codePoints) → view = .invalid)

/-! ## One unit -/

variable {littleEndian : Bool} {data : List UInt8} {processCodePoint : CodePointProcessor}

/-- A surrogate is never followed by another one. -/
theorem readUTF16_eq {current codePointIndex : Nat} {firstByte secondByte : UInt8}
    (hfirst : data[current]? = some firstByte) (hsecond : data[current + 1]? = some secondByte) :
    readUTF16 littleEndian data current codePointIndex =
      if codeUnit littleEndian firstByte secondByte = 0 then
        if current = 0 then some (.done .invalid)
        else (UnicodeCStringView.make (data.take (current + 2)) (utf16Encoding littleEndian)
          codePointIndex).map .done
      else if codeUnit littleEndian firstByte secondByte < 0xD800 ∨
          0xDFFF < codeUnit littleEndian firstByte secondByte then
        some (.codePoint (current + 2) (codeUnit littleEndian firstByte secondByte))
      else some (.done .invalid) := by
  simp only [readUTF16, hfirst, hsecond, Option.bind_eq_bind, Option.bind_some, Nat.add_sub_cancel]
  split
  · split
    · rfl
    · cases UnicodeCStringView.make (data.take (current + 2)) (utf16Encoding littleEndian)
        codePointIndex <;> rfl
  · split
    · rfl
    · split
      next hhigh =>
        split
        · rfl
        · have hlow : codeUnit littleEndian firstByte secondByte &&& 0b1111110000000000 ≠
              0b1101110000000000 := by
            rw [hhigh]
            decide
          rw [if_pos hlow]
          rfl
      next => rfl

/-! ## Strings of single units -/

/-- A code point of one unit that is not NUL. -/
def IsBasic (c : Nat) : Prop := c ≠ 0 ∧ (c < 0xD800 ∨ 0xDFFF < c ∧ c < 0x10000)

variable {c : Nat}

theorem IsBasic.lt (h : IsBasic c) : c < 0x10000 := by
  have := h.2
  omega

theorem IsBasic.isScalar (h : IsBasic c) : IsScalar c := by
  have := h.2
  rw [IsScalar]
  omega

theorem encode_cons_of_lt (h : c < 0x10000) (cs : List Nat) :
    encode littleEndian (c :: cs) = unitBytes littleEndian c ++ encode littleEndian cs := by
  rw [← List.singleton_append, encode_append, encode_singleton_of_lt h]

theorem encode_concat_nul (cs : List Nat) :
    encode littleEndian (cs ++ [0]) = encode littleEndian cs ++ [0, 0] := by
  rw [encode_append]
  cases littleEndian <;> rfl

variable {cs : List Nat}

theorem length_encode (h : ∀ c ∈ cs, IsBasic c) :
    (encode littleEndian cs).length = 2 * cs.length := by
  induction cs with
  | nil => rfl
  | cons c cs ih =>
    rw [encode_cons_of_lt (h c (by simp)).lt, List.length_append, length_unitBytes,
      ih fun d hd => h d (by simp [hd]), List.length_cons]
    omega

/-- The zeros of two neighbours are not aligned. -/
theorem odd_of_zeros (h : ∀ c ∈ cs, IsBasic c) {i : Nat}
    (hzeros : [0, 0] <+: (encode littleEndian cs).drop i) : i % 2 = 1 := by
  induction cs generalizing i with
  | nil => simp at hzeros
  | cons c cs ih =>
    obtain ⟨hc, hcs⟩ := List.forall_mem_cons.mp h
    rw [encode_cons_of_lt hc.lt] at hzeros
    match i with
    | 0 =>
      have hbytes : unitBytes littleEndian c = [0, 0] := by
        have htake := List.prefix_iff_eq_take.mp hzeros
        rw [htake]
        simp
      exact absurd (codeUnit_of_unitBytes hc.lt hbytes).symm (by
        cases littleEndian <;> exact hc.1)
    | 1 => rfl
    | i + 2 =>
      have hdrop : (unitBytes littleEndian c ++ encode littleEndian cs).drop (i + 2) =
          (encode littleEndian cs).drop i := by
        rw [List.drop_append, length_unitBytes, List.drop_eq_nil_of_le (by simp)]
        simp
      have := ih hcs (hdrop ▸ hzeros)
      omega

namespace UnicodeCStringView

theorem find_eq_some {text str : List UInt8} {start i : Nat} (h : find text str start = some i) :
    start ≤ i ∧ i < text.length ∧ str <+: text.drop i := by
  obtain ⟨hstart, hprefix⟩ := of_decide_eq_true
    (List.find?_some (p := fun i => decide (start ≤ i ∧ str <+: text.drop i)) h)
  exact ⟨hstart, List.mem_range.mp (List.mem_of_find?_eq_some h), hprefix⟩

theorem checkUnaligned_eq {text : List UInt8} (htext : 2 ≤ text.length)
    (hzeros : ∀ i, [0, 0] <+: text.drop i → i % 2 = 1) {fuel start : Nat}
    (hstart : start ≤ text.length) (hfuel : text.length < fuel + start) :
    checkUnaligned text fuel (find text [0, 0] start) = some () := by
  induction fuel generalizing start with
  | zero => omega
  | succ fuel ih =>
    cases hfind : find text [0, 0] start with
    | none => rw [checkUnaligned, if_neg (Nat.not_lt.mpr htext)]
    | some i =>
      obtain ⟨hle, hlt, hprefix⟩ := find_eq_some hfind
      have hrest : checkUnaligned text fuel (find text [0, 0] (i + 1)) = some () :=
        ih hlt (by omega)
      simp [checkUnaligned, hzeros i hprefix, hrest]

theorem make_encode {cs : List Nat} (hne : cs ≠ []) (h : ∀ c ∈ cs, IsBasic c) :
    make (encode littleEndian (cs ++ [0])) (utf16Encoding littleEndian) cs.length =
      some ⟨encode littleEndian (cs ++ [0]), utf16Encoding littleEndian, cs.length⟩ := by
  have hpos : 0 < cs.length := List.length_pos_of_ne_nil hne
  have hlength : (encode littleEndian (cs ++ [0])).length = 2 * cs.length + 2 := by
    rw [encode_concat_nul, List.length_append, length_encode h]
    rfl
  have htext : (encode littleEndian (cs ++ [0])).take (2 * cs.length) = encode littleEndian cs := by
    rw [encode_concat_nul, List.take_left' (length_encode h)]
  have hsuffix : [0, 0] <:+ encode littleEndian (cs ++ [0]) :=
    ⟨encode littleEndian cs, (encode_concat_nul cs).symm⟩
  have hcheck : checkUnaligned (encode littleEndian cs) ((encode littleEndian cs).length + 1)
      (find (encode littleEndian cs) [0, 0] 0) = some () := by
    have hcs : (encode littleEndian cs).length = 2 * cs.length := length_encode h
    exact checkUnaligned_eq (by omega) (fun i => odd_of_zeros h) (Nat.zero_le _) (by omega)
  have heven : (2 * cs.length + 2) % 2 = 0 := by omega
  cases littleEndian <;>
    simp [make, utf16Encoding, hlength, htext, hsuffix, hcheck, hpos, heven]

end UnicodeCStringView

/-! ## The loop -/

/-- A unit after single units is read. -/
theorem readUTF16_unit (hcs : ∀ c ∈ cs, IsBasic c) {unit : Nat} (hunit : unit < 0x10000)
    {rest : List UInt8}
    (hdata : data = encode littleEndian cs ++ (unitBytes littleEndian unit ++ rest)) :
    2 * cs.length + 1 < data.length ∧
    readUTF16 littleEndian data (2 * cs.length) cs.length =
      if unit = 0 then
        if 2 * cs.length = 0 then some (.done .invalid)
        else (UnicodeCStringView.make (data.take (2 * cs.length + 2)) (utf16Encoding littleEndian)
          cs.length).map .done
      else if unit < 0xD800 ∨ 0xDFFF < unit then some (.codePoint (2 * cs.length + 2) unit)
      else some (.done .invalid) := by
  have hlength : (encode littleEndian cs).length = 2 * cs.length := length_encode hcs
  obtain ⟨firstByte, secondByte, hbytes⟩ := List.length_eq_two.mp
    (length_unitBytes : (unitBytes littleEndian unit).length = 2)
  have hfirst : data[2 * cs.length]? = some firstByte := by simp [hdata, ← hlength, hbytes]
  have hsecond : data[2 * cs.length + 1]? = some secondByte := by simp [hdata, ← hlength, hbytes]
  refine ⟨by simp [hdata, hlength, hbytes], ?_⟩
  rw [readUTF16_eq hfirst hsecond, codeUnit_of_unitBytes hunit hbytes]

/-- From the end of single units on, the loop has a result, and only more single units with a
NUL make it a valid view. -/
theorem exists_fromUTF16Loop {rest : List UInt8} (hcs : ∀ c ∈ cs, IsBasic c)
    (hdata : data = encode littleEndian cs ++ rest) {fuel : Nat} (hfuel : rest.length < fuel)
    (calls : List CodePointCall) :
    ∃ view more, fromUTF16Loop littleEndian data processCodePoint fuel (2 * cs.length) cs.length
        calls = some (view, calls ++ more) ∧
      (view = .invalid ∨ ∃ ds ≠ [], (∀ d ∈ ds, IsBasic d) ∧
        encode littleEndian (ds ++ [0]) <+: data ∧
        view = ⟨encode littleEndian (ds ++ [0]), utf16Encoding littleEndian, ds.length⟩) := by
  induction fuel generalizing cs rest calls with
  | zero => omega
  | succ fuel ih =>
    have hlength : (encode littleEndian cs).length = 2 * cs.length := length_encode hcs
    match rest with
    | [] =>
      have hnot : ¬2 * cs.length + 1 < data.length := by
        rw [hdata, List.append_nil, hlength]
        omega
      refine ⟨.invalid, [], ?_, Or.inl rfl⟩
      rw [fromUTF16Loop, if_neg hnot, List.append_nil]
      rfl
    | [b] =>
      have hnot : ¬2 * cs.length + 1 < data.length := by
        rw [hdata, List.length_append, hlength, List.length_singleton]
        omega
      refine ⟨.invalid, [], ?_, Or.inl rfl⟩
      rw [fromUTF16Loop, if_neg hnot, List.append_nil]
      rfl
    | firstByte :: secondByte :: rest =>
      obtain ⟨unit, hunit⟩ : ∃ unit, unit = codeUnit littleEndian firstByte secondByte :=
        ⟨_, rfl⟩
      have hbytes : unitBytes littleEndian unit = [firstByte, secondByte] := by
        rw [hunit, unitBytes_codeUnit]
      have hunitlt : unit < 0x10000 := by
        rw [hunit]
        exact codeUnit_lt
      have hconcat : encode littleEndian (cs ++ [unit]) ++ rest = data := by
        rw [encode_append, encode_singleton_of_lt hunitlt, hbytes, hdata]
        simp
      have hnext : data = encode littleEndian cs ++ (unitBytes littleEndian unit ++ rest) := by
        rw [hdata, hbytes]
        rfl
      obtain ⟨hlt, hread⟩ := readUTF16_unit hcs hunitlt hnext
      rw [fromUTF16Loop, if_pos hlt, hread]
      split
      next hzero =>
        -- The terminator, which ends a string unless it comes first.
        subst hzero
        split
        next => exact ⟨.invalid, [], by rw [List.append_nil]; rfl, Or.inl rfl⟩
        next hne =>
          have hnil : cs ≠ [] := by
            rintro rfl
            exact hne rfl
          have htake : data.take (2 * cs.length + 2) = encode littleEndian (cs ++ [0]) := by
            rw [← hconcat, List.take_left']
            rw [encode_concat_nul, List.length_append, hlength]
            rfl
          rw [htake, UnicodeCStringView.make_encode hnil hcs]
          exact ⟨_, [], by rw [List.append_nil]; rfl,
            Or.inr ⟨cs, hnil, hcs, ⟨rest, hconcat⟩, rfl⟩⟩
      next hzero =>
        split
        next hbasic =>
          have hrange : ¬0x10FFFF < unit := by omega
          have hcs' : ∀ c ∈ cs ++ [unit], IsBasic c := by
            rw [List.forall_mem_append, List.forall_mem_singleton]
            exact ⟨hcs, hzero, by omega⟩
          dsimp only [Option.bind_eq_bind, Option.bind_some]
          rw [if_neg hrange]
          split
          next =>
            obtain ⟨view, more, hloop, hview⟩ := ih hcs' hconcat.symm
              (by rw [List.length_cons, List.length_cons] at hfuel; omega)
              (calls ++ [⟨2 * cs.length + 2, cs.length, unit⟩])
            rw [List.length_append, List.length_singleton] at hloop
            exact ⟨view, ⟨2 * cs.length + 2, cs.length, unit⟩ :: more,
              hloop.trans (by simp), hview⟩
          next => exact ⟨.invalid, _, rfl, Or.inl rfl⟩
        next => exact ⟨.invalid, [], by rw [List.append_nil]; rfl, Or.inl rfl⟩

/-- The buffer is read inside its bounds, and no assertion fails. -/
theorem exists_fromUTF16 (littleEndian : Bool) (data : List UInt8)
    (processCodePoint : CodePointProcessor) :
    ∃ view calls, fromUTF16 littleEndian data processCodePoint = some (view, calls) ∧
      (view = .invalid ∨ ∃ cs ≠ [], (∀ c ∈ cs, IsBasic c) ∧ IsUTF16CString littleEndian data cs ∧
        view = ⟨encode littleEndian (cs ++ [0]), utf16Encoding littleEndian, cs.length⟩) := by
  obtain ⟨view, calls, hloop, hview⟩ := @exists_fromUTF16Loop littleEndian data processCodePoint
    [] data (List.forall_mem_nil _) rfl _ (Nat.lt_succ_self data.length) []
  refine ⟨view, calls, hloop, hview.imp_right ?_⟩
  rintro ⟨cs, hne, hcs, hprefix, hview⟩
  exact ⟨cs, hne, hcs, ⟨fun c hc => ⟨(hcs c hc).isScalar, (hcs c hc).1⟩, hprefix⟩, hview⟩

example : fromUTF16 true [0x41, 0, 0, 0, 1] (fun _ => true) =
    some (⟨[0x41, 0, 0, 0], .utf16le, 1⟩, [⟨2, 0, 0x41⟩]) := by decide

/-- A string starts with its first code point, or with a high surrogate. -/
theorem IsUTF16CString.exists_unit (h : IsUTF16CString littleEndian data (c :: cs)) :
    ∃ unit rest, data = unitBytes littleEndian unit ++ rest ∧
      (unit = c ∧ IsBasic c ∨ 0xD800 ≤ unit ∧ unit ≤ 0xDBFF) := by
  obtain ⟨hscalar, rest, hdata⟩ := h
  obtain ⟨hc, hzero⟩ := hscalar c (by simp)
  rw [List.cons_append, ← List.singleton_append, encode_append, List.append_assoc] at hdata
  rw [IsScalar] at hc
  by_cases hlt : c < 0x10000
  · rw [encode_singleton_of_lt hlt] at hdata
    exact ⟨c, _, hdata.symm, Or.inl ⟨rfl, hzero, by omega⟩⟩
  · rw [encode, List.flatMap_singleton, units, if_neg hlt, List.flatMap_cons,
      List.append_assoc] at hdata
    exact ⟨_, _, hdata.symm, Or.inr (by omega)⟩

/-- The first call of a string is late, or there is none. -/
theorem calls_of_isUTF16CString (h : IsUTF16CString littleEndian data (c :: cs))
    {view : UnicodeCStringView} {calls : List CodePointCall}
    (hresult : fromUTF16 littleEndian data processCodePoint = some (view, calls)) :
    calls = [] ∨ ∃ rest, calls = ⟨2, 0, c⟩ :: rest := by
  obtain ⟨unit, rest, hdata, hunit⟩ := h.exists_unit
  have hunitlt : unit < 0x10000 := by
    rcases hunit with ⟨rfl, hc⟩ | ⟨-, hle⟩
    · exact hc.lt
    · omega
  have hlength : data.length = rest.length + 2 := by
    rw [hdata, List.length_append, length_unitBytes, Nat.add_comm]
  have hnil : ∀ c ∈ ([] : List Nat), IsBasic c := List.forall_mem_nil _
  obtain ⟨hlt, hread⟩ := readUTF16_unit hnil hunitlt hdata
  rw [List.length_nil, Nat.mul_zero] at hlt hread
  rw [fromUTF16, fromUTF16Loop, if_pos hlt, hread] at hresult
  rcases hunit with ⟨rfl, hc⟩ | ⟨hge, hle⟩
  · have hbasic : unit < 0xD800 ∨ 0xDFFF < unit := by
      have := hc.2
      omega
    have hrange : ¬0x10FFFF < unit := by omega
    rw [if_neg hc.1, if_pos hbasic] at hresult
    dsimp only [Option.bind_eq_bind, Option.bind_some] at hresult
    rw [if_neg hrange] at hresult
    refine Or.inr ?_
    split at hresult
    next =>
      have hdata' : data = encode littleEndian [unit] ++ rest := by
        rw [encode_singleton_of_lt hunitlt, hdata]
      obtain ⟨view', more, hloop, -⟩ := @exists_fromUTF16Loop littleEndian data processCodePoint
        [unit] rest (List.forall_mem_singleton.mpr hc) hdata' data.length (by omega)
        [⟨2, 0, unit⟩]
      exact ⟨more, (congrArg Prod.snd (Option.some.inj (hloop.symm.trans hresult))).symm⟩
    next =>
      cases hresult
      exact ⟨[], rfl⟩
  · rw [if_neg (by omega), if_neg (by omega)] at hresult
    cases hresult
    exact Or.inl rfl

/-- A string of single units is found, and its code points are handed over, each with the offset
of what follows it. -/
theorem fromUTF16Loop_isBasic {done : List Nat} {rest : List UInt8} (hne : done ++ cs ≠ [])
    (hbasic : ∀ c ∈ done ++ cs, IsBasic c)
    (hdata : data = encode littleEndian (done ++ cs ++ [0]) ++ rest) {fuel : Nat}
    (hfuel : cs.length < fuel) (calls : List CodePointCall) :
    fromUTF16Loop littleEndian data processCodePoint fuel (2 * done.length) done.length calls =
      some (if (utf16Calls littleEndian (2 * done.length + 2) done.length cs).all processCodePoint
          then ⟨encode littleEndian (done ++ cs ++ [0]), utf16Encoding littleEndian,
            (done ++ cs).length⟩ else .invalid,
        calls ++ callsMade processCodePoint
          (utf16Calls littleEndian (2 * done.length + 2) done.length cs)) := by
  have hdone : ∀ c ∈ done, IsBasic c := (List.forall_mem_append.mp hbasic).1
  induction cs generalizing done fuel calls with
  | nil =>
    obtain ⟨fuel, rfl⟩ := Nat.exists_eq_add_one_of_ne_zero (Nat.ne_of_gt hfuel)
    rw [List.append_nil] at hne hdata ⊢
    have hnul : data = encode littleEndian done ++ (unitBytes littleEndian 0 ++ rest) := by
      rw [hdata, encode_append, encode_singleton_of_lt (by decide), List.append_assoc]
    obtain ⟨hlt, hread⟩ := readUTF16_unit hdone (by decide) hnul
    have htake : data.take (2 * done.length + 2) = encode littleEndian (done ++ [0]) := by
      rw [hdata, List.take_left']
      rw [encode_concat_nul, List.length_append, length_encode hdone]
      rfl
    have hpos : 2 * done.length ≠ 0 := by
      have := List.length_pos_of_ne_nil hne
      omega
    rw [fromUTF16Loop, if_pos hlt, hread, if_pos rfl, if_neg hpos, htake,
      UnicodeCStringView.make_encode hne hdone]
    simp [utf16Calls, callsMade]
  | cons c cs ih =>
    obtain ⟨fuel, rfl⟩ := Nat.exists_eq_add_one_of_ne_zero (Nat.ne_of_gt (Nat.zero_lt_of_lt hfuel))
    have hc : IsBasic c := hbasic c (by simp)
    have hnext : data = encode littleEndian done ++
        (unitBytes littleEndian c ++ (encode littleEndian (cs ++ [0]) ++ rest)) := by
      rw [hdata, List.append_assoc, encode_append, List.cons_append, encode_cons_of_lt hc.lt,
        List.append_assoc, List.append_assoc]
    obtain ⟨hlt, hread⟩ := readUTF16_unit hdone hc.lt hnext
    have hrange : ¬0x10FFFF < c := by
      have := hc.lt
      omega
    have hunit : c < 0xD800 ∨ 0xDFFF < c := by
      have := hc.2
      omega
    have hencode : (encode littleEndian [c]).length = 2 := by
      rw [encode_singleton_of_lt hc.lt, length_unitBytes]
    rw [List.append_cons done c cs] at hne hbasic hdata ⊢
    have hrest := ih hne hbasic hdata (Nat.lt_of_succ_lt_succ hfuel)
      (calls ++ [⟨2 * done.length + 2, done.length, c⟩]) (by
        rw [List.forall_mem_append, List.forall_mem_singleton]
        exact ⟨hdone, hc⟩)
    rw [fromUTF16Loop, if_pos hlt, hread, if_neg hc.1, if_pos hunit]
    dsimp only [Option.bind_eq_bind, Option.bind_some]
    rw [if_neg hrange, utf16Calls, hencode, callsMade, List.all_cons]
    rw [List.length_append, List.length_singleton, Nat.mul_add] at hrest
    split
    next hprocess => simpa [hprocess] using hrest
    next hprocess => simp [hprocess]

/-! ## The strings that are decoded -/

/-- A string without surrogate pairs is accepted when the processor accepts its code points.
They come with offsets that are two bytes late. -/
theorem fromUTF16_isBasic (hne : cs ≠ []) (hbasic : ∀ c ∈ cs, IsBasic c)
    (h : IsUTF16CString littleEndian data cs) :
    fromUTF16 littleEndian data processCodePoint =
      some (if (utf16Calls littleEndian 2 0 cs).all processCodePoint then
          ⟨encode littleEndian (cs ++ [0]), utf16Encoding littleEndian, cs.length⟩ else .invalid,
        callsMade processCodePoint (utf16Calls littleEndian 2 0 cs)) := by
  obtain ⟨-, rest, hdata⟩ := h
  have hlength : cs.length < data.length + 1 := by
    rw [← hdata, List.length_append, encode_concat_nul, List.length_append, length_encode hbasic]
    omega
  exact fromUTF16Loop_isBasic (show [] ++ cs ≠ [] from hne) hbasic hdata.symm hlength []

theorem not_decodesUTF16 {codePoints : List Nat} (hne : codePoints ≠ [])
    (h : IsUTF16CString littleEndian data codePoints) :
    ¬DecodesUTF16 littleEndian data processCodePoint := by
  rintro ⟨view, calls, hresult, hdecodes, -⟩
  obtain ⟨hcalls, -⟩ := hdecodes codePoints hne h
  obtain ⟨c, cs, rfl⟩ := List.exists_cons_of_ne_nil hne
  rw [utf16Calls, callsMade] at hcalls
  rcases calls_of_isUTF16CString h hresult with rfl | ⟨rest, rfl⟩
  · cases hcalls
  · cases hcalls

/-- Buffers without a string are turned down, and no string is decoded as it should be. -/
theorem decodesUTF16_iff (littleEndian : Bool) (data : List UInt8)
    (processCodePoint : CodePointProcessor) :
    DecodesUTF16 littleEndian data processCodePoint ↔
      ¬∃ codePoints ≠ [], IsUTF16CString littleEndian data codePoints := by
  constructor
  · rintro hdecodes ⟨codePoints, hne, h⟩
    exact not_decodesUTF16 hne h hdecodes
  · intro hnot
    obtain ⟨view, calls, hresult, hview⟩ := exists_fromUTF16 littleEndian data processCodePoint
    refine ⟨view, calls, hresult, fun cs hne h => absurd ⟨cs, hne, h⟩ hnot, fun _ => ?_⟩
    rcases hview with hview | ⟨cs, hne, -, h, -⟩
    · exact hview
    · exact absurd ⟨cs, hne, h⟩ hnot

/-- The string of one code point outside of the basic plane. -/
theorem not_decodesUTF16_pair :
    ¬DecodesUTF16 true [0x3D, 0xD8, 0x00, 0xDE, 0, 0] fun _ => true :=
  not_decodesUTF16 (List.cons_ne_nil 0x1F600 []) ⟨by decide, by decide⟩

end Binary

import Revng.Binary.AddressCodecs

/-!
# Identifiers of basic blocks

A basic block is named by its start address and, when it has been inlined, by an index.  The
text is the one of the address, followed by a dash and the index unless that is zero.

The index is read into an integer that is as wide as LLVM sees fit, and only up to 64 bits are
accepted.  LLVM takes four bits for a decimal digit, so an index of 17 digits is not read back
(`indexFits_llvm_iff`).
-/

namespace Binary

/-! ## Integers of any width -/

/-- Reading an integer without saying how wide it is.  The result is as wide as needed, or
wider. -/
structure WideText extends IntegerText where
  /-- `StringRef::getAsInteger` in radix 10 -/
  getAsAPInt : Text → Option (Σ width, BitVec width)
  getAsAPInt_decimal : ∀ n, ∃ width, n < 2 ^ width ∧
    getAsAPInt (decimal n) = some ⟨width, .ofNat width n⟩

namespace WideText

/-- Zeros in front are skipped.  Four bits are enough for a digit. -/
def getAsAPIntLlvm (text : Text) : Option (Σ width, BitVec width) :=
  if text = [] then none
  else
    let digits := text.dropWhile (· = '0')
    if digits = [] then some ⟨64, 0⟩
    else (Numeral.readDigits 10 0 digits).map fun n =>
      ⟨4 * digits.length, .ofNat (4 * digits.length) n⟩

theorem getAsAPIntLlvm_writeDigits {n : Nat} (hn : 0 < n) :
    getAsAPIntLlvm (Numeral.writeDigits 10 n) =
      some ⟨4 * (Numeral.writeDigits 10 n).length,
        .ofNat (4 * (Numeral.writeDigits 10 n).length) n⟩ := by
  have hne := Numeral.writeDigits_ne_nil (by decide : 1 < 10) n
  have hzeros : (Numeral.writeDigits 10 n).dropWhile (· = '0') = Numeral.writeDigits 10 n := by
    have hhead := Numeral.head_writeDigits_ne_zero hn
    cases h : Numeral.writeDigits 10 n with
    | nil => rfl
    | cons c rest =>
      rw [h, List.head?_cons, ne_eq, Option.some.injEq] at hhead
      exact List.dropWhile_cons_of_neg (by simpa using hhead)
  rw [getAsAPIntLlvm, if_neg hne, hzeros, if_neg hne,
    Numeral.readDigits_writeDigits (by decide) (by decide), Option.map_some]

/-- A decimal digit takes less than four bits. -/
theorem lt_two_pow_length_writeDigits (n : Nat) :
    n < 2 ^ (4 * (Numeral.writeDigits 10 n).length) := by
  have hpos := List.length_pos_iff.mpr (Numeral.writeDigits_ne_nil (by decide : 1 < 10) n)
  calc n < 10 ^ (Numeral.writeDigits 10 n).length :=
        (Numeral.length_writeDigits_le_iff (by decide) hpos).mp (Nat.le_refl _)
    _ ≤ 16 ^ (Numeral.writeDigits 10 n).length := Nat.pow_le_pow_left (by decide) _
    _ = 2 ^ (4 * (Numeral.writeDigits 10 n).length) := by rw [Nat.pow_mul]

def llvm : WideText where
  toIntegerText := .llvm
  getAsAPInt := getAsAPIntLlvm
  getAsAPInt_decimal n := by
    rcases Nat.eq_zero_or_pos n with rfl | hn
    · exact ⟨64, by decide, rfl⟩
    · exact ⟨_, lt_two_pow_length_writeDigits n, getAsAPIntLlvm_writeDigits hn⟩

end WideText

/-! ## Identifiers -/

structure BasicBlockID where
  start : MetaAddress
  inliningIndex : BitVec 64
  deriving DecidableEq, Repr

namespace BasicBlockID

def invalid : BasicBlockID := ⟨.invalid, 0⟩

def isInlined (b : BasicBlockID) : Bool := b.inliningIndex ≠ 0

def isValid (b : BasicBlockID) : Bool := b.start.isValid

def verify (b : BasicBlockID) : Bool := if b.start.isInvalid then b.inliningIndex = 0 else true

/-- What a `BasicBlockID` can be: it is verified when it is built. -/
def WellFormed (b : BasicBlockID) : Prop := b.start.WellFormed ∧ b.verify = true

instance (b : BasicBlockID) : Decidable b.WellFormed := inferInstanceAs (Decidable (_ ∧ _))

variable (io : WideText)

/-- An integer that takes more than 64 bits is no index. -/
def readIndex (text : Text) : Option (BitVec 64) :=
  match io.getAsAPInt text with
  | some ⟨width, value⟩ => if 64 < width then none else some (value.setWidth 64)
  | none => none

def fromParts (start : Text) (index : Option (BitVec 64)) : BasicBlockID :=
  let start := MetaAddress.fromString io.toIntegerText start
  if start.isValid then
    match index with
    | some index => ⟨start, index⟩
    | none => invalid
  else invalid

def fromString (text : Text) : BasicBlockID :=
  match text.splitOn '-' with
  | [start] => fromParts io start (some 0)
  | [start, index] => fromParts io start (readIndex io index)
  | _ => invalid

def indexText (b : BasicBlockID) : Text :=
  if b.isInlined then '-' :: io.decimal b.inliningIndex.toNat else []

def toString (b : BasicBlockID) (architecture : Architecture) : Option Text :=
  (b.start.toString io.toIntegerText architecture).map (· ++ b.indexText io)

/-- The text that does not leave out the type of any architecture. -/
def text (b : BasicBlockID) : Text := b.start.text io.toIntegerText ++ b.indexText io

/-- The integer that the index is read into is not too wide. -/
def IndexFits (index : BitVec 64) : Prop :=
  ∀ value ∈ io.getAsAPInt (io.decimal index.toNat), value.1 ≤ 64

def textCodec : Codec BasicBlockID Text where
  Mem := WellFormed
  encode := text io
  decode text := some (fromString io text)

/-! ## Reading what was printed -/

variable {io} {b : BasicBlockID}

theorem wellFormed_fromParts (start : Text) (index : Option (BitVec 64)) :
    (fromParts io start index).WellFormed := by
  have hinvalid : invalid.WellFormed := by decide
  rw [fromParts.eq_def]
  dsimp only
  split
  next hvalid =>
    cases index with
    | none => exact hinvalid
    | some index =>
      refine ⟨MetaAddress.wellFormed_fromString start, if_neg ?_⟩
      simpa [MetaAddress.isValid] using hvalid
  next => exact hinvalid

theorem wellFormed_fromString (text : Text) : (fromString io text).WellFormed := by
  rw [fromString]
  split
  · exact wellFormed_fromParts _ _
  · exact wellFormed_fromParts _ _
  · decide

theorem dash_notMem_decimal (n : Nat) : '-' ∉ io.decimal n := fun h =>
  absurd (io.isDigit_decimal h) (by decide)

theorem dash_notMem_text (a : MetaAddress) : '-' ∉ a.text io.toIntegerText := fun h =>
  absurd (MetaAddress.isAddressChar_of_mem_text h) (by decide)

/-- The parts between the dashes. -/
theorem splitOn_text (b : BasicBlockID) :
    (b.text io).splitOn '-' = b.start.text io.toIntegerText ::
      if b.inliningIndex = 0 then [] else [io.decimal b.inliningIndex.toNat] := by
  have hstart : '-' ∉ b.start.text io.toIntegerText := dash_notMem_text b.start
  have hindex : '-' ∉ io.decimal b.inliningIndex.toNat := dash_notMem_decimal _
  split
  next h =>
    have htext : b.text io = ['-'].intercalate [b.start.text io.toIntegerText] := by
      simp [text, indexText, isInlined, h, List.intercalate]
    rw [htext, List.splitOn_intercalate '-' (by simpa using hstart) (List.cons_ne_nil _ _)]
  next h =>
    have htext : b.text io = ['-'].intercalate
        [b.start.text io.toIntegerText, io.decimal b.inliningIndex.toNat] := by
      simpa [text, indexText, isInlined, List.intercalate] using h
    rw [htext, List.splitOn_intercalate '-' (by simp [hstart, hindex]) (List.cons_ne_nil _ _)]

theorem readIndex_decimal_eq_some_iff {index found : BitVec 64} :
    readIndex io (io.decimal index.toNat) = some found ↔ found = index ∧ IndexFits io index := by
  obtain ⟨width, hwidth, hread⟩ := io.getAsAPInt_decimal index.toNat
  have hvalue : (BitVec.ofNat width index.toNat).setWidth 64 = index := by
    apply BitVec.eq_of_toNat_eq
    rw [BitVec.toNat_setWidth, BitVec.toNat_ofNat, Nat.mod_eq_of_lt hwidth,
      Nat.mod_eq_of_lt index.isLt]
  simp only [readIndex, hread, hvalue, IndexFits, Option.mem_def, Option.some.injEq,
    forall_eq']
  split
  next h => simp [Nat.not_le.mpr h]
  next h => simp [Nat.not_lt.mp h, eq_comm]

theorem fromString_text (b : BasicBlockID) :
    fromString io (b.text io) = fromParts io (b.start.text io.toIntegerText)
      (if b.inliningIndex = 0 then some 0 else readIndex io (io.decimal b.inliningIndex.toNat)) := by
  rw [fromString, splitOn_text]
  by_cases h : b.inliningIndex = 0
  · rw [if_pos h, if_pos h]
  · rw [if_neg h, if_neg h]

theorem eq_invalid_of_isValid (hb : b.WellFormed) (hvalid : b.start.isValid = false) :
    b = invalid := by
  have hstart : b.start = .invalid := hb.1.eq_invalid (by simpa [MetaAddress.isValid] using hvalid)
  have hverify := hb.2
  obtain ⟨start, index⟩ := b
  cases hstart
  simpa [verify, MetaAddress.isInvalid, MetaAddress.invalid, invalid] using hverify

theorem fromParts_eq_iff (hvalid : b.start.isValid = true) {start : Text}
    {index : Option (BitVec 64)} :
    fromParts io start index = b ↔
      MetaAddress.fromString io.toIntegerText start = b.start ∧ index = some b.inliningIndex := by
  have hne : invalid ≠ b := by
    rintro rfl
    cases hvalid
  rw [fromParts.eq_def]
  dsimp only
  by_cases hstart : MetaAddress.fromString io.toIntegerText start = b.start
  · rw [hstart, if_pos hvalid]
    cases index with
    | none => simp [hne]
    | some index =>
      cases b
      simp
  · refine iff_of_false (fun h => ?_) (fun h => hstart h.1)
    split at h
    · split at h
      · exact hstart (congrArg BasicBlockID.start h)
      · exact hne h
    · exact hne h

/-- A block comes back when its address does and its index is not read into too wide an
integer. -/
theorem decode_textCodec_iff (hb : b.WellFormed) :
    (textCodec io).decode ((textCodec io).encode b) = some b ↔
      MetaAddress.fromString io.toIntegerText (b.start.text io.toIntegerText) = b.start ∧
        (b.inliningIndex = 0 ∨ IndexFits io b.inliningIndex) := by
  have hread : (textCodec io).decode ((textCodec io).encode b) = some (fromParts io _ _) :=
    congrArg some (fromString_text b)
  rw [hread, Option.some.injEq]
  cases hvalid : b.start.isValid with
  | false =>
    obtain rfl := eq_invalid_of_isValid hb hvalid
    exact iff_of_true rfl ⟨rfl, Or.inl rfl⟩
  | true =>
    rw [fromParts_eq_iff hvalid]
    refine and_congr_right fun _ => ?_
    by_cases hz : b.inliningIndex = 0
    · simp [hz]
    · rw [if_neg hz, readIndex_decimal_eq_some_iff]
      exact ⟨fun h => Or.inr h.2, fun h => ⟨rfl, h.resolve_left hz⟩⟩

theorem decimal_injective {n m : Nat} (h : io.decimal n = io.decimal m) : n = m := by
  obtain ⟨bits, hbits⟩ : ∃ bits, max n m < 2 ^ bits := ⟨_, Nat.lt_two_pow_self⟩
  have hn := io.getAsInteger_decimal (Nat.lt_of_le_of_lt (Nat.le_max_left n m) hbits)
  rw [h, io.getAsInteger_decimal (Nat.lt_of_le_of_lt (Nat.le_max_right n m) hbits)] at hn
  exact (Option.some.inj hn).symm

/-- Blocks of the same text have addresses of the same text and the same index. -/
theorem text_eq_text_iff {a b : BasicBlockID} : a.text io = b.text io ↔
    a.start.text io.toIntegerText = b.start.text io.toIntegerText ∧
      a.inliningIndex = b.inliningIndex := by
  constructor
  · intro h
    have hparts := congrArg (List.splitOn '-') h
    rw [splitOn_text, splitOn_text, List.cons.injEq] at hparts
    refine ⟨hparts.1, ?_⟩
    have hindex := hparts.2
    split at hindex <;> split at hindex
    next ha hb => rw [ha, hb]
    next => cases hindex
    next => cases hindex
    next => exact BitVec.eq_of_toNat_eq (decimal_injective (List.cons.inj hindex).1)
  · rintro ⟨hstart, hindex⟩
    rw [text, text, hstart, indexText, indexText, isInlined, isInlined, hindex]

/-- A text keeps the blocks whose address it keeps, unless the index takes too many digits. -/
theorem keeps_textCodec_iff (hb : b.WellFormed) : (textCodec io).Keeps b ↔
    b.start.Unambiguous ∧ (b.inliningIndex = 0 ∨ IndexFits io b.inliningIndex) := by
  have hstart : (MetaAddress.textCodec io.toIntegerText).Keeps b.start ↔ _ :=
    MetaAddress.keeps_textCodec_iff hb.1
  rw [← hstart]
  constructor
  · intro h
    obtain ⟨hstart, hindex⟩ := (decode_textCodec_iff hb).mp h.1
    have hback := congrArg some hstart
    refine ⟨⟨hback, fun a ha htext => ?_⟩, hindex⟩
    cases hinvalid : a.isInvalid with
    | true =>
      have haback : (MetaAddress.textCodec io.toIntegerText).decode
          ((MetaAddress.textCodec io.toIntegerText).encode a) = some a := by
        rw [MetaAddress.decode_textCodec_iff ha]
        exact Or.inl (ha.eq_invalid hinvalid)
      exact Codec.eq_of_decode hback haback htext
    | false =>
      have hwf : WellFormed ⟨a, b.inliningIndex⟩ := ⟨ha, by simp [verify, hinvalid]⟩
      exact congrArg start (h.2 ⟨a, b.inliningIndex⟩ hwf (text_eq_text_iff.mpr ⟨htext, rfl⟩))
  · rintro ⟨hstart, hindex⟩
    refine ⟨(decode_textCodec_iff hb).mpr ⟨Option.some.inj hstart.1, hindex⟩, fun c hc htext => ?_⟩
    obtain ⟨hctext, hcindex⟩ := text_eq_text_iff.mp htext
    have hcstart : c.start = b.start := hstart.2 c.start hc.1 hctext
    cases b
    cases c
    cases hcstart
    cases hcindex
    rfl

/-- LLVM reads at most 16 digits into 64 bits. -/
theorem indexFits_llvm_iff {index : BitVec 64} (hne : index ≠ 0) :
    IndexFits .llvm index ↔ index.toNat < 10 ^ 16 := by
  have hpos : 0 < index.toNat := Nat.pos_of_ne_zero fun h => hne (BitVec.eq_of_toNat_eq h)
  have hread : WideText.llvm.getAsAPInt (WideText.llvm.decimal index.toNat) = _ :=
    WideText.getAsAPIntLlvm_writeDigits hpos
  rw [IndexFits, hread, ← Numeral.length_writeDigits_le_iff (by decide) (by decide)]
  simp only [Option.mem_def, Option.some.injEq, forall_eq']
  omega

end BasicBlockID

end Binary

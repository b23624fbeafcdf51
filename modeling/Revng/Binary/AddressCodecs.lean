import Revng.Binary.MetaAddressText
import Revng.Lib.Codec
import Revng.PipeboxCommon.ObjectID

/-!
# The codes of an address

An address is written as packed bytes, as an integer of 128 bits in a register, and as a text.
Bytes and integers have a place for every field, and all addresses are kept
(`keeps_byteCodec`, `keeps_pcCodec`).  A text has only the fields that are not zero.  An
address without an epoch that has an address space does not come back, and it has the text of
an address with that epoch, which is therefore not kept either (`keeps_textCodec_iff`).
-/

namespace Binary

open PipeboxCommon (addressFromBytes addressFromBytes_addressToBytes addressToBytes typeOfValue
  typeOfValue_typeValue typeValue typeValue_lt)

namespace MetaAddress

/-! ## Bytes -/

def byteCodec : Codec MetaAddress (List UInt8) where
  Mem := WellFormed
  encode := addressToBytes
  decode bytes := some (addressFromBytes bytes)

theorem keeps_byteCodec {a : MetaAddress} (ha : a.WellFormed) : byteCodec.Keeps a :=
  Codec.keeps_of_forall (fun _ h => congrArg some (addressFromBytes_addressToBytes h)) ha

/-! ## Program counters -/

/-- The fields are zero-extended, shifted to their places and added. -/
def composeIntegerPC (address : BitVec 64) (epoch : BitVec 32) (addressSpace type : BitVec 16) :
    BitVec 128 :=
  let epoch := epoch.setWidth 128 <<< 64
  let addressSpace := addressSpace.setWidth 128 <<< (64 + 32)
  let type := type.setWidth 128 <<< (64 + 32 + 16)
  address.setWidth 128 + (epoch + (addressSpace + type))

/-- A number that is no type is not a valid address. -/
def decomposeIntegerPC (value : BitVec 128) : MetaAddress :=
  let lower : BitVec 64 := (value &&& 0xFFFFFFFFFFFFFFFF).setWidth 64
  let upper : BitVec 64 := (value >>> 64).setWidth 64
  match typeOfValue (upper >>> (32 + 16)).toNat with
  | some type =>
      validate ⟨(upper &&& 0xFFFFFFFF).setWidth 32, ((upper >>> 32) &&& 0xFFFF).setWidth 16, type,
        lower⟩
  | none => invalid

def integerPC (a : MetaAddress) : BitVec 128 :=
  composeIntegerPC a.address a.epoch a.addressSpace (.ofNat 16 (typeValue a.type))

/-- Every field has its own bits, and nothing is carried. -/
theorem toNat_composeIntegerPC (address : BitVec 64) (epoch : BitVec 32)
    (addressSpace type : BitVec 16) :
    (composeIntegerPC address epoch addressSpace type).toNat =
      address.toNat + 2 ^ 64 * epoch.toNat + 2 ^ 96 * addressSpace.toNat + 2 ^ 112 * type.toNat := by
  have haddress := address.isLt
  have hepoch := epoch.isLt
  have hspace := addressSpace.isLt
  have htype := type.isLt
  simp only [composeIntegerPC, BitVec.toNat_add, BitVec.toNat_shiftLeft, BitVec.toNat_setWidth,
    Nat.shiftLeft_eq]
  omega

theorem toNat_and_mask {n k : Nat} {value mask : BitVec n} (h : mask.toNat = 2 ^ k - 1) :
    (value &&& mask).toNat = value.toNat % 2 ^ k := by
  rw [BitVec.toNat_and, h, Nat.and_two_pow_sub_one_eq_mod]

theorem decomposeIntegerPC_integerPC (a : MetaAddress) :
    decomposeIntegerPC a.integerPC = a.validate := by
  have haddress := a.address.isLt
  have hepoch := a.epoch.isLt
  have hspace := a.addressSpace.isLt
  have htype : typeValue a.type < 2 ^ 16 := typeValue_lt a.type
  have hvalue := toNat_composeIntegerPC a.address a.epoch a.addressSpace
    (.ofNat 16 (typeValue a.type))
  rw [BitVec.toNat_ofNat, Nat.mod_eq_of_lt htype, ← integerPC] at hvalue
  have hlower : (a.integerPC &&& 0xFFFFFFFFFFFFFFFF).setWidth 64 = a.address := by
    apply BitVec.eq_of_toNat_eq
    rw [BitVec.toNat_setWidth, toNat_and_mask (k := 64) rfl, hvalue]
    omega
  have hupper : ((a.integerPC >>> 64).setWidth 64).toNat =
      a.epoch.toNat + 2 ^ 32 * a.addressSpace.toNat + 2 ^ 48 * typeValue a.type := by
    rw [BitVec.toNat_setWidth, BitVec.toNat_ushiftRight, Nat.shiftRight_eq_div_pow, hvalue]
    omega
  unfold decomposeIntegerPC
  generalize (a.integerPC >>> 64).setWidth 64 = upper at hupper
  have hepoch : (upper &&& 0xFFFFFFFF).setWidth 32 = a.epoch := by
    apply BitVec.eq_of_toNat_eq
    rw [BitVec.toNat_setWidth, toNat_and_mask (k := 32) rfl, hupper]
    omega
  have hspace : (upper >>> 32 &&& 0xFFFF).setWidth 16 = a.addressSpace := by
    apply BitVec.eq_of_toNat_eq
    rw [BitVec.toNat_setWidth, toNat_and_mask (k := 16) rfl, BitVec.toNat_ushiftRight,
      Nat.shiftRight_eq_div_pow, hupper]
    omega
  have htype : (upper >>> (32 + 16)).toNat = typeValue a.type := by
    rw [BitVec.toNat_ushiftRight, Nat.shiftRight_eq_div_pow, hupper]
    omega
  simp only [htype, typeOfValue_typeValue, hlower, hepoch, hspace]

def pcCodec : Codec MetaAddress (BitVec 128) where
  Mem := WellFormed
  encode := integerPC
  decode value := some (decomposeIntegerPC value)

theorem keeps_pcCodec {a : MetaAddress} (ha : a.WellFormed) : pcCodec.Keeps a := by
  refine Codec.keeps_of_forall (fun b hb => congrArg some ?_) ha
  rw [pcCodec, decomposeIntegerPC_integerPC]
  rcases hb with rfl | hb
  · rfl
  · exact validate_of_verify hb

theorem WellFormed.eq_invalid {a : MetaAddress} (ha : a.WellFormed) (h : a.isInvalid = true) :
    a = invalid := by
  rcases ha with rfl | ha
  · rfl
  · simp only [MetaAddress.verify, Bool.and_eq_true, decide_eq_true_eq] at ha
    exact absurd (of_decide_eq_true h) ha.1.1

/-! ## Texts -/

variable (io : IntegerText)

/-- The text that does not leave out the type of any architecture. -/
def text (a : MetaAddress) : Text := (a.toString io .invalid).getD []

variable {io} {a b : MetaAddress}

theorem toString_invalid (a : MetaAddress) : a.toString io .invalid = some (a.text io) := by
  cases hvalid : a.isInvalid <;> simp [text, toString, toStringImpl, hvalid]

/-- The characters that are not kept for separating addresses from something else. -/
def isAddressChar (c : Char) : Bool := c.isAlphanum || c = ':' || c = '_'

theorem all_isAddressChar_toString (type : MetaAddressType) :
    type.toString.all isAddressChar = true := by
  cases type <;> decide

theorem isAddressChar_of_mem_text {c : Char} (h : c ∈ a.text io) : isAddressChar c = true := by
  have hsep : isAddressChar ':' = true := by decide
  have hhex {n : Nat} (h : c ∈ io.utohexstr n) : isAddressChar c = true := by
    simp [isAddressChar, io.isAlphanum_utohexstr h]
  have hdecimal {n : Nat} (h : c ∈ io.decimal n) : isAddressChar c = true := by
    simp [isAddressChar, Char.isAlphanum, io.isDigit_decimal h]
  cases hvalid : a.isInvalid with
  | true =>
    have htext : a.text io = ":Invalid".toList := by
      simp [text, toString, toStringImpl, hvalid]
    rw [htext] at h
    exact List.all_eq_true.mp (by decide : ":Invalid".toList.all isAddressChar = true) c h
  | false =>
    have htext : a.text io = "0x".toList ++ io.utohexstr a.address.toNat ++
        (':' :: a.type.toString) ++ (if a.epoch ≠ 0 then ':' :: io.decimal a.epoch.toNat else []) ++
          if a.addressSpace ≠ 0 then ':' :: io.decimal a.addressSpace.toNat else [] := by
      simp [text, toString, toStringImpl, hvalid, printsType]
    have hoptional {p : Prop} [Decidable p] {n : Nat}
        (h : c ∈ if p then ':' :: io.decimal n else []) : isAddressChar c = true := by
      split at h
      · rcases List.mem_cons.mp h with rfl | h
        · exact hsep
        · exact hdecimal h
      · cases h
    rw [htext] at h
    simp only [List.mem_append] at h
    rcases h with (((h | h) | h) | h) | h
    · exact List.all_eq_true.mp (by decide : "0x".toList.all isAddressChar = true) c h
    · exact hhex h
    · rcases List.mem_cons.mp h with rfl | h
      · exact hsep
      · exact List.all_eq_true.mp (all_isAddressChar_toString a.type) c h
    · exact hoptional h
    · exact hoptional h

/-- The text tells the epoch from the address space.  An epoch below 2 ^ 16 could also be an
address space. -/
def Unambiguous (a : MetaAddress) : Prop :=
  if a.addressSpace = 0 then a.epoch = 0 ∨ 2 ^ 16 ≤ a.epoch.toNat else a.epoch ≠ 0

instance (a : MetaAddress) : Decidable a.Unambiguous := inferInstanceAs (Decidable (ite _ _ _))

/-- The address whose epoch is the address space of this one. -/
def shifted (a : MetaAddress) : MetaAddress :=
  { a with epoch := a.addressSpace.setWidth 32, addressSpace := 0 }

theorem addressSpace_shifted (a : MetaAddress) : a.shifted.addressSpace = 0 := rfl

theorem WellFormed.shifted (ha : a.WellFormed) : a.shifted.WellFormed := by
  rcases ha with rfl | ha
  · exact Or.inl rfl
  · exact Or.inr ha

theorem toNat_epoch_shifted (a : MetaAddress) : a.shifted.epoch.toNat = a.addressSpace.toNat := by
  have hspace := a.addressSpace.isLt
  rw [MetaAddress.shifted, BitVec.toNat_setWidth]
  omega

theorem epoch_shifted_eq_zero_iff : a.shifted.epoch = 0 ↔ a.addressSpace = 0 := by
  rw [← BitVec.toNat_inj, ← BitVec.toNat_inj, toNat_epoch_shifted]
  rfl

theorem text_shifted (he : a.epoch = 0) : a.shifted.text io = a.text io := by
  cases hvalid : a.isValid with
  | false =>
    have hinvalid : a.type = .invalid := by simpa [isValid, isInvalid] using hvalid
    simp [text, toString, toStringImpl, isInvalid, MetaAddress.shifted, hinvalid]
  | true =>
    have hparts : a.shifted.parts io .invalid = a.parts io .invalid := by
      simp only [parts, ne_eq, epoch_shifted_eq_zero_iff, toNat_epoch_shifted, he,
        not_true_eq_false, if_false]
      simp [MetaAddress.shifted, printsType]
    have hshifted : a.shifted.isValid = true := hvalid
    rw [text, text, toString, toString, toStringImpl_eq hvalid, toStringImpl_eq hshifted, hparts]

theorem wellFormed_fromString (text : Text) : (fromString io text).WellFormed := by
  rw [fromString]
  split
  · exact Or.inl rfl
  · split
    · exact Or.inl rfl
    · cases readParts io (text.splitOn ':') with
      | none => exact Or.inl rfl
      | some a => exact wellFormed_validate a

def textCodec (io : IntegerText) : Codec MetaAddress Text where
  Mem := WellFormed
  encode := text io
  decode text := some (fromString io text)

theorem decode_textCodec_iff (ha : a.WellFormed) :
    (textCodec io).decode ((textCodec io).encode a) = some a ↔
      a = invalid ∨ a.addressSpace = 0 ∨ a.epoch ≠ 0 := by
  have h := fromString_toString_iff io ha .invalid
  rw [toString_invalid, Option.map_some] at h
  refine h.trans (or_congr_right ?_)
  simp [printsType]

/-- An epoch that fits an address space is read from the text of another address. -/
theorem exists_shifted_eq (ha : a.WellFormed) (hs : a.addressSpace = 0)
    (hepoch : a.epoch.toNat < 2 ^ 16) :
    ∃ b : MetaAddress, b.WellFormed ∧ b.epoch = 0 ∧ b.shifted = a := by
  rcases ha with rfl | ha
  · exact ⟨invalid, Or.inl rfl, rfl, rfl⟩
  · refine ⟨{ a with epoch := 0, addressSpace := a.epoch.setWidth 16 }, Or.inr ha, rfl, ?_⟩
    have hwidth : (a.epoch.setWidth 16).setWidth 32 = a.epoch := by
      apply BitVec.eq_of_toNat_eq
      rw [BitVec.toNat_setWidth, BitVec.toNat_setWidth]
      omega
    rw [MetaAddress.shifted, hwidth, ← hs]

/-- A text keeps the unambiguous addresses. -/
theorem keeps_textCodec_iff (ha : a.WellFormed) : (textCodec io).Keeps a ↔ a.Unambiguous := by
  have hdecode : (textCodec io).decode ((textCodec io).encode a) = some a ↔ _ :=
    decode_textCodec_iff ha
  constructor
  · intro h
    rw [Unambiguous]
    split
    next hs =>
      by_contra hepoch
      rw [not_or, Nat.not_le] at hepoch
      obtain ⟨b, hb, he, rfl⟩ := exists_shifted_eq ha hs hepoch.2
      have heq : b = b.shifted := h.2 b hb (text_shifted he).symm
      rw [← heq] at hepoch
      exact hepoch.1 he
    next hs =>
      rcases hdecode.mp h.1 with rfl | h | h
      · exact absurd rfl hs
      · exact absurd h hs
      · exact h
  · intro h
    rw [Unambiguous] at h
    have hback : (textCodec io).decode ((textCodec io).encode a) = some a := by
      refine hdecode.mpr (Or.inr ?_)
      split at h
      next hs => exact Or.inl hs
      next => exact Or.inr h
    rw [Codec.keeps_iff_of_decode hback]
    intro b hb hlost heq
    rw [ne_eq, decode_textCodec_iff hb, not_or, not_or, not_not] at hlost
    obtain ⟨-, hs, he⟩ := hlost
    -- What is read from the text of `b` has its address space for an epoch.
    have hshifted : (textCodec io).decode ((textCodec io).encode b.shifted) = some b.shifted :=
      (decode_textCodec_iff hb.shifted).mpr (Or.inr (Or.inl (addressSpace_shifted b)))
    have htext : (textCodec io).encode b.shifted = (textCodec io).encode a :=
      (text_shifted he).trans heq
    rw [htext, hback, Option.some.injEq] at hshifted
    subst hshifted
    rw [if_pos (addressSpace_shifted b), epoch_shifted_eq_zero_iff, toNat_epoch_shifted] at h
    rcases h with h | h
    · exact hs h
    · exact absurd b.addressSpace.isLt (Nat.not_lt.mpr h)

end MetaAddress

end Binary

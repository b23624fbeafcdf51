import Revng.Binary.BasicBlockID

/-!
# Keys of ranks

An entity is located by keys.  A key is a scalar, or it is the key of a struct of the model and
has its fields separated by a dash, also when it has only one.

A scalar is kept by its text, up to what an address or a block identifier loses
(`keeps_scalarCodec_iff`).  A key with fields also loses every field that has a dash in its
text, which only a string can have (`keeps_keyCodec_iff`).
-/

namespace Ranks

open Binary (BasicBlockID MetaAddress Text WideText)
open SeparatedText (Field forall₂_of_readAll join readAll readAll_join_iff_forall₂ texts)

/-! ## Scalars -/

/-- The names of the enumerators, in their order.  The first one is `Invalid`. -/
structure EnumNames where
  names : List Text
  nodup : names.Nodup
  ne_nil : names ≠ []
  separable : ∀ name ∈ names, name ≠ [] ∧ '/' ∉ name ∧ '-' ∉ name

namespace EnumNames

/-- A value that is no enumerator has no name. -/
def getName (e : EnumNames) (value : BitVec 8) : Text := e.names.getD value.toNat []

/-- A text that is no name gives the invalid value. -/
def fromName (e : EnumNames) (text : Text) : BitVec 8 :=
  if text ∈ e.names then .ofNat 8 (e.names.idxOf text) else 0

def IsEnumerator (e : EnumNames) (value : BitVec 8) : Prop := value.toNat < e.names.length

def codec (e : EnumNames) : Codec (BitVec 8) Text where
  Mem _ := True
  encode := e.getName
  decode text := some (e.fromName text)

variable {e : EnumNames} {value : BitVec 8}

theorem getName_of_isEnumerator (h : e.IsEnumerator value) :
    e.getName value = e.names.get ⟨value.toNat, h⟩ := by
  rw [getName, List.getD_eq_getElem?_getD, List.getElem?_eq_getElem h, Option.getD_some]
  rfl

theorem getName_eq_nil_iff : e.getName value = [] ↔ ¬e.IsEnumerator value := by
  constructor
  · intro h hvalue
    rw [getName_of_isEnumerator hvalue] at h
    exact (e.separable _ (List.get_mem _ _)).1 h
  · intro h
    rw [getName, List.getD_eq_getElem?_getD, List.getElem?_eq_none (Nat.not_lt.mp h),
      Option.getD_none]

/-- The names of a value have no separators in them. -/
theorem notMem_getName (value : BitVec 8) : '/' ∉ e.getName value ∧ '-' ∉ e.getName value := by
  by_cases h : e.IsEnumerator value
  · rw [getName_of_isEnumerator h]
    exact (e.separable _ (List.get_mem _ _)).2
  · rw [getName_eq_nil_iff.mpr h]
    exact ⟨List.not_mem_nil, List.not_mem_nil⟩

theorem fromName_getName (h : e.IsEnumerator value) : e.fromName (e.getName value) = value := by
  rw [getName_of_isEnumerator h, fromName, if_pos (List.get_mem _ _), List.get_eq_getElem,
    e.nodup.idxOf_getElem, BitVec.ofNat_toNat, BitVec.setWidth_eq]

theorem keeps_codec_iff : e.codec.Keeps value ↔ e.IsEnumerator value := by
  constructor
  · intro h
    by_contra hvalue
    have hread : e.fromName (e.getName value) = value := Option.some.inj h.1
    have hnil : [] ∉ e.names := fun hmem => (e.separable [] hmem).1 rfl
    rw [getName_eq_nil_iff.mpr hvalue, fromName, if_neg hnil] at hread
    subst hread
    exact hvalue (List.length_pos_iff.mpr e.ne_nil)
  · intro h
    refine ⟨congrArg some (fromName_getName h), fun other _ heq => ?_⟩
    have heq : e.getName other = e.getName value := heq
    have hother : e.IsEnumerator other := by
      by_contra hother
      rw [getName_eq_nil_iff.mpr hother, eq_comm, getName_eq_nil_iff] at heq
      exact heq h
    rw [← fromName_getName hother, heq, fromName_getName h]

end EnumNames

/-- The kinds of type definitions. -/
def typeDefinitionKinds : EnumNames where
  names := ["Invalid".toList, "CABIFunctionDefinition".toList, "EnumDefinition".toList,
    "RawFunctionDefinition".toList, "TypedefDefinition".toList, "StructDefinition".toList,
    "UnionDefinition".toList]
  nodup := by decide
  ne_nil := by decide
  separable := by decide

/-- The registers of the first architecture, which come first. -/
def x86Registers : EnumNames where
  names := ["Invalid".toList, "eax_x86".toList, "ebx_x86".toList, "ecx_x86".toList,
    "edx_x86".toList, "esi_x86".toList, "edi_x86".toList, "ebp_x86".toList, "esp_x86".toList,
    "st0_x86".toList, "zmm0_x86".toList, "zmm1_x86".toList, "zmm2_x86".toList,
    "zmm3_x86".toList, "zmm4_x86".toList, "zmm5_x86".toList, "zmm6_x86".toList,
    "zmm7_x86".toList]
  nodup := by decide +kernel
  ne_nil := by decide
  separable := by decide +kernel

inductive ScalarType where
  | metaAddress
  | basicBlockID
  | uint64
  | string
  | typeDefinitionKind
  | register
  deriving DecidableEq, Repr

inductive Scalar where
  | metaAddress (a : MetaAddress)
  | basicBlockID (b : BasicBlockID)
  | uint64 (n : BitVec 64)
  | string (text : Text)
  | typeDefinitionKind (value : BitVec 8)
  | register (value : BitVec 8)
  deriving DecidableEq, Repr

/-- What scalars are printed and read with.  The registers are those of the model. -/
structure Scalars extends WideText where
  registers : EnumNames

/-- What LLVM prints and reads. -/
def Scalars.llvm (registers : EnumNames) : Scalars where
  toWideText := .llvm
  registers := registers

namespace Scalar

def type : Scalar → ScalarType
  | metaAddress _ => .metaAddress
  | basicBlockID _ => .basicBlockID
  | uint64 _ => .uint64
  | string _ => .string
  | typeDefinitionKind _ => .typeDefinitionKind
  | register _ => .register

def WellFormed : Scalar → Prop
  | metaAddress a => a.WellFormed
  | basicBlockID b => b.WellFormed
  | _ => True

variable (io : Scalars)

/-- `getNameFromYAMLScalar` -/
def output : Scalar → Text
  | metaAddress a => a.text io.toIntegerText
  | basicBlockID b => b.text io.toWideText
  | uint64 n => io.decimal n.toNat
  | string text => text
  | typeDefinitionKind value => typeDefinitionKinds.getName value
  | register value => io.registers.getName value

/-- `getValueFromYAMLScalar`.  Errors are ignored: where the text is no number, the source
leaves the number as it is. -/
def input : ScalarType → Text → Scalar
  | .metaAddress, text => metaAddress (MetaAddress.fromString io.toIntegerText text)
  | .basicBlockID, text => basicBlockID (BasicBlockID.fromString io.toWideText text)
  | .uint64, text => uint64 (.ofNat 64 ((io.getAsInteger 64 text).getD 0))
  | .string, text => string text
  | .typeDefinitionKind, text => typeDefinitionKind (typeDefinitionKinds.fromName text)
  | .register, text => register (io.registers.fromName text)

def codec (t : ScalarType) : Codec Scalar Text where
  Mem v := v.type = t ∧ v.WellFormed
  encode := output io
  decode text := some (input io t text)

/-- The text of the scalar tells it from the others of its type. -/
def Legible : Scalar → Prop
  | metaAddress a => a.Unambiguous
  | basicBlockID b => b.start.Unambiguous ∧
      (b.inliningIndex = 0 ∨ BasicBlockID.IndexFits io.toWideText b.inliningIndex)
  | uint64 _ => True
  | string _ => True
  | typeDefinitionKind value => typeDefinitionKinds.IsEnumerator value
  | register value => io.registers.IsEnumerator value

def uint64Codec : Codec (BitVec 64) Text where
  Mem _ := True
  encode n := io.decimal n.toNat
  decode text := some (.ofNat 64 ((io.getAsInteger 64 text).getD 0))

/-- A string is its own text. -/
def stringCodec : Codec Text Text where
  Mem _ := True
  encode text := text
  decode text := some text

variable {io}

theorem keeps_uint64Codec (n : BitVec 64) : (uint64Codec io).Keeps n := by
  have hread (m : BitVec 64) :
      BitVec.ofNat 64 ((io.getAsInteger 64 (io.decimal m.toNat)).getD 0) = m := by
    rw [io.getAsInteger_decimal m.isLt, Option.getD_some, BitVec.ofNat_toNat, BitVec.setWidth_eq]
  exact Codec.keeps_of_forall (fun m _ => congrArg some (hread m)) trivial

theorem embeds_codec {α : Type} {c : Codec α Text} {wrap : α → Scalar} {t : ScalarType}
    (hinjective : Function.Injective wrap) (htype : ∀ v, v.type = t ↔ ∃ x, wrap x = v)
    (hmem : ∀ x, (wrap x).WellFormed ↔ c.Mem x) (hencode : ∀ x, (wrap x).output io = c.encode x)
    (hdecode : ∀ text, some (input io t text) = (c.decode text).map wrap) :
    c.Embeds (codec io t) wrap where
  injective := hinjective
  mem_iff x := (and_iff_right ((htype _).mpr ⟨x, rfl⟩)).trans (hmem x)
  encode_eq := hencode
  decode_eq _ := hdecode _
  exists_eq _ v hv _ := (htype v).mp hv.1

theorem keeps_codec_iff {v : Scalar} (hv : v.WellFormed) :
    (codec io v.type).Keeps v ↔ v.Legible io := by
  cases v with
  | metaAddress a =>
    have h : (MetaAddress.textCodec io.toIntegerText).Embeds (codec io .metaAddress) .metaAddress :=
      embeds_codec (fun _ _ => Scalar.metaAddress.inj) (fun v => by cases v <;> simp [type])
        (fun _ => Iff.rfl) (fun _ => rfl) (fun _ => rfl)
    exact h.keeps_iff.trans (MetaAddress.keeps_textCodec_iff hv)
  | basicBlockID b =>
    have h : (BasicBlockID.textCodec io.toWideText).Embeds (codec io .basicBlockID)
        .basicBlockID :=
      embeds_codec (fun _ _ => Scalar.basicBlockID.inj) (fun v => by cases v <;> simp [type])
        (fun _ => Iff.rfl) (fun _ => rfl) (fun _ => rfl)
    exact h.keeps_iff.trans (BasicBlockID.keeps_textCodec_iff hv)
  | uint64 n =>
    have h : (uint64Codec io).Embeds (codec io .uint64) .uint64 :=
      embeds_codec (fun _ _ => Scalar.uint64.inj) (fun v => by cases v <;> simp [type])
        (fun _ => Iff.rfl) (fun _ => rfl) (fun _ => rfl)
    exact iff_of_true (h.keeps_iff.mpr (keeps_uint64Codec n)) trivial
  | string text =>
    have h : stringCodec.Embeds (codec io .string) .string :=
      embeds_codec (fun _ _ => Scalar.string.inj) (fun v => by cases v <;> simp [type])
        (fun _ => Iff.rfl) (fun _ => rfl) (fun _ => rfl)
    exact iff_of_true (h.keeps_iff.mpr (Codec.keeps_of_forall (fun _ _ => rfl) trivial)) trivial
  | typeDefinitionKind value =>
    have h : typeDefinitionKinds.codec.Embeds (codec io .typeDefinitionKind)
        .typeDefinitionKind :=
      embeds_codec (fun _ _ => Scalar.typeDefinitionKind.inj)
        (fun v => by cases v <;> simp [type]) (fun _ => Iff.rfl) (fun _ => rfl) (fun _ => rfl)
    exact h.keeps_iff.trans EnumNames.keeps_codec_iff
  | register value =>
    have h : io.registers.codec.Embeds (codec io .register) .register :=
      embeds_codec (fun _ _ => Scalar.register.inj) (fun v => by cases v <;> simp [type])
        (fun _ => Iff.rfl) (fun _ => rfl) (fun _ => rfl)
    exact h.keeps_iff.trans EnumNames.keeps_codec_iff

/-! ### Separators -/

/-- Only a string can have a separator in its text. -/
def Avoids (sep : Char) : Scalar → Prop
  | string text => sep ∉ text
  | _ => True

theorem notMem_decimal {c : Char} (hc : c.isDigit = false) (n : Nat) : c ∉ io.decimal n := by
  intro h
  rw [io.isDigit_decimal h] at hc
  cases hc

theorem slash_notMem_output_iff (v : Scalar) : '/' ∉ v.output io ↔ v.Avoids '/' := by
  have haddress (a : MetaAddress) : '/' ∉ a.text io.toIntegerText := fun h =>
    absurd (MetaAddress.isAddressChar_of_mem_text h) (by decide)
  have hdecimal (n : Nat) : '/' ∉ io.decimal n := notMem_decimal (by decide) n
  cases v with
  | metaAddress a => exact iff_of_true (haddress a) trivial
  | basicBlockID b =>
    refine iff_of_true (fun h => ?_) trivial
    rcases List.mem_append.mp h with h | h
    · exact haddress b.start h
    · rw [BasicBlockID.indexText] at h
      split at h
      · exact hdecimal _ (List.mem_of_ne_of_mem (by decide) h)
      · cases h
  | uint64 n => exact iff_of_true (hdecimal _) trivial
  | string text => exact Iff.rfl
  | typeDefinitionKind value => exact iff_of_true (EnumNames.notMem_getName value).1 trivial
  | register value => exact iff_of_true (EnumNames.notMem_getName value).1 trivial

/-- A block identifier also has dashes, but it is no field of a key. -/
theorem dash_notMem_output_iff {v : Scalar} (hv : v.type ≠ .basicBlockID) :
    '-' ∉ v.output io ↔ v.Avoids '-' := by
  cases v with
  | metaAddress a => exact iff_of_true (BasicBlockID.dash_notMem_text a) trivial
  | basicBlockID b => exact absurd rfl hv
  | uint64 n => exact iff_of_true (notMem_decimal (by decide) _) trivial
  | string text => exact Iff.rfl
  | typeDefinitionKind value => exact iff_of_true (EnumNames.notMem_getName value).2 trivial
  | register value => exact iff_of_true (EnumNames.notMem_getName value).2 trivial

theorem type_input (t : ScalarType) (text : Text) : (input io t text).type = t := by
  cases t <;> rfl

theorem wellFormed_input (t : ScalarType) (text : Text) : (input io t text).WellFormed := by
  cases t with
  | metaAddress => exact MetaAddress.wellFormed_fromString text
  | basicBlockID => exact BasicBlockID.wellFormed_fromString text
  | _ => exact trivial

/-- A scalar has no dash in its text, or it is not read from any other text. -/
theorem dash_notMem_or_verbatim {t : ScalarType} (ht : t ≠ .basicBlockID) (v : Scalar) :
    '-' ∉ v.output io ∨ ∀ text, input io t text = v → text = v.output io := by
  by_cases hv : v.type = .basicBlockID
  · refine Or.inr fun text hread => absurd ?_ ht
    rw [← hv, ← hread, type_input]
  · cases v with
    | string =>
      refine Or.inr fun text hread => ?_
      cases t <;> cases hread
      rfl
    | _ => exact Or.inl ((dash_notMem_output_iff hv).mpr trivial)

end Scalar

/-! ## Keys -/

/-- A key with fields is the one of a struct of the model. -/
inductive KeyType where
  | scalar (type : ScalarType)
  | fields (types : List ScalarType)
  deriving DecidableEq, Repr

/-- No struct of the model has a block identifier in its key. -/
def KeyType.Separable : KeyType → Prop
  | scalar _ => True
  | fields types => .basicBlockID ∉ types

instance (t : KeyType) : Decidable t.Separable := by
  cases t <;> unfold KeyType.Separable <;> infer_instance

inductive Key where
  | scalar (v : Scalar)
  | fields (vs : List Scalar)
  deriving DecidableEq, Repr

namespace Key

def type : Key → KeyType
  | scalar v => .scalar v.type
  | fields vs => .fields (vs.map Scalar.type)

def WellFormed : Key → Prop
  | scalar v => v.WellFormed
  | fields vs => ∀ v ∈ vs, v.WellFormed

variable (io : Scalars)

/-- `CompositeScalar::output`, or the scalar. -/
def output : Key → Text
  | scalar v => v.output io
  | fields vs => join '-' (vs.map (Scalar.output io))

/-- How a field is printed and read. -/
def field (t : ScalarType) : Field Char Scalar where
  print := Scalar.output io
  parse := Scalar.input io t
  Mem v := Scalar.input io t (v.output io) = v
  parse_print _ h := h

/-- `CompositeScalar::input`, or the scalar.  The source asserts that no text is left. -/
def input : KeyType → Text → Option Key
  | .scalar t, text => some (scalar (Scalar.input io t text))
  | .fields ts, text => (readAll '-' (ts.map (field io)) text).map fields

def codec (t : KeyType) : Codec Key Text where
  Mem k := k.type = t ∧ k.WellFormed
  encode := output io
  decode := input io t

/-- Every scalar can be told from the others of its type, and no string is taken for several
fields. -/
def Legible : Key → Prop
  | scalar v => v.Legible io
  | fields vs => ∀ v ∈ vs, v.Legible io ∧ v.Avoids '-'

/-- No string is taken for several keys. -/
def Avoids (sep : Char) : Key → Prop
  | scalar v => v.Avoids sep
  | fields vs => ∀ v ∈ vs, v.Avoids sep

variable {io}

theorem slash_notMem_output_iff (k : Key) : '/' ∉ k.output io ↔ k.Avoids '/' := by
  cases k with
  | scalar v => exact v.slash_notMem_output_iff
  | fields vs =>
    have hvs (v : Scalar) : '/' ∉ v.output io ↔ v.Avoids '/' := v.slash_notMem_output_iff
    rw [output, SeparatedText.mem_join_iff (by decide)]
    simp [Avoids, ← hvs]

/-! ### Fields -/

/-- The fields on their own. -/
def fieldsCodec (io : Scalars) (ts : List ScalarType) : Codec (List Scalar) Text where
  Mem vs := List.Forall₂ (fun t v => (Scalar.codec io t).Mem v) ts vs
  encode vs := join '-' (vs.map (Scalar.output io))
  decode := readAll '-' (ts.map (field io))

variable {ts : List ScalarType}

theorem texts_field {vs : List Scalar} (hlength : ts.length = vs.length) :
    texts (ts.map (field io)) vs = vs.map (Scalar.output io) := by
  induction vs generalizing ts with
  | nil => simp [texts]
  | cons v vs ih =>
    cases ts with
    | nil => cases hlength
    | cons t ts =>
      rw [List.map_cons, List.map_cons, ← ih (Nat.succ.inj hlength)]
      rfl

theorem joins_fieldsCodec (hts : .basicBlockID ∉ ts) :
    (fieldsCodec io ts).Joins '-' [] ts (Scalar.output io) (Scalar.codec io) where
  component_encode _ _ := rfl
  mem_iff _ := Iff.rfl
  encode_eq _ := rfl
  decode_iff vs hvs := by
    have hlength : ts.length = vs.length := hvs.length_eq
    have hfields : ∀ f ∈ ts.map (field io), ∀ v,
        '-' ∉ f.print v ∨ ∀ text, f.parse text = v → text = f.print v := by
      rw [List.forall_mem_map]
      exact fun t ht v => Scalar.dash_notMem_or_verbatim (fun h => hts (h ▸ ht)) v
    have hread := readAll_join_iff_forall₂ ((List.length_map _).trans hlength) hfields
    rw [texts_field hlength, List.forall₂_map_left_iff] at hread
    refine hread.trans ⟨fun h => h.imp fun t v hv => ?_, fun h => h.imp fun t v hv => ?_⟩
    · exact ⟨congrArg some hv.1, hv.2⟩
    · exact ⟨Option.some.inj hv.1, hv.2⟩

theorem mem_fieldsCodec_iff {vs : List Scalar} :
    (fieldsCodec io ts).Mem vs ↔ vs.map Scalar.type = ts ∧ ∀ v ∈ vs, v.WellFormed :=
  Codec.forall₂_type_iff

/-- What is read is a key of the type. -/
theorem mem_codec_of_input {t : KeyType} {text : Text} {k : Key} (h : input io t text = some k) :
    (codec io t).Mem k := by
  cases t with
  | scalar t =>
    cases h
    exact ⟨congrArg KeyType.scalar (Scalar.type_input t text), Scalar.wellFormed_input t text⟩
  | fields ts =>
    obtain ⟨vs, hread, rfl⟩ := Option.map_eq_some_iff.mp h
    have hvs := forall₂_of_readAll hread
    rw [List.forall₂_map_left_iff] at hvs
    have hmem : (fieldsCodec io ts).Mem vs := by
      refine hvs.imp ?_
      rintro t v ⟨part, -, rfl⟩
      exact ⟨Scalar.type_input t part, Scalar.wellFormed_input t part⟩
    rw [mem_fieldsCodec_iff] at hmem
    exact ⟨congrArg KeyType.fields hmem.1, hmem.2⟩

theorem keeps_codec_iff {k : Key} (hk : k.WellFormed) (hsep : k.type.Separable) :
    (codec io k.type).Keeps k ↔ k.Legible io := by
  cases k with
  | scalar v =>
    have h : (Scalar.codec io v.type).Embeds (codec io (.scalar v.type)) scalar := {
      injective := fun _ _ => Key.scalar.inj
      mem_iff := fun w => and_congr_left' (by simp [type])
      encode_eq := fun _ => rfl
      decode_eq := fun _ => rfl
      exists_eq := fun _ k hk _ => by
        cases k with
        | scalar w => exact ⟨w, rfl⟩
        | fields ws => cases hk.1 }
    exact h.keeps_iff.trans (Scalar.keeps_codec_iff hk)
  | fields vs =>
    have h : (fieldsCodec io (vs.map Scalar.type)).Embeds
        (codec io (.fields (vs.map Scalar.type))) fields := {
      injective := fun _ _ => Key.fields.inj
      mem_iff := fun ws => by
        rw [mem_fieldsCodec_iff]
        exact and_congr_left' (by simp [type])
      encode_eq := fun _ => rfl
      decode_eq := fun _ => rfl
      exists_eq := fun _ k hk _ => by
        cases k with
        | scalar w => cases hk.1
        | fields ws => exact ⟨ws, rfl⟩ }
    have hmem : (fieldsCodec io (vs.map Scalar.type)).Mem vs := mem_fieldsCodec_iff.mpr ⟨rfl, hk⟩
    refine h.keeps_iff.trans (((joins_fieldsCodec hsep).keeps_iff (by simp) hmem).trans ?_)
    rw [List.forall₂_map_left_iff, List.forall₂_same]
    refine forall₂_congr fun v hv => ?_
    have hdash : v.type ≠ .basicBlockID := fun h => hsep (h ▸ List.mem_map_of_mem hv)
    rw [Scalar.keeps_codec_iff (hk v hv), Scalar.dash_notMem_output_iff hdash]

end Key

end Ranks

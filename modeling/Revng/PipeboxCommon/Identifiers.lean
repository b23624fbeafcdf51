import Revng.Ranks.Location

/-!
# Identifiers

An address, an object identifier, a block identifier and a location are all written down and read
back, as bytes, as integers or as texts.  Bytes and integers keep every value.  A text keeps a
value when it keeps the addresses, the indices and the names in it (`roundTrips_iff_legible`).

The text of an object identifier is the one of the location of the object.
-/

namespace PipeboxCommon

open Binary (BasicBlockID MetaAddress Text WideText)
open Ranks (EnumNames Key KeyType Location Rank Scalars locationString rank_eq_of_locationString_eq ranks
  readLocation typeDefinitionKinds)

namespace ObjectID

/-! ## Bytes -/

def byteCodec : Codec ObjectID Pypeline.ObjectKey where
  Mem := WellFormed
  encode := toBytes
  decode := fromBytes

theorem keeps_byteCodec {id : ObjectID} (h : id.WellFormed) : byteCodec.Keeps id :=
  Codec.keeps_of_forall (fun _ => fromBytes_toBytes) h

/-! ## Texts -/

variable (io : Scalars)

def functionKeys (entry : MetaAddress) : List Key := [.fields [.metaAddress entry]]

def typeDefinitionKeys (key : TypeDefinitionKey) : List Key :=
  [.fields [.uint64 key.id, .typeDefinitionKind key.kind]]

def serialize : ObjectID → Text
  | root => locationString io .binary []
  | function entry => locationString io .function (functionKeys entry)
  | typeDefinition key => locationString io .typeDefinition (typeDefinitionKeys key)

/-- The address in the keys of a function. -/
def ofFunctionKeys : List Key → Option MetaAddress
  | [.fields [.metaAddress entry]] => some entry
  | _ => none

def ofTypeDefinitionKeys : List Key → Option TypeDefinitionKey
  | [.fields [.uint64 id, .typeDefinitionKind kind]] => some ⟨id, kind⟩
  | _ => none

def deserialize (input : Text) : Option ObjectID :=
  if input = "/binary".toList then some root
  else if "/function/".toList <+: input then do
    let l ← Location.fromString io .function input
    let entry ← ofFunctionKeys l.keys
    return function entry
  else if "/type-definition/".toList <+: input then do
    let l ← Location.fromString io .typeDefinition input
    let key ← ofTypeDefinitionKeys l.keys
    return typeDefinition key
  else none

def textCodec : Codec ObjectID Text where
  Mem := WellFormed
  encode := serialize io
  decode := deserialize io

/-- The text of the key tells it from the others. -/
def Legible : ObjectID → Prop
  | root => True
  | function entry => entry.Unambiguous
  | typeDefinition key => typeDefinitionKinds.IsEnumerator key.kind

variable {io}

/-! ### The location of an object -/

def locationRank : ObjectID → Rank
  | root => .binary
  | function _ => .function
  | typeDefinition _ => .typeDefinition

theorem locationRank_mem (id : ObjectID) : id.locationRank ∈ ranks := by
  cases id <;> simp [locationRank, ranks]

theorem exists_serialize_eq (id : ObjectID) :
    ∃ keys, id.serialize io = locationString io id.locationRank keys := by
  cases id with
  | root => exact ⟨_, rfl⟩
  | function entry => exact ⟨_, rfl⟩
  | typeDefinition key => exact ⟨_, rfl⟩

theorem locationRank_eq {rank : Rank} (hrank : rank ∈ ranks) {keys : List Key} {id : ObjectID}
    (h : id.serialize io = locationString io rank keys) : id.locationRank = rank := by
  obtain ⟨others, hothers⟩ : ∃ keys, id.serialize io = locationString io id.locationRank keys :=
    id.exists_serialize_eq
  exact rank_eq_of_locationString_eq hrank id.locationRank_mem (hothers.symm.trans h)

theorem deserialize_of_function {text : Text} (h : "/function/".toList <+: text) :
    deserialize io text = ((readLocation io .function text).bind ofFunctionKeys).map function := by
  have hbinary : text ≠ "/binary".toList := by
    rintro rfl
    revert h
    decide
  rw [deserialize, if_neg hbinary, if_pos h, ← Location.map_keys_fromString, Option.bind_map,
    Option.map_bind]
  exact Option.bind_congr fun l _ => Option.map_eq_bind.symm

theorem deserialize_of_typeDefinition {text : Text} (h : "/type-definition/".toList <+: text) :
    deserialize io text =
      ((readLocation io .typeDefinition text).bind ofTypeDefinitionKeys).map typeDefinition := by
  have hbinary : text ≠ "/binary".toList := by
    rintro rfl
    revert h
    decide
  have hfunction : ¬ "/function/".toList <+: text := fun hf =>
    absurd (List.prefix_of_prefix_length_le hf h (by decide)) (by decide)
  rw [deserialize, if_neg hbinary, if_neg hfunction, if_pos h, ← Location.map_keys_fromString,
    Option.bind_map, Option.map_bind]
  exact Option.bind_congr fun l _ => Option.map_eq_bind.symm

/-! ### Keys of one kind of objects -/

/-- The values that are written as the keys of a location of the rank. -/
def keyCodec {κ : Type} (io : Scalars) (rank : Rank) (Mem : κ → Prop) (toKeys : κ → List Key)
    (ofKeys : List Key → Option κ) : Codec κ Text where
  Mem := Mem
  encode x := locationString io rank (toKeys x)
  decode text := (readLocation io rank text).bind ofKeys

section KeyCodec

variable {κ : Type} {rank : Rank} {Mem : κ → Prop} {toKeys : κ → List Key}
  {ofKeys : List Key → Option κ}

theorem embeds_keysCodec (hback : ∀ x, ofKeys (toKeys x) = some x)
    (hmem : ∀ x, (Location.keysCodec io rank).Mem (toKeys x) ↔ Mem x)
    (hshape : ∀ keys, keys.map Key.type = rank.tuple → ∃ x, toKeys x = keys) :
    (keyCodec io rank Mem toKeys ofKeys).Embeds (Location.keysCodec io rank) toKeys where
  injective x y h := by
    have hx := hback x
    rw [h, hback] at hx
    exact (Option.some.inj hx).symm
  mem_iff := hmem
  encode_eq _ := rfl
  decode_eq x := by
    change readLocation io rank _ = ((readLocation io rank _).bind ofKeys).map toKeys
    cases hread : readLocation io rank ((keyCodec io rank Mem toKeys ofKeys).encode x) with
    | none => rfl
    | some keys =>
      obtain ⟨y, rfl⟩ := hshape keys (Ranks.mem_of_readLocation hread).1
      rw [Option.bind_some, hback, Option.map_some]
  exists_eq _ keys h _ := hshape keys (Codec.forall₂_type_iff.mp h).1

/-- The objects of a kind are written as the locations of a rank. -/
theorem embeds_textCodec {wrap : κ → ObjectID} (hrank : rank ∈ ranks)
    (hinjective : Function.Injective wrap) (hmem : ∀ x, (wrap x).WellFormed ↔ Mem x)
    (hencode : ∀ x, (wrap x).serialize io = locationString io rank (toKeys x))
    (hdecode : ∀ x, deserialize io (locationString io rank (toKeys x)) =
      ((readLocation io rank (locationString io rank (toKeys x))).bind ofKeys).map wrap)
    (hwrap : ∀ id : ObjectID, id.locationRank = rank → ∃ x, wrap x = id) :
    (keyCodec io rank Mem toKeys ofKeys).Embeds (textCodec io) wrap where
  injective := hinjective
  mem_iff := hmem
  encode_eq := hencode
  decode_eq := hdecode
  exists_eq _ id _ h := hwrap id (locationRank_eq hrank h)

end KeyCodec

theorem exists_functionKeys_eq {keys : List Key}
    (h : keys.map Key.type = Rank.function.tuple) : ∃ entry, functionKeys entry = keys := by
  obtain ⟨k, rfl, hk⟩ := List.map_eq_singleton_iff.mp h
  cases k with
  | scalar v => cases hk
  | fields vs =>
    obtain ⟨v, rfl, hv⟩ := List.map_eq_singleton_iff.mp (KeyType.fields.inj hk)
    cases v with
    | metaAddress a => exact ⟨a, rfl⟩
    | _ => cases hv

theorem exists_typeDefinitionKeys_eq {keys : List Key}
    (h : keys.map Key.type = Rank.typeDefinition.tuple) :
    ∃ key, typeDefinitionKeys key = keys := by
  obtain ⟨k, rfl, hk⟩ := List.map_eq_singleton_iff.mp h
  cases k with
  | scalar v => cases hk
  | fields vs =>
    obtain ⟨v, rest, rfl, hv, hrest⟩ := List.map_eq_cons_iff.mp (KeyType.fields.inj hk)
    obtain ⟨w, rfl, hw⟩ := List.map_eq_singleton_iff.mp hrest
    cases v with
    | uint64 id =>
      cases w with
      | typeDefinitionKind kind => exact ⟨⟨id, kind⟩, rfl⟩
      | _ => cases hw
    | _ => cases hv

theorem keeps_function_iff {entry : MetaAddress} (h : entry.WellFormed) :
    (textCodec io).Keeps (function entry) ↔ entry.Unambiguous := by
  have hrank : .function ∈ ranks := (function entry).locationRank_mem
  have hmem (a : MetaAddress) : (∀ key ∈ functionKeys a, key.WellFormed) ↔ a.WellFormed := by
    simp [functionKeys, Key.WellFormed, Ranks.Scalar.WellFormed]
  have hkeys : (keyCodec io .function MetaAddress.WellFormed functionKeys ofFunctionKeys).Embeds
      (Location.keysCodec io .function) functionKeys :=
    embeds_keysCodec (fun _ => rfl)
      (fun a => Codec.forall₂_type_iff.trans ((and_iff_right rfl).trans (hmem a)))
      (fun _ => exists_functionKeys_eq)
  have hobjects : (keyCodec io .function MetaAddress.WellFormed functionKeys ofFunctionKeys).Embeds
      (textCodec io) function := by
    refine embeds_textCodec hrank (fun _ _ => ObjectID.function.inj) (fun _ => Iff.rfl)
      (fun _ => rfl) (fun a => deserialize_of_function ⟨_, rfl⟩) (fun id hid => ?_)
    cases id with
    | root => exact absurd hid (by decide)
    | function entry => exact ⟨entry, rfl⟩
    | typeDefinition key =>
      exact absurd hid (by decide : Rank.typeDefinition ≠ Rank.function)
  rw [hobjects.keeps_iff, ← hkeys.keeps_iff,
    Location.keeps_keysCodec_iff hrank rfl ((hmem entry).mpr h)]
  simp [functionKeys, Key.Legible, Key.Avoids, Ranks.Scalar.Legible, Ranks.Scalar.Avoids]

theorem keeps_typeDefinition_iff (key : TypeDefinitionKey) :
    (textCodec io).Keeps (typeDefinition key) ↔ typeDefinitionKinds.IsEnumerator key.kind := by
  have hrank : .typeDefinition ∈ ranks := (typeDefinition key).locationRank_mem
  have hmem (key : TypeDefinitionKey) : ∀ k ∈ typeDefinitionKeys key, k.WellFormed := by
    simp [typeDefinitionKeys, Key.WellFormed, Ranks.Scalar.WellFormed]
  have hkeys : (keyCodec io .typeDefinition (fun _ => True) typeDefinitionKeys
      ofTypeDefinitionKeys).Embeds (Location.keysCodec io .typeDefinition) typeDefinitionKeys :=
    embeds_keysCodec (fun _ => rfl)
      (fun key => iff_of_true (Codec.forall₂_type_iff.mpr ⟨rfl, hmem key⟩) trivial)
      (fun _ => exists_typeDefinitionKeys_eq)
  have hobjects : (keyCodec io .typeDefinition (fun _ => True) typeDefinitionKeys
      ofTypeDefinitionKeys).Embeds (textCodec io) typeDefinition := by
    refine embeds_textCodec hrank (fun _ _ => ObjectID.typeDefinition.inj) (fun _ => Iff.rfl)
      (fun _ => rfl) (fun key => deserialize_of_typeDefinition ⟨_, rfl⟩) (fun id hid => ?_)
    cases id with
    | root => exact absurd hid (by decide)
    | function entry => exact absurd hid (by decide : Rank.function ≠ Rank.typeDefinition)
    | typeDefinition key => exact ⟨key, rfl⟩
  rw [hobjects.keeps_iff, ← hkeys.keeps_iff,
    Location.keeps_keysCodec_iff hrank rfl (hmem key)]
  simp [typeDefinitionKeys, Key.Legible, Key.Avoids, Ranks.Scalar.Legible, Ranks.Scalar.Avoids]

/-- The text of an object is kept when the one of its key is. -/
theorem keeps_textCodec_iff {id : ObjectID} (h : id.WellFormed) :
    (textCodec io).Keeps id ↔ id.Legible := by
  cases id with
  | root =>
    have hroot : deserialize io "/binary".toList = some root := if_pos rfl
    refine iff_of_true ⟨hroot, fun id _ heq => ?_⟩ trivial
    have hrank : id.locationRank = Rank.binary :=
      locationRank_eq root.locationRank_mem (heq : _ = locationString io .binary [])
    cases id with
    | root => rfl
    | function entry => exact absurd hrank (by decide : Rank.function ≠ Rank.binary)
    | typeDefinition key => exact absurd hrank (by decide : Rank.typeDefinition ≠ Rank.binary)
  | function entry => exact keeps_function_iff h
  | typeDefinition key => exact keeps_typeDefinition_iff key

end ObjectID

/-! ## All identifiers -/

inductive Identifier where
  | address (a : MetaAddress)
  | object (id : ObjectID)
  | block (b : BasicBlockID)
  | location (rank : Rank) (l : Location rank)

namespace Identifier

def WellFormed : Identifier → Prop
  | address a => a.WellFormed
  | object id => id.WellFormed
  | block b => b.WellFormed
  | location rank _ => rank ∈ ranks

/-- Whatever the identifier is written as, it comes back, and no other identifier of its type is
written the same.  A location is also told from those of other ranks. -/
def RoundTrips (io : Scalars) : Identifier → Prop
  | address a => MetaAddress.byteCodec.Keeps a ∧ MetaAddress.pcCodec.Keeps a ∧
      (MetaAddress.textCodec io.toIntegerText).Keeps a
  | object id => ObjectID.byteCodec.Keeps id ∧ (ObjectID.textCodec io).Keeps id
  | block b => (BasicBlockID.textCodec io.toWideText).Keeps b
  | location rank l => (Location.codec io rank).Keeps l ∧
      ∀ other ∈ ranks, ∀ m : Location other, m.toString io = l.toString io → other = rank

/-- The text of the identifier tells it from the others. -/
def Legible (io : Scalars) : Identifier → Prop
  | address a => a.Unambiguous
  | object id => id.Legible
  | block b => b.start.Unambiguous ∧
      (b.inliningIndex = 0 ∨ BasicBlockID.IndexFits io.toWideText b.inliningIndex)
  | location _ l => ∀ key ∈ l.keys, key.Legible io ∧ key.Avoids '/'

/-- Bytes and integers keep every identifier, and texts keep the legible ones. -/
theorem roundTrips_iff_legible (io : Scalars) {x : Identifier} (hx : x.WellFormed) :
    x.RoundTrips io ↔ x.Legible io := by
  cases x with
  | address a =>
      rw [RoundTrips, and_iff_right (MetaAddress.keeps_byteCodec hx),
        and_iff_right (MetaAddress.keeps_pcCodec hx)]
      exact MetaAddress.keeps_textCodec_iff hx
  | object id =>
      rw [RoundTrips, and_iff_right (ObjectID.keeps_byteCodec hx)]
      exact ObjectID.keeps_textCodec_iff hx
  | block b => exact BasicBlockID.keeps_textCodec_iff hx
  | location rank l =>
      have hother : ∀ other ∈ ranks, ∀ m : Location other,
          m.toString io = l.toString io → other = rank :=
        fun other hother _ heq => rank_eq_of_locationString_eq hx hother heq
      rw [RoundTrips, and_iff_left hother]
      exact Location.keeps_codec_iff hx l

/-- The last index does not come back. -/
def lastInlinedBlock : BasicBlockID := ⟨⟨0, 0, .codeX86_64, 0x1000⟩, BitVec.allOnes 64⟩

/-- The text has three slashes where two are expected. -/
def slashedMacro : Location .macroRank where
  keys := [.scalar (.string "a/b".toList)]
  fits := rfl
  wellFormed := by simp [Key.WellFormed, Ranks.Scalar.WellFormed]

/-- The name of the function is taken for two fields. -/
def dashedFunction : Location .dynamicFunction where
  keys := [.fields [.string "a-b".toList]]
  fits := rfl
  wellFormed := by simp [Key.WellFormed, Ranks.Scalar.WellFormed]

/-- The address space is read as the epoch. -/
def spacedAddress : MetaAddress := ⟨0, 1, .generic64, 0x1000⟩

/-- It is an identifier that does not come back from its text. -/
def Lost (x : Identifier) : Prop := x.WellFormed ∧ ¬x.RoundTrips (.llvm Ranks.x86Registers)

/-- Four identifiers that do not come back from their texts. -/
theorem not_roundTrips_lost :
    (block lastInlinedBlock).Lost ∧ (address spacedAddress).Lost ∧
      (location .macroRank slashedMacro).Lost ∧
      (location .dynamicFunction dashedFunction).Lost := by
  have hslashed : Rank.macroRank ∈ ranks := by simp [ranks]
  have hdashed : Rank.dynamicFunction ∈ ranks := by simp [ranks]
  refine ⟨⟨(by decide : lastInlinedBlock.WellFormed), fun h => ?_⟩,
    ⟨(by decide : spacedAddress.WellFormed), fun h => ?_⟩, ⟨hslashed, fun h => ?_⟩,
    ⟨hdashed, fun h => ?_⟩⟩
  · exact absurd h.1 (by decide)
  · exact absurd h.2.2.1 (by decide)
  · have hkey := (Location.keeps_codec_iff hslashed slashedMacro).mp h.1 _ (List.mem_singleton_self _)
    exact absurd hkey.2 (by decide : ¬ '/' ∉ "a/b".toList)
  · have hkey := (Location.keeps_codec_iff hdashed dashedFunction).mp h.1 _
      (List.mem_singleton_self _)
    exact absurd (hkey.1 _ (List.mem_singleton_self _)).2 (by decide : ¬ '-' ∉ "a-b".toList)

/-- The second copy of a block in a function. -/
def inlinedBlock : Location .basicBlock where
  keys := [.fields [.metaAddress ⟨0, 0, .codeAarch64, 0x1000⟩],
    .scalar (.basicBlockID ⟨⟨0, 0, .codeAarch64, 0x1004⟩, 2⟩)]
  fits := rfl
  wellFormed := by
    simp [Key.WellFormed, Ranks.Scalar.WellFormed]
    decide

theorem roundTrips_inlinedBlock :
    (location .basicBlock inlinedBlock).RoundTrips (.llvm Ranks.x86Registers) := by
  have hrank : (location .basicBlock inlinedBlock).WellFormed :=
    (by simp [ranks] : Rank.basicBlock ∈ ranks)
  have hindex : BasicBlockID.IndexFits .llvm 2 :=
    (BasicBlockID.indexFits_llvm_iff (by decide)).mpr (by decide)
  refine (roundTrips_iff_legible (.llvm Ranks.x86Registers) hrank).mpr fun key hkey => ?_
  rcases List.mem_cons.mp hkey with rfl | hkey
  · simp [Key.Legible, Key.Avoids, Ranks.Scalar.Legible, Ranks.Scalar.Avoids]
    decide
  · obtain rfl := List.mem_singleton.mp hkey
    exact ⟨⟨by decide, Or.inr hindex⟩, trivial⟩

end Identifier

end PipeboxCommon

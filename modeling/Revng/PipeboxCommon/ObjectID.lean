import Revng.Binary.MetaAddress
import Revng.Lib.LittleEndian
import Revng.Pypeline.Storage

/-!
# The object identifiers of the pipebox

The pipebox knows three kinds of objects: the binary, the functions and the type definitions.
The binary is the root and the parent of all others.  A function is named by its entry address
and a type definition by its key, and these are stored as packed little-endian integers.

`toObjectID` maps these identifiers to paths, with the same bytes (`toBytes_toObjectID`) and
the same relatives (`isRelated_toObjectID`).  The databases only see the bytes, and what they
select is the object itself with its descendants and its ancestors
(`keyInvalidatedBy_toBytes_iff`).
-/

namespace PipeboxCommon

open Binary (MetaAddress MetaAddressType)
open Pypeline (ObjectKey KindLayout Segment keyInvalidatedBy)

/-! ## Kinds -/

inductive Kind where
  | binary
  | function
  | typeDefinition
deriving DecidableEq, Repr

namespace Kind

def parent : Kind → Option Kind
  | binary => none
  | function => some binary
  | typeDefinition => some binary

/-- The distance from the root. -/
def rank : Kind → Nat
  | binary => 0
  | function => 1
  | typeDefinition => 1

theorem rank_le_one (k : Kind) : k.rank ≤ 1 := by
  cases k <;> decide

/-- The packed sizes of no key, of a `MetaAddress` and of a key of a type definition. -/
def byteSize : Kind → Nat
  | binary => 0
  | function => 4 + 2 + 2 + 8
  | typeDefinition => 8 + 1

end Kind

def kindByte : Kind → UInt8
  | .binary => 0
  | .function => 1
  | .typeDefinition => 2

theorem kindByte_injective : Function.Injective kindByte := by
  intro k l h
  cases k <;> cases l <;> first | rfl | cases h

/-! ## Keys -/

/-- The key of a type definition.  Its kind is an enumeration of one byte. -/
structure TypeDefinitionKey where
  id : BitVec 64
  kind : BitVec 8
deriving DecidableEq, Repr

namespace TypeDefinitionKey

def toBytes (key : TypeDefinitionKey) : List UInt8 :=
  LittleEndian.write 8 key.id.toNat ++ LittleEndian.write 1 key.kind.toNat

def fromBytes (bytes : List UInt8) : TypeDefinitionKey :=
  let (id, bytes) := LittleEndian.readNext 8 bytes
  let (kind, _) := LittleEndian.readNext 1 bytes
  ⟨.ofNat 64 id, .ofNat 8 kind⟩

@[simp] theorem length_toBytes (key : TypeDefinitionKey) :
    key.toBytes.length = Kind.byteSize .typeDefinition := by
  simp [toBytes, Kind.byteSize]

theorem fromBytes_toBytes (key : TypeDefinitionKey) : fromBytes key.toBytes = key := by
  rw [toBytes, fromBytes, LittleEndian.readNext_write_append key.id.isLt]
  dsimp only
  rw [← List.append_nil (LittleEndian.write 1 _),
    LittleEndian.readNext_write_append key.kind.isLt]
  simp

theorem toBytes_injective : Function.Injective toBytes :=
  Function.LeftInverse.injective fromBytes_toBytes

end TypeDefinitionKey

/-- The number of a type of addresses. -/
def typeValue : MetaAddressType → Nat
  | .invalid => 0
  | .generic32 => 1
  | .generic64 => 2
  | .codeX86 => 3
  | .codeX86_64 => 4
  | .codeMips => 5
  | .codeMipsel => 6
  | .codeArm => 7
  | .codeArmThumb => 8
  | .codeAarch64 => 9
  | .codeSystemz => 10

/-- Numbers from `Count` on are no type. -/
def typeOfValue : Nat → Option MetaAddressType
  | 0 => some .invalid
  | 1 => some .generic32
  | 2 => some .generic64
  | 3 => some .codeX86
  | 4 => some .codeX86_64
  | 5 => some .codeMips
  | 6 => some .codeMipsel
  | 7 => some .codeArm
  | 8 => some .codeArmThumb
  | 9 => some .codeAarch64
  | 10 => some .codeSystemz
  | _ => none

theorem typeOfValue_typeValue (type : MetaAddressType) :
    typeOfValue (typeValue type) = some type := by
  cases type <;> rfl

theorem typeValue_lt (type : MetaAddressType) : typeValue type < 256 ^ 2 := by
  cases type <;> decide

def addressToBytes (a : MetaAddress) : List UInt8 :=
  LittleEndian.write 4 a.epoch.toNat ++ (LittleEndian.write 2 a.addressSpace.toNat ++
    (LittleEndian.write 2 (typeValue a.type) ++ LittleEndian.write 8 a.address.toNat))

/-- The fields as they are stored, before they are validated. -/
def addressFields (bytes : List UInt8) : Option MetaAddress :=
  let (epoch, bytes) := LittleEndian.readNext 4 bytes
  let (addressSpace, bytes) := LittleEndian.readNext 2 bytes
  let (type, bytes) := LittleEndian.readNext 2 bytes
  let (address, _) := LittleEndian.readNext 8 bytes
  (typeOfValue type).map fun type =>
    ⟨.ofNat 32 epoch, .ofNat 16 addressSpace, type, .ofNat 64 address⟩

/-- `MetaAddress::fromBytes`.  What is no address is replaced by the invalid one. -/
def addressFromBytes (bytes : List UInt8) : MetaAddress :=
  match addressFields bytes with
  | some a => a.validate
  | none => .invalid

@[simp] theorem length_addressToBytes (a : MetaAddress) :
    (addressToBytes a).length = Kind.byteSize .function := by
  simp [addressToBytes, Kind.byteSize]

theorem addressFields_addressToBytes (a : MetaAddress) :
    addressFields (addressToBytes a) = some a := by
  rw [addressToBytes, addressFields, LittleEndian.readNext_write_append a.epoch.isLt]
  dsimp only
  rw [LittleEndian.readNext_write_append a.addressSpace.isLt]
  dsimp only
  rw [LittleEndian.readNext_write_append (typeValue_lt a.type)]
  dsimp only
  rw [← List.append_nil (LittleEndian.write 8 _),
    LittleEndian.readNext_write_append a.address.isLt, typeOfValue_typeValue]
  simp

theorem addressFromBytes_addressToBytes {a : MetaAddress} (h : a.WellFormed) :
    addressFromBytes (addressToBytes a) = a := by
  rw [addressFromBytes, addressFields_addressToBytes]
  rcases h with rfl | h
  · rfl
  · exact MetaAddress.validate_of_verify h

theorem addressToBytes_injective : Function.Injective addressToBytes := by
  intro a b h
  have hfields := congrArg addressFields h
  rw [addressFields_addressToBytes, addressFields_addressToBytes] at hfields
  exact Option.some.inj hfields

/-! ## Identifiers -/

inductive ObjectID where
  | root
  | function (entry : MetaAddress)
  | typeDefinition (key : TypeDefinitionKey)
deriving DecidableEq, Repr

namespace ObjectID

def kind : ObjectID → Kind
  | root => .binary
  | function _ => .function
  | typeDefinition _ => .typeDefinition

def parent (a : ObjectID) : Option ObjectID :=
  match a.kind with
  | .binary => none
  | .function => some root
  | .typeDefinition => some root

def toBytes : ObjectID → ObjectKey
  | root => []
  | function entry => kindByte .function :: addressToBytes entry
  | typeDefinition key => kindByte .typeDefinition :: key.toBytes

def fromBytes : ObjectKey → Option ObjectID
  | [] => some root
  | b :: key =>
      if key.length = Kind.byteSize .function ∧ b = kindByte .function then
        some (function (addressFromBytes key))
      else if key.length = Kind.byteSize .typeDefinition ∧ b = kindByte .typeDefinition then
        some (typeDefinition (TypeDefinitionKey.fromBytes key))
      else none

/-- The entry address of a function is an address. -/
def WellFormed : ObjectID → Prop
  | function entry => entry.WellFormed
  | _ => True

theorem fromBytes_toBytes {a : ObjectID} (h : a.WellFormed) : fromBytes a.toBytes = some a := by
  cases a with
  | root => rfl
  | function entry =>
    rw [toBytes, fromBytes, if_pos ⟨length_addressToBytes entry, rfl⟩,
      addressFromBytes_addressToBytes h]
  | typeDefinition key =>
    have hkind : kindByte .typeDefinition ≠ kindByte .function := by decide
    rw [toBytes, fromBytes, if_neg (fun hf => hkind hf.2),
      if_pos ⟨key.length_toBytes, rfl⟩, TypeDefinitionKey.fromBytes_toBytes]

/-! ## Relatives -/

theorem parent_eq_some_iff {a b : ObjectID} : a.parent = some b ↔ b = root ∧ a ≠ root := by
  cases a <;> simp [parent, kind, eq_comm]

theorem rank_of_parent {a b : ObjectID} (h : a.parent = some b) : b.kind.rank < a.kind.rank := by
  obtain ⟨rfl, ha⟩ := parent_eq_some_iff.mp h
  cases a with
  | root => exact absurd rfl ha
  | function entry => exact Nat.zero_lt_one
  | typeDefinition key => exact Nat.zero_lt_one

/-- The inner function of `is_related`: go from `target` to its parents until there is
`source`. -/
def test (source target : ObjectID) : Bool :=
  if target = source then true
  else
    match _h : target.parent with
    | none => false
    | some parent => test source parent
termination_by target.kind.rank
decreasing_by exact rank_of_parent _h

def isRelated (a b : ObjectID) : Bool := test a b || test b a

/-- `a` lies below `b`: `b` is the parent of `a`, or the parent of its parent, and so on. -/
def IsDescendant (a b : ObjectID) : Prop :=
  Relation.TransGen (fun child parent => child.parent = some parent) a b

theorem isDescendant_iff {a b : ObjectID} : a.IsDescendant b ↔ b = root ∧ a ≠ root := by
  constructor
  · intro h
    induction h with
    | single h => exact parent_eq_some_iff.mp h
    | tail _ h ih =>
      -- the root has no parent
      exact absurd ih.1 (parent_eq_some_iff.mp h).2
  · exact fun h => .single (parent_eq_some_iff.mpr h)

theorem test_eq_true_iff_reflTransGen {source target : ObjectID} :
    test source target = true ↔
      Relation.ReflTransGen (fun child parent => child.parent = some parent) target source := by
  fun_induction test source target with
  | case1 => exact iff_of_true rfl .refl
  | case2 target hne hparent =>
    refine iff_of_false Bool.false_ne_true fun h => ?_
    obtain heq | ⟨next, hnext, -⟩ := h.cases_head
    · exact hne heq
    · cases hparent.symm.trans hnext
  | case3 target hne parent hparent ih =>
    rw [ih]
    refine ⟨fun h => h.head hparent, fun h => ?_⟩
    obtain heq | ⟨next, hnext, h⟩ := h.cases_head
    · exact absurd heq hne
    · cases hparent.symm.trans hnext
      exact h

theorem test_eq_true_iff {source target : ObjectID} :
    test source target = true ↔ target = source ∨ target.IsDescendant source := by
  rw [test_eq_true_iff_reflTransGen, Relation.reflTransGen_iff_eq_or_transGen, eq_comm]
  rfl

theorem isRelated_iff {a b : ObjectID} :
    a.isRelated b = true ↔ b = a ∨ b.IsDescendant a ∨ a.IsDescendant b := by
  rw [isRelated, Bool.or_eq_true, test_eq_true_iff, test_eq_true_iff, eq_comm (a := a)]
  tauto

/-! ## Paths -/

/-- The sizes of the keys, by the bytes of their kinds. -/
def layout : KindLayout where
  byteSize b :=
    if b = kindByte .function then Kind.byteSize .function
    else if b = kindByte .typeDefinition then Kind.byteSize .typeDefinition
    else 0

/-- The only step from the root to a child, and no step to the root. -/
def segments : ObjectID → List Segment
  | root => []
  | function entry => [⟨kindByte .function, addressToBytes entry⟩]
  | typeDefinition key => [⟨kindByte .typeDefinition, key.toBytes⟩]

theorem flatMap_segments (a : ObjectID) : a.segments.flatMap Segment.toBytes = a.toBytes := by
  cases a with
  | root => rfl
  | function entry => exact List.append_nil _
  | typeDefinition key => exact List.append_nil _

def toObjectID (a : ObjectID) : Pypeline.ObjectID layout where
  path := a.segments
  fits := by
    cases a with
    | root => simp [segments]
    | function entry => simp [segments, Segment.Fits, layout, kindByte]
    | typeDefinition key => simp [segments, Segment.Fits, layout, kindByte]
  size_le := by
    rw [flatMap_segments]
    cases a with
    | root => exact Nat.zero_le _
    | function entry => simp [toBytes, Kind.byteSize, Pypeline.objectIdMaxSize]
    | typeDefinition key => simp [toBytes, Kind.byteSize, Pypeline.objectIdMaxSize]

theorem toBytes_toObjectID (a : ObjectID) : a.toObjectID.toBytes = a.toBytes :=
  a.flatMap_segments

theorem rank_toObjectID (a : ObjectID) : a.toObjectID.rank = a.kind.rank := by
  cases a <;> rfl

theorem segments_injective : Function.Injective segments := by
  intro a b h
  cases a <;> cases b <;>
    simp only [segments, List.cons.injEq, Segment.mk.injEq, reduceCtorEq, and_true,
      kindByte_injective.eq_iff, false_and, true_and] at h
  · rfl
  · rw [addressToBytes_injective h]
  · rw [TypeDefinitionKey.toBytes_injective h]

theorem segments_prefix_iff {a b : ObjectID} :
    a.segments <+: b.segments ↔ b = a ∨ b.IsDescendant a := by
  rw [isDescendant_iff]
  constructor
  · intro h
    rcases eq_or_ne a root with rfl | ha
    · rw [or_iff_not_imp_left]
      exact fun hb => ⟨rfl, hb⟩
    · -- the path of `a` is as long as a path gets
      have hrank : b.kind.rank ≤ a.kind.rank := by
        have hb := b.kind.rank_le_one
        have ha := rank_of_parent (parent_eq_some_iff.mpr ⟨rfl, ha⟩)
        omega
      rw [← rank_toObjectID, ← rank_toObjectID] at hrank
      exact Or.inl (segments_injective (h.eq_of_length_le hrank)).symm
  · rintro (rfl | ⟨rfl, -⟩)
    · exact List.prefix_rfl
    · exact List.nil_prefix

/-- The relation of the paths is the one of the identifiers. -/
theorem isRelated_toObjectID (a b : ObjectID) :
    a.toObjectID.isRelated b.toObjectID = a.isRelated b := by
  rw [Bool.eq_iff_iff, isRelated, Bool.or_eq_true, test_eq_true_iff, test_eq_true_iff,
    Pypeline.ObjectID.isRelated, Bool.or_eq_true, Pypeline.ObjectID.isAncestor_iff,
    Pypeline.ObjectID.isAncestor_iff]
  exact or_congr segments_prefix_iff segments_prefix_iff

/-! ## The selection of the databases -/

/-- The bytes select the object, its descendants and its ancestors. -/
theorem keyInvalidatedBy_toBytes_iff (a d : ObjectID) :
    keyInvalidatedBy d.toBytes a.toBytes = true ↔
      a = d ∨ a.IsDescendant d ∨ d.IsDescendant a := by
  have hrank : d.toObjectID.rank ≤ 1 := by
    rw [rank_toObjectID]
    exact d.kind.rank_le_one
  rw [← toBytes_toObjectID, ← toBytes_toObjectID,
    Pypeline.ObjectID.keyInvalidatedBy_eq_isRelated hrank, isRelated_toObjectID, isRelated_iff]

end ObjectID

end PipeboxCommon

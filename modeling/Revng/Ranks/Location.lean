import Mathlib.Data.List.Nodup
import Revng.Ranks.Keys

/-!
# Locations

A rank has a name and a tuple of keys, which are the keys of its parent and one more.  A
location of a rank is its tuple of values.  It is printed as the name and the keys, with a slash
in front of each of them, and nothing is escaped.

What is read is well formed (`Location.fromString`).  The text keeps a location when it keeps the
keys and no string has a slash in it (`keeps_codec_iff`).  Locations of different ranks are
always told apart (`rank_eq_of_locationString_eq`).
-/

namespace Ranks

open Binary (BasicBlockID MetaAddress Text)
open SeparatedText (eq_of_join_eq join join_cons_eq_flatMap split splitExact splitExact_eq_some_iff splitExact_join
  split_append split_of_notMem)

/-! ## Ranks -/

structure Rank where
  name : Text
  tuple : List KeyType
  deriving DecidableEq, Repr

def defineRootRank (name : String) : Rank := ⟨name.toList, []⟩

/-- A rank has the keys of its parent and one of its own. -/
def defineRank (name : String) (type : KeyType) (parent : Rank) : Rank :=
  ⟨name.toList, parent.tuple ++ [type]⟩

/-! ### The keys of the model -/

def functionKey : KeyType := .fields [.metaAddress]
def dynamicFunctionKey : KeyType := .fields [.string]
def segmentKey : KeyType := .fields [.metaAddress]
def typeDefinitionKey : KeyType := .fields [.uint64, .typeDefinitionKind]
def structFieldKey : KeyType := .fields [.uint64]
def unionFieldKey : KeyType := .fields [.uint64]
def enumEntryKey : KeyType := .fields [.uint64]
def argumentKey : KeyType := .fields [.uint64]
def namedTypedRegisterKey : KeyType := .fields [.register]

namespace Rank

def binary := defineRootRank "binary"
def function := defineRank "function" functionKey binary
def dynamicFunction := defineRank "dynamic-function" dynamicFunctionKey binary
def segment := defineRank "segment" segmentKey binary
def statementComment := defineRank "statement-comment" (.scalar .uint64) function
def typeDefinition := defineRank "type-definition" typeDefinitionKey binary
def structField := defineRank "struct-field" structFieldKey typeDefinition
def unionField := defineRank "union-field" unionFieldKey typeDefinition
def enumEntry := defineRank "enum-entry" enumEntryKey typeDefinition
def primitiveType := defineRank "primitive" (.scalar .string) binary
def cabiArgument := defineRank "cabi-argument" argumentKey typeDefinition
def returnValue := defineRank "return-value" typeDefinitionKey binary
def rawArgument := defineRank "raw-argument" namedTypedRegisterKey typeDefinition
def rawStackArguments := defineRank "raw-stack-arguments" typeDefinitionKey binary
def returnRegister := defineRank "return-register" namedTypedRegisterKey typeDefinition
def rawByte := defineRank "raw-byte" (.scalar .metaAddress) binary
def rawByteRange := defineRank "raw-byte-range" (.scalar .metaAddress) rawByte
def basicBlock := defineRank "basic-block" (.scalar .basicBlockID) function
def instruction := defineRank "instruction" (.scalar .metaAddress) basicBlock
def localVariable := defineRank "local-variable" (.scalar .uint64) function
def stackFrameVariable := defineRank "stack-frame-variable" functionKey binary
def reservedLocalVariable := defineRank "reserved-local-variable" (.scalar .string) function
def gotoLabel := defineRank "goto-label" (.scalar .uint64) function
def artificialStruct := defineRank "artificial-struct" typeDefinitionKey binary
def dynamicFunctionArgument :=
  defineRank "dynamic-function-argument" (.scalar .string) dynamicFunction
def helperFunction := defineRank "helper-function" (.scalar .string) binary
def helperStructType := defineRank "helper-struct-type" (.scalar .string) binary
def helperStructField := defineRank "helper-struct-field" (.scalar .string) helperStructType
def macroRank := defineRank "macro" (.scalar .string) binary
def opaqueType := defineRank "opaque-type" (.scalar .uint64) binary

end Rank

def ranks : List Rank :=
  [.binary, .function, .dynamicFunction, .segment, .statementComment, .typeDefinition,
    .structField, .unionField, .enumEntry, .primitiveType, .cabiArgument, .returnValue,
    .rawArgument, .rawStackArguments, .returnRegister, .rawByte, .rawByteRange, .basicBlock,
    .instruction, .localVariable, .stackFrameVariable, .reservedLocalVariable, .gotoLabel,
    .artificialStruct, .dynamicFunctionArgument, .helperFunction, .helperStructType,
    .helperStructField, .macroRank, .opaqueType]

theorem nodup_names : (ranks.map Rank.name).Nodup := by decide +kernel

theorem slash_notMem_name : ∀ rank ∈ ranks, '/' ∉ rank.name := by decide +kernel

theorem separable_tuple : ∀ rank ∈ ranks, ∀ t ∈ rank.tuple, t.Separable := by decide +kernel

/-! ## Locations -/

structure Location (rank : Rank) where
  keys : List Key
  fits : keys.map Key.type = rank.tuple
  wellFormed : ∀ key ∈ keys, key.WellFormed

/-- The keys, one step after the other. -/
def readKeys (io : Scalars) : List KeyType → List Text → Option (List Key)
  | [], [] => some []
  | t :: ts, step :: steps => do
      let key ← Key.input io t step
      let keys ← readKeys io ts steps
      return key :: keys
  | _, _ => none

/-- The keys of a location, when the text is the one of a location of the rank. -/
def readLocation (io : Scalars) (rank : Rank) (text : Text) : Option (List Key) :=
  match splitExact '/' (rank.tuple.length + 1) text with
  | some (front :: name :: steps) =>
      if front ≠ [] ∨ name ≠ rank.name then none else readKeys io rank.tuple steps
  | _ => none

variable {io : Scalars} {rank : Rank}

variable {ts : List KeyType}

theorem readKeys_cons_eq_some {t : KeyType} {step : Text} {steps : List Text} {keys : List Key} :
    readKeys io (t :: ts) (step :: steps) = some keys ↔
      ∃ k ks, Key.input io t step = some k ∧ readKeys io ts steps = some ks ∧ k :: ks = keys := by
  simp [readKeys, Option.bind_eq_some_iff]

theorem mem_of_readKeys {steps : List Text} {keys : List Key}
    (h : readKeys io ts steps = some keys) :
    List.Forall₂ (fun t k => (Key.codec io t).Mem k) ts keys := by
  induction ts generalizing steps keys with
  | nil =>
    cases steps with
    | nil =>
      cases h
      exact .nil
    | cons step steps => cases h
  | cons t ts ih =>
    cases steps with
    | nil => cases h
    | cons step steps =>
      obtain ⟨k, ks, hk, hks, rfl⟩ := readKeys_cons_eq_some.mp h
      exact .cons (Key.mem_codec_of_input hk) (ih hks)

theorem mem_of_readLocation {text : Text} {keys : List Key}
    (h : readLocation io rank text = some keys) :
    keys.map Key.type = rank.tuple ∧ ∀ key ∈ keys, key.WellFormed := by
  rw [readLocation] at h
  split at h
  · split at h
    · cases h
    · exact Codec.forall₂_type_iff.mp (mem_of_readKeys h)
  · cases h

theorem readKeys_map_output {keys : List Key} (hlength : ts.length = keys.length) :
    readKeys io ts (keys.map (Key.output io)) = some keys ↔
      List.Forall₂ (fun t k => Key.input io t (k.output io) = some k) ts keys := by
  induction keys generalizing ts with
  | nil =>
    obtain rfl := List.length_eq_zero_iff.mp hlength
    simp [readKeys]
  | cons k keys ih =>
    cases ts with
    | nil => cases hlength
    | cons t ts =>
      rw [List.map_cons, readKeys_cons_eq_some, List.forall₂_cons, ← ih (Nat.succ.inj hlength)]
      constructor
      · rintro ⟨k', ks', hk, hks, heq⟩
        cases heq
        exact ⟨hk, hks⟩
      · exact fun h => ⟨k, keys, h.1, h.2, rfl⟩

def locationString (io : Scalars) (rank : Rank) (keys : List Key) : Text :=
  '/' :: rank.name ++ keys.flatMap fun key => '/' :: key.output io

theorem locationString_eq_join (keys : List Key) :
    locationString io rank keys = join '/' ([[], rank.name] ++ keys.map (Key.output io)) := by
  rw [List.cons_append, List.singleton_append, join_cons_eq_flatMap, List.flatMap_cons,
    List.flatMap_map]
  rfl

/-- The name of the rank is in front of the keys, whatever is in them. -/
theorem split_locationString (hslash : '/' ∉ rank.name) (keys : List Key) :
    (split '/' (split '/' (locationString io rank keys)).2).1 = rank.name := by
  have hfirst : (split '/' (locationString io rank keys)).2 =
      rank.name ++ keys.flatMap fun key => '/' :: key.output io :=
    congrArg Prod.snd (split_append List.not_mem_nil _)
  rw [hfirst]
  cases keys with
  | nil => rw [List.flatMap_nil, List.append_nil, split_of_notMem hslash]
  | cons key keys => rw [List.flatMap_cons, List.cons_append, split_append hslash]

theorem rank_eq_of_locationString_eq {other : Rank} (hrank : rank ∈ ranks) (hother : other ∈ ranks)
    {keys others : List Key}
    (h : locationString io other others = locationString io rank keys) : other = rank := by
  have hname : other.name = rank.name :=
    calc other.name = (split '/' (split '/' (locationString io other others)).2).1 :=
          (split_locationString (slash_notMem_name other hother) others).symm
      _ = (split '/' (split '/' (locationString io rank keys)).2).1 := by rw [h]
      _ = rank.name := split_locationString (slash_notMem_name rank hrank) keys
  exact List.inj_on_of_nodup_map nodup_names hother hrank hname

namespace Location

def toString (io : Scalars) (l : Location rank) : Text := locationString io rank l.keys

def fromString (io : Scalars) (rank : Rank) (text : Text) : Option (Location rank) :=
  match h : readLocation io rank text with
  | some keys => some ⟨keys, (mem_of_readLocation h).1, (mem_of_readLocation h).2⟩
  | none => none

theorem map_keys_fromString (text : Text) :
    (fromString io rank text).map keys = readLocation io rank text := by
  rw [fromString]
  split
  next h => exact h.symm
  next h => exact h.symm

def codec (io : Scalars) (rank : Rank) : Codec (Location rank) Text where
  Mem _ := True
  encode := toString io
  decode := fromString io rank

/-! ### The keys on their own -/

def keysCodec (io : Scalars) (rank : Rank) : Codec (List Key) Text where
  Mem keys := List.Forall₂ (fun t k => (Key.codec io t).Mem k) rank.tuple keys
  encode := locationString io rank
  decode := readLocation io rank

theorem embeds_keysCodec : (codec io rank).Embeds (keysCodec io rank) Location.keys where
  injective l m h := by
    cases l
    cases m
    cases h
    rfl
  mem_iff l := iff_of_true (Codec.forall₂_type_iff.mpr ⟨l.fits, l.wellFormed⟩) trivial
  encode_eq _ := rfl
  decode_eq _ := (map_keys_fromString _).symm
  exists_eq _ keys h _ :=
    let h := Codec.forall₂_type_iff.mp h
    ⟨⟨keys, h.1, h.2⟩, rfl⟩

theorem readLocation_join_iff (hslash : '/' ∉ rank.name) {keys : List Key}
    (hlength : rank.tuple.length = keys.length) :
    readLocation io rank (locationString io rank keys) = some keys ↔
      (∀ key ∈ keys, '/' ∉ key.output io) ∧
        readKeys io rank.tuple (keys.map (Key.output io)) = some keys := by
  have hparts : ([[], rank.name] ++ keys.map (Key.output io)).length = rank.tuple.length + 1 + 1 := by
    simp [hlength]
  rw [locationString_eq_join, readLocation]
  constructor
  · intro h
    split at h
    next front name steps hsplit =>
      obtain ⟨htext, hsteps, hsep⟩ := splitExact_eq_some_iff.mp hsplit
      have heq := eq_of_join_eq (hparts.trans hsteps.symm) hsep htext
      rw [List.cons_append, List.singleton_append] at heq
      obtain ⟨rfl, htail⟩ := List.cons.inj heq
      obtain ⟨rfl, rfl⟩ := List.cons.inj htail
      rw [if_neg (by simp)] at h
      exact ⟨fun key hkey => hsep _ (by simp [List.mem_map_of_mem hkey]), h⟩
    next => cases h
  · rintro ⟨hsep, hread⟩
    have hfree : ∀ x ∈ [[], rank.name] ++ keys.map (Key.output io), '/' ∉ x := by
      simpa [hslash] using hsep
    rw [splitExact_join hparts hfree]
    exact (if_neg (by simp)).trans hread

theorem joins_keysCodec (hslash : '/' ∉ rank.name) :
    (keysCodec io rank).Joins '/' [[], rank.name] rank.tuple (Key.output io) (Key.codec io) where
  component_encode _ _ := rfl
  mem_iff _ := Iff.rfl
  encode_eq := locationString_eq_join
  decode_iff keys hkeys := by
    have hlength : rank.tuple.length = keys.length := hkeys.length_eq
    refine (readLocation_join_iff hslash hlength).trans ?_
    rw [readKeys_map_output hlength, Codec.forall₂_and_right, and_comm]
    rfl

theorem keeps_keysCodec_iff (hrank : rank ∈ ranks) {keys : List Key}
    (hkeys : keys.map Key.type = rank.tuple) (hwf : ∀ key ∈ keys, key.WellFormed) :
    (keysCodec io rank).Keeps keys ↔ ∀ key ∈ keys, key.Legible io ∧ key.Avoids '/' := by
  have hslash := slash_notMem_name rank hrank
  have hmem : (keysCodec io rank).Mem keys := Codec.forall₂_type_iff.mpr ⟨hkeys, hwf⟩
  have hfront : ∀ x ∈ [[], rank.name], '/' ∉ x := by simpa using hslash
  rw [(joins_keysCodec hslash).keeps_iff hfront hmem, ← hkeys, List.forall₂_map_left_iff,
    List.forall₂_same]
  refine forall₂_congr fun key hkey => ?_
  have hsep : key.type.Separable :=
    separable_tuple rank hrank _ (hkeys ▸ List.mem_map_of_mem hkey)
  rw [Key.keeps_codec_iff (hwf key hkey) hsep, key.slash_notMem_output_iff]

/-- The text keeps a location when it keeps the keys and no string has a slash in it. -/
theorem keeps_codec_iff (hrank : rank ∈ ranks) (l : Location rank) :
    (codec io rank).Keeps l ↔ ∀ key ∈ l.keys, key.Legible io ∧ key.Avoids '/' :=
  embeds_keysCodec.keeps_iff.symm.trans (keeps_keysCodec_iff hrank l.fits l.wellFormed)

end Location

end Ranks

import Revng.Naming.AddressNames

/-!
# The C name builder

The names that may not be chosen are found by a list of rules, tried in order
(`CNameBuilder.isNameStaticallyReserved`).  Some rules are fixed, others come from the naming
configuration: every kind of automatic name has one.

An automatic name is built from the configuration and handed out only after a check that a rule
rejects it; the code aborts otherwise, which is `none` here.
-/

namespace Naming

open Binary (MetaAddress MetaAddressType IntegerText)

/-! ## The configuration -/

structure NamingConfiguration where
  unnamedSegmentPrefix : Text
  unnamedDynamicFunctionPrefix : Text
  unnamedFunctionPrefix : Text
  unnamedTypeDefinitionPrefix : Text
  unnamedEnumEntryPrefix : Text
  unnamedStructFieldPrefix : Text
  unnamedUnionFieldPrefix : Text
  unnamedFunctionArgumentPrefix : Text
  unnamedFunctionRegisterPrefix : Text
  unnamedLocalVariablePrefix : Text
  unnamedBreakFromLoopVariablePrefix : Text
  unnamedGotoLabelPrefix : Text
  opaqueCSVValuePrefix : Text
  maximumEnumValuePrefix : Text
  unnamedStackFrameVariableName : Text
  rawStackArgumentName : Text
  loopStateVariableName : Text
  structPaddingPrefix : Text
  artificialReturnValuePrefix : Text
  opaqueTypePrefix : Text
  reserveNamesStartingWithUnderscore : Bool

namespace NamingConfiguration

def standard : NamingConfiguration where
  unnamedSegmentPrefix := "segment_".toList
  unnamedDynamicFunctionPrefix := "dynamic_function_".toList
  unnamedFunctionPrefix := "function_".toList
  unnamedTypeDefinitionPrefix := []
  unnamedEnumEntryPrefix := "enum_entry_".toList
  unnamedStructFieldPrefix := "offset_".toList
  unnamedUnionFieldPrefix := "member_".toList
  unnamedFunctionArgumentPrefix := "argument_".toList
  unnamedFunctionRegisterPrefix := "register_".toList
  unnamedLocalVariablePrefix := "var_".toList
  unnamedBreakFromLoopVariablePrefix := "break_from_loop_".toList
  unnamedGotoLabelPrefix := "label_".toList
  opaqueCSVValuePrefix := "revng_undefined_".toList
  maximumEnumValuePrefix := "enum_max_value_".toList
  unnamedStackFrameVariableName := "stack".toList
  rawStackArgumentName := "stack_arguments".toList
  loopStateVariableName := "loop_state_var".toList
  structPaddingPrefix := "padding_at_".toList
  artificialReturnValuePrefix := "artificial_struct_returned_by_".toList
  opaqueTypePrefix := "opaque_type_".toList
  reserveNamesStartingWithUnderscore := false

/-- Only the text before the kind of a type may be empty. -/
def verify (c : NamingConfiguration) : Bool :=
  [c.unnamedSegmentPrefix, c.unnamedDynamicFunctionPrefix, c.unnamedFunctionPrefix,
    c.unnamedEnumEntryPrefix, c.unnamedStructFieldPrefix, c.unnamedUnionFieldPrefix,
    c.unnamedFunctionArgumentPrefix, c.unnamedFunctionRegisterPrefix, c.unnamedLocalVariablePrefix,
    c.unnamedBreakFromLoopVariablePrefix, c.unnamedGotoLabelPrefix, c.opaqueCSVValuePrefix,
    c.maximumEnumValuePrefix, c.unnamedStackFrameVariableName, c.rawStackArgumentName,
    c.loopStateVariableName, c.structPaddingPrefix, c.artificialReturnValuePrefix,
    c.opaqueTypePrefix].all fun text => !text.isEmpty

end NamingConfiguration

/-! ## Names from elsewhere -/

def isInitialIdentifierCharacter (c : Char) : Bool := c = '_' || c.isAlpha

def isIdentifierCharacter (c : Char) : Bool := isInitialIdentifierCharacter c || c.isDigit

def sanitizeIdentifier (identifier : Text) : Text :=
  let sanitary := identifier.map fun c => if isIdentifierCharacter c then c else '_'
  if sanitary.head?.any fun c => !isInitialIdentifierCharacter c then '_' :: sanitary else sanitary

def dropWrapperSuffix : Text → Text
  | [] => []
  | c :: rest => if "_wrapper".toList.isPrefixOf (c :: rest) then [] else c :: dropWrapperSuffix rest

structure PrimitiveAlias where
  name : Text
  kind : PrimitiveKind
  size : Nat

/-- The parts of a type definition that its name depends on, with the primitive type that a typedef
stands for. -/
structure TypeDefinition where
  kind : TypeDefinitionKind
  id : Nat
  name : Text
  underlying : Option (PrimitiveKind × Nat)

/-- A name builder, with the tables of names it reads: the list of helpers, the base names of the
intrinsics, the registers without their architectures and the aliases of the ABI. -/
structure CNameBuilder where
  configuration : NamingConfiguration
  helperList : List Text
  intrinsics : List Text
  registers : List Text
  primitiveAliases : List PrimitiveAlias
  nameHash : Text → Text

/-! ## Reserved names -/

/-- Why a name is reserved. -/
inductive Reservation where
  | forbiddenCharacter
  | leadingDigit
  | primitive
  | keyword
  | helper
  | intrinsic
  | attributeMacro
  | underscore
  | segment
  | structField
  | unionField
  | argument
  | localVariable
  | breakFromLoop
  | gotoLabel
  | structPadding
  | function
  | typeDefinition
  | enumEntry
  | maximumEnumValue
  | register
  | opaqueType
  | artificialReturnValue
  | opaqueCSVValue
  | dynamicFunction
  | runtimeLibrary
  | builtin
  | paddingField
  | enumMaximum
  | stackFrame
  | rawStackArgument
  | loopState
  deriving DecidableEq, Repr

namespace Reservation

/-- The rules in the order in which they are tried. -/
def values : List Reservation :=
  [forbiddenCharacter, leadingDigit, primitive, keyword, helper, intrinsic, attributeMacro,
    underscore, segment, structField, unionField, argument, localVariable, breakFromLoop, gotoLabel,
    structPadding, function, typeDefinition, enumEntry, maximumEnumValue, register, opaqueType,
    artificialReturnValue, opaqueCSVValue, dynamicFunction, runtimeLibrary, builtin, paddingField,
    enumMaximum, stackFrame, rawStackArgument, loopState]

theorem mem_values (r : Reservation) : r ∈ values := by
  cases r <;> decide

end Reservation

namespace CNameBuilder

variable (b : CNameBuilder)

def isLLVMIntrinsic (name : Text) : Bool :=
  "llvm_".toList.isPrefixOf name && b.intrinsics.any fun i => (sanitizeIdentifier i).isPrefixOf name

def loadHelperNameList : List Text :=
  (b.helperList.filter fun name =>
    !(name = "main".toList || "llvm.dbg".toList.isPrefixOf name || b.isLLVMIntrinsic name)).map
      sanitizeIdentifier

def rejects (r : Reservation) (name : Text) : Bool :=
  let c := b.configuration
  match r with
  | .forbiddenCharacter => name.any fun c => c ≠ '_' && !c.isAlphanum
  | .leadingDigit => name.head?.any Char.isDigit
  | .primitive => isCName name
  | .keyword => reservedKeywords.any fun keyword => name = keyword.toList
  | .helper => b.loadHelperNameList.any fun helper => dropWrapperSuffix name = helper
  | .intrinsic => b.isLLVMIntrinsic name
  | .attributeMacro => attributeMacros.any fun text => name = text.toList
  | .underscore => c.reserveNamesStartingWithUnderscore && name.head? = some '_'
  | .segment => isPrefixAndIndex name c.unnamedSegmentPrefix
  | .structField => isPrefixAndIndex name c.unnamedStructFieldPrefix
  | .unionField => isPrefixAndIndex name c.unnamedUnionFieldPrefix
  | .argument => isPrefixAndIndex name c.unnamedFunctionArgumentPrefix
  | .localVariable => isPrefixAndIndex name c.unnamedLocalVariablePrefix
  | .breakFromLoop => isPrefixAndIndex name c.unnamedBreakFromLoopVariablePrefix
  | .gotoLabel => isPrefixAndIndex name c.unnamedGotoLabelPrefix
  | .structPadding => c.structPaddingPrefix.isPrefixOf name
  | .function => isPrefixAndAddress name c.unnamedFunctionPrefix
  | .typeDefinition => isPrefixAndTypeDefinitionKey name c.unnamedTypeDefinitionPrefix
  | .enumEntry => c.unnamedEnumEntryPrefix.isPrefixOf name && name.getLast?.any Char.isDigit
  | .maximumEnumValue => c.maximumEnumValuePrefix.isPrefixOf name
  | .register => isPrefixAndRegister b.registers name c.unnamedFunctionRegisterPrefix
  | .opaqueType => isPrefixAndIndex name c.opaqueTypePrefix
  | .artificialReturnValue => c.artificialReturnValuePrefix.isPrefixOf name
  | .opaqueCSVValue => c.opaqueCSVValuePrefix.isPrefixOf name
  | .dynamicFunction => c.unnamedDynamicFunctionPrefix.isPrefixOf name
  | .runtimeLibrary => "rr_".toList.isPrefixOf name
  | .builtin => "__builtin_".toList.isPrefixOf name
  | .paddingField => "padding_at_".toList.isPrefixOf name
  | .enumMaximum => "enum_max_value_".toList.isPrefixOf name
  | .stackFrame => name = c.unnamedStackFrameVariableName
  | .rawStackArgument => name = c.rawStackArgumentName
  | .loopState => name = c.loopStateVariableName

/-- The text of the error. -/
def message (r : Reservation) (name : Text) : String :=
  match r with
  | .forbiddenCharacter =>
      "it contains a forbidden character: `" ++
        .ofList (name.find? fun c => c ≠ '_' && !c.isAlphanum).toList ++ "`"
  | .leadingDigit => "it starts with a digit: `" ++ .ofList (name.take 1) ++ "`"
  | .primitive => "it is reserved for a primitive type we use"
  | .keyword => "it is reserved by the C language or some common extension"
  | .helper => "it collides with a helper (`" ++ .ofList (dropWrapperSuffix name) ++ "`)"
  | .intrinsic => "it collides with one of the LLVM intrinsics"
  | .attributeMacro => "it is reserved for a macro we use in the decompiled code"
  | .underscore => "it is reserved because it begins with an underscore"
  | .segment => "it is reserved for an automatic segment name"
  | .structField => "it is reserved for an automatic struct field name"
  | .unionField => "it is reserved for an automatic struct union name"
  | .argument => "it is reserved for an automatic function argument name"
  | .localVariable => "it is reserved for an automatic local variable name"
  | .breakFromLoop => "it is reserved for a break-from-loop variable name"
  | .gotoLabel => "it is reserved for an automatic goto label name"
  | .structPadding => "it is reserved for a struct padding name"
  | .function => "it is reserved for an automatic function name"
  | .typeDefinition => "it is reserved for an automatic type name"
  | .enumEntry => "it is reserved for an automatic enum entry name"
  | .maximumEnumValue => "it is reserved for a maximum enum value"
  | .register => "it is reserved for an automatic register argument name"
  | .opaqueType => "it is reserved for an opaque type"
  | .artificialReturnValue => "it is reserved for an artificial return value struct name"
  | .opaqueCSVValue => "it is reserved for an opaque CSV value"
  | .dynamicFunction => "it is reserved for a dynamic function name"
  | .runtimeLibrary => "it is reserved for runtime library functions"
  | .builtin => "it is reserved for a builtin intrinsic"
  | .paddingField => "it is reserved for padding fields"
  | .enumMaximum => "it is reserved for the maximum enum value"
  | .stackFrame => "it is reserved for a stack variable name"
  | .rawStackArgument => "it is reserved for a stack argument name"
  | .loopState => "it is reserved for a loop state variable name"

/-- The error, if the name is reserved.  An empty name aborts. -/
def isNameStaticallyReserved (name : Text) : Option (Option String) :=
  if name = [] then none
  else some ((Reservation.values.find? fun r => b.rejects r name).map fun r => message r name)

/-- A typedef may keep the name the ABI gives to its type. -/
def isKnownPrimitiveAlias (t : TypeDefinition) (name : Text) : Bool :=
  match b.primitiveAliases.find? fun known => known.name = name with
  | some known => t.underlying = some (known.kind, known.size)
  | none => false

/-- The same for a type definition, which may be such a typedef. -/
def isTypeNameReserved (t : TypeDefinition) (name : Text) : Option (Option String) :=
  if name ≠ [] ∧ t.kind = .typedefDefinition ∧ b.isKnownPrimitiveAlias t name then some none
  else b.isNameStaticallyReserved name

end CNameBuilder

/-! ## Automatic names -/

/-- What has an automatic name, with what the name is made from.  A local variable and a label have
the index they were given. -/
inductive Entity where
  | segment (segments : List MetaAddress) (startAddress : MetaAddress)
  | function (entry : MetaAddress)
  | dynamicFunction (name : Text)
  | typeDefinition (definition : TypeDefinition)
  | enumEntry (definition : TypeDefinition) (value : Nat)
  | structField (offset : Nat)
  | unionField (index : Nat)
  | argument (index : Nat)
  | register (name : Text)
  | stackFrame
  | localVariable (index : Nat)
  | gotoLabel (index : Nat)

/-- What a user may name. -/
inductive NamedEntity where
  | typeDefinition (definition : TypeDefinition)
  | other (name : Text)

def NamedEntity.name : NamedEntity → Text
  | .typeDefinition t => t.name
  | .other name => name

namespace CNameBuilder

variable (b : CNameBuilder)

/-- Hand out an automatic name, when the check finds it reserved. -/
def assertNameIsReserved (check : Option (Option String)) (name : Text) : Option Text :=
  match check with
  | some (some _) => some name
  | some none | none => none

def automaticTypeText (t : TypeDefinition) : Text :=
  b.configuration.unnamedTypeDefinitionPrefix ++ (t.kind.automaticNamePrefix ++ decimal t.id)

def automaticTypeName (t : TypeDefinition) : Option Text :=
  assertNameIsReserved (b.isTypeNameReserved t (b.automaticTypeText t)) (b.automaticTypeText t)

/-- The name of an enum: the one the user chose, unless it is reserved. -/
def enumName (t : TypeDefinition) : Option Text :=
  if t.name = [] then b.automaticTypeName t
  else do
    match ← b.isNameStaticallyReserved t.name with
    | some _ => b.automaticTypeName t
    | none => return t.name

/-- The automatic name, before it is checked. -/
def automaticText : Entity → Option Text
  | .segment segments startAddress =>
      some (b.configuration.unnamedSegmentPrefix ++ decimal (segments.findIdx (· = startAddress)))
  | .function entry =>
      (entry.toIdentifier .llvm .invalid).map (b.configuration.unnamedFunctionPrefix ++ ·)
  | .dynamicFunction name => some (b.configuration.unnamedDynamicFunctionPrefix ++ b.nameHash name)
  | .typeDefinition t => some (b.automaticTypeText t)
  | .enumEntry t value =>
      (b.enumName t).map fun name =>
        b.configuration.unnamedEnumEntryPrefix ++ (name ++ '_' :: decimal value)
  | .structField offset => some (b.configuration.unnamedStructFieldPrefix ++ decimal offset)
  | .unionField index => some (b.configuration.unnamedUnionFieldPrefix ++ decimal index)
  | .argument index => some (b.configuration.unnamedFunctionArgumentPrefix ++ decimal index)
  | .register name => some (b.configuration.unnamedFunctionRegisterPrefix ++ name)
  | .stackFrame => some b.configuration.unnamedStackFrameVariableName
  | .localVariable index => some (b.configuration.unnamedLocalVariablePrefix ++ decimal index)
  | .gotoLabel index => some (b.configuration.unnamedGotoLabelPrefix ++ decimal index)

/-- The check made on an automatic name. -/
def isNameReserved : Entity → Text → Option (Option String)
  | .typeDefinition t, name => b.isTypeNameReserved t name
  | _, name => b.isNameStaticallyReserved name

def automaticName (e : Entity) : Option Text := do
  let name ← b.automaticText e
  assertNameIsReserved (b.isNameReserved e name) name

/-- The name the user chose is emitted: it is not empty and not reserved. -/
def emitsUserName : NamedEntity → Bool
  | .typeDefinition t => t.name ≠ [] && b.isTypeNameReserved t t.name = some none
  | .other name => name ≠ [] && b.isNameStaticallyReserved name = some none

end CNameBuilder

end Naming

import Revng.Binary.MetaAddressText

/-!
# Names C does not leave free

The words that no name may be, whatever the naming configuration says: the keywords of C and
of common extensions, the macros used in the decompiled code, and the names of the primitive
types.
-/

namespace Naming

abbrev Text := List Char

/-- `std::to_string` -/
def decimal (n : Nat) : Text := Numeral.writeDigits 10 n

/-! ## Keywords -/

/-- Reserved keywords for primitive types. -/
def integerTypeKeywords : List String :=
  ["int_fast8_t", "int_fast16_t", "int_fast32_t", "int_fast64_t", "int_fast128_t", "int_least8_t",
   "int_least16_t", "int_least32_t", "int_least64_t", "int_least128_t", "intmax_t", "intptr_t",
   "uint_fast8_t", "uint_fast16_t", "uint_fast32_t", "uint_fast64_t", "uint_fast128_t",
   "uint_least8_t", "uint_least16_t", "uint_least32_t", "uint_least64_t", "uint_least128_t",
   "uintmax_t", "uintptr_t"]

/-- Integer macros from stdint.h. -/
def integerMacroKeywords : List String :=
  ["INT8_WIDTH", "INT16_WIDTH", "INT32_WIDTH", "INT64_WIDTH", "INT_FAST8_WIDTH",
   "INT_FAST16_WIDTH", "INT_FAST32_WIDTH", "INT_FAST64_WIDTH", "INT_LEAST8_WIDTH",
   "INT_LEAST16_WIDTH", "INT_LEAST32_WIDTH", "INT_LEAST64_WIDTH", "INTPTR_WIDTH", "INTMAX_WIDTH",
   "INT8_MIN", "INT16_MIN", "INT32_MIN", "INT64_MIN", "INT_FAST8_MIN", "INT_FAST16_MIN",
   "INT_FAST32_MIN", "INT_FAST64_MIN", "INT_LEAST8_MIN", "INT_LEAST16_MIN", "INT_LEAST32_MIN",
   "INT_LEAST64_MIN", "INTPTR_MIN", "INTMAX_MIN", "INT8_MAX", "INT16_MAX", "INT32_MAX",
   "INT64_MAX", "INT_FAST8_MAX", "INT_FAST16_MAX", "INT_FAST32_MAX", "INT_FAST64_MAX",
   "INT_LEAST8_MAX", "INT_LEAST16_MAX", "INT_LEAST32_MAX", "INT_LEAST64_MAX", "INTPTR_MAX",
   "INTMAX_MAX", "UINT8_WIDTH", "UINT16_WIDTH", "UINT32_WIDTH", "UINT64_WIDTH", "UINT_FAST8_WIDTH",
   "UINT_FAST16_WIDTH", "UINT_FAST32_WIDTH", "UINT_FAST64_WIDTH", "UINT_LEAST8_WIDTH",
   "UINT_LEAST16_WIDTH", "UINT_LEAST32_WIDTH", "UINT_LEAST64_WIDTH", "UINTPTR_WIDTH",
   "UINTMAX_WIDTH", "UINT8_MAX", "UINT16_MAX", "UINT32_MAX", "UINT64_MAX", "UINT_FAST8_MAX",
   "UINT_FAST16_MAX", "UINT_FAST32_MAX", "UINT_FAST64_MAX", "UINT_LEAST8_MAX", "UINT_LEAST16_MAX",
   "UINT_LEAST32_MAX", "UINT_LEAST64_MAX", "UINTPTR_MAX", "UINTMAX_MAX", "INT8_C", "INT16_C",
   "INT32_C", "INT64_C", "INTMAX_C", "UINT8_C", "UINT16_C", "UINT32_C", "UINT64_C", "UINTMAX_C"]

/-- C reserved keywords. -/
def languageKeywords : List String :=
  ["auto", "break", "case", "char", "const", "continue", "default", "do", "double", "else", "enum",
   "extern", "float", "for", "goto", "if", "inline", "int", "long", "register", "restrict",
   "return", "short", "signed", "sizeof", "static", "struct", "switch", "typedef", "union",
   "unsigned", "volatile", "while", "_Alignas", "_Alignof", "_Atomic", "_Bool", "_Complex",
   "_Decimal128", "_Decimal32", "_Decimal64", "_Generic", "_Imaginary", "_Noreturn",
   "_Static_assert", "_Thread_local"]

/-- Convenience macros. -/
def convenienceKeywords : List String :=
  ["alignas", "alignof", "bool", "complex", "false", "imaginary", "noreturn", "static_assert",
   "thread_local", "true"]

/-- Common names of the standard library. -/
def libraryKeywords : List String :=
  ["assert", "max_align_t", "NULL", "nullptr_t", "offsetof", "ptrdiff_t", "size_t", "wchar_t"]

/-- Convenience macros for atomic types. -/
def atomicKeywords : List String :=
  ["atomic_bool", "atomic_char", "atomic_schar", "atomic_uchar", "atomic_short", "atomic_ushort",
   "atomic_int", "atomic_uint", "atomic_long", "atomic_ulong", "atomic_llong", "atomic_ullong",
   "atomic_char16_t", "atomic_char32_t", "atomic_wchar_t", "atomic_int_least8_t",
   "atomic_uint_least8_t", "atomic_int_least16_t", "atomic_uint_least16_t", "atomic_int_least32_t",
   "atomic_uint_least32_t", "atomic_int_least64_t", "atomic_uint_least64_t", "atomic_int_fast8_t",
   "atomic_uint_fast8_t", "atomic_int_fast16_t", "atomic_uint_fast16_t", "atomic_int_fast32_t",
   "atomic_uint_fast32_t", "atomic_int_fast64_t", "atomic_uint_fast64_t", "atomic_intptr_t",
   "atomic_uintptr_t", "atomic_size_t", "atomic_ptrdiff_t", "atomic_intmax_t", "atomic_uintmax_t"]

/-- C extensions. -/
def extensionKeywords : List String :=
  ["_Pragma", "asm"]

/-- The support library. -/
def supportKeywords : List String :=
  ["undef", "undef_value", "break_to", "continue_to", "typeof", "__typeof__", "bit_cast",
   "static_assert_typedef"]

def reservedKeywords : List String :=
  integerTypeKeywords ++ integerMacroKeywords ++ languageKeywords ++ convenienceKeywords ++
    libraryKeywords ++ atomicKeywords ++ extensionKeywords ++ supportKeywords

/-- The macros of the static attributes, then those of the static annotations. -/
def attributeMacros : List String :=
  ["_PACKED", "_ALWAYS_INLINE", "_NORETURN", "_STACK", "_CAN_CONTAIN_CODE",
   "_HAS_ONE_BROKEN_RETURN", "_REG", "_ABI", "_STARTS_AT", "_SIZE", "_ENUM_UNDERLYING"]

/-! ## Primitive types -/

inductive PrimitiveKind where
  | void
  | generic
  | pointerOrNumber
  | number
  | unsigned
  | signed
  | float
  deriving DecidableEq, Repr

namespace PrimitiveKind

def cPrefix : PrimitiveKind → String
  | void => "void"
  | unsigned => "uint"
  | signed => "int"
  | float => "float"
  | generic => "generic"
  | number => "number"
  | pointerOrNumber => "pointer_or_number"

/-- The kinds in the order in which their names are tried. -/
def tried : List PrimitiveKind :=
  [generic, unsigned, number, pointerOrNumber, signed, float, void]

def tryConsumeCPrefix (name : Text) : Option (PrimitiveKind × Text) :=
  (tried.find? fun kind => kind.cPrefix.toList.isPrefixOf name).map fun kind =>
    (kind, name.drop kind.cPrefix.toList.length)

def validNumericPrimitives : List Nat := [1, 2, 4, 8, 16, 32, 64]

def validFloatPrimitives : List Nat := [2, 4, 8, 10, 12, 16]

/-- The size is cut to a byte before it is looked up. -/
def isSizeValid (kind : PrimitiveKind) (size : Nat) : Bool :=
  match kind with
  | void => size % 256 = 0
  | pointerOrNumber | number | unsigned | signed => validNumericPrimitives.contains (size % 256)
  | float => validFloatPrimitives.contains (size % 256)
  | generic => validNumericPrimitives.contains (size % 256) ||
      validFloatPrimitives.contains (size % 256)

end PrimitiveKind

/-- `consume_back` -/
def consumeBack (text back : Text) : Option Text :=
  if back.isSuffixOf text then some (text.take (text.length - back.length)) else none

def fromCName (name : Text) : Option (PrimitiveKind × Nat) := do
  let (kind, remaining) ← PrimitiveKind.tryConsumeCPrefix name
  if kind = .void then
    guard (remaining = [])
    return (kind, 0)
  let digits ← consumeBack remaining "_t".toList
  guard (digits ≠ [])
  let bits ← Numeral.readDigits 10 0 digits
  guard (bits < 2 ^ 32 ∧ bits % 8 = 0)
  guard (kind.isSizeValid (bits / 8))
  return (kind, bits / 8)

def isCName (name : Text) : Bool := (fromCName name).isSome

/-!
## The shapes of automatic names

An automatic name is a text from the configuration with something after it: a number, the
address of a function, the kind and the number of a type, or a register.  The code that
recognises such a name is not the code that writes it.

A number is recognised by counting the digits at the end of the name, which goes wrong when
the text before it ends in a digit too (`isPrefixAndIndex_iff`).
-/

open Binary (MetaAddress MetaAddressType IntegerText)

/-! ## Numbers -/

theorem isDigit_of_mem_decimal {n : Nat} {c : Char} (h : c ∈ decimal n) : c.isDigit = true :=
  Numeral.isDigit_of_mem_writeDigits h

theorem decimal_ne_nil (n : Nat) : decimal n ≠ [] := Numeral.writeDigits_ne_nil (by decide) n

theorem decimal_injective {n m : Nat} (h : decimal n = decimal m) : n = m :=
  Numeral.writeDigits_injective (by decide) (by decide) h

def trailingDigitCount (name : Text) : Nat := (name.reverse.takeWhile Char.isDigit).length

/-- The name is the given text and a number. -/
def isPrefixAndIndex (name start : Text) : Bool :=
  start.isPrefixOf name &&
    (trailingDigitCount name ≠ 0 && name.length - start.length = trailingDigitCount name)

def EndsInDigit (start : Text) : Prop := ∃ c, start.getLast? = some c ∧ c.isDigit = true

instance (start : Text) : Decidable (EndsInDigit start) :=
  decidable_of_iff (start.getLast?.any Char.isDigit = true) (by
    cases h : start.getLast? <;> simp [EndsInDigit, h])

theorem trailingDigitCount_append {x digits : Text} (h : ∀ c ∈ digits, c.isDigit = true) :
    trailingDigitCount (x ++ digits) = digits.length + trailingDigitCount x := by
  have hreverse : ∀ c ∈ digits.reverse, c.isDigit = true := fun c hc => h c (List.mem_reverse.mp hc)
  rw [trailingDigitCount, List.reverse_append, List.takeWhile_append_of_pos hreverse,
    List.length_append, List.length_reverse, trailingDigitCount]

theorem trailingDigitCount_eq_zero {x : Text} : trailingDigitCount x = 0 ↔ ¬EndsInDigit x := by
  rw [trailingDigitCount, List.length_eq_zero_iff, EndsInDigit, ← List.head?_reverse]
  cases x.reverse with
  | nil => simp
  | cons c rest => cases hc : c.isDigit <;> simp [hc]

/-- A number is recognised exactly when the text before it does not end in a digit. -/
theorem isPrefixAndIndex_iff (start : Text) (n : Nat) :
    isPrefixAndIndex (start ++ decimal n) start = true ↔ ¬EndsInDigit start := by
  have hcount : trailingDigitCount (start ++ decimal n) =
      (decimal n).length + trailingDigitCount start :=
    trailingDigitCount_append fun _ => isDigit_of_mem_decimal
  have hpos : 0 < (decimal n).length := List.length_pos_of_ne_nil (decimal_ne_nil n)
  have hpre : start.isPrefixOf (start ++ decimal n) = true :=
    List.isPrefixOf_iff_prefix.mpr (List.prefix_append _ _)
  rw [isPrefixAndIndex, hpre, hcount, ← trailingDigitCount_eq_zero]
  simp only [Bool.true_and, Bool.and_eq_true, decide_eq_true_eq, List.length_append]
  omega

/-! ## Types -/

inductive TypeDefinitionKind where
  | cabiFunctionDefinition
  | enumDefinition
  | rawFunctionDefinition
  | structDefinition
  | typedefDefinition
  | unionDefinition
  deriving DecidableEq, Repr

namespace TypeDefinitionKind

def automaticNamePrefix : TypeDefinitionKind → Text
  | structDefinition => "struct_".toList
  | unionDefinition => "union_".toList
  | enumDefinition => "enum_".toList
  | typedefDefinition => "typedef_".toList
  | cabiFunctionDefinition => "cabifunction_".toList
  | rawFunctionDefinition => "rawfunction_".toList

def values : List TypeDefinitionKind :=
  [cabiFunctionDefinition, enumDefinition, rawFunctionDefinition, structDefinition,
    typedefDefinition, unionDefinition]

/-- A text that starts with no kind is left as it is. -/
def consumeNamePrefix (text : Text) : Text :=
  match values.find? fun kind => kind.automaticNamePrefix.isPrefixOf text with
  | some kind => text.drop kind.automaticNamePrefix.length
  | none => text

theorem consumeNamePrefix_append (kind : TypeDefinitionKind) (text : Text) :
    consumeNamePrefix (kind.automaticNamePrefix ++ text) = text := by
  cases kind <;> rfl

theorem automaticNamePrefix_ne_nil (kind : TypeDefinitionKind) : kind.automaticNamePrefix ≠ [] := by
  cases kind <;> decide

end TypeDefinitionKind

/-- The name is the given text, a kind and a number. -/
def isPrefixAndTypeDefinitionKey (name start : Text) : Bool :=
  start.isPrefixOf name &&
    (let withoutPrefix := name.drop start.length
     let withoutKind := TypeDefinitionKind.consumeNamePrefix withoutPrefix
     withoutPrefix.length ≠ withoutKind.length && isPrefixAndIndex withoutKind [])

theorem isPrefixAndTypeDefinitionKey_append (start : Text) (kind : TypeDefinitionKind) (id : Nat) :
    isPrefixAndTypeDefinitionKey (start ++ (kind.automaticNamePrefix ++ decimal id)) start =
      true := by
  have hpre : start.isPrefixOf (start ++ (kind.automaticNamePrefix ++ decimal id)) = true :=
    List.isPrefixOf_iff_prefix.mpr (List.prefix_append _ _)
  have hlength : 0 < kind.automaticNamePrefix.length :=
    List.length_pos_of_ne_nil kind.automaticNamePrefix_ne_nil
  have hindex : isPrefixAndIndex (decimal id) [] = true :=
    (isPrefixAndIndex_iff [] id).mpr (by decide)
  simp only [isPrefixAndTypeDefinitionKey, hpre, List.drop_left,
    TypeDefinitionKind.consumeNamePrefix_append, hindex, List.length_append]
  simp only [Bool.true_and, Bool.and_true, decide_eq_true_eq]
  omega

/-! ## Registers -/

/-- The name is the given text and the name of a register. -/
def isPrefixAndRegister (registers : List Text) (name start : Text) : Bool :=
  start.isPrefixOf name && registers.any fun register => name.drop start.length = register

theorem isPrefixAndRegister_append {registers : List Text} (start : Text) {register : Text}
    (h : register ∈ registers) : isPrefixAndRegister registers (start ++ register) start = true := by
  rw [isPrefixAndRegister, List.isPrefixOf_iff_prefix.mpr (List.prefix_append _ _), List.drop_left,
    Bool.true_and, List.any_eq_true]
  exact ⟨register, h, decide_eq_true rfl⟩

end Naming

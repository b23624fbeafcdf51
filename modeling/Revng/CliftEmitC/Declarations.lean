import Revng.CliftEmitC.ReadBack

/-!
# Emitting declarations

`emitDeclaration` follows the two passes over the stack of levels that a type consists of: what comes
before the name of the declarator is printed from the innermost level to the outermost one, and what
comes after it the other way round.  The levels of a type are those of the type as it is printed
inside of expressions (`emitAround_eq`).

A function type is expanded only when it is the type of a function declarator.  Elsewhere it is
printed by its name, as the other defined types are.
-/

namespace CliftEmitC

open Piece

/-! ## Types -/

inductive IntegerKind where
  | generic
  | pointerOrNumber
  | number
  | unsigned
  | signed
  deriving DecidableEq, Repr

inductive PrimitiveType where
  | void
  | integer (kind : IntegerKind) (size : Nat)
  | float (size : Nat)
  deriving DecidableEq, Repr

/-- The sizes that a pointer may have. -/
inductive PointerSize where
  | bytes4
  | bytes8
  deriving DecidableEq, Repr

def PointerSize.bytes : PointerSize → Nat
  | bytes4 => 4
  | bytes8 => 8

/-- A type of Clift.  A struct, union, enum, typedef or function type is `defined`. -/
inductive CliftType where
  | primitive (isConst : Bool) (type : PrimitiveType)
  | defined (isConst : Bool) (name : Text)
  | pointer (isConst : Bool) (size : PointerSize) (pointee : CliftType)
  | array (element : CliftType) (extent : Nat)
  deriving DecidableEq, Repr

/-- Whether it is a value type, where a typedef is taken for one. -/
def CliftType.isValueType : CliftType → Bool
  | primitive _ .void => false
  | array _ _ => false
  | _ => true

/-- A function type that passes its own checks. -/
structure FunctionType where
  name : Text
  returnType : CliftType
  argumentTypes : List CliftType
  returns : returnType.isValueType = true ∨ ∃ isConst, returnType = .primitive isConst .void
  takes : ∀ type ∈ argumentTypes, type.isValueType = true

inductive DeclaredType where
  | object (type : CliftType)
  | function (type : FunctionType)

def IntegerKind.getPrefix : IntegerKind → Text
  | unsigned => "uint".toList
  | signed => "int".toList
  | generic => "generic".toList
  | pointerOrNumber => "pointer_or_number".toList
  | number => "number".toList

def getPrimitiveTypeCName : PrimitiveType → Text
  | .void => "void".toList
  | .integer kind size => kind.getPrefix ++ (Numeral.writeDigits 10 (size * 8) ++ "_t".toList)
  | .float size => "float".toList ++ (Numeral.writeDigits 10 (size * 8) ++ "_t".toList)

/-! ## Declarators -/

inductive CAttributeArgument where
  | identifier (name : Text)
  | integer (value : Nat)
  | type (type : CliftType)

structure CAttribute where
  name : Text
  arguments : Option (List CAttributeArgument)

structure ParameterDeclaratorInfo where
  identifier : Text
  cAttributes : List CAttribute

structure DeclaratorInfo where
  identifier : Text
  cAttributes : List CAttribute
  /-- The kind of the entity is a function. -/
  isFunction : Bool
  parameters : Option (List ParameterDeclaratorInfo)

/-! ## The stack of levels -/

inductive StackItem where
  | terminal
  | pointer (isConst : Bool)
  | array (extent : Nat)
  | function
  deriving DecidableEq

/-- The levels after this one are put in parentheses. -/
def needsParentheses : Option StackItem → Bool
  | none => false
  | some (.array _) => false
  | some _ => true

/-- The syntax before the name, innermost level first.  The first argument is the level outside. -/
def emitBeforeName : Option StackItem → List StackItem → Bool → List Piece × Bool
  | _, [], needSpace => ([], needSpace)
  | outer, item :: stack, needSpace =>
      let (pieces, needSpace) := emitBeforeName (some item) stack needSpace
      match item with
      | .terminal => (pieces, needSpace)
      | .pointer isConst =>
          (pieces ++ ((if needSpace then [space] else []) ++
            (punctuator .star :: constPieces isConst)), false)
      | .array _ =>
          if needsParentheses outer then (pieces ++ [punctuator .leftParenthesis], false)
          else (pieces, needSpace)
      | .function =>
          if outer.isSome then (pieces ++ [punctuator .leftParenthesis], false)
          else (pieces, needSpace)

/-- The syntax after the name, outermost level first. -/
def emitAfterName (parameters : List Piece) : Option StackItem → List StackItem → List Piece
  | _, [] => []
  | outer, item :: stack =>
      (match item with
      | .terminal => []
      | .pointer _ => []
      | .array extent =>
          (if needsParentheses outer then [punctuator .rightParenthesis] else []) ++
            [punctuator .leftBracket, number (Numeral.writeDigits 10 extent),
              punctuator .rightBracket]
      | .function => (if outer.isSome then [punctuator .rightParenthesis] else []) ++ parameters) ++
        emitAfterName parameters (some item) stack

def emitName (needSpace : Bool) : Option Text → List Piece
  | none => []
  | some name => (if needSpace then [space] else []) ++ [word name]

/-- What is printed for the levels around a name, if there is one. -/
def emitAround (levels : List Piece × List StackItem) (name : Option Text)
    (parameters : List Piece) : List Piece :=
  let (before, needSpace) := emitBeforeName none levels.2 true
  levels.1 ++ before ++ (emitName needSpace name ++ emitAfterName parameters none levels.2)

/-- The innermost level as it is printed, and the stack of levels, outermost first. -/
def emitLevels (pointerSize : Nat) : CliftType → List Piece × List StackItem
  | .primitive isConst type =>
      (constPieces isConst ++ [word (getPrimitiveTypeCName type)], [.terminal])
  | .defined isConst name => (constPieces isConst ++ [word name], [.terminal])
  | .pointer isConst size pointee =>
      let levels := emitLevels pointerSize pointee
      if size.bytes = pointerSize then (levels.1, .pointer isConst :: levels.2)
      else
        -- A pointer of another size ends the levels, what it points to is printed on its own.
        (constPieces isConst ++ (word (getForeignPointerMacroName size.bytes) ::
          punctuator .leftParenthesis ::
            (emitAround levels none [] ++ [punctuator .rightParenthesis])), [.terminal])
  | .array element extent =>
      let levels := emitLevels pointerSize element
      (levels.1, .array extent :: levels.2)

/-! ## Declarations -/

section

variable (pointerSize : Nat)

/-- The pieces of each part, with a separator in between. -/
def separate (separator : List Piece) : List (List Piece) → List Piece
  | [] => []
  | [part] => part
  | part :: part' :: parts => part ++ (separator ++ separate separator (part' :: parts))

def emitCAttributeArgument : CAttributeArgument → List Piece
  | .identifier name => [word name]
  | .integer value => [number (Numeral.writeDigits 10 value)]
  | .type type => emitAround (emitLevels pointerSize type) none []

def emitCAttribute (cAttribute : CAttribute) : List Piece :=
  word cAttribute.name ::
    match cAttribute.arguments with
    | none => []
    | some arguments =>
        punctuator .leftParenthesis ::
          (separate [punctuator .comma, space] (arguments.map (emitCAttributeArgument pointerSize)) ++
            [punctuator .rightParenthesis])

/-- The attributes after a declarator. -/
def emitCAttributes (cAttributes : List CAttribute) : List Piece :=
  cAttributes.flatMap fun cAttribute => space :: emitCAttribute pointerSize cAttribute

def emitParameter (type : CliftType) : Option ParameterDeclaratorInfo → List Piece
  | none => emitAround (emitLevels pointerSize type) none []
  | some parameter =>
      emitAround (emitLevels pointerSize type) (some parameter.identifier) [] ++
        emitCAttributes pointerSize parameter.cAttributes

/-- The parameters of the expanded function type, with their declarators if they are known. -/
def emitParameters (types : List CliftType) (declarators : List (Option ParameterDeclaratorInfo)) :
    List Piece :=
  punctuator .leftParenthesis ::
    ((if types = [] then [word "void".toList]
      else separate [punctuator .comma, space]
        (List.zipWith (emitParameter pointerSize) types declarators)) ++
      [punctuator .rightParenthesis])

/-- The declarator of each parameter, or none when their number is another one. -/
def parameterDeclarators (types : List CliftType) :
    Option (List ParameterDeclaratorInfo) → Option (List (Option ParameterDeclaratorInfo))
  | none => some (types.map fun _ => none)
  | some parameters =>
      if types ≠ [] ∧ parameters.length ≠ types.length then none
      else some (parameters.map some)

def emitObject (type : CliftType) (declarator : DeclaratorInfo) : List Piece :=
  emitAround (emitLevels pointerSize type) (some declarator.identifier) [] ++
    emitCAttributes pointerSize declarator.cAttributes

/-- The lines of a declaration.  The attributes of a function come before it, one on each line. -/
def emitDeclaration (type : DeclaredType) (declarator : DeclaratorInfo) :
    Option (List (List Piece)) :=
  match type with
  | .object type => some [emitObject pointerSize type declarator]
  | .function type =>
      if declarator.isFunction then do
        let declarators ← parameterDeclarators type.argumentTypes declarator.parameters
        let levels := emitLevels pointerSize type.returnType
        let parameters := emitParameters pointerSize type.argumentTypes declarators
        some (declarator.cAttributes.map (emitCAttribute pointerSize) ++
          [emitAround (levels.1, .function :: levels.2) (some declarator.identifier) parameters])
      else some [emitObject pointerSize (.defined false type.name) declarator]

end

/-! ## The levels of a type -/

/-- The type as it is printed inside of an expression. -/
def CliftType.toCType (pointerSize : Nat) : CliftType → CType
  | primitive isConst type => .named isConst (getPrimitiveTypeCName type)
  | defined isConst name => .named isConst name
  | pointer isConst size pointee =>
      if size.bytes = pointerSize then .pointer isConst (toCType pointerSize pointee)
      else .foreignPointer isConst size.bytes (toCType pointerSize pointee)
  | array element extent => .array (toCType pointerSize element) extent

variable {pointerSize : Nat}

theorem function_notMem_emitLevels (type : CliftType) :
    .function ∉ (emitLevels pointerSize type).2 := by
  induction type with
  | primitive isConst type => exact fun h => (List.mem_cons.1 h).elim nofun List.not_mem_nil
  | defined isConst name => exact fun h => (List.mem_cons.1 h).elim nofun List.not_mem_nil
  | pointer isConst size pointee ih =>
    rw [emitLevels]
    split_ifs
    · exact fun h => (List.mem_cons.1 h).elim nofun ih
    · exact fun h => (List.mem_cons.1 h).elim nofun List.not_mem_nil
  | array element extent ih => exact fun h => (List.mem_cons.1 h).elim nofun ih

/-- The parameters come after a level for a function. -/
theorem emitAfterName_of_inner {parameters : List Piece} {outer : Option StackItem}
    {stack : List StackItem} (h : .function ∉ stack) :
    emitAfterName parameters outer stack = emitAfterName [] outer stack := by
  induction stack generalizing outer with
  | nil => rfl
  | cons item stack ih =>
    rw [List.mem_cons, not_or] at h
    obtain ⟨hitem, hstack⟩ := h
    show _ ++ emitAfterName parameters _ stack = _ ++ emitAfterName [] _ stack
    rw [ih hstack]
    cases item with
    | function => exact absurd rfl hitem
    | _ => rfl

/-- Both passes print what is printed for the type inside of an expression. -/
theorem emit_eq (type : CliftType) (outer : Option StackItem) :
    (emitLevels pointerSize type).1 ++ (emitBeforeName outer (emitLevels pointerSize type).2 true).1 =
        (emitBefore (needsParentheses outer) (type.toCType pointerSize)).1 ∧
      (emitBeforeName outer (emitLevels pointerSize type).2 true).2 =
        (emitBefore (needsParentheses outer) (type.toCType pointerSize)).2 ∧
      emitAfterName [] outer (emitLevels pointerSize type).2 =
        emitAfter (needsParentheses outer) (type.toCType pointerSize) := by
  induction type generalizing outer with
  | primitive isConst type => exact ⟨List.append_nil _, rfl, rfl⟩
  | defined isConst name => exact ⟨List.append_nil _, rfl, rfl⟩
  | pointer isConst size pointee ih =>
    rw [emitLevels, CliftType.toCType]
    split_ifs with hsize
    · obtain ⟨hbefore, hspace, hafter⟩ := ih (some (.pointer isConst))
      refine ⟨?_, rfl, hafter⟩
      show _ ++ (_ ++ ((if (emitBeforeName (some (.pointer isConst)) _ true).2 = true then _
        else _) ++ _)) = _
      rw [← List.append_assoc, hbefore, hspace]
      rfl
    · obtain ⟨hbefore, -, hafter⟩ := ih none
      refine ⟨?_, rfl, rfl⟩
      show (constPieces isConst ++ (_ :: _ :: ((_ ++ _ ++ (_ ++ _)) ++ _))) ++ [] = _
      rw [List.append_nil, hbefore, hafter, emitName, List.nil_append, List.append_assoc]
      rfl
  | array element extent ih =>
    obtain ⟨hbefore, hspace, hafter⟩ := ih (some (.array extent))
    rw [needsParentheses] at hbefore hspace hafter
    cases houter : needsParentheses outer with
    | false =>
      simp only [emitLevels, CliftType.toCType, emitBeforeName, emitAfterName, emitBefore,
        emitAfter, houter, Bool.false_eq_true, if_false, hbefore, hspace, hafter]
      exact ⟨trivial, trivial, rfl⟩
    | true =>
      simp only [emitLevels, CliftType.toCType, emitBeforeName, emitAfterName, emitBefore,
        emitAfter, houter, if_true, hafter]
      rw [← List.append_assoc, hbefore]
      exact ⟨rfl, trivial, rfl⟩

theorem emitAround_eq (type : CliftType) (name : Option Text) :
    emitAround (emitLevels pointerSize type) name [] =
      (emitBefore false (type.toCType pointerSize)).1 ++
        (emitName (emitBefore false (type.toCType pointerSize)).2 name ++
          emitAfter false (type.toCType pointerSize)) := by
  obtain ⟨hbefore, hspace, hafter⟩ := emit_eq type none
  rw [needsParentheses] at hbefore hspace hafter
  show _ ++ _ ++ (emitName (emitBeforeName none _ true).2 name ++ _) = _
  rw [hbefore, hspace, hafter]

/-- Around a function its parameters come first, and the result is put in parentheses. -/
theorem emitAround_function (type : CliftType) (name : Text) (parameters : List Piece) :
    emitAround ((emitLevels pointerSize type).1, .function :: (emitLevels pointerSize type).2)
        (some name) parameters =
      (emitBefore true (type.toCType pointerSize)).1 ++
        (emitName (emitBefore true (type.toCType pointerSize)).2 (some name) ++
          (parameters ++ emitAfter true (type.toCType pointerSize))) := by
  obtain ⟨hbefore, hspace, hafter⟩ := emit_eq type (some .function)
  have hneeds : needsParentheses (some .function) = true := rfl
  rw [hneeds] at hbefore hspace hafter
  show _ ++ (emitBeforeName (some .function) _ true).1 ++
    (emitName (emitBeforeName (some .function) _ true).2 (some name) ++
      (parameters ++ emitAfterName parameters (some .function) _)) = _
  rw [emitAfterName_of_inner (function_notMem_emitLevels type), hbefore, hspace, hafter]

/-!
## The grammar of C declarations

A parser for declarations by recursive descent: attributes, the specifiers, a declarator and
attributes.  A declarator is read inside out, so what is read is the name and how the declarator
makes its type of the type of the specifiers.

A word is a type only where a type specifier is expected.  A pointer of another size than that of
the target is a type specifier, the macro for it.
-/

/-! ## What is read -/

/-- A type as a declaration of C gives it.  The parameters of a function may have names. -/
inductive ReadType where
  | primitive (isConst : Bool) (type : PrimitiveType)
  | defined (isConst : Bool) (name : Text)
  | pointer (isConst : Bool) (size : Nat) (pointee : ReadType)
  | array (element : ReadType) (extent : Nat)
  | function (returnType : ReadType) (parameters : List (Option Text × ReadType))

inductive NamedType where
  | primitive (type : PrimitiveType)
  | defined

def NamedType.read (name : Text) (isConst : Bool) : NamedType → ReadType
  | primitive type => .primitive isConst type
  | defined => .defined isConst name

def keywords : List Text := ["const".toList, "void".toList]

/-- The size of the pointers that a macro is for. -/
def foreignPointerSize (name : Text) : Option Nat :=
  [4, 8].find? fun size => getForeignPointerMacroName size = name

/-- What the names in scope are.  The keywords and the macros for pointers are neither types nor
attributes. -/
structure Scope where
  type : Text → Option NamedType
  isAttribute : Text → Bool
  type_keyword : ∀ name ∈ keywords, type name = none
  type_foreignPointer : ∀ name, (foreignPointerSize name).isSome = true → type name = none
  type_attribute : ∀ name, isAttribute name = true → type name = none
  attribute_keyword : ∀ name ∈ keywords, isAttribute name = false
  attribute_foreignPointer : ∀ name, (foreignPointerSize name).isSome = true →
    isAttribute name = false

namespace Scope

variable (scope : Scope)

/-- The word may be the name of a declarator. -/
def isIdentifier (name : Text) : Bool :=
  !keywords.contains name && (foreignPointerSize name).isNone && !scope.isAttribute name

/-- After a left parenthesis: what follows is a declarator and not the parameters of a function. -/
def startsDeclarator : List Token → Bool
  | .punctuator .star :: _ => true
  | .punctuator .leftParenthesis :: _ => true
  | .punctuator .leftBracket :: _ => true
  | .word name :: _ => scope.isIdentifier name && (scope.type name).isNone
  | _ => false

/-! ## The parser -/

def parseQualifiers : List Token → Bool × List Token
  | .word name :: rest =>
      if name = "const".toList then (true, (parseQualifiers rest).2) else (false, .word name :: rest)
  | text => (false, text)

/-- The arguments of an attribute, after the left parenthesis. -/
def skipArguments : Nat → List Token → Option (List Token)
  | 0, _ => none
  | fuel + 1, text =>
      match (parseTypeName 0 text).2 with
      | .punctuator .comma :: rest => skipArguments fuel rest
      | .punctuator .rightParenthesis :: rest => some rest
      | _ => none

def skipAttributes : Nat → List Token → Option (List Token)
  | 0, _ => none
  | fuel + 1, .word name :: rest =>
      if scope.isAttribute name then
        match rest with
        | .punctuator .leftParenthesis :: arguments => do
            let rest ← skipArguments fuel arguments
            skipAttributes fuel rest
        | rest => skipAttributes fuel rest
      else some (.word name :: rest)
  | _ + 1, text => some text

variable (pointerSize : Nat)

mutual

def parseTypeSpecifier : Nat → List Token → Option ((Bool → ReadType) × List Token)
  | 0, _ => none
  | fuel + 1, .word name :: rest =>
      if name = "void".toList then some (fun isConst => .primitive isConst .void, rest)
      else
        match foreignPointerSize name with
        | some size => do
            let rest ← expect .leftParenthesis rest
            let (identifier, pointee, rest) ← parseParameter fuel rest
            let rest ← expect .rightParenthesis rest
            if identifier = none then some (fun isConst => .pointer isConst size pointee, rest)
            else none
        | none =>
            (scope.type name).map fun type => (fun isConst => type.read name isConst, rest)
  | _ + 1, _ => none

/-- A type specifier, with qualifiers before and after it. -/
def parseSpecifiers : Nat → List Token → Option (ReadType × List Token)
  | 0, _ => none
  | fuel + 1, text => do
      let (isConst, text) := parseQualifiers text
      let (type, text) ← parseTypeSpecifier fuel text
      let (isConst', text) := parseQualifiers text
      some (type (isConst || isConst'), text)

/-- A declarator, which has no name if it is an abstract one. -/
def parseDeclarator : Nat → List Token →
    Option (Option Text × (ReadType → ReadType) × List Token)
  | 0, _ => none
  | fuel + 1, .punctuator .star :: text => do
      let (isConst, text) := parseQualifiers text
      let (name, wrap, rest) ← parseDeclarator fuel text
      some (name, fun type => wrap (.pointer isConst pointerSize type), rest)
  | fuel + 1, .punctuator .leftParenthesis :: text =>
      if scope.startsDeclarator text then do
        let (name, wrap, rest) ← parseDeclarator fuel text
        let rest ← expect .rightParenthesis rest
        let (suffix, rest) ← parseSuffixes fuel rest
        some (name, fun type => wrap (suffix type), rest)
      else do
        let (suffix, rest) ← parseSuffixes fuel (.punctuator .leftParenthesis :: text)
        some (none, suffix, rest)
  | fuel + 1, .word name :: text =>
      if scope.isIdentifier name then do
        let (suffix, rest) ← parseSuffixes fuel text
        some (some name, suffix, rest)
      else do
        let (suffix, rest) ← parseSuffixes fuel (.word name :: text)
        some (none, suffix, rest)
  | fuel + 1, text => do
      let (suffix, rest) ← parseSuffixes fuel text
      some (none, suffix, rest)

/-- The arrays and functions after a direct declarator. -/
def parseSuffixes : Nat → List Token → Option ((ReadType → ReadType) × List Token)
  | 0, _ => none
  | fuel + 1, .punctuator .leftBracket :: .number digits :: .punctuator .rightBracket :: text => do
      let extent ← Numeral.readDigits 10 0 digits
      let (suffix, rest) ← parseSuffixes fuel text
      some (fun type => .array (suffix type) extent, rest)
  | fuel + 1, .punctuator .leftParenthesis :: text => do
      let (parameters, rest) ← parseParameters fuel text
      let (suffix, rest) ← parseSuffixes fuel rest
      some (fun type => .function (suffix type) parameters, rest)
  | _ + 1, text => some (id, text)

/-- The parameters of a function, after the left parenthesis. -/
def parseParameters : Nat → List Token → Option (List (Option Text × ReadType) × List Token)
  | 0, _ => none
  | _ + 1, .punctuator .rightParenthesis :: rest => some ([], rest)
  | fuel + 1, .word name :: .punctuator .rightParenthesis :: rest =>
      if name = "void".toList then some ([], rest)
      else parseParameterList fuel (.word name :: .punctuator .rightParenthesis :: rest)
  | fuel + 1, text => parseParameterList fuel text

def parseParameterList : Nat → List Token → Option (List (Option Text × ReadType) × List Token)
  | 0, _ => none
  | fuel + 1, text => do
      let (name, type, rest) ← parseParameter fuel text
      let rest ← scope.skipAttributes fuel rest
      match rest with
      | .punctuator .comma :: rest => do
          let (parameters, rest) ← parseParameterList fuel rest
          some ((name, type) :: parameters, rest)
      | .punctuator .rightParenthesis :: rest => some ([(name, type)], rest)
      | _ => none

/-- Specifiers and a declarator. -/
def parseParameter : Nat → List Token → Option (Option Text × ReadType × List Token)
  | 0, _ => none
  | fuel + 1, text => do
      let (type, text) ← parseSpecifiers fuel text
      let (name, wrap, rest) ← parseDeclarator fuel text
      some (name, wrap type, rest)

end

/-- A declaration that all of the tokens make up. -/
def parseDeclaration (fuel : Nat) (text : List Token) : Option (Option Text × ReadType) := do
  let text ← scope.skipAttributes fuel text
  let (name, type, rest) ← scope.parseParameter pointerSize fuel text
  let rest ← scope.skipAttributes fuel rest
  if rest = [] then some (name, type) else none

/-- The tokens of a text, which may have several lines. -/
def lexLines (text : Text) : Option (List Token) :=
  ((text.splitOn '\n').mapM lex).map List.flatten

def readDeclaration (fuel : Nat) (text : Text) : Option (Option Text × ReadType) :=
  (lexLines text).bind (scope.parseDeclaration pointerSize fuel)

end Scope

end CliftEmitC

import Revng.CliftEmitC.Expression

/-!
# The grammar of C expressions

A parser for the expressions of C by recursive descent, one level for each rule of the grammar.
The levels are numbered from 1, the comma operator, to 15, the postfix operators.  Levels 4 to 13
are the binary operators from `||` to `*`, which group to the left.

A left operand of an assignment has to be a unary expression, so what is read carries whether it
is one.  A macro is read as a call.  An argument that begins with the name of a type is a type.

`parseLevel` reads the operand that a level starts with, and `parseTail` goes on after it.  Both
take a bound on the depth of their calls.
-/

namespace CliftEmitC

/-- A C expression, with the names of types as they are written. -/
inductive CTree where
  | word (name : Text)
  | number (digits : Text)
  | string (contents : Text)
  | typeName (type : List Token)
  | compound (type : List Token) (initializers : List CTree)
  | member (op : Punctuator) (value : CTree) (field : Text)
  | subscript (array index : CTree)
  | call (function : CTree) (arguments : List CTree)
  | postfixOp (op : Punctuator) (operand : CTree)
  | cast (type : List Token) (operand : CTree)
  | prefixOp (op : Punctuator) (operand : CTree)
  | infixOp (op : Punctuator) (lhs rhs : CTree)
  | ternary (condition lhs rhs : CTree)
  deriving Repr

/-- Which words are types: the names of types, the keywords that a type is made of, and the
macros for them. -/
structure TypeNames where
  isType : Text → Bool
  isType_const : isType "const".toList = true
  isType_foreignPointer : ∀ size, isType (getForeignPointerMacroName size) = true
  isType_intrinsic : ∀ operation, isType ("rr_".toList ++ operation) = false
  isType_macros : ∀ name ∈ ["undef", "bit_cast", "NULL", "true", "false"],
    isType name.toList = false

/-- The name of a type goes on to the first comma or parenthesis that it does not contain. -/
def parseTypeName : Nat → List Token → List Token × List Token
  | _, [] => ([], [])
  | 0, .punctuator .comma :: rest => ([], .punctuator .comma :: rest)
  | 0, .punctuator .rightParenthesis :: rest => ([], .punctuator .rightParenthesis :: rest)
  | depth, t :: rest =>
      let depth := if t = .punctuator .leftParenthesis then depth + 1
        else if t = .punctuator .rightParenthesis then depth - 1 else depth
      let (type, rest) := parseTypeName depth rest
      (t :: type, rest)

def expect (p : Punctuator) : List Token → Option (List Token)
  | .punctuator q :: rest => if q = p then some rest else none
  | _ => none

def expectWord : List Token → Option (Text × List Token)
  | .word name :: rest => some (name, rest)
  | _ => none

/-- The level of a binary operator that groups to the left. -/
def infixLevel : Punctuator → Option Nat
  | .comma => some 1
  | .pipePipe => some 4
  | .ampersandAmpersand => some 5
  | .pipe => some 6
  | .caret => some 7
  | .ampersand => some 8
  | .equalsEquals | .exclaimEquals => some 9
  | .less | .greater | .lessEquals | .greaterEquals => some 10
  | .lessLess | .greaterGreater => some 11
  | .plus | .minus => some 12
  | .star | .slash | .percent => some 13
  | _ => none

def isPrefixOperator : Punctuator → Bool
  | .minus | .plus | .tilde | .exclaim | .plusPlus | .minusMinus | .ampersand | .star => true
  | _ => false

namespace TypeNames

variable (names : TypeNames)

def startsType : List Token → Bool
  | .word name :: _ => names.isType name
  | _ => false

mutual

/-- An expression of a level, and whether it is a unary expression. -/
def parseLevel : Nat → Nat → List Token → Option (CTree × Bool × List Token)
  | 0, _, _ => none
  | fuel + 1, level, text =>
      if level < 14 then do
        let (tree, isUnary, rest) ← parseLevel fuel (level + 1) text
        parseTail fuel level tree isUnary rest
      else if level = 14 then parseUnary fuel text
      else do
        let (tree, rest) ← parsePrimary fuel text
        parseTail fuel 15 tree true rest

/-- A prefix operator or a cast, or a postfix expression. -/
def parseUnary : Nat → List Token → Option (CTree × Bool × List Token)
  | 0, _ => none
  | fuel + 1, .punctuator .leftParenthesis :: text =>
      if names.startsType text then do
        let (type, rest) := parseTypeName 0 text
        let rest ← expect .rightParenthesis rest
        if rest.head? = some (.punctuator .leftBrace) then
          parseLevel fuel 15 (.punctuator .leftParenthesis :: text)
        else do
          let (operand, _, rest) ← parseLevel fuel 14 rest
          some (.cast type operand, false, rest)
      else parseLevel fuel 15 (.punctuator .leftParenthesis :: text)
  | fuel + 1, .punctuator op :: text =>
      if isPrefixOperator op then do
        let (operand, isUnary, rest) ← parseLevel fuel 14 text
        -- The operand of `++` and `--` is itself unary.
        if (op = .plusPlus ∨ op = .minusMinus) ∧ isUnary = false then none
        else some (.prefixOp op operand, true, rest)
      else none
  | fuel + 1, text => parseLevel fuel 15 text

def parsePrimary : Nat → List Token → Option (CTree × List Token)
  | 0, _ => none
  | _ + 1, .word name :: rest => some (.word name, rest)
  | _ + 1, .number digits :: rest => some (.number digits, rest)
  | _ + 1, .string contents :: rest => some (.string contents, rest)
  | fuel + 1, .punctuator .leftParenthesis :: text =>
      if names.startsType text then do
        let (type, rest) := parseTypeName 0 text
        let rest ← expect .rightParenthesis rest
        let rest ← expect .leftBrace rest
        let (initializers, rest) ← parseArguments fuel .rightBrace rest
        some (.compound type initializers, rest)
      else do
        let (tree, _, rest) ← parseLevel fuel 1 text
        let rest ← expect .rightParenthesis rest
        some (tree, rest)
  | _ + 1, _ => none

/-- What may follow an operand at a level. -/
def parseTail : Nat → Nat → CTree → Bool → List Token → Option (CTree × Bool × List Token)
  | 0, _, _, _, _ => none
  | fuel + 1, level, tree, isUnary, .punctuator op :: rest =>
      if infixLevel op = some level then do
        let (operand, _, rest) ← parseLevel fuel (level + 1) rest
        parseTail fuel level (.infixOp op tree operand) false rest
      else if level = 2 ∧ op = .equals ∧ isUnary then do
        let (operand, _, rest) ← parseLevel fuel 2 rest
        some (.infixOp .equals tree operand, false, rest)
      else if level = 3 ∧ op = .question then do
        let (lhs, _, rest) ← parseLevel fuel 1 rest
        let rest ← expect .colon rest
        let (rhs, _, rest) ← parseLevel fuel 3 rest
        some (.ternary tree lhs rhs, false, rest)
      else if level = 15 ∧ op = .leftBracket then do
        let (index, _, rest) ← parseLevel fuel 1 rest
        let rest ← expect .rightBracket rest
        parseTail fuel 15 (.subscript tree index) true rest
      else if level = 15 ∧ op = .leftParenthesis then do
        let (arguments, rest) ← parseArguments fuel .rightParenthesis rest
        parseTail fuel 15 (.call tree arguments) true rest
      else if level = 15 ∧ (op = .dot ∨ op = .arrow) then do
        let (field, rest) ← expectWord rest
        parseTail fuel 15 (.member op tree field) true rest
      else if level = 15 ∧ (op = .plusPlus ∨ op = .minusMinus) then
        parseTail fuel 15 (.postfixOp op tree) true rest
      else some (tree, isUnary, .punctuator op :: rest)
  | _ + 1, _, tree, isUnary, rest => some (tree, isUnary, rest)

/-- Arguments up to the bracket that closes them. -/
def parseArguments : Nat → Punctuator → List Token → Option (List CTree × List Token)
  | 0, _, _ => none
  | fuel + 1, closing, text =>
      if text.head? = some (.punctuator closing) then some ([], text.tail)
      else parseMoreArguments fuel closing text

def parseMoreArguments : Nat → Punctuator → List Token → Option (List CTree × List Token)
  | 0, _, _ => none
  | fuel + 1, closing, text => do
      let (argument, rest) ← parseArgument fuel text
      if rest.head? = some (.punctuator .comma) then do
        let (arguments, rest) ← parseMoreArguments fuel closing rest.tail
        some (argument :: arguments, rest)
      else do
        let rest ← expect closing rest
        some ([argument], rest)

def parseArgument : Nat → List Token → Option (CTree × List Token)
  | 0, _ => none
  | fuel + 1, text =>
      if names.startsType text then
        let (type, rest) := parseTypeName 0 text
        some (.typeName type, rest)
      else do
        let (tree, _, rest) ← parseLevel fuel 2 text
        some (tree, rest)

end

/-- The expression that the whole text is. -/
def parseExpression (fuel : Nat) (text : List Token) : Option CTree := do
  let (tree, _, rest) ← names.parseLevel fuel 1 text
  if rest = [] then some tree else none

end TypeNames

end CliftEmitC

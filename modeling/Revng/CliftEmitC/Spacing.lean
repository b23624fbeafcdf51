import Revng.CliftEmitC.Grammar

/-!
# The tokens that expressions are emitted as

Which expressions can be emitted at all (`isWellFormed`): names are identifiers that are not
types, an operand that has to be an lvalue is one, and a member is not taken of a number.

The tokens of such an expression are spelled well, and the first and the last of them are known.
None makes the one before it longer, but for one case: a negation right before an implicit cast of
a negation or of a decrement (`Expression.gluesMinus`).
-/

namespace CliftEmitC

open Piece

/-! ## Well-formed expressions -/

namespace TypeNames

variable (names : TypeNames)

def isTypeWellNamed : CType → Bool
  | .named _ name => validateIdentifier name && names.isType name
  | .pointer _ pointee => isTypeWellNamed pointee
  | .foreignPointer _ _ pointee => isTypeWellNamed pointee
  | .array element _ => isTypeWellNamed element

def isValueName (name : Text) : Bool := validateIdentifier name && !names.isType name

end TypeNames

/-- The operand is changed, or its address is taken. -/
def PrefixOperation.takesLvalue : PrefixOperation → Bool
  | increment | decrement | addressof => true
  | _ => false

namespace Expression

def isLvalue : Expression → Bool
  | identifier _ => true
  | access isIndirect value _ => isIndirect || isLvalue value
  | subscript _ _ => true
  | postfixOp _ _ => true
  | prefixOp op _ => op = .increment ∨ op = .decrement ∨ op = .indirection
  | infixOp op _ rhs => op = .assign || op = .comma && isLvalue rhs
  | usualIntrinsic _ _ => true
  | _ => false

def isImmediate : Expression → Bool
  | immediate _ => true
  | _ => false

variable (names : TypeNames)

mutual

def isWellFormed : Expression → Bool
  | identifier name | enumerator name => names.isValueName name
  | immediate _ | boolean _ | null => true
  | string contents => isEscaped contents
  | undef type => names.isTypeWellNamed type
  | aggregate type initializers => names.isTypeWellNamed type && areWellFormed initializers
  | access _ value field =>
      isWellFormed value && !value.unwrapImplicitCasts.isImmediate && validateIdentifier field
  | subscript pointer index => isWellFormed pointer && isWellFormed index
  | call function arguments => isWellFormed function && areWellFormed arguments
  | postfixOp _ operand => isWellFormed operand && operand.isLvalue
  | implicitCast value => isWellFormed value
  | bitCast type value | cast type value => names.isTypeWellNamed type && isWellFormed value
  | prefixOp op operand => isWellFormed operand && (!op.takesLvalue || operand.isLvalue)
  | infixOp op lhs rhs =>
      isWellFormed lhs && isWellFormed rhs && (op ≠ .assign || lhs.isLvalue)
  | ternary condition lhs rhs => isWellFormed condition && isWellFormed lhs && isWellFormed rhs
  | intrinsicImmediate type _ => names.isTypeWellNamed type
  | intrinsicCast operation type value =>
      operation.all isIdentifierCharacter && names.isTypeWellNamed type && isWellFormed value
  | usualIntrinsic operation operands =>
      operation.all isIdentifierCharacter && areWellFormed operands

def areWellFormed : List Expression → Bool
  | [] => true
  | e :: es => isWellFormed e && areWellFormed es

end

theorem areWellFormed_eq_all (es : List Expression) :
    areWellFormed names es = es.all (isWellFormed names) := by
  induction es with
  | nil => rfl
  | cons e es ih => rw [areWellFormed, ih, List.all_cons]

end Expression

/-! ## Pieces that nothing is read together with -/

/-- Brackets and the comma. -/
def Punctuator.isNeutral : Punctuator → Bool
  | leftParenthesis | rightParenthesis | leftBracket | rightBracket | leftBrace | rightBrace => true
  | comma => true
  | _ => false

def Piece.isNeutral : Piece → Bool
  | token (.punctuator p) => p.isNeutral
  | token _ => false
  | space => true

variable {p : Punctuator}

theorem Punctuator.continues_neutral (h : p.isNeutral = true) (c : Char) :
    p.continues c = false := by
  cases p with
  | leftParenthesis | rightParenthesis | leftBracket | rightBracket | leftBrace | rightBrace
  | comma =>
    simp [Punctuator.continues, Punctuator.values, Punctuator.spelling, List.isPrefixOf]
  | _ => cases h

variable {c : Char}

theorem Token.stopsAt_of_continues (h : p.continues c = false) (hdot : p ≠ .dot)
    (hslash : p ≠ .slash) : (Token.punctuator p).stopsAt c = true := by
  rw [Token.stopsAt, h]
  · rfl
  · exact hdot
  · exact hslash

theorem Token.stopsAt_neutral (h : p.isNeutral = true) (t : Token) :
    ∀ c, p.spelling.head? = some c → t.stopsAt c = true := by
  have hpunctuator : ∀ q : Punctuator, ∀ c, p.spelling.head? = some c →
      (Token.punctuator q).stopsAt c = true := by
    intro q c hc
    cases p with
    | leftParenthesis | rightParenthesis | leftBracket | rightBracket | leftBrace | rightBrace
    | comma =>
      cases hc
      cases q <;> decide
    | _ => cases h
  cases t with
  | punctuator q => exact hpunctuator q
  | _ =>
    intro c hc
    cases p with
    | leftParenthesis | rightParenthesis | leftBracket | rightBracket | leftBrace | rightBrace
    | comma =>
      cases hc
      rfl
    | _ => cases h

theorem Piece.mayPrecede_of_left {p q : Piece} (h : p.isNeutral = true) : p.MayPrecede q := by
  cases p with
  | space => trivial
  | token t =>
    cases t with
    | punctuator p =>
      cases q with
      | space => trivial
      | token t' =>
        intro c _
        refine Token.stopsAt_of_continues (Punctuator.continues_neutral h c) ?_ ?_
        · rintro rfl
          cases h
        · rintro rfl
          cases h
    | _ => cases h

theorem Piece.mayPrecede_of_right {p q : Piece} (h : q.isNeutral = true) : p.MayPrecede q := by
  cases p with
  | space => trivial
  | token t =>
    cases q with
    | space => trivial
    | token t' =>
      cases t' with
      | punctuator q => exact Token.stopsAt_neutral h t
      | _ => cases h

/-- The second piece may come directly after the first, or a minus before another one. -/
def Piece.MayTouch (glues : Bool) (p q : Piece) : Prop :=
  p.MayPrecede q ∨ glues = true ∧ p = punctuator .minus ∧
    (q = punctuator .minus ∨ q = punctuator .minusMinus)

/-- No token makes the one before it longer, but for a minus when `glues` is set. -/
def SpacedBut (glues : Bool) (pieces : List Piece) : Prop :=
  pieces.IsChain (Piece.MayTouch glues)

theorem SpacedBut.spaced {pieces : List Piece} (h : SpacedBut false pieces) : Spaced pieces :=
  h.imp fun _ _ htouch => htouch.elim id fun hglues => nomatch hglues.1

section Spaced

variable {glues : Bool} {p q : Piece} {ps qs : List Piece}

theorem spaced_cons (h : p.isNeutral = true) : SpacedBut glues (p :: ps) ↔ SpacedBut glues ps := by
  rw [SpacedBut, List.isChain_cons]
  exact ⟨fun hboth => hboth.2, fun hps => ⟨fun q _ => .inl (Piece.mayPrecede_of_left h), hps⟩⟩

theorem spaced_cons_cons (h : q.isNeutral = true) : SpacedBut glues (p :: q :: ps) ↔ SpacedBut glues ps := by
  rw [SpacedBut, List.isChain_cons_cons, ← SpacedBut, spaced_cons h]
  exact ⟨fun hboth => hboth.2, fun hps => ⟨.inl (Piece.mayPrecede_of_right h), hps⟩⟩

theorem spaced_append_cons (h : q.isNeutral = true) :
    SpacedBut glues (ps ++ q :: qs) ↔ SpacedBut glues ps ∧ SpacedBut glues qs := by
  rw [SpacedBut, List.isChain_append, ← SpacedBut, ← SpacedBut, spaced_cons h]
  refine ⟨fun hboth => ⟨hboth.1, hboth.2.1⟩, fun hboth => ⟨hboth.1, hboth.2, fun p _ r hr => ?_⟩⟩
  rw [List.head?_cons, Option.mem_some_iff] at hr
  subst hr
  exact .inl (Piece.mayPrecede_of_right h)

theorem spaced_nil : SpacedBut glues [] := List.isChain_nil

theorem spaced_singleton : SpacedBut glues [p] := List.isChain_singleton p

end Spaced

theorem allValid_append {ps qs : List Piece} :
    AllValid (ps ++ qs) ↔ AllValid ps ∧ AllValid qs := by
  simp only [AllValid, tokens, List.filterMap_append, List.mem_append, or_imp, forall_and]

theorem allValid_cons_token {t : Token} {ps : List Piece} :
    AllValid (.token t :: ps) ↔ t.isValid = true ∧ AllValid ps := by
  simp only [AllValid, tokens, List.filterMap_cons, Piece.token?, List.mem_cons, forall_eq_or_imp]

theorem allValid_cons_space {ps : List Piece} : AllValid (.space :: ps) ↔ AllValid ps := Iff.rfl

theorem allValid_nil : AllValid [] := fun _ h => nomatch h

/-! ## Literals and types -/

theorem all_isIdentifierCharacter_writeDigits {radix : Nat} (hone : 1 < radix)
    (hradix : radix ≤ 16) (n : Nat) :
    (Numeral.writeDigits radix n).all isIdentifierCharacter = true := by
  rw [List.all_eq_true]
  refine Numeral.forall_mem_writeDigits hone (fun d hd => ?_) n
  rw [isIdentifierCharacter, Numeral.isAlphanum_digitChar (Nat.lt_of_lt_of_le hd hradix),
    Bool.true_or]

theorem isValid_writeDigits (n : Nat) :
    (Token.number (Numeral.writeDigits 10 n)).isValid = true := by
  have hall := all_isIdentifierCharacter_writeDigits (by decide : 1 < 10) (by decide) n
  have hdigit : ∀ c ∈ Numeral.writeDigits 10 n, c.isDigit = true := fun c =>
    Numeral.isDigit_of_mem_writeDigits
  have hne := Numeral.writeDigits_ne_nil (by decide : 1 < 10) n
  cases hdigits : Numeral.writeDigits 10 n with
  | nil => exact absurd hdigits hne
  | cons c digits =>
    rw [hdigits] at hall hdigit
    rw [Token.isValid, hall, List.head?_cons, Option.any_some,
      hdigit c List.mem_cons_self, Bool.and_self]

theorem isValid_append {digits suffix : Text} (h : (Token.number digits).isValid = true)
    (hsuffix : suffix.all isIdentifierCharacter = true) :
    (Token.number (digits ++ suffix)).isValid = true := by
  cases digits with
  | nil => cases h
  | cons c digits =>
    rw [Token.isValid, Bool.and_eq_true] at h
    rw [Token.isValid, List.all_append, h.2, hsuffix]
    rw [List.cons_append, List.head?_cons, ← List.head?_cons (l := digits), h.1, Bool.and_self,
      Bool.and_self]

theorem isValid_emitIntegerLiteral (literal : IntegerLiteral) :
    (Token.number (emitIntegerLiteral literal)).isValid = true := by
  have hsuffix : (getCIntegerLiteralSuffix literal.isUnsigned literal.minimumType).all
      isIdentifierCharacter = true := by
    cases literal.minimumType <;> cases literal.isUnsigned <;> decide
  unfold emitIntegerLiteral
  refine isValid_append ?_ hsuffix
  cases literal.radix with
  | binary =>
    exact isValid_append (show (Token.number ['0', 'b']).isValid = true by decide)
      (all_isIdentifierCharacter_writeDigits (by decide) (by decide) _)
  | octal =>
    exact isValid_append (show (Token.number ['0']).isValid = true by decide)
      (all_isIdentifierCharacter_writeDigits (by decide) (by decide) _)
  | decimal => exact isValid_writeDigits _
  | hexadecimal =>
    exact isValid_append (show (Token.number ['0', 'x']).isValid = true by decide)
      (all_isIdentifierCharacter_writeDigits (by decide) (by decide) _)

theorem isValid_word_append {lead rest : Text} (h : validateIdentifier lead = true)
    (hrest : rest.all isIdentifierCharacter = true) :
    (Token.word (lead ++ rest)).isValid = true := by
  cases lead with
  | nil => cases h
  | cons c lead =>
    rw [validateIdentifier, Bool.and_eq_true] at h
    rw [Token.isValid, List.cons_append, validateIdentifier, List.all_append, h.1, h.2, hrest,
      Bool.and_self, Bool.and_self]

theorem isValid_foreignPointer (size : Nat) :
    (Token.word (getForeignPointerMacroName size)).isValid = true := by
  refine isValid_word_append (by decide) ?_
  rw [List.all_append, all_isIdentifierCharacter_writeDigits (by decide) (by decide), Bool.true_and]
  decide

theorem isValid_const : (Token.word "const".toList).isValid = true := by decide

theorem allValid_constPieces (isConst : Bool) : AllValid (constPieces isConst) := by
  cases isConst with
  | false => exact allValid_nil
  | true => exact allValid_cons_token.mpr ⟨isValid_const, allValid_nil⟩

section Types

variable {names : TypeNames}

theorem allValid_emitAfter (isPointee : Bool) (type : CType) :
    AllValid (emitAfter isPointee type) := by
  induction type generalizing isPointee with
  | named isConst name => exact allValid_nil
  | pointer isConst pointee ih => exact ih true
  | foreignPointer isConst size pointee ih => exact allValid_nil
  | array element extent ih =>
    have helement : AllValid ([punctuator .leftBracket, number (Numeral.writeDigits 10 extent),
        punctuator .rightBracket] ++ emitAfter false element) :=
      allValid_append.mpr ⟨by
        simp only [allValid_cons_token, allValid_nil, and_true]
        exact ⟨rfl, isValid_writeDigits extent, rfl⟩, ih false⟩
    cases isPointee with
    | false => exact helement
    | true => exact allValid_cons_token.mpr ⟨rfl, helement⟩

theorem allValid_emitBefore {type : CType} (h : names.isTypeWellNamed type = true)
    (isPointee : Bool) : AllValid (emitBefore isPointee type).1 := by
  induction type generalizing isPointee with
  | named isConst name =>
    rw [TypeNames.isTypeWellNamed, Bool.and_eq_true] at h
    exact allValid_append.mpr ⟨allValid_constPieces isConst,
      allValid_cons_token.mpr ⟨h.1, allValid_nil⟩⟩
  | pointer isConst pointee ih =>
    refine allValid_append.mpr ⟨ih h true, allValid_append.mpr ⟨?_, ?_⟩⟩
    · split
      · exact allValid_nil
      · exact allValid_nil
    · exact allValid_cons_token.mpr ⟨rfl, allValid_constPieces isConst⟩
  | foreignPointer isConst size pointee ih =>
    refine allValid_append.mpr ⟨allValid_constPieces isConst, allValid_cons_token.mpr
      ⟨isValid_foreignPointer size, allValid_cons_token.mpr ⟨rfl, ?_⟩⟩⟩
    exact allValid_append.mpr ⟨ih h false, allValid_append.mpr ⟨allValid_emitAfter false pointee,
      allValid_cons_token.mpr ⟨rfl, allValid_nil⟩⟩⟩
  | array element extent ih =>
    cases isPointee with
    | false => exact ih h false
    | true =>
      exact allValid_append.mpr ⟨ih h false, allValid_cons_token.mpr ⟨rfl, allValid_nil⟩⟩

theorem allValid_emitType {type : CType} (h : names.isTypeWellNamed type = true) :
    AllValid (emitType type) :=
  allValid_append.mpr ⟨allValid_emitBefore h false, allValid_emitAfter false type⟩

theorem spaced_constPieces (isConst : Bool) : SpacedBut glues (constPieces isConst) := by
  cases isConst with
  | false => exact spaced_nil
  | true => exact (spaced_cons_cons rfl).mpr spaced_nil

theorem spaced_star_constPieces (isConst : Bool) :
    SpacedBut glues (punctuator .star :: constPieces isConst) := by
  cases isConst with
  | false => exact spaced_singleton
  | true =>
    refine List.isChain_cons_cons.mpr ⟨.inl fun c hc => ?_, spaced_constPieces true⟩
    cases hc
    decide

theorem mayPrecede_star_of_getLast? {ps : List Piece} {isConst : Bool} :
    ∀ p ∈ (ps ++ (punctuator .star :: constPieces isConst)).getLast?,
      p.MayPrecede (punctuator .star) := by
  intro p hp
  cases isConst with
  | false =>
    rw [constPieces, if_neg Bool.false_ne_true, List.getLast?_append, List.getLast?_singleton,
      Option.some_or, Option.mem_some_iff] at hp
    subst hp
    intro c hc
    cases hc
    decide
  | true =>
    have hlast : (ps ++ (punctuator .star :: constPieces true)).getLast? = some space := by
      rw [List.getLast?_append]
      rfl
    rw [hlast, Option.mem_some_iff] at hp
    subst hp
    trivial

theorem spaced_emitAfter (isPointee : Bool) (type : CType) : SpacedBut glues (emitAfter isPointee type) := by
  induction type generalizing isPointee with
  | named isConst name => exact spaced_nil
  | pointer isConst pointee ih => exact ih true
  | foreignPointer isConst size pointee ih => exact spaced_nil
  | array element extent ih =>
    have helement : SpacedBut glues (punctuator .leftBracket :: number (Numeral.writeDigits 10 extent) ::
        punctuator .rightBracket :: emitAfter false element) :=
      (spaced_cons rfl).mpr ((spaced_cons_cons rfl).mpr (ih false))
    cases isPointee with
    | false => exact helement
    | true => exact (spaced_cons rfl).mpr helement

theorem isNeutral_head?_emitAfter (isPointee : Bool) (type : CType) :
    ∀ p ∈ (emitAfter isPointee type).head?, p.isNeutral = true := by
  induction type generalizing isPointee with
  | named isConst name => exact fun _ h => nomatch h
  | pointer isConst pointee ih => exact ih true
  | foreignPointer isConst size pointee ih => exact fun _ h => nomatch h
  | array element extent ih =>
    intro p hp
    cases isPointee <;> cases hp <;> rfl

theorem spaced_append_emitAfter {ps : List Piece} (h : SpacedBut glues ps) (isPointee : Bool)
    (type : CType) : SpacedBut glues (ps ++ emitAfter isPointee type) :=
  h.append (spaced_emitAfter isPointee type) fun _ _ q hq =>
    .inl (Piece.mayPrecede_of_right (isNeutral_head?_emitAfter isPointee type q hq))

theorem spaced_emitBefore (isPointee : Bool) (type : CType) :
    SpacedBut glues (emitBefore isPointee type).1 ∧
      ((emitBefore isPointee type).2 = false →
        ∀ p ∈ (emitBefore isPointee type).1.getLast?, p.MayPrecede (punctuator .star)) := by
  induction type generalizing isPointee with
  | named isConst name =>
    refine ⟨?_, fun h => nomatch h⟩
    cases isConst with
    | false => exact spaced_singleton
    | true => exact (spaced_cons_cons rfl).mpr spaced_singleton
  | pointer isConst pointee ih =>
    obtain ⟨hpointee, hlast⟩ := ih true
    have hstar : SpacedBut glues (punctuator .star :: constPieces isConst) :=
      spaced_star_constPieces isConst
    refine ⟨?_, fun _ => ?_⟩
    · show SpacedBut glues ((emitBefore true pointee).1 ++
        ((if (emitBefore true pointee).2 = true then [space] else []) ++
          (punctuator .star :: constPieces isConst)))
      cases hneed : (emitBefore true pointee).2 with
      | true => exact (spaced_append_cons rfl).mpr ⟨hpointee, hstar⟩
      | false =>
        refine hpointee.append hstar fun p hp q hq => ?_
        cases hq
        exact .inl (hlast hneed p hp)
    · show ∀ p ∈ ((emitBefore true pointee).1 ++ (_ ++ _)).getLast?, _
      rw [← List.append_assoc]
      exact mayPrecede_star_of_getLast?
  | foreignPointer isConst size pointee ih =>
    refine ⟨?_, fun h => nomatch h⟩
    have hpointee : SpacedBut glues ((emitBefore false pointee).1 ++ (emitAfter false pointee ++
        [punctuator .rightParenthesis])) := by
      rw [← List.append_assoc]
      exact (spaced_append_cons rfl).mpr
        ⟨spaced_append_emitAfter (ih false).1 false pointee, spaced_nil⟩
    cases isConst with
    | false => exact (spaced_cons_cons rfl).mpr hpointee
    | true => exact (spaced_cons_cons rfl).mpr ((spaced_cons_cons rfl).mpr hpointee)
  | array element extent ih =>
    cases isPointee with
    | false => exact ih false
    | true =>
      refine ⟨(spaced_append_cons rfl).mpr ⟨(ih false).1, spaced_nil⟩, fun _ p hp => ?_⟩
      have hp : p ∈ ((emitBefore false element).1 ++
          [punctuator .leftParenthesis]).getLast? := hp
      rw [List.getLast?_append, List.getLast?_singleton, Option.some_or,
        Option.mem_some_iff] at hp
      subst hp
      exact Piece.mayPrecede_of_left rfl

theorem spaced_emitType (type : CType) : SpacedBut glues (emitType type) :=
  spaced_append_emitAfter (spaced_emitBefore false type).1 false type

end Types

/-! ## The first and the last token -/

namespace Token

/-- It may come last in an expression. -/
def endsExpression : Token → Bool
  | punctuator p =>
      p = .rightParenthesis || p = .rightBracket || p = .rightBrace || p = .plusPlus ||
        p = .minusMinus
  | _ => true

/-- It may come first in a postfix expression. -/
def startsPostfix : Token → Bool
  | punctuator p => p = .leftParenthesis
  | _ => true

def isNumber : Token → Bool
  | number _ => true
  | _ => false

end Token

/-- It may come first in an expression. -/
def TypeNames.startsExpression (names : TypeNames) : Token → Bool
  | .word name => !names.isType name
  | .punctuator p => p = .leftParenthesis || isPrefixOperator p
  | _ => true

/-- A longer punctuator has the character. -/
theorem Punctuator.exists_mem_of_continues (h : p.continues c = true) :
    ∃ q : Punctuator, c ∈ q.spelling := by
  rw [Punctuator.continues, List.any_eq_true] at h
  obtain ⟨q, -, hstarts⟩ := h
  rw [List.isPrefixOf_iff_prefix] at hstarts
  exact ⟨q, hstarts.subset (List.mem_append_right _ (List.mem_singleton_self c))⟩

theorem Punctuator.continues_eq_false (h : (isIdentifierCharacter c || c == '"') = true) :
    p.continues c = false := by
  rw [Bool.eq_false_iff]
  intro hcontinues
  obtain ⟨q, hq⟩ := Punctuator.exists_mem_of_continues hcontinues
  have hnone : q.spelling.all (fun d => !(isIdentifierCharacter d || d == '"')) = true := by
    cases q <;> decide
  rw [List.all_eq_true] at hnone
  have hc := hnone c hq
  rw [h] at hc
  cases hc

theorem isIdentifierCharacter_of_isInitial (h : isInitialIdentifierCharacter c = true) :
    isIdentifierCharacter c = true := by
  rw [isInitialIdentifierCharacter, Bool.or_eq_true] at h
  rw [isIdentifierCharacter, Bool.or_eq_true, Char.isAlphanum, Bool.or_eq_true]
  exact h.imp_left .inl

theorem isDigit_eq_false_of_isInitial (h : isInitialIdentifierCharacter c = true) :
    c.isDigit = false := by
  rw [Bool.eq_false_iff]
  intro hdigit
  rw [isInitialIdentifierCharacter_of_isDigit hdigit] at h
  cases h

/-- The first character of a word, a number or a string. -/
theorem Token.head?_spelling {t : Token} (ht : t.isValid = true) (hkind : ∀ p, t ≠ .punctuator p)
    (hc : t.spelling.head? = some c) : (isIdentifierCharacter c || c == '"') = true := by
  cases t with
  | word name =>
    cases name with
    | nil => cases ht
    | cons d name =>
      cases hc
      rw [Token.isValid, validateIdentifier, Bool.and_eq_true] at ht
      rw [isIdentifierCharacter_of_isInitial ht.1, Bool.true_or]
  | number digits =>
    cases digits with
    | nil => cases ht
    | cons d digits =>
      cases hc
      rw [Token.isValid, Bool.and_eq_true, List.all_cons, Bool.and_eq_true] at ht
      rw [ht.2.1, Bool.true_or]
  | string contents =>
    cases hc
    decide
  | punctuator p => exact absurd rfl (hkind p)

theorem mayPrecede_of_startsExpression {names : TypeNames} {op : PrefixOperation} {t : Token}
    (ht : t.isValid = true) (hstart : names.startsExpression t = true)
    (hminus : op = .neg → t ≠ .punctuator .minus ∧ t ≠ .punctuator .minusMinus)
    (hampersand : op = .addressof → t ≠ .punctuator .ampersand) :
    (punctuator op.getOperator).MayPrecede (.token t) := by
  cases t with
  | punctuator p =>
    intro c hc
    cases p with
    | leftParenthesis =>
      cases hc
      cases op <;> decide
    | minus | minusMinus =>
      cases hc
      cases op with
      | neg => simp at hminus
      | _ => decide
    | ampersand =>
      cases hc
      cases op with
      | addressof => exact absurd rfl (hampersand rfl)
      | _ => decide
    | plus | plusPlus | tilde | exclaim | star =>
      cases hc
      cases op <;> decide
    | _ => cases hstart
  | _ =>
    intro c hc
    refine Token.stopsAt_of_continues (Punctuator.continues_eq_false
      (Token.head?_spelling ht (fun _ h => nomatch h) hc)) ?_ ?_
    · cases op <;> decide
    · cases op <;> decide

/-- What goes on after an operand is not read together with its last token. -/
theorem mayPrecede_of_endsExpression {t : Token} (ht : t.endsExpression = true)
    (hnumber : t.isNumber = false) (hp : p = .dot ∨ p = .arrow ∨ p = .plusPlus ∨ p = .minusMinus) :
    Piece.MayPrecede (.token t) (punctuator p) := by
  intro c hc
  cases t with
  | word name => rcases hp with rfl | rfl | rfl | rfl <;> cases hc <;> rfl
  | number digits => cases hnumber
  | string contents => rfl
  | punctuator q =>
    cases q with
    | rightParenthesis | rightBracket | rightBrace | plusPlus | minusMinus =>
      rcases hp with rfl | rfl | rfl | rfl <;> cases hc <;> decide
    | _ => cases ht

theorem mayPrecede_field (hp : p = .dot ∨ p = .arrow) {field : Text}
    (h : validateIdentifier field = true) : Piece.MayPrecede (punctuator p) (word field) := by
  intro c hc
  cases field with
  | nil => cases h
  | cons d field =>
    cases hc
    rw [validateIdentifier, Bool.and_eq_true] at h
    have hcontinues (q : Punctuator) : q.continues c = false :=
      Punctuator.continues_eq_false (by rw [isIdentifierCharacter_of_isInitial h.1, Bool.true_or])
    rcases hp with rfl | rfl
    · rw [Token.stopsAt, hcontinues, isDigit_eq_false_of_isInitial h.1]
      rfl
    · exact Token.stopsAt_of_continues (hcontinues _) (by decide) (by decide)

end CliftEmitC

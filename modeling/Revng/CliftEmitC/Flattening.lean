import Revng.CliftEmitC.ReadBack

/-!
# The grammar keeps the order of the tokens

The tokens of a tree from left to right, without parentheses (`CTree.flatten`).  What the parser
reads has the tokens of the text in their order (`flatten_of_parseExpression`), and so has the tree
that an expression stands for (`flatten_tree`).
-/

namespace CliftEmitC

def Token.isParenthesis : Token → Bool
  | punctuator p => p = .leftParenthesis || p = .rightParenthesis
  | _ => false

/-- The tokens without the parentheses. -/
def strip (text : List Token) : List Token := text.filter fun t => !t.isParenthesis

@[simp] theorem strip_append (text more : List Token) :
    strip (text ++ more) = strip text ++ strip more := List.filter_append ..

@[simp] theorem strip_nil : strip [] = [] := rfl

@[simp] theorem strip_leftParenthesis (text : List Token) :
    strip (.punctuator .leftParenthesis :: text) = strip text := rfl

@[simp] theorem strip_rightParenthesis (text : List Token) :
    strip (.punctuator .rightParenthesis :: text) = strip text := rfl

@[simp] theorem strip_word (name : Text) (text : List Token) :
    strip (.word name :: text) = .word name :: strip text := rfl

@[simp] theorem strip_number (digits : Text) (text : List Token) :
    strip (.number digits :: text) = .number digits :: strip text := rfl

theorem strip_cons {t : Token} (h : t.isParenthesis = false) (text : List Token) :
    strip (t :: text) = t :: strip text := by
  rw [strip, List.filter_cons, h]
  rfl

mutual

def CTree.flatten : CTree → List Token
  | .word name => [.word name]
  | .number digits => [.number digits]
  | .string contents => [.string contents]
  | .typeName type => strip type
  | .compound type initializers =>
      strip type ++ .punctuator .leftBrace ::
        (flattenAll initializers ++ [.punctuator .rightBrace])
  | .member op value field => value.flatten ++ [.punctuator op, .word field]
  | .subscript array index =>
      array.flatten ++ .punctuator .leftBracket :: (index.flatten ++ [.punctuator .rightBracket])
  | .call function arguments => function.flatten ++ flattenAll arguments
  | .postfixOp op operand => operand.flatten ++ [.punctuator op]
  | .cast type operand => strip type ++ operand.flatten
  | .prefixOp op operand => .punctuator op :: operand.flatten
  | .infixOp op lhs rhs => lhs.flatten ++ .punctuator op :: rhs.flatten
  | .ternary condition lhs rhs =>
      condition.flatten ++ .punctuator .question ::
        (lhs.flatten ++ .punctuator .colon :: rhs.flatten)

/-- The trees with commas between them. -/
def flattenAll : List CTree → List Token
  | [] => []
  | [tree] => tree.flatten
  | tree :: trees => tree.flatten ++ .punctuator .comma :: flattenAll trees

end

theorem flattenAll_cons (tree : CTree) {trees : List CTree} (h : trees ≠ []) :
    flattenAll (tree :: trees) = tree.flatten ++ .punctuator .comma :: flattenAll trees := by
  cases trees with
  | nil => exact absurd rfl h
  | cons tree' trees => rw [flattenAll]; simp

/-! ## What the parser reads -/

theorem eq_of_expect {p : Punctuator} {text rest : List Token} (h : expect p text = some rest) :
    text = .punctuator p :: rest := by
  cases text with
  | nil => cases h
  | cons t text =>
    cases t with
    | punctuator q =>
      rw [expect, Option.ite_none_right_eq_some, Option.some.injEq] at h
      rw [h.1, h.2]
    | _ => cases h

theorem eq_of_expectWord {text rest : List Token} {name : Text}
    (h : expectWord text = some (name, rest)) : text = .word name :: rest := by
  cases text with
  | nil => cases h
  | cons t text =>
    cases t with
    | word name' =>
      cases h
      rfl
    | _ => cases h

theorem parseTypeName_append (depth : Nat) (text : List Token) :
    (parseTypeName depth text).1 ++ (parseTypeName depth text).2 = text := by
  fun_induction parseTypeName depth text with
  | case4 depth t rest hcomma hright depth' type rest' heq ih =>
    rw [heq] at ih
    exact congrArg (t :: ·) ih
  | _ => rfl

theorem isParenthesis_of_infixLevel {p : Punctuator} {n : Nat} (h : infixLevel p = some n) :
    (Token.punctuator p).isParenthesis = false := by
  cases p <;> first | cases h; done | rfl

theorem isParenthesis_of_isPrefixOperator {p : Punctuator} (h : isPrefixOperator p = true) :
    (Token.punctuator p).isParenthesis = false := by
  cases p <;> first | cases h; done | rfl

namespace TypeNames

variable {names : TypeNames}

/-- With the bound, what is read has the tokens of the text in their order. -/
structure Keeps (names : TypeNames) (k : Nat) : Prop where
  level : ∀ n text tree isUnary rest, names.parseLevel k n text = some (tree, isUnary, rest) →
    strip text = tree.flatten ++ strip rest
  unary : ∀ text tree isUnary rest, names.parseUnary k text = some (tree, isUnary, rest) →
    strip text = tree.flatten ++ strip rest
  primary : ∀ text tree rest, names.parsePrimary k text = some (tree, rest) →
    strip text = tree.flatten ++ strip rest
  tail : ∀ n tree isUnary text tree' isUnary' rest,
    names.parseTail k n tree isUnary text = some (tree', isUnary', rest) →
    tree.flatten ++ strip text = tree'.flatten ++ strip rest
  arguments : ∀ closing text trees rest,
    names.parseArguments k closing text = some (trees, rest) →
    strip text = flattenAll trees ++ strip (.punctuator closing :: rest)
  more : ∀ closing text trees rest,
    names.parseMoreArguments k closing text = some (trees, rest) →
    trees ≠ [] ∧ strip text = flattenAll trees ++ strip (.punctuator closing :: rest)
  argument : ∀ text tree rest, names.parseArgument k text = some (tree, rest) →
    strip text = tree.flatten ++ strip rest

section Keeps

variable {k : Nat} (ih : Keeps names k)
include ih

variable {text rest : List Token}

variable {tree : CTree} {isUnary : Bool}

theorem keeps_level {n : Nat} (h : names.parseLevel (k + 1) n text = some (tree, isUnary, rest)) :
    strip text = tree.flatten ++ strip rest := by
  rw [parseLevel] at h
  split at h
  · obtain ⟨⟨first, isUnary', next⟩, hfirst, htail⟩ := Option.bind_eq_some_iff.mp h
    rw [ih.level _ _ _ _ _ hfirst]
    exact ih.tail _ _ _ _ _ _ _ htail
  split at h
  · exact ih.unary _ _ _ _ h
  · obtain ⟨⟨first, next⟩, hfirst, htail⟩ := Option.bind_eq_some_iff.mp h
    rw [ih.primary _ _ _ hfirst]
    exact ih.tail _ _ _ _ _ _ _ htail

theorem keeps_unary (h : names.parseUnary (k + 1) text = some (tree, isUnary, rest)) :
    strip text = tree.flatten ++ strip rest := by
  cases text with
  | nil => exact ih.level _ _ _ _ _ h
  | cons t text =>
    cases t with
    | punctuator p =>
      by_cases hp : p = .leftParenthesis
      · subst hp
        rw [parseUnary] at h
        split at h
        · have htype := parseTypeName_append 0 text
          obtain ⟨⟨type, next⟩, hname⟩ : ∃ x, parseTypeName 0 text = x := ⟨_, rfl⟩
          rw [hname] at h htype
          obtain ⟨next', hclose, h⟩ := Option.bind_eq_some_iff.mp h
          replace htype : type ++ next = text := htype
          replace hclose : next = .punctuator .rightParenthesis :: next' :=
            eq_of_expect hclose
          split at h
          · exact ih.level _ _ _ _ _ h
          · obtain ⟨⟨operand, isUnary', left⟩, hoperand, heq⟩ :=
              Option.bind_eq_some_iff.mp h
            cases heq
            rw [← htype, hclose, strip_leftParenthesis, strip_append, strip_rightParenthesis,
              ih.level _ _ _ _ _ hoperand, CTree.flatten, List.append_assoc]
        · exact ih.level _ _ _ _ _ h
      · rw [parseUnary] at h
        · split at h
          next hprefix =>
            obtain ⟨⟨operand, isUnary', left⟩, hoperand, h⟩ := Option.bind_eq_some_iff.mp h
            have h : (if (p = .plusPlus ∨ p = .minusMinus) ∧ isUnary' = false then none
              else some (CTree.prefixOp p operand, true, left)) =
                some (tree, isUnary, rest) := h
            rw [Option.ite_none_left_eq_some] at h
            cases h.2
            rw [strip_cons (isParenthesis_of_isPrefixOperator hprefix),
              ih.level _ _ _ _ _ hoperand]
            rfl
          next => cases h
        · exact hp
    | _ => exact ih.level _ _ _ _ _ h

theorem keeps_primary (h : names.parsePrimary (k + 1) text = some (tree, rest)) :
    strip text = tree.flatten ++ strip rest := by
  cases text with
  | nil => cases h
  | cons t text =>
    cases t with
    | punctuator p =>
      by_cases hp : p = .leftParenthesis
      · subst hp
        rw [parsePrimary] at h
        split at h
        · have htype := parseTypeName_append 0 text
          obtain ⟨⟨type, next⟩, hname⟩ : ∃ x, parseTypeName 0 text = x := ⟨_, rfl⟩
          rw [hname] at h htype
          replace htype : type ++ next = text := htype
          obtain ⟨next', hclose, h⟩ := Option.bind_eq_some_iff.mp h
          obtain ⟨next'', hopen, h⟩ := Option.bind_eq_some_iff.mp h
          obtain ⟨⟨initializers, left⟩, harguments, heq⟩ := Option.bind_eq_some_iff.mp h
          cases heq
          replace hclose : next = .punctuator .rightParenthesis :: next' :=
            eq_of_expect hclose
          rw [← htype, hclose, eq_of_expect hopen, strip_leftParenthesis, strip_append,
            strip_rightParenthesis, strip_cons rfl, ih.arguments _ _ _ _ harguments,
            strip_cons rfl, CTree.flatten]
          simp
        · obtain ⟨⟨inner, isUnary, next⟩, hinner, h⟩ := Option.bind_eq_some_iff.mp h
          obtain ⟨left, hclose, heq⟩ := Option.bind_eq_some_iff.mp h
          cases heq
          replace hclose : next = .punctuator .rightParenthesis :: rest := eq_of_expect hclose
          rw [strip_leftParenthesis, ih.level _ _ _ _ _ hinner, hclose,
            strip_rightParenthesis]
      · cases p <;> first | cases h | exact absurd rfl hp
    | _ =>
      cases h
      rw [strip_cons rfl]
      rfl

theorem keeps_tail {n : Nat} {tree' : CTree} {isUnary' : Bool}
    (h : names.parseTail (k + 1) n tree isUnary text = some (tree', isUnary', rest)) :
    tree.flatten ++ strip text = tree'.flatten ++ strip rest := by
  cases text with
  | nil =>
    cases h
    rfl
  | cons t text =>
    cases t with
    | punctuator p =>
      rw [parseTail] at h
      split at h
      next hop =>
        obtain ⟨⟨operand, isUnary'', next⟩, hoperand, htail⟩ := Option.bind_eq_some_iff.mp h
        rw [strip_cons (isParenthesis_of_infixLevel hop), ih.level _ _ _ _ _ hoperand,
          ← ih.tail _ _ _ _ _ _ _ htail, CTree.flatten, List.append_assoc, List.cons_append]
      split at h
      next hassign =>
        obtain ⟨-, rfl, -⟩ := hassign
        obtain ⟨⟨operand, isUnary'', next⟩, hoperand, heq⟩ := Option.bind_eq_some_iff.mp h
        cases heq
        rw [strip_cons rfl, ih.level _ _ _ _ _ hoperand, CTree.flatten, List.append_assoc,
          List.cons_append]
      split at h
      next hquestion =>
        obtain ⟨-, rfl⟩ := hquestion
        obtain ⟨⟨lhs, isUnaryLhs, next⟩, hlhs, h⟩ := Option.bind_eq_some_iff.mp h
        obtain ⟨next', hcolon, h⟩ := Option.bind_eq_some_iff.mp h
        obtain ⟨⟨rhs, isUnaryRhs, next''⟩, hrhs, heq⟩ := Option.bind_eq_some_iff.mp h
        cases heq
        replace hcolon : next = .punctuator .colon :: next' := eq_of_expect hcolon
        rw [strip_cons rfl, ih.level _ _ _ _ _ hlhs, hcolon, strip_cons rfl,
          ih.level _ _ _ _ _ hrhs, CTree.flatten]
        simp
      split at h
      next hbracket =>
        obtain ⟨-, rfl⟩ := hbracket
        obtain ⟨⟨index, isUnary'', next⟩, hindex, h⟩ := Option.bind_eq_some_iff.mp h
        obtain ⟨next', hclose, htail⟩ := Option.bind_eq_some_iff.mp h
        replace hclose : next = .punctuator .rightBracket :: next' := eq_of_expect hclose
        rw [strip_cons rfl, ih.level _ _ _ _ _ hindex, hclose, strip_cons rfl,
          ← ih.tail _ _ _ _ _ _ _ htail, CTree.flatten]
        simp
      split at h
      next hcall =>
        obtain ⟨-, rfl⟩ := hcall
        obtain ⟨⟨arguments, next⟩, harguments, htail⟩ := Option.bind_eq_some_iff.mp h
        rw [strip_leftParenthesis, ih.arguments _ _ _ _ harguments, strip_rightParenthesis,
          ← ih.tail _ _ _ _ _ _ _ htail, CTree.flatten, List.append_assoc]
      split at h
      next hmember =>
        obtain ⟨⟨field, next⟩, hfield, htail⟩ := Option.bind_eq_some_iff.mp h
        have hparenthesis : (Token.punctuator p).isParenthesis = false := by
          rcases hmember.2 with rfl | rfl <;> rfl
        rw [strip_cons hparenthesis, eq_of_expectWord hfield, strip_cons rfl,
          ← ih.tail _ _ _ _ _ _ _ htail, CTree.flatten]
        simp
      split at h
      next hpostfix =>
        have hparenthesis : (Token.punctuator p).isParenthesis = false := by
          rcases hpostfix.2 with rfl | rfl <;> rfl
        rw [strip_cons hparenthesis, ← ih.tail _ _ _ _ _ _ _ h, CTree.flatten]
        simp
      next =>
        cases h
        rfl
    | _ =>
      cases h
      rfl

theorem keeps_arguments {closing : Punctuator} {trees : List CTree}
    (h : names.parseArguments (k + 1) closing text = some (trees, rest)) :
    strip text = flattenAll trees ++ strip (.punctuator closing :: rest) := by
  rw [parseArguments] at h
  split at h
  next hclose =>
    cases text with
    | nil => cases hclose
    | cons t text =>
      cases hclose
      cases h
      rfl
  next => exact (ih.more _ _ _ _ h).2

theorem keeps_more {closing : Punctuator} {trees : List CTree}
    (h : names.parseMoreArguments (k + 1) closing text = some (trees, rest)) :
    trees ≠ [] ∧ strip text = flattenAll trees ++ strip (.punctuator closing :: rest) := by
  rw [parseMoreArguments] at h
  obtain ⟨⟨argument, next⟩, hargument, h⟩ := Option.bind_eq_some_iff.mp h
  have h : (if next.head? = some (.punctuator .comma) then
      (names.parseMoreArguments k closing next.tail).bind fun x => some (argument :: x.1, x.2)
    else (expect closing next).bind fun rest => some ([argument], rest)) = some (trees, rest) := h
  split at h
  next hcomma =>
    obtain ⟨⟨arguments, next'⟩, harguments, heq⟩ := Option.bind_eq_some_iff.mp h
    cases heq
    obtain ⟨hne, hstrip⟩ := ih.more _ _ _ _ harguments
    refine ⟨List.cons_ne_nil _ _, ?_⟩
    cases next with
    | nil => cases hcomma
    | cons t next =>
      cases hcomma
      replace hstrip : strip next = flattenAll arguments ++ strip (.punctuator closing :: next') :=
        hstrip
      rw [ih.argument _ _ _ hargument, strip_cons rfl, hstrip, flattenAll_cons _ hne,
        List.append_assoc, List.cons_append]
  next =>
    obtain ⟨left, hclose, heq⟩ := Option.bind_eq_some_iff.mp h
    cases heq
    refine ⟨List.cons_ne_nil _ _, ?_⟩
    rw [ih.argument _ _ _ hargument, eq_of_expect hclose, flattenAll]

theorem keeps_argument (h : names.parseArgument (k + 1) text = some (tree, rest)) :
    strip text = tree.flatten ++ strip rest := by
  rw [parseArgument] at h
  split at h
  · have htype := parseTypeName_append 0 text
    cases h
    rw [CTree.flatten, ← strip_append, htype]
  · obtain ⟨⟨inner, isUnary, next⟩, hinner, heq⟩ := Option.bind_eq_some_iff.mp h
    cases heq
    exact ih.level _ _ _ _ _ hinner

end Keeps

theorem keeps (k : Nat) : Keeps names k := by
  induction k with
  | zero => exact ⟨nofun, nofun, nofun, nofun, nofun, nofun, nofun⟩
  | succ k ih =>
    exact ⟨fun _ _ _ _ _ => keeps_level ih, fun _ _ _ _ => keeps_unary ih,
      fun _ _ _ => keeps_primary ih, fun _ _ _ _ _ _ _ => keeps_tail ih,
      fun _ _ _ _ => keeps_arguments ih, fun _ _ _ _ => keeps_more ih,
      fun _ _ _ => keeps_argument ih⟩

/-- What the parser reads has the tokens of the text in their order. -/
theorem flatten_of_parseExpression {fuel : Nat} {text : List Token} {tree : CTree}
    (h : names.parseExpression fuel text = some tree) : tree.flatten = strip text := by
  obtain ⟨⟨tree', isUnary, rest⟩, hlevel, h⟩ := Option.bind_eq_some_iff.mp h
  have h : (if rest = [] then some tree' else none) = some tree := h
  rw [Option.ite_none_right_eq_some, Option.some.injEq] at h
  rw [(keeps fuel).level _ _ _ _ _ hlevel, h.1, h.2, strip_nil, List.append_nil]

end TypeNames

/-! ## The tree of an expression -/

theorem strip_parenthesize (current own : OperatorPrecedence) (body : List Piece) :
    strip (tokens (parenthesize current own body)) = strip (tokens body) := by
  rcases parenthesize_cases current own body with ⟨-, heq⟩ | ⟨-, heq⟩
  · rw [heq, tokens_token, strip_leftParenthesis, tokens_append, strip_append]
    exact List.append_nil _
  · rw [heq]

theorem strip_emitOperands {es : List Expression}
    (h : ∀ e ∈ es, e.tree.flatten = strip (tokens (emitBody e))) :
    flattenAll (Expression.trees es) = strip (tokens (emitOperands true es)) := by
  induction es with
  | nil => rfl
  | cons e es ih =>
    have he := h e List.mem_cons_self
    have hes := ih fun e he => h e (List.mem_cons_of_mem _ he)
    rw [emitOperands, if_pos rfl, List.nil_append, tokens_append, strip_append,
      strip_parenthesize, Expression.trees]
    cases es with
    | nil =>
      rw [Expression.trees, flattenAll, he]
      exact (List.append_nil _).symm
    | cons e' es =>
      rw [flattenAll_cons _ (by simp [Expression.trees]), hes, he, emitOperands, emitOperands,
        if_pos rfl, if_neg Bool.false_ne_true]
      rfl

theorem flatten_tree (e : Expression) : e.tree.flatten = strip (tokens (emitBody e)) := by
  induction e using Expression.induction with
  | aggregate type initializers ih =>
    rw [Expression.tree, CTree.flatten, strip_emitOperands ih, emitBody]
    simp [strip_cons, Token.isParenthesis]
  | access isIndirect value field ih =>
    rw [Expression.tree, CTree.flatten, ih, emitBody, tokens_append, strip_append,
      strip_parenthesize]
    cases isIndirect <;> rfl
  | subscript pointer index ihp ihi =>
    rw [Expression.tree, CTree.flatten, ihp, ihi, emitBody]
    simp [strip_cons, strip_parenthesize, Token.isParenthesis]
  | call function arguments ihf ih =>
    rw [Expression.tree, CTree.flatten, ihf, strip_emitOperands ih, emitBody]
    simp [strip_parenthesize]
  | postfixOp op operand ih =>
    rw [Expression.tree, CTree.flatten, ih, emitBody, tokens_append, strip_append,
      strip_parenthesize]
    cases op <;> rfl
  | implicitCast value ih =>
    rw [Expression.emitBody_implicitCast]
    exact ih
  | bitCast type value ih =>
    rw [Expression.tree, CTree.flatten, flattenAll_cons _ (by simp), flattenAll, ih, emitBody]
    simp [strip_cons, strip_parenthesize, CTree.flatten, Token.isParenthesis]
  | cast type value ih =>
    rw [Expression.tree, CTree.flatten, ih, emitBody]
    simp [strip_parenthesize]
  | prefixOp op operand ih =>
    have hspace : tokens (if op = .neg ∧ operand.isNegation then [Piece.space] else []) = [] := by
      split <;> rfl
    rw [Expression.tree, CTree.flatten, ih, emitBody, tokens_token, tokens_append, hspace,
      List.nil_append, strip_cons (by cases op <;> rfl), strip_parenthesize]
  | infixOp op lhs rhs ihl ihr =>
    have hspace : tokens (if op = .comma then [] else [Piece.space]) = [] := by
      split <;> rfl
    rw [Expression.tree, CTree.flatten, ihl, ihr, emitBody, tokens_append, strip_append,
      strip_parenthesize, tokens_append, hspace, List.nil_append, tokens_token, tokens_space,
      strip_cons (by cases op <;> rfl), strip_parenthesize]
  | ternary condition lhs rhs ihc ihl ihr =>
    rw [Expression.tree, CTree.flatten, ihc, ihl, ihr, emitBody]
    simp [strip_cons, strip_parenthesize, Token.isParenthesis]
  | intrinsicCast operation type value ih =>
    rw [Expression.tree, CTree.flatten, flattenAll_cons _ (by simp), flattenAll, ih, emitBody]
    simp [strip_cons, strip_parenthesize, CTree.flatten, Token.isParenthesis, emitIntrinsicMacro]
  | usualIntrinsic operation operands ih =>
    rw [Expression.tree, CTree.flatten, strip_emitOperands ih, emitBody]
    simp [CTree.flatten, emitIntrinsicMacro]
  | undef type =>
    rw [Expression.tree, CTree.flatten, flattenAll, emitBody]
    simp [CTree.flatten]
  | intrinsicImmediate type literal =>
    rw [Expression.tree, CTree.flatten, flattenAll_cons _ (by simp), flattenAll, emitBody]
    simp [strip_cons, CTree.flatten, Token.isParenthesis, emitIntrinsicMacro]
  | _ => rfl

end CliftEmitC

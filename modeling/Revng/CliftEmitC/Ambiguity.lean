import Revng.CliftEmitC.Flattening
import Revng.CliftEmitC.TernaryJams

/-!
# A minus before a minus

Two minus signs that nothing keeps apart are cut out of the text as one `--`.  Then the order of
the tokens is not the one of the expression, so what is read is never its tree
(`tree_ne_of_gluesMinus`).
-/

namespace CliftEmitC

open Piece Expression

/-! ## The text -/

/-- The longest match takes two minus signs at once. -/
theorem lex_minusMinus (rest : Text) :
    lex ('-' :: '-' :: rest) = (lex rest).map (.punctuator .minusMinus :: ·) := by
  refine Token.lex_spelling (t := .punctuator .minusMinus) rfl fun c _ => ?_
  refine Token.stopsAt_of_continues ?_ (by decide) (by decide)
  simp [Punctuator.continues, Punctuator.values, Punctuator.spelling, List.isPrefixOf]

/-- The first place where a chain breaks. -/
theorem exists_break {α : Type} {R : α → α → Prop} {l : List α} (h : ¬l.IsChain R) :
    ∃ l₁ a b l₂, l = l₁ ++ a :: b :: l₂ ∧ (l₁ ++ [a]).IsChain R ∧ ¬R a b := by
  induction l with
  | nil => exact absurd List.isChain_nil h
  | cons a l ih =>
    cases l with
    | nil => exact absurd (List.isChain_singleton a) h
    | cons b l =>
      by_cases hab : R a b
      · obtain ⟨l₁, c, d, l₂, heq, hchain, hcd⟩ := ih fun hl =>
          h (List.isChain_cons_cons.mpr ⟨hab, hl⟩)
        refine ⟨a :: l₁, c, d, l₂, congrArg (a :: ·) heq, ?_, hcd⟩
        cases l₁ with
        | nil =>
          cases heq
          exact List.isChain_cons_cons.mpr ⟨hab, hchain⟩
        | cons e l₁ =>
          cases heq
          exact List.isChain_cons_cons.mpr ⟨hab, hchain⟩
      · exact ⟨[], a, b, l, rfl, List.isChain_singleton a, hab⟩

/-- The text of pieces where a minus comes before another one has a `--` in the place of the
minus. -/
theorem lex_glued {pieces : List Piece} (hvalid : AllValid pieces)
    (htouch : SpacedBut true pieces) (hspaced : ¬Spaced pieces) :
    ∃ before after, tokens pieces = before ++ .punctuator .minus :: after ∧
      ∀ ts, lex (spell pieces) = some ts →
        ∃ after', ts = before ++ .punctuator .minusMinus :: after' := by
  obtain ⟨l₁, p, q, l₂, rfl, hchain, hnot⟩ := exists_break hspaced
  obtain ⟨-, rfl, hq⟩ : true = true ∧ p = punctuator .minus ∧
      (q = punctuator .minus ∨ q = punctuator .minusMinus) := by
    rw [SpacedBut, List.isChain_append, List.isChain_cons_cons] at htouch
    exact htouch.2.1.1.resolve_left hnot
  obtain ⟨rest, hrest⟩ : ∃ rest, spell (l₁ ++ punctuator .minus :: q :: l₂) =
      spell l₁ ++ ('-' :: '-' :: rest) := by
    rw [spell, List.flatMap_append, ← spell]
    rcases hq with rfl | rfl
    · exact ⟨spell l₂, rfl⟩
    · exact ⟨'-' :: spell l₂, rfl⟩
  obtain ⟨hbefore, -, hlast⟩ := List.isChain_append.mp hchain
  have hstops (t : Token) (ht : l₁.getLast? = some (.token t)) (c : Char)
      (hc : ('-' :: '-' :: rest).head? = some c) : t.stopsAt c = true := by
    cases hc
    exact hlast (.token t) ht _ rfl '-' rfl
  refine ⟨tokens l₁, tokens (q :: l₂), tokens_append _ _, fun ts hts => ?_⟩
  rw [hrest, lex_spell_append (allValid_append.mp hvalid).1 hbefore hstops, lex_minusMinus,
    Option.map_map] at hts
  obtain ⟨after', -, rfl⟩ := Option.map_eq_some_iff.mp hts
  exact ⟨after', rfl⟩

/-! ## Expressions with such a minus -/

/-- The pieces of a minus before another one. -/
def Glued (pieces : List Piece) : Prop :=
  ∃ q, (q = punctuator .minus ∨ q = punctuator .minusMinus) ∧
    [punctuator .minus, q] <:+: pieces

namespace Glued

variable {ps qs : List Piece}

theorem of_infix (h : Glued ps) (hsub : ps <:+: qs) : Glued qs := by
  obtain ⟨q, hq, hinfix⟩ := h
  exact ⟨q, hq, hinfix.trans hsub⟩

theorem append_left (h : Glued qs) (ps : List Piece) : Glued (ps ++ qs) :=
  h.of_infix (List.suffix_append ps qs).isInfix

theorem append_right (h : Glued ps) (qs : List Piece) : Glued (ps ++ qs) :=
  h.of_infix (List.prefix_append ps qs).isInfix

theorem cons (h : Glued ps) (p : Piece) : Glued (p :: ps) :=
  h.of_infix (List.suffix_cons p ps).isInfix

theorem parenthesize (h : Glued ps) (current own : OperatorPrecedence) :
    Glued (parenthesize current own ps) := by
  rcases parenthesize_cases current own ps with ⟨-, heq⟩ | ⟨-, heq⟩
  · rw [heq]
    exact (h.append_right _).cons _
  · rwa [heq]

theorem not_spaced (h : Glued ps) : ¬Spaced ps := by
  obtain ⟨q, hq, hinfix⟩ := h
  intro hspaced
  have hpair := List.IsChain.infix hspaced hinfix
  have hchain := (List.isChain_cons_cons.mp hpair).1
  rcases hq with rfl | rfl
  · exact absurd (hchain '-' rfl) (by decide)
  · exact absurd (hchain '-' rfl) (by decide)

end Glued

theorem glued_operands {es : List Expression} (isFirst : Bool)
    (h : ∃ e ∈ es, Glued (emitBody e)) : Glued (emitOperands isFirst es) := by
  induction es generalizing isFirst with
  | nil =>
    obtain ⟨e, he, -⟩ := h
    cases he
  | cons e es ih =>
    obtain ⟨e', he, hglued⟩ := h
    rw [emitOperands]
    refine .append_left ?_ _
    rcases List.mem_cons.mp he with rfl | he
    · exact (hglued.parenthesize _ _).append_right _
    · exact (ih false ⟨e', he, hglued⟩).append_left _

theorem glued_emitBody {e : Expression} (h : e.contains gluesMinus = true) :
    Glued (emitBody e) := by
  have hoperands {es : List Expression} (isFirst : Bool)
      (hes : anyContains gluesMinus es = true)
      (ih : ∀ e ∈ es, e.contains gluesMinus = true → Glued (emitBody e)) :
      Glued (emitOperands isFirst es) := by
    rw [anyContains_eq_any, List.any_eq_true] at hes
    obtain ⟨e, he, hcontains⟩ := hes
    exact glued_operands isFirst ⟨e, he, ih e he hcontains⟩
  induction e using Expression.induction with
  | aggregate type initializers ih =>
    have hglued := hoperands true (by simpa [contains, gluesMinus] using h) ih
    exact ((((hglued.append_right _).cons _).cons _).append_left _).cons _
  | access isIndirect value field ih =>
    exact ((ih (by simpa [contains, gluesMinus] using h)).parenthesize _ _).append_right _
  | subscript pointer index ihp ihi =>
    replace h : (pointer.contains gluesMinus || index.contains gluesMinus) = true := h
    rw [Bool.or_eq_true] at h
    rw [emitBody]
    rcases h with h | h
    · exact ((ihp h).parenthesize _ _).append_right _
    · exact ((((ihi h).parenthesize _ _).append_right _).cons _).append_left _
  | call function arguments ihf ih =>
    replace h : (function.contains gluesMinus || anyContains gluesMinus arguments) = true := h
    rw [Bool.or_eq_true] at h
    rw [emitBody]
    rcases h with h | h
    · exact ((ihf h).parenthesize _ _).append_right _
    · exact (((hoperands true h ih).append_right _).cons _).append_left _
  | postfixOp op operand ih =>
    exact ((ih (by simpa [contains, gluesMinus] using h)).parenthesize _ _).append_right _
  | implicitCast value ih =>
    rw [emitBody_implicitCast]
    exact ih (by simpa [contains, gluesMinus] using h)
  | bitCast type value ih =>
    have hglued := (ih (by simpa [contains, gluesMinus] using h)).parenthesize .parentheses
      value.precedence
    exact (((((hglued.append_right _).cons _).cons _).append_left _).cons _).cons _
  | cast type value ih =>
    have hglued := (ih (by simpa [contains, gluesMinus] using h)).parenthesize
      (.decrementPrecedence .unaryPrefix) value.precedence
    exact (((hglued.cons _).cons _).append_left _).cons _
  | prefixOp op operand ih =>
    rw [contains, Bool.or_eq_true] at h
    rcases h with h | h
    · -- The minus signs of the operator and of its operand.
      rw [gluesMinus, Bool.and_eq_true, Bool.and_eq_true, decide_eq_true_eq,
        Bool.not_eq_true'] at h
      obtain ⟨rfl, hnegation, hprints⟩ := h
      have hspace : ¬(PrefixOperation.neg = .neg ∧ operand.isNegation = true) := by
        simp [hnegation]
      rw [emitBody, if_neg hspace, List.nil_append]
      rw [← precedence_unwrapImplicitCasts, ← emitBody_unwrapImplicitCasts]
      cases hunwrap : operand.unwrapImplicitCasts with
      | prefixOp op' operand' =>
        rw [hunwrap, printsMinus, decide_eq_true_eq] at hprints
        rw [precedence, parenthesize_decrementPrecedence (by decide), emitBody]
        refine ⟨punctuator op'.getOperator, ?_, (List.prefix_append _ _).isInfix⟩
        rcases hprints with rfl | rfl
        · exact .inl rfl
        · exact .inr rfl
      | _ =>
        rw [hunwrap] at hprints
        cases hprints
    · exact (((ih h).parenthesize _ _).append_left _).cons _
  | infixOp op lhs rhs ihl ihr =>
    replace h : (lhs.contains gluesMinus || rhs.contains gluesMinus) = true := h
    rw [Bool.or_eq_true] at h
    rw [emitBody]
    rcases h with h | h
    · exact ((ihl h).parenthesize _ _).append_right _
    · exact (((((ihr h).parenthesize _ _).cons _).cons _).append_left _).append_left _
  | ternary condition lhs rhs ihc ihl ihr =>
    replace h : (condition.contains gluesMinus || lhs.contains gluesMinus ||
      rhs.contains gluesMinus) = true := h
    rw [Bool.or_eq_true, Bool.or_eq_true] at h
    rw [emitBody]
    rcases h with (h | h) | h
    · exact ((ihc h).parenthesize _ _).append_right _
    · exact ((((((ihl h).parenthesize _ _).append_right _).cons _).cons _).cons _).append_left _
    · exact ((((((((ihr h).parenthesize _ _).cons _).cons _).cons _).append_left _).cons
        _).cons _).cons _ |>.append_left _
  | intrinsicCast operation type value ih =>
    have hglued := (ih (by simpa [contains, gluesMinus] using h)).parenthesize .primary
      value.precedence
    exact ((((hglued.append_right _).cons _).append_left _).cons _).cons _
  | usualIntrinsic operation operands ih =>
    have hglued := hoperands true (by simpa [contains, gluesMinus] using h) ih
    exact ((hglued.append_right _).cons _).cons _
  | _ => cases h

/-- What is read of the text is not the tree of the expression. -/
theorem tree_ne_of_gluesMinus {names : TypeNames} {e : Expression}
    (hwf : e.isWellFormed names = true) (h : e.contains gluesMinus = true) {ts : List Token}
    (hlex : lex (spell (emitBody e)) = some ts) {fuel : Nat} {t : CTree}
    (hparse : names.parseExpression fuel ts = some t) : t ≠ e.tree := by
  have hprinted := printed_touching hwf
  obtain ⟨before, after, htokens, hglued⟩ :=
    lex_glued hprinted.valid hprinted.spaced (glued_emitBody h).not_spaced
  obtain ⟨after', rfl⟩ := hglued ts hlex
  rintro rfl
  have hflatten := TypeNames.flatten_of_parseExpression hparse
  rw [flatten_tree, htokens, strip_append, strip_append, strip_cons rfl, strip_cons rfl] at hflatten
  have hminus := (List.cons.inj (List.append_cancel_left hflatten)).1
  cases hminus

/-!
## When an expression is read back

The text of an expression is cut into tokens and read with the grammar of C
(`TypeNames.read`).  It gives the expression back (`ReadsBack`) exactly when no subexpression is

* a negation of an implicit cast of a negation or of a decrement,
* a bit cast of a comma expression, or
* a ternary expression whose last operand is an assignment.

Each of the three is printed without the space or the parentheses that it needs.
-/

def Expression.text (e : Expression) : Text := spell (emitExpression .parentheses e)

/-- The expression that a text is in C. -/
def TypeNames.read (names : TypeNames) (fuel : Nat) (text : Text) : Option CTree :=
  (lex text).bind (names.parseExpression fuel)

/-- The text of the expression is read as the tree that the expression stands for. -/
def ReadsBack (names : TypeNames) (e : Expression) : Prop :=
  Yields (fun fuel => names.read fuel e.text) e.tree

/-- The parentheses and the spaces of the text are enough. -/
structure Expression.IsPlain (e : Expression) : Prop where
  glues : e.contains gluesMinus = false
  splits : e.contains splitsArgument = false
  assigns : e.contains assignsInTernary = false

/-! ## The tree that is read -/

theorem CTree.splitComma_of_ne {t : CTree} (h : ∀ lhs rhs, t ≠ .infixOp .comma lhs rhs) :
    t.splitComma = [t] := by
  unfold CTree.splitComma
  split
  next lhs rhs => exact absurd rfl (h lhs rhs)
  next => rfl

theorem CTree.length_splitComma_pos (t : CTree) : 0 < t.splitComma.length := by
  unfold CTree.splitComma
  split
  next => exact List.length_pos_iff.mpr (List.append_ne_nil_of_right_ne_nil _ (List.cons_ne_nil _ _))
  next => exact Nat.one_pos

namespace Expression

/-- Only a comma expression is read as a tree of the comma operator. -/
theorem readTree_ne_comma {e : Expression} (h : e.unwrapImplicitCasts.isInfix .comma = false) :
    ∀ lhs rhs, e.readTree ≠ .infixOp .comma lhs rhs := by
  induction e using Expression.induction with
  | infixOp op lhs rhs =>
    intro l r heq
    cases op with
    | comma => cases h
    | _ => cases heq
  | implicitCast value ih => exact ih h
  | _ => exact fun _ _ heq => nomatch heq

/-- Without a bit cast of a comma expression the trees are the same. -/
theorem readTree_eq_tree {e : Expression} (h : e.contains splitsArgument = false) :
    e.readTree = e.tree := by
  have hmap {es : List Expression} (hes : anyContains splitsArgument es = false)
      (ih : ∀ e ∈ es, e.contains splitsArgument = false → e.readTree = e.tree) :
      readTrees es = trees es := by
    rw [anyContains_eq_any, List.any_eq_false] at hes
    rw [readTrees_eq_map, trees_eq_map]
    exact List.map_congr_left fun e he => ih e he (Bool.eq_false_iff.mpr (hes e he))
  induction e using Expression.induction with
  | aggregate type initializers ih =>
    rw [contains, Bool.or_eq_false_iff] at h
    rw [readTree, tree, hmap h.2 ih]
  | access isIndirect value field ih =>
    rw [contains, Bool.or_eq_false_iff] at h
    rw [readTree, tree, ih h.2]
  | subscript pointer index ihp ihi =>
    rw [contains, Bool.or_eq_false_iff, Bool.or_eq_false_iff] at h
    rw [readTree, tree, ihp h.2.1, ihi h.2.2]
  | call function arguments ihf ih =>
    rw [contains, Bool.or_eq_false_iff, Bool.or_eq_false_iff] at h
    rw [readTree, tree, ihf h.2.1, hmap h.2.2 ih]
  | postfixOp op operand ih =>
    rw [contains, Bool.or_eq_false_iff] at h
    rw [readTree, tree, ih h.2]
  | implicitCast value ih =>
    rw [contains, Bool.or_eq_false_iff] at h
    rw [readTree, tree, ih h.2]
  | bitCast type value ih =>
    rw [contains, Bool.or_eq_false_iff] at h
    rw [readTree, tree, CTree.splitComma_of_ne (readTree_ne_comma h.1), ih h.2]
  | cast type value ih =>
    rw [contains, Bool.or_eq_false_iff] at h
    rw [readTree, tree, ih h.2]
  | prefixOp op operand ih =>
    rw [contains, Bool.or_eq_false_iff] at h
    rw [readTree, tree, ih h.2]
  | infixOp op lhs rhs ihl ihr =>
    rw [contains, Bool.or_eq_false_iff, Bool.or_eq_false_iff] at h
    rw [readTree, tree, ihl h.2.1, ihr h.2.2]
  | ternary condition lhs rhs ihc ihl ihr =>
    rw [contains, Bool.or_eq_false_iff, Bool.or_eq_false_iff, Bool.or_eq_false_iff] at h
    rw [readTree, tree, ihc h.2.1.1, ihl h.2.1.2, ihr h.2.2]
  | intrinsicCast operation type value ih =>
    rw [contains, Bool.or_eq_false_iff] at h
    rw [readTree, tree, ih h.2]
  | usualIntrinsic operation operands ih =>
    rw [contains, Bool.or_eq_false_iff] at h
    rw [readTree, tree, hmap h.2 ih]
  | _ => rfl

theorem readTree_unwrapImplicitCasts (e : Expression) :
    e.unwrapImplicitCasts.readTree = e.readTree := by
  induction e using Expression.induction with
  | implicitCast value ih => exact ih
  | _ => rfl

/-- A comma expression is read as several arguments. -/
theorem splitsArgument_of_isInfix {e : Expression}
    (h : e.unwrapImplicitCasts.isInfix .comma = true) (t : CTree) :
    e.readTree.splitComma ≠ [t] := by
  rw [← readTree_unwrapImplicitCasts]
  cases hunwrap : e.unwrapImplicitCasts with
  | infixOp op lhs rhs =>
    rw [hunwrap, isInfix, decide_eq_true_eq] at h
    subst h
    intro heq
    have hlength : (lhs.readTree.splitComma ++ [rhs.readTree]).length = 1 :=
      congrArg List.length heq
    have hpos := lhs.readTree.length_splitComma_pos
    rw [List.length_append, List.length_singleton] at hlength
    omega
  | _ =>
    rw [hunwrap] at h
    cases h

/-- The trees are the same only without a bit cast of a comma expression. -/
theorem contains_splitsArgument {e : Expression} (h : e.readTree = e.tree) :
    e.contains splitsArgument = false := by
  have hmap {es : List Expression} (hes : readTrees es = trees es)
      (ih : ∀ e ∈ es, e.readTree = e.tree → e.contains splitsArgument = false) :
      anyContains splitsArgument es = false := by
    rw [readTrees_eq_map, trees_eq_map, List.map_inj_left] at hes
    rw [anyContains_eq_any, List.any_eq_false]
    exact fun e he => Bool.eq_false_iff.mp (ih e he (hes e he))
  induction e using Expression.induction with
  | aggregate type initializers ih =>
    rw [readTree, tree, CTree.compound.injEq] at h
    rw [contains, hmap h.2 ih]
    rfl
  | access isIndirect value field ih =>
    rw [readTree, tree, CTree.member.injEq] at h
    rw [contains, ih h.2.1]
    rfl
  | subscript pointer index ihp ihi =>
    rw [readTree, tree, CTree.subscript.injEq] at h
    rw [contains, ihp h.1, ihi h.2]
    rfl
  | call function arguments ihf ih =>
    rw [readTree, tree, CTree.call.injEq] at h
    rw [contains, ihf h.1, hmap h.2 ih]
    rfl
  | postfixOp op operand ih =>
    rw [readTree, tree, CTree.postfixOp.injEq] at h
    rw [contains, ih h.2]
    rfl
  | implicitCast value ih =>
    rw [readTree, tree] at h
    rw [contains, ih h]
    rfl
  | bitCast type value ih =>
    rw [readTree, tree, CTree.call.injEq, List.cons.injEq] at h
    have hinfix : value.unwrapImplicitCasts.isInfix .comma = false :=
      Bool.eq_false_iff.mpr fun hinfix => splitsArgument_of_isInfix hinfix _ h.2.2
    have hvalue : value.readTree = value.tree := by
      have hsplit := h.2.2
      rw [CTree.splitComma_of_ne (readTree_ne_comma hinfix), List.singleton_inj] at hsplit
      exact hsplit
    rw [contains, splitsArgument, hinfix, ih hvalue]
    rfl
  | cast type value ih =>
    rw [readTree, tree, CTree.cast.injEq] at h
    rw [contains, ih h.2]
    rfl
  | prefixOp op operand ih =>
    rw [readTree, tree, CTree.prefixOp.injEq] at h
    rw [contains, ih h.2]
    rfl
  | infixOp op lhs rhs ihl ihr =>
    rw [readTree, tree, CTree.infixOp.injEq] at h
    rw [contains, ihl h.2.1, ihr h.2.2]
    rfl
  | ternary condition lhs rhs ihc ihl ihr =>
    rw [readTree, tree, CTree.ternary.injEq] at h
    rw [contains, ihc h.1, ihl h.2.1, ihr h.2.2]
    rfl
  | intrinsicCast operation type value ih =>
    rw [readTree, tree, CTree.call.injEq, List.cons.injEq, List.singleton_inj] at h
    rw [contains, ih h.2.2]
    rfl
  | usualIntrinsic operation operands ih =>
    rw [readTree, tree, CTree.call.injEq] at h
    rw [contains, hmap h.2 ih]
    rfl
  | _ => rfl

end Expression

/-! ## The text is read back -/

section ReadBack

variable {names : TypeNames} {e : Expression} (hwf : e.isWellFormed names = true)
include hwf

theorem lex_text (hglue : e.contains gluesMinus = false) :
    lex e.text = some (tokens (emitBody e)) := by
  rw [text, lex_emitExpression hwf hglue, emitExpression, e.parenthesize_parentheses]

/-- The tree that is read when no token is lost and no ternary expression is cut short. -/
theorem yields_readTree (hglue : e.contains gluesMinus = false)
    (hternary : e.contains assignsInTernary = false) :
    Yields (fun fuel => names.read fuel e.text) e.readTree := by
  have hbody := readsBody hwf hternary
  have hlevel := hbody.reads.lower e.level_pos.1 e.level_pos.2
  have hyields : Yields (fun k => names.parseLevel k 1 (tokens (emitBody e) ++ []))
      (e.readTree, e.isUnary, []) := hlevel.reads.yields fun _ h => nomatch h
  rw [List.append_nil] at hyields
  have hparse : Yields (fun k => names.parseExpression k (tokens (emitBody e))) e.readTree :=
    hyields.bind (h := fun (x : CTree × Bool × List Token) _ =>
      if x.2.2 = [] then some x.1 else none) ⟨0, fun _ _ => rfl⟩
  simpa only [TypeNames.read, lex_text hwf hglue, Option.bind_some] using hparse

/-- Nothing is read when a ternary expression ends in an assignment. -/
theorem not_yields_of_assignsInTernary (hglue : e.contains gluesMinus = false)
    (hternary : e.contains assignsInTernary = true) (t : CTree) :
    ¬Yields (fun fuel => names.read fuel e.text) t := by
  intro hread
  simp only [TypeNames.read, lex_text hwf hglue, Option.bind_some] at hread
  obtain ⟨x, hx, hrest⟩ := Yields.exists_of_bind
    (TypeNames.growing_level 1 (tokens (emitBody e)))
    (h := fun (x : CTree × Bool × List Token) _ => if x.2.2 = [] then some x.1 else none)
    (fun _ => growing_const _) hread
  have hjams := ((stops hwf).body hternary).jams.lower e.level_pos.1 e.level_pos.2
  rw [← List.append_nil (tokens (emitBody e))] at hx
  obtain ⟨-, -, hequals⟩ := hjams.jams [] x hx
  have hne : x.2.2 ≠ [] := by
    intro hnil
    rw [hnil] at hequals
    cases hequals
  rw [if_neg hne] at hrest
  exact not_yields_none hrest

theorem ReadsBack.isPlain (h : ReadsBack names e) : e.IsPlain := by
  have hglue : e.contains gluesMinus = false := by
    rw [Bool.eq_false_iff]
    intro hglue
    obtain ⟨n, hn⟩ := h
    obtain ⟨ts, hlex, hparse⟩ := Option.bind_eq_some_iff.mp (hn n (Nat.le_refl n))
    rw [text, emitExpression, e.parenthesize_parentheses] at hlex
    exact tree_ne_of_gluesMinus hwf hglue hlex hparse rfl
  have hternary : e.contains assignsInTernary = false := by
    rw [Bool.eq_false_iff]
    exact fun hternary => not_yields_of_assignsInTernary hwf hglue hternary _ h
  exact ⟨hglue, contains_splitsArgument ((yields_readTree hwf hglue hternary).unique h), hternary⟩

/-- The text is read back exactly when the parentheses and the spaces are enough. -/
theorem readsBack_iff_isPlain : ReadsBack names e ↔ e.IsPlain := by
  refine ⟨ReadsBack.isPlain hwf, fun h => ?_⟩
  have hyields := yields_readTree hwf h.glues h.assigns
  rwa [readTree_eq_tree h.splits] at hyields

end ReadBack

/-! ## Expressions that are not read back -/

/-- The names of types when there is one primitive type. -/
def intNames : TypeNames where
  isType w := w = "const".toList || w = "int32_t".toList || "pointer".toList.isPrefixOf w
  isType_const := by decide
  isType_foreignPointer size := by
    rw [Bool.or_eq_true, List.isPrefixOf_iff_prefix]
    exact .inr (List.prefix_append _ _)
  isType_intrinsic operation := rfl
  isType_macros := by decide

/-- `a ? b : c` of words is read back. -/
theorem readsBack_iff_isPlain_ternary :
    (Expression.ternary (.identifier ['a']) (.identifier ['b']) (.identifier ['c'])).isWellFormed
      intNames = true ∧
    ReadsBack intNames (.ternary (.identifier ['a']) (.identifier ['b']) (.identifier ['c'])) :=
  ⟨by decide, (readsBack_iff_isPlain (by decide)).mpr ⟨by decide, by decide, by decide⟩⟩

/-- `bit_cast(int32_t, a, b)` has three arguments. -/
def bitCastOfComma : Expression :=
  .bitCast (.named false "int32_t".toList)
    (.infixOp .comma (.identifier ['a']) (.identifier ['b']))

/-- `--a` is a decrement. -/
def negationOfNegation : Expression :=
  .prefixOp .neg (.implicitCast (.prefixOp .neg (.identifier ['a'])))

/-- `a ? b : c = d` is no expression of C. -/
def ternaryOfAssignment : Expression :=
  .ternary (.identifier ['a']) (.identifier ['b'])
    (.infixOp .assign (.identifier ['c']) (.identifier ['d']))

/-- Each of the three kinds is enough. -/
theorem not_readsBack :
    (bitCastOfComma.isWellFormed intNames = true ∧ ¬ReadsBack intNames bitCastOfComma) ∧
    (negationOfNegation.isWellFormed intNames = true ∧
      ¬ReadsBack intNames negationOfNegation) ∧
    (ternaryOfAssignment.isWellFormed intNames = true ∧
      ¬ReadsBack intNames ternaryOfAssignment) := by
  have hbitCast : bitCastOfComma.isWellFormed intNames = true := by decide
  have hnegation : negationOfNegation.isWellFormed intNames = true := by decide
  have hternary : ternaryOfAssignment.isWellFormed intNames = true := by decide
  exact ⟨⟨hbitCast, fun h => absurd (h.isPlain hbitCast).splits (by decide)⟩,
    ⟨hnegation, fun h => absurd (h.isPlain hnegation).glues (by decide)⟩,
    ⟨hternary, fun h => absurd (h.isPlain hternary).assigns (by decide)⟩⟩

end CliftEmitC

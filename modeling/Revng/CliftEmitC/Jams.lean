import Revng.CliftEmitC.ReadBack

/-!
# Texts that the grammar does not read

A larger bound on the depth never changes a result (`TypeNames.grows`), so a rule of the grammar can
be read backwards.

A ternary expression whose last operand is an assignment is read only up to the `=`, and nothing
that contains it can go on there (`Jams`).
-/

namespace CliftEmitC

/-! ## Larger bounds -/

/-- Every result of the first is one of the second. -/
def Extends {α : Type} (a b : Option α) : Prop := ∀ x, a = some x → b = some x

namespace Extends

variable {α β : Type} {a b c d : Option α}

theorem refl (a : Option α) : Extends a a := fun _ h => h

theorem none (b : Option α) : Extends Option.none b := fun _ h => nomatch h

theorem bind {f g : α → Option β} (h : Extends a b) (hf : ∀ x, Extends (f x) (g x)) :
    Extends (a.bind f) (b.bind g) := by
  intro y hy
  obtain ⟨x, hx, hfx⟩ := Option.bind_eq_some_iff.mp hy
  exact Option.bind_eq_some_iff.mpr ⟨x, h x hx, hf x y hfx⟩

theorem ite {p : Prop} [Decidable p] (h : Extends a b) (h' : Extends c d) :
    Extends (if p then a else c) (if p then b else d) := by
  split
  · exact h
  · exact h'

end Extends

namespace TypeNames

variable {names : TypeNames}

/-- The results with a bound stay with the next one. -/
structure Grows (names : TypeNames) (k : Nat) : Prop where
  level : ∀ n text, Extends (names.parseLevel k n text) (names.parseLevel (k + 1) n text)
  unary : ∀ text, Extends (names.parseUnary k text) (names.parseUnary (k + 1) text)
  primary : ∀ text, Extends (names.parsePrimary k text) (names.parsePrimary (k + 1) text)
  tail : ∀ n tree isUnary text, Extends (names.parseTail k n tree isUnary text)
    (names.parseTail (k + 1) n tree isUnary text)
  arguments : ∀ closing text, Extends (names.parseArguments k closing text)
    (names.parseArguments (k + 1) closing text)
  more : ∀ closing text, Extends (names.parseMoreArguments k closing text)
    (names.parseMoreArguments (k + 1) closing text)
  argument : ∀ text, Extends (names.parseArgument k text) (names.parseArgument (k + 1) text)

theorem grows (k : Nat) : Grows names k := by
  induction k with
  | zero =>
    exact ⟨fun _ _ => .none _, fun _ => .none _, fun _ => .none _, fun _ _ _ _ => .none _,
      fun _ _ => .none _, fun _ _ => .none _, fun _ => .none _⟩
  | succ k ih =>
    refine ⟨fun n text => ?_, fun text => ?_, fun text => ?_, fun n tree isUnary text => ?_,
      fun closing text => ?_, fun closing text => ?_, fun text => ?_⟩
    · rw [parseLevel, parseLevel]
      exact .ite (.bind (ih.level _ _) fun _ => ih.tail _ _ _ _)
        (.ite (ih.unary _) (.bind (ih.primary _) fun _ => ih.tail _ _ _ _))
    · cases text with
      | nil => exact ih.level _ _
      | cons t text =>
        cases t with
        | punctuator p =>
          by_cases hp : p = .leftParenthesis
          · subst hp
            rw [parseUnary, parseUnary]
            rcases parseTypeName 0 text with ⟨type, rest⟩
            exact .ite (.bind (.refl _) fun _ => .ite (ih.level _ _)
              (.bind (ih.level _ _) fun _ => .refl _)) (ih.level _ _)
          · rw [parseUnary, parseUnary]
            · exact .ite (.bind (ih.level _ _) fun _ => .refl _) (.refl _)
            · exact hp
            · exact hp
        | _ => exact ih.level _ _
    · cases text with
      | nil => exact .refl _
      | cons t text =>
        cases t with
        | punctuator p =>
          by_cases hp : p = .leftParenthesis
          · subst hp
            rw [parsePrimary, parsePrimary]
            rcases parseTypeName 0 text with ⟨type, rest⟩
            exact .ite (.bind (.refl _) fun _ => .bind (.refl _) fun _ =>
              .bind (ih.arguments _ _) fun _ => .refl _)
              (.bind (ih.level _ _) fun _ => .refl _)
          · cases p <;> first | exact .refl _ | exact absurd rfl hp
        | _ => exact .refl _
    · cases text with
      | nil => exact .refl _
      | cons t text =>
        cases t with
        | punctuator p =>
          rw [parseTail, parseTail]
          exact .ite (.bind (ih.level _ _) fun _ => ih.tail _ _ _ _)
            (.ite (.bind (ih.level _ _) fun _ => .refl _)
            (.ite (.bind (ih.level _ _) fun _ => .bind (.refl _) fun _ =>
              .bind (ih.level _ _) fun _ => .refl _)
            (.ite (.bind (ih.level _ _) fun _ => .bind (.refl _) fun _ => ih.tail _ _ _ _)
            (.ite (.bind (ih.arguments _ _) fun _ => ih.tail _ _ _ _)
            (.ite (.bind (.refl _) fun _ => ih.tail _ _ _ _)
            (.ite (ih.tail _ _ _ _) (.refl _)))))))
        | _ => exact .refl _
    · rw [parseArguments, parseArguments]
      exact .ite (.refl _) (ih.more _ _)
    · rw [parseMoreArguments, parseMoreArguments]
      exact .bind (ih.argument _) fun _ => .ite (.bind (ih.more _ _) fun _ => .refl _) (.refl _)
    · rw [parseArgument, parseArgument]
      exact .ite (.refl _) (.bind (ih.level _ _) fun _ => .refl _)

end TypeNames

def Growing {α : Type} (f : Nat → Option α) : Prop := ∀ k, Extends (f k) (f (k + 1))

section Growing

variable {α β : Type} {f g : Nat → Option α} {a : α}

theorem Growing.yields (h : Growing f) {k : Nat} (hk : f k = some a) : Yields f a := by
  refine ⟨k, fun m hm => ?_⟩
  induction hm with
  | refl => exact hk
  | step hm ih => exact h _ _ ih

theorem growing_const (b : Option α) : Growing fun _ => b := fun _ => .refl b

/-- What the second computation gives is for a result of the first one. -/
theorem Yields.exists_of_bind {h : α → Nat → Option β} {b : β} (hg : Growing g)
    (hh : ∀ x, Growing (h x)) (hb : Yields (fun k => (g k).bind fun x => h x k) b) :
    ∃ x, Yields g x ∧ Yields (h x) b := by
  obtain ⟨n, hn⟩ := hb
  obtain ⟨x, hx, hxb⟩ := Option.bind_eq_some_iff.mp (hn n (Nat.le_refl n))
  exact ⟨x, hg.yields hx, (hh x).yields hxb⟩

theorem not_yields_none : ¬Yields (fun _ => (none : Option α)) a := by
  rintro ⟨n, hn⟩
  exact nomatch hn n (Nat.le_refl n)

end Growing

namespace TypeNames

variable {names : TypeNames} {n : Nat} {text : List Token} {tree : CTree} {isUnary : Bool}

theorem growing_level (n : Nat) (text : List Token) :
    Growing fun k => names.parseLevel k n text := fun k => (grows k).level n text

theorem growing_tail (n : Nat) (tree : CTree) (isUnary : Bool) (text : List Token) :
    Growing fun k => names.parseTail k n tree isUnary text :=
  fun k => (grows k).tail n tree isUnary text

/-! ## Jams -/

/-- The tokens are read up to an `=` that does not belong to them, below level 4, or not at all. -/
def Jams (names : TypeNames) (n : Nat) (text : List Token) : Prop :=
  ∀ rest x, Yields (fun k => names.parseLevel k n (text ++ rest)) x →
    n ≤ 3 ∧ x.2.1 = false ∧ x.2.2.head? = some (.punctuator .equals)

structure JamsAs (names : TypeNames) (n : Nat) (text : List Token) : Prop where
  jams : names.Jams n text
  passes : n = 15 → names.Passes text

/-- No level goes on at an `=` after what is not a unary expression. -/
theorem parseTail_equals (n : Nat) (tree : CTree) {rest : List Token}
    (h : rest.head? = some (.punctuator .equals)) (k : Nat) :
    names.parseTail (k + 1) n tree false rest = some (tree, false, rest) := by
  by_cases hn : n = 2
  · subst hn
    cases rest with
    | nil => cases h
    | cons t rest =>
      cases h
      rfl
  · refine parseTail_of_ne (fun p hp hcontinuation => ?_) k
    rw [h] at hp
    cases hp
    cases hcontinuation
    exact hn rfl

theorem eq_of_yields_equals {x : CTree × Bool × List Token} {rest : List Token}
    (h : rest.head? = some (.punctuator .equals))
    (hx : Yields (fun k => names.parseTail k n tree false rest) x) : x = (tree, false, rest) :=
  hx.unique (.of_some (parseTail_equals n tree h))

theorem expect_equals {p : Punctuator} (hp : p ≠ .equals) {rest : List Token}
    (h : rest.head? = some (.punctuator .equals)) : expect p rest = none := by
  cases rest with
  | nil => cases h
  | cons t rest =>
    cases h
    rw [expect, if_neg hp.symm]

theorem exists_of_parseLevel {x : CTree × Bool × List Token} (hn : n < 14)
    (h : Yields (fun k => names.parseLevel k n text) x) :
    ∃ y, Yields (fun k => names.parseLevel k (n + 1) text) y ∧
      Yields (fun k => names.parseTail k n y.1 y.2.1 y.2.2) x := by
  refine Yields.exists_of_bind (growing_level _ _) (fun y => growing_tail _ _ _ _)
    ((Same.of_succ fun k => ?_) x |>.mp h)
  rw [parseLevel, if_pos hn]
  rfl

theorem JamsAs.pred (hn : n < 15) (h : names.JamsAs (n + 1) text) : names.JamsAs n text := by
  by_cases hfourteen : n = 14
  · subst hfourteen
    refine ⟨fun rest x hx => ?_, fun h => nomatch h⟩
    have hunary := (parseLevel_fourteen_same _ x).mp hx
    have hlevel := (Same.of_succ (fun k => h.passes rfl k rest) x).mp hunary
    exact absurd (h.jams rest x hlevel).1 (by decide)
  · refine ⟨fun rest x hx => ?_, fun hfifteen => absurd hfifteen (by omega)⟩
    obtain ⟨⟨tree, isUnary, left⟩, hy, htail⟩ := exists_of_parseLevel (by omega) hx
    obtain ⟨hle, hfalse, hequals⟩ := h.jams rest _ hy
    subst hfalse
    rw [eq_of_yields_equals hequals htail]
    exact ⟨by omega, rfl, hequals⟩

theorem JamsAs.lower {m : Nat} (h : names.JamsAs m text) (hn : n ≤ m) (hm : m ≤ 15) :
    names.JamsAs n text := by
  induction hn with
  | refl => exact h
  | step hle ih =>
    rw [Nat.succ_eq_add_one] at h hm
    exact ih (h.pred (by omega)) (by omega)

/-- More tokens do not help. -/
theorem JamsAs.append (h : names.JamsAs n text) (more : List Token) :
    names.JamsAs n (text ++ more) := by
  refine ⟨fun rest x hx => ?_, fun hn k rest => ?_⟩
  · rw [List.append_assoc] at hx
    exact h.jams _ x hx
  · rw [List.append_assoc]
    exact h.passes hn k _

/-! ## What a jam makes fail -/

theorem jams_fourteen (h : ∀ rest x, ¬Yields (fun k => names.parseUnary k (text ++ rest)) x) :
    names.JamsAs 14 text :=
  ⟨fun rest x hx => absurd ((parseLevel_fourteen_same _ x).mp hx) (h rest x), fun h => nomatch h⟩

theorem jams_primary (h : ∀ rest x, ¬Yields (fun k => names.parsePrimary k (text ++ rest)) x)
    (hpasses : names.Passes text) : names.JamsAs 15 text := by
  refine ⟨fun rest x hx => ?_, fun _ => hpasses⟩
  obtain ⟨y, hy, -⟩ := Yields.exists_of_bind (h := fun y k => names.parseTail k 15 y.1 true y.2)
    (fun k => (grows k).primary (text ++ rest)) (fun y => growing_tail _ _ _ _)
    ((Same.of_succ (fun k => by
      rw [parseLevel, if_neg (by decide), if_neg (by decide)]
      rfl) x).mp hx)
  exact absurd hy (h rest y)

/-- A closing bracket does not come after a jam. -/
theorem not_yields_expect {β : Type} {p : Punctuator} (hp : p ≠ .equals) (h : names.Jams n text)
    (rest : List Token) {f : CTree × Bool × List Token → List Token → Nat → Option β}
    (hf : ∀ x rest, Growing (f x rest)) (b : β) :
    ¬Yields (fun k => (names.parseLevel k n (text ++ rest)).bind fun x =>
      (expect p x.2.2).bind fun rest => f x rest k) b := by
  intro hb
  obtain ⟨x, hx, hy⟩ := Yields.exists_of_bind (growing_level n _)
    (h := fun x k => (expect p x.2.2).bind fun rest => f x rest k)
    (fun x k => .bind (.refl _) fun rest => hf x rest k) hb
  obtain ⟨-, -, hequals⟩ := h rest x hx
  rw [expect_equals hp hequals] at hy
  exact not_yields_none hy

theorem jams_parentheses (h : names.JamsAs 1 text)
    (hstart : ∀ rest, names.startsType (text ++ rest) = false) :
    names.JamsAs 15
      (.punctuator .leftParenthesis :: (text ++ [.punctuator .rightParenthesis])) := by
  refine jams_primary (fun rest x hx => ?_) fun k rest => ?_
  · rw [List.cons_append, List.append_assoc] at hx
    refine not_yields_expect (by decide) h.jams ([.punctuator .rightParenthesis] ++ rest)
      (p := .rightParenthesis)
      (f := fun x rest _ => some (x.1, rest)) (fun _ _ => growing_const _) x
      ((Same.of_succ (fun k => ?_) x).mp hx)
    rw [parsePrimary, hstart, if_neg Bool.false_ne_true]
    rfl
  · rw [List.cons_append, List.append_assoc, parseUnary, hstart, if_neg Bool.false_ne_true]

/-- Nothing is read at level 14 after a jam. -/
theorem not_yields_fourteen {β : Type} (h : names.JamsAs 14 text) (rest : List Token)
    {f : CTree × Bool × List Token → Option β} (b : β) :
    ¬Yields (fun k => (names.parseLevel k 14 (text ++ rest)).bind f) b := by
  intro hb
  obtain ⟨x, hx, -⟩ := Yields.exists_of_bind (growing_level 14 _) (h := fun x _ => f x)
    (fun _ => growing_const _) hb
  exact absurd (h.jams rest x hx).1 (by decide)

theorem jams_prefixOp (h : names.JamsAs 14 text) {op : Punctuator}
    (hop : isPrefixOperator op = true) : names.JamsAs 14 (.punctuator op :: text) := by
  refine jams_fourteen fun rest x hx => not_yields_fourteen h rest
    (f := fun x => if (op = .plusPlus ∨ op = .minusMinus) ∧ x.2.1 = false then none
      else some (.prefixOp op x.1, true, x.2.2)) x ((Same.of_succ (fun k => ?_) x).mp hx)
  rw [List.cons_append, parseUnary, if_pos hop]
  · rfl
  · rintro rfl
    cases hop

theorem jams_cast {type : CType} (htype : names.isTypeWellNamed type = true)
    (h : names.JamsAs 14 text)
    (hbrace : ∀ rest, (text ++ rest).head? ≠ some (.punctuator .leftBrace)) :
    names.JamsAs 14
      (.punctuator .leftParenthesis :: (tokens (emitType type) ++
        .punctuator .rightParenthesis :: text)) := by
  refine jams_fourteen fun rest x hx => not_yields_fourteen h rest
    (f := fun x => some (.cast (tokens (emitType type)) x.1, false, x.2.2)) x
    ((Same.of_succ (fun k => ?_) x).mp hx)
  rw [List.cons_append, List.append_assoc, List.cons_append, parseUnary,
    startsType_emitType htype, if_pos rfl, parseTypeName_emitType type (.inr rfl)]
  show (if (text ++ rest).head? = some (.punctuator .leftBrace) then _ else _) = _
  rw [if_neg (hbrace rest)]
  rfl

/-- The right operand of an operator that groups to the left. -/
theorem jams_infixOp {op : Punctuator} (hop : infixLevel op = some n)
    (h : names.ReadsAs n text tree isUnary) {text' : List Token}
    (h' : names.JamsAs (n + 1) text') : names.JamsAs n (text ++ .punctuator op :: text') := by
  have hn : n ≠ 15 ∧ n ≠ 2 ∧ n ≠ 3 := by
    cases op <;> cases hop <;> decide
  refine ⟨fun rest x hx => ?_, fun hfifteen => absurd hfifteen hn.1⟩
  rw [List.append_assoc, List.cons_append] at hx
  have htail := (h.reads _ (fun p hp m hm => by
    cases hp
    rw [continuation_of_infixLevel hop, Option.some.injEq] at hm
    exact .inr ⟨hm.symm, hn.2⟩) x).mp hx
  obtain ⟨⟨right, isUnary', left⟩, hy, hx⟩ := Yields.exists_of_bind
    (growing_level (n + 1) (text' ++ rest))
    (h := fun y k => names.parseTail k n (.infixOp op tree y.1) false y.2.2)
    (fun y => growing_tail _ _ _ _) ((Same.of_succ (fun k => by
      rw [parseTail, if_pos hop]
      rfl) x).mp htail)
  obtain ⟨hle, -, hequals⟩ := h'.jams rest _ hy
  rw [eq_of_yields_equals hequals hx]
  exact ⟨by omega, rfl, hequals⟩

theorem jams_assign (h : names.ReadsAs 3 text tree true) {text' : List Token}
    (h' : names.JamsAs 2 text') : names.JamsAs 2 (text ++ .punctuator .equals :: text') := by
  refine ⟨fun rest x hx => ?_, fun h => nomatch h⟩
  rw [List.append_assoc, List.cons_append] at hx
  have htail := (parseLevel_same (by decide) (h.yields_before (fun m hm => by
    cases hm
    decide) (text' ++ rest)) x).mp hx
  have hright : Yields (fun k => (names.parseLevel k 2 (text' ++ rest)).bind fun y =>
      some (CTree.infixOp .equals tree y.1, false, y.2.2)) x :=
    (Same.of_succ (fun k => rfl) x).mp htail
  obtain ⟨y, hy, hx⟩ := Yields.exists_of_bind (growing_level 2 (text' ++ rest))
    (h := fun (y : CTree × Bool × List Token) _ =>
      some (CTree.infixOp .equals tree y.1, false, y.2.2)) (fun y => growing_const _) hright
  obtain ⟨-, -, hequals⟩ := h'.jams rest y hy
  rw [← Yields.unique ⟨0, fun _ _ => rfl⟩ hx]
  exact ⟨by decide, rfl, hequals⟩

section Ternary

variable (h : names.ReadsAs 4 text tree isUnary)
include h

theorem parseLevel_three_same (next : List Token) :
    Same (fun k => names.parseLevel k 3 (text ++ .punctuator .question :: next))
      fun k => names.parseTail k 3 tree isUnary (.punctuator .question :: next) :=
  parseLevel_same (by decide) (h.yields_before (fun m hm => by
    cases hm
    decide) next)

theorem jams_ternary_lhs {lhs : List Token} (hlhs : names.JamsAs 1 lhs) (more : List Token) :
    names.JamsAs 3 (text ++ .punctuator .question :: (lhs ++ more)) := by
  refine ⟨fun rest x hx => ?_, fun h => nomatch h⟩
  rw [List.append_assoc, List.cons_append, List.append_assoc] at hx
  refine absurd ((Same.of_succ (fun k => rfl) x).mp ((parseLevel_three_same h _ x).mp hx))
    (not_yields_expect (by decide) hlhs.jams _ (p := .colon)
      (f := fun y next k => (names.parseLevel k 3 next).bind fun z =>
        some (CTree.ternary tree y.1 z.1, false, z.2.2)) (fun _ _ k => ?_) x)
  exact .bind (growing_level 3 _ k) fun _ => .refl _

theorem jams_ternary_rhs {lhs rhs : List Token} {lhsTree : CTree} {isUnaryLhs : Bool}
    (hlhs : names.ReadsAs 1 lhs lhsTree isUnaryLhs)
    (hrhs : ∀ rest x, Yields (fun k => names.parseLevel k 3 (rhs ++ rest)) x →
      x.2.2.head? = some (.punctuator .equals)) :
    names.JamsAs 3 (text ++ .punctuator .question :: (lhs ++ .punctuator .colon :: rhs)) := by
  refine ⟨fun rest x hx => ?_, fun h => nomatch h⟩
  rw [List.append_assoc, List.cons_append, List.append_assoc, List.cons_append] at hx
  have htail := (Same.of_succ (fun k => rfl) x).mp ((parseLevel_three_same h _ x).mp hx)
  have hright := (Same.bind (hlhs.yields_before (p := .colon) (fun m hm => nomatch hm)
    (rhs ++ rest)) (h := fun (y : CTree × Bool × List Token) k =>
      (expect .colon y.2.2).bind fun next => (names.parseLevel k 3 next).bind fun z =>
        some (CTree.ternary tree y.1 z.1, false, z.2.2)) x).mp htail
  obtain ⟨z, hz, hx⟩ := Yields.exists_of_bind (growing_level 3 (rhs ++ rest))
    (h := fun (z : CTree × Bool × List Token) _ =>
      some (CTree.ternary tree lhsTree z.1, false, z.2.2)) (fun z => growing_const _) hright
  rw [← Yields.unique ⟨0, fun _ _ => rfl⟩ hx]
  exact ⟨by decide, rfl, hrhs rest z hz⟩

end Ternary

/-! ### Brackets -/

theorem jams_subscript (h : names.ReadsAs 15 text tree isUnary) {index : List Token}
    (hindex : names.JamsAs 1 index) (more : List Token) :
    names.JamsAs 15 (text ++ (.punctuator .leftBracket :: (index ++ more))) := by
  refine ⟨fun rest x hx => ?_, fun _ k rest => ?_⟩
  · rw [List.append_assoc, List.cons_append, List.append_assoc] at hx
    have htail := (Same.of_succ (fun k => rfl) x).mp ((h.reads _ (quiet_fifteen _) x).mp hx)
    exact absurd htail (not_yields_expect (by decide) hindex.jams (more ++ rest)
      (p := .rightBracket) (f := fun y next k =>
        names.parseTail k 15 (.subscript tree y.1) true next) (fun _ _ => growing_tail _ _ _ _) x)
  · rw [List.append_assoc]
    exact h.passes rfl k _

/-- No list of arguments begins with the tokens. -/
def NoArguments (names : TypeNames) (closing : Punctuator) (text : List Token) : Prop :=
  ∀ rest x, ¬Yields (fun k => names.parseMoreArguments k closing (text ++ rest)) x

theorem NoArguments.append {closing : Punctuator} (h : names.NoArguments closing text)
    (more : List Token) : names.NoArguments closing (text ++ more) := by
  intro rest x hx
  rw [List.append_assoc] at hx
  exact h _ x hx

theorem not_yields_parseArguments {closing : Punctuator} (h : names.NoArguments closing text)
    (hne : ∀ rest, (text ++ rest).head? ≠ some (.punctuator closing)) (rest : List Token)
    (x : List CTree × List Token) :
    ¬Yields (fun k => names.parseArguments k closing (text ++ rest)) x := by
  intro hx
  refine h rest x ((Same.of_succ (fun k => ?_) x).mp hx)
  rw [parseArguments, if_neg (hne rest)]

theorem jams_call (h : names.ReadsAs 15 text tree isUnary) {arguments : List Token}
    (harguments : names.NoArguments .rightParenthesis arguments)
    (hne : ∀ rest, (arguments ++ rest).head? ≠ some (.punctuator .rightParenthesis))
    (more : List Token) :
    names.JamsAs 15 (text ++ (.punctuator .leftParenthesis :: (arguments ++ more))) := by
  refine ⟨fun rest x hx => ?_, fun _ k rest => ?_⟩
  · rw [List.append_assoc, List.cons_append, List.append_assoc] at hx
    have htail : Yields (fun k => (names.parseArguments k .rightParenthesis
        (arguments ++ (more ++ rest))).bind fun y =>
          names.parseTail k 15 (.call tree y.1) true y.2) x :=
      (Same.of_succ (fun k => rfl) x).mp ((h.reads _ (quiet_fifteen _) x).mp hx)
    obtain ⟨y, hy, -⟩ := Yields.exists_of_bind
      (fun k => (grows k).arguments .rightParenthesis (arguments ++ (more ++ rest)))
      (h := fun (y : List CTree × List Token) k => names.parseTail k 15 (.call tree y.1) true y.2)
      (fun _ => growing_tail _ _ _ _) htail
    exact absurd hy (not_yields_parseArguments harguments hne _ y)
  · rw [List.append_assoc]
    exact h.passes rfl k _

theorem jams_compound {type : CType} (htype : names.isTypeWellNamed type = true)
    {initializers : List Token} (hinitializers : names.NoArguments .rightBrace initializers)
    (hne : ∀ rest, (initializers ++ rest).head? ≠ some (.punctuator .rightBrace))
    (more : List Token) :
    names.JamsAs 15
      (.punctuator .leftParenthesis :: (tokens (emitType type) ++
        .punctuator .rightParenthesis :: .punctuator .leftBrace :: (initializers ++ more))) := by
  refine jams_primary (fun rest x hx => ?_) fun k rest => ?_
  · rw [List.cons_append, List.append_assoc, List.cons_append, List.cons_append,
      List.append_assoc] at hx
    have hprimary : Yields (fun k => (names.parseArguments k .rightBrace
        (initializers ++ (more ++ rest))).bind fun y =>
          some (CTree.compound (tokens (emitType type)) y.1, y.2)) x := by
      refine (Same.of_succ (fun k => ?_) x).mp hx
      rw [parsePrimary, startsType_emitType htype, if_pos rfl,
        parseTypeName_emitType type (.inr rfl)]
      rfl
    obtain ⟨y, hy, -⟩ := Yields.exists_of_bind
      (fun k => (grows k).arguments .rightBrace (initializers ++ (more ++ rest)))
      (h := fun (y : List CTree × List Token) _ =>
        some (CTree.compound (tokens (emitType type)) y.1, y.2))
      (fun _ => growing_const _) hprimary
    exact not_yields_parseArguments hinitializers hne _ y hy
  · rw [List.cons_append, List.append_assoc, List.cons_append, List.cons_append, List.append_assoc,
      parseUnary, startsType_emitType htype, if_pos rfl, parseTypeName_emitType type (.inr rfl)]
    rfl

theorem parseMoreArguments_same (closing : Punctuator) (text : List Token) :
    Same (fun k => names.parseMoreArguments k closing text) fun k =>
      (names.parseArgument k text).bind fun x =>
        if x.2.head? = some (.punctuator .comma) then
          (names.parseMoreArguments k closing x.2.tail).bind fun y => some (x.1 :: y.1, y.2)
        else (expect closing x.2).bind fun rest => some ([x.1], rest) :=
  .of_succ fun k => by
    rw [parseMoreArguments]
    rfl

section Arguments

variable {closing : Punctuator}

theorem growing_moreArguments (closing : Punctuator) (x : CTree × List Token) :
    Growing fun k => if x.2.head? = some (.punctuator .comma) then
        (names.parseMoreArguments k closing x.2.tail).bind fun y => some (x.1 :: y.1, y.2)
      else (expect closing x.2).bind fun rest => some ([x.1], rest) := fun k =>
  .ite (.bind ((grows k).more _ _) fun _ => .refl _) (.refl _)

/-- An argument that jams. -/
theorem noArguments_of_jams (hclosing : closing ≠ .equals) (h : names.JamsAs 2 text)
    (hstart : ∀ rest, names.startsType (text ++ rest) = false) :
    names.NoArguments closing text := by
  intro rest x hx
  obtain ⟨y, hy, hx⟩ := Yields.exists_of_bind (fun k => (grows k).argument (text ++ rest))
    (fun y => growing_moreArguments closing y) ((parseMoreArguments_same closing _ x).mp hx)
  have hlevel : Yields (fun k => (names.parseLevel k 2 (text ++ rest)).bind fun z =>
      some (z.1, z.2.2)) y := by
    refine (Same.of_succ (fun k => ?_) y).mp hy
    rw [parseArgument, hstart, if_neg Bool.false_ne_true]
    rfl
  obtain ⟨z, hz, hy⟩ := Yields.exists_of_bind (growing_level 2 _)
    (h := fun (z : CTree × Bool × List Token) _ => some (z.1, z.2.2))
    (fun _ => growing_const _) hlevel
  obtain ⟨-, -, hequals⟩ := h.jams rest z hz
  have hy : y = (z.1, z.2.2) := (Yields.unique ⟨0, fun _ _ => rfl⟩ hy).symm
  subst hy
  have hcomma : z.2.2.head? ≠ some (.punctuator .comma) := by
    rw [hequals]
    simp
  have hnone : Yields (fun _ => none) x := by
    simpa only [if_neg hcomma, expect_equals hclosing hequals, Option.bind_none] using hx
  exact not_yields_none hnone

/-- An argument before one that jams. -/
theorem noArguments_cons (h : names.ReadsArgument closing text tree) {more : List Token}
    (hmore : names.NoArguments closing more) :
    names.NoArguments closing (text ++ .punctuator .comma :: more) := by
  intro rest x hx
  rw [List.append_assoc, List.cons_append] at hx
  have hright : Yields (fun k => (names.parseMoreArguments k closing (more ++ rest)).bind
      fun y => some (tree :: y.1, y.2)) x :=
    (Same.bind (h .comma (more ++ rest) (.inl rfl)) x).mp
      ((parseMoreArguments_same closing _ x).mp hx)
  obtain ⟨y, hy, -⟩ := Yields.exists_of_bind (fun k => (grows k).more closing (more ++ rest))
    (h := fun (y : List CTree × List Token) _ => some (tree :: y.1, y.2))
    (fun _ => growing_const _) hright
  exact hmore rest y hy

end Arguments

/-- A macro of a type and of an argument that jams. -/
theorem jams_macro {type : CType} (htype : names.isTypeWellNamed type = true) (name : Text)
    {argument : List Token} (hargument : names.NoArguments .rightParenthesis argument)
    (more : List Token) :
    names.JamsAs 15 (.word name :: .punctuator .leftParenthesis ::
      (tokens (emitType type) ++ (.punctuator .comma :: (argument ++ more)))) := by
  have harguments := noArguments_cons (readsArgument_type htype) hargument
  have hne (rest : List Token) : ((tokens (emitType type) ++ .punctuator .comma :: argument) ++
      rest).head? ≠ some (.punctuator .rightParenthesis) := by
    rw [List.append_assoc]
    exact head?_emitType_ne htype .rightParenthesis _
  have hcall := jams_call (reads_word name) harguments hne more
  rwa [List.append_assoc, List.cons_append] at hcall

end TypeNames

end CliftEmitC

import Revng.CliftEmitC.Grammar

/-!
# Reading with the grammar

`Reads n text tree` says that the tokens are read as the tree at a level, whatever comes after
them at that level.  What comes after must not belong to a higher level (`Quiet`).  One lemma for
each rule of the grammar builds these.

The bound on the depth does not matter once it is large enough (`Yields`).
-/

namespace CliftEmitC

/-! ## Large bounds -/

/-- The result for every bound that is large enough. -/
def Yields {α : Type} (f : Nat → Option α) (a : α) : Prop := ∃ n, ∀ k, n ≤ k → f k = some a

namespace Yields

variable {α β : Type} {f g : Nat → Option α} {a b : α}

theorem of_succ (h : ∀ k, f (k + 1) = g k) (hg : Yields g a) : Yields f a := by
  obtain ⟨n, hn⟩ := hg
  refine ⟨n + 1, fun k hk => ?_⟩
  obtain ⟨k, rfl⟩ : ∃ j, k = j + 1 := ⟨k - 1, by omega⟩
  rw [h]
  exact hn k (Nat.le_of_succ_le_succ hk)

theorem of_some (h : ∀ k, f (k + 1) = some a) : Yields f a :=
  of_succ (g := fun _ => some a) h ⟨0, fun _ _ => rfl⟩

theorem bind {h : α → Nat → Option β} {b : β} (hg : Yields g a) (hh : Yields (h a) b) :
    Yields (fun k => (g k).bind fun x => h x k) b := by
  obtain ⟨n, hn⟩ := hg
  obtain ⟨m, hm⟩ := hh
  refine ⟨max n m, fun k hk => ?_⟩
  show (g k).bind _ = _
  rw [hn k (Nat.le_trans (Nat.le_max_left n m) hk), Option.bind_some,
    hm k (Nat.le_trans (Nat.le_max_right n m) hk)]

theorem unique (ha : Yields f a) (hb : Yields f b) : a = b := by
  obtain ⟨n, hn⟩ := ha
  obtain ⟨m, hm⟩ := hb
  have heq := hn (max n m) (Nat.le_max_left n m)
  rw [hm _ (Nat.le_max_right n m)] at heq
  exact (Option.some.inj heq).symm

end Yields

theorem Yields.some {α : Type} (a : α) : Yields (fun _ => Option.some a) a := ⟨0, fun _ _ => rfl⟩

/-- The two give the same result, or neither gives one. -/
def Same {α : Type} (f g : Nat → Option α) : Prop := ∀ a, Yields f a ↔ Yields g a

namespace Same

variable {α β : Type} {f g g' : Nat → Option α}

theorem trans (h : Same f g) (h' : Same g g') : Same f g' := fun a => (h a).trans (h' a)

theorem of_succ (h : ∀ k, f (k + 1) = g k) : Same f g := by
  refine fun a => ⟨fun hf => ?_, Yields.of_succ h⟩
  obtain ⟨n, hn⟩ := hf
  refine ⟨n, fun k hk => ?_⟩
  rw [← h]
  exact hn (k + 1) (Nat.le_succ_of_le hk)

theorem bind {a : α} {h : α → Nat → Option β} (hg : Yields g a) :
    Same (fun k => (g k).bind fun x => h x k) (h a) := by
  refine fun b => ⟨fun hb => ?_, Yields.bind hg⟩
  obtain ⟨n, hn⟩ := hg
  obtain ⟨m, hm⟩ := hb
  refine ⟨max n m, fun k hk => ?_⟩
  have heq := hm k (Nat.le_trans (Nat.le_max_right n m) hk)
  simp only [hn k (Nat.le_trans (Nat.le_max_left n m) hk), Option.bind_some] at heq
  exact heq

theorem of_yields {a : α} (hf : Yields f a) (hg : Yields g a) : Same f g := by
  intro b
  constructor
  · intro hb
    rw [← hf.unique hb]
    exact hg
  · intro hb
    rw [← hg.unique hb]
    exact hf

end Same

/-! ## What may follow -/

/-- The level at which an operand goes on with a punctuator. -/
def continuation : Punctuator → Option Nat
  | .leftBracket | .leftParenthesis | .dot | .arrow | .plusPlus | .minusMinus => some 15
  | .question => some 3
  | .equals => some 2
  | p => infixLevel p

theorem continuation_of_infixLevel {p : Punctuator} {n : Nat} (h : infixLevel p = some n) :
    continuation p = some n := by
  cases p <;> first | cases h; done | exact h

theorem continuation_le {p : Punctuator} {n : Nat} (h : continuation p = some n) : n ≤ 15 := by
  cases p <;> cases h <;> decide

/-- No level above this one goes on, and neither does this one when it groups to the right. -/
def Quiet (n : Nat) (rest : List Token) : Prop :=
  ∀ p, rest.head? = some (.punctuator p) → ∀ m, continuation p = some m →
    m < n ∨ m = n ∧ n ≠ 2 ∧ n ≠ 3

theorem quiet_fifteen (rest : List Token) : Quiet 15 rest := fun _ _ m hm => by
  have := continuation_le hm
  omega

namespace TypeNames

variable {names : TypeNames} {n : Nat} {text rest : List Token} {tree : CTree} {isUnary : Bool}

/-- Nothing is read when the level does not go on. -/
theorem parseTail_of_ne
    (hn : ∀ p, rest.head? = some (.punctuator p) → continuation p ≠ some n) (fuel : Nat) :
    names.parseTail (fuel + 1) n tree isUnary rest = some (tree, isUnary, rest) := by
  cases rest with
  | nil => rfl
  | cons t rest =>
    cases t with
    | punctuator p =>
      have hnot := hn p rfl
      rw [parseTail, if_neg fun hinfix => hnot (continuation_of_infixLevel hinfix), if_neg,
        if_neg, if_neg, if_neg, if_neg, if_neg]
      · rintro ⟨rfl, rfl | rfl⟩ <;> exact hnot rfl
      · rintro ⟨rfl, rfl | rfl⟩ <;> exact hnot rfl
      · rintro ⟨rfl, rfl⟩
        exact hnot rfl
      · rintro ⟨rfl, rfl⟩
        exact hnot rfl
      · rintro ⟨rfl, rfl⟩
        exact hnot rfl
      · rintro ⟨rfl, rfl, -⟩
        exact hnot rfl
    | _ => rfl

theorem yields_parseTail (hn : ∀ p, rest.head? = some (.punctuator p) → continuation p ≠ some n) :
    Yields (fun k => names.parseTail k n tree isUnary rest) (tree, isUnary, rest) :=
  .of_some (parseTail_of_ne hn)

/-! ## Levels -/

/-- The tokens are read as the tree at the level, whatever follows. -/
def Reads (names : TypeNames) (n : Nat) (text : List Token) (tree : CTree) (isUnary : Bool) :
    Prop :=
  ∀ rest, Quiet n rest → Same (fun k => names.parseLevel k n (text ++ rest))
    fun k => names.parseTail k n tree isUnary rest

/-- The tokens begin neither with a prefix operator nor with a cast. -/
def Passes (names : TypeNames) (text : List Token) : Prop :=
  ∀ k rest, names.parseUnary (k + 1) (text ++ rest) = names.parseLevel k 15 (text ++ rest)

structure ReadsAs (names : TypeNames) (n : Nat) (text : List Token) (tree : CTree)
    (isUnary : Bool) : Prop where
  reads : names.Reads n text tree isUnary
  passes : n = 15 → names.Passes text

/-- What comes after belongs to a lower level. -/
def Below (n : Nat) (rest : List Token) : Prop :=
  ∀ p, rest.head? = some (.punctuator p) → ∀ m, continuation p = some m → m < n

theorem Below.quiet (h : Below n rest) : Quiet n rest := fun p hp m hm => .inl (h p hp m hm)

/-- Nothing follows at a level that groups to the right. -/
theorem below_of_quiet (h : Quiet n rest) (hn : n = 2 ∨ n = 3) : Below n rest :=
  fun p hp m hm => by
    have := h p hp m hm
    omega

theorem Below.ne (h : Below n rest) :
    ∀ p, rest.head? = some (.punctuator p) → continuation p ≠ some n := fun p hp hn =>
  Nat.lt_irrefl n (h p hp n hn)

theorem below_succ (h : Quiet n rest) : Below (n + 1) rest := fun p hp m hm => by
  have := h p hp m hm
  omega

theorem below_cons {p : Punctuator} (h : ∀ m, continuation p = some m → m < n) :
    Below n (.punctuator p :: rest) := by
  intro q hq m hm
  cases hq
  exact h m hm

/-- The whole of the tokens is read. -/
theorem Reads.yields (h : names.Reads n text tree isUnary) (hrest : Below n rest) :
    Yields (fun k => names.parseLevel k n (text ++ rest)) (tree, isUnary, rest) :=
  (h rest hrest.quiet _).mpr (yields_parseTail hrest.ne)

theorem parseLevel_same {next : List Token} (hn : n < 14)
    (hlevel : Yields (fun k => names.parseLevel k (n + 1) text) (tree, isUnary, next)) :
    Same (fun k => names.parseLevel k n text)
      fun k => names.parseTail k n tree isUnary next := by
  refine .trans (.of_succ fun k => ?_) (.bind hlevel (h := fun x k =>
    names.parseTail k n x.1 x.2.1 x.2.2))
  rw [parseLevel, if_pos hn]
  rfl

theorem parseLevel_fourteen_same (text : List Token) :
    Same (fun k => names.parseLevel k 14 text) fun k => names.parseUnary k text := by
  refine .of_succ fun k => ?_
  rw [parseLevel, if_neg (by decide), if_pos rfl]

theorem parseLevel_fifteen_same {next : List Token}
    (hprimary : Yields (fun k => names.parsePrimary k text) (tree, next)) :
    Same (fun k => names.parseLevel k 15 text)
      fun k => names.parseTail k 15 tree true next := by
  refine .trans (.of_succ fun k => ?_) (.bind hprimary (h := fun x k =>
    names.parseTail k 15 x.1 true x.2))
  rw [parseLevel, if_neg (by decide), if_neg (by decide)]
  rfl

theorem continuation_ne_fourteen (p : Punctuator) : continuation p ≠ some 14 := by
  cases p <;> decide

/-- At level 14 nothing can follow. -/
theorem reads_fourteen
    (h : ∀ rest, Quiet 14 rest →
      Yields (fun k => names.parseUnary k (text ++ rest)) (tree, isUnary, rest)) :
    names.ReadsAs 14 text tree isUnary := by
  refine ⟨fun rest hquiet => ?_, fun h => nomatch h⟩
  exact (parseLevel_fourteen_same _).trans (.of_yields (h rest hquiet)
    (yields_parseTail fun p _ => continuation_ne_fourteen p))

theorem ReadsAs.pred (hn : n < 15) (h : names.ReadsAs (n + 1) text tree isUnary) :
    names.ReadsAs n text tree isUnary := by
  by_cases hfourteen : n = 14
  · subst hfourteen
    refine reads_fourteen fun rest hquiet => ?_
    exact .of_succ (fun k => h.passes rfl k rest) (h.reads.yields (below_succ hquiet))
  · refine ⟨fun rest hquiet => ?_, fun hfifteen => absurd hfifteen (by omega)⟩
    exact parseLevel_same (by omega) (h.reads.yields (below_succ hquiet))

/-- What is read at a level is read at every lower one. -/
theorem ReadsAs.lower {m : Nat} (h : names.ReadsAs m text tree isUnary) (hn : n ≤ m)
    (hm : m ≤ 15) : names.ReadsAs n text tree isUnary := by
  induction hn with
  | refl => exact h
  | step hle ih =>
    rw [Nat.succ_eq_add_one] at h hm
    exact ih (h.pred (by omega)) (by omega)

/-- The whole of the tokens is read before a punctuator of a lower level. -/
theorem ReadsAs.yields_before (h : names.ReadsAs n text tree isUnary) {p : Punctuator}
    (hp : ∀ m, continuation p = some m → m < n) (rest : List Token) :
    Yields (fun k => names.parseLevel k n (text ++ .punctuator p :: rest))
      (tree, isUnary, .punctuator p :: rest) :=
  h.reads.yields (below_cons hp)

/-! ## Rules -/

theorem reads_primary (hprimary : ∀ rest,
      Yields (fun k => names.parsePrimary k (text ++ rest)) (tree, rest))
    (hpasses : names.Passes text) : names.ReadsAs 15 text tree true :=
  ⟨fun rest _ => parseLevel_fifteen_same (hprimary rest), fun _ => hpasses⟩

theorem reads_word (name : Text) : names.ReadsAs 15 [.word name] (.word name) true :=
  reads_primary (fun _ => .of_some fun _ => rfl) fun _ _ => rfl

theorem reads_number (digits : Text) : names.ReadsAs 15 [.number digits] (.number digits) true :=
  reads_primary (fun _ => .of_some fun _ => rfl) fun _ _ => rfl

theorem reads_string (contents : Text) :
    names.ReadsAs 15 [.string contents] (.string contents) true :=
  reads_primary (fun _ => .of_some fun _ => rfl) fun _ _ => rfl

theorem reads_parentheses (h : names.ReadsAs 1 text tree isUnary)
    (hstart : ∀ rest, names.startsType (text ++ rest) = false) :
    names.ReadsAs 15
      (.punctuator .leftParenthesis :: (text ++ [.punctuator .rightParenthesis])) tree true := by
  refine reads_primary (fun rest => ?_) fun k rest => ?_
  · rw [List.cons_append, List.append_assoc]
    refine .of_succ (fun k => ?_) ((h.yields_before (p := .rightParenthesis)
      (fun m hm => nomatch hm) rest).bind (h := fun x _ =>
        (expect .rightParenthesis x.2.2).bind fun rest => some (x.1, rest)) ⟨0, fun _ _ => rfl⟩)
    rw [parsePrimary, hstart, if_neg Bool.false_ne_true]
    rfl
  · rw [List.cons_append, List.append_assoc, parseUnary, hstart, if_neg Bool.false_ne_true]

variable {tree' : CTree}

/-- A postfix operator. -/
theorem ReadsAs.followed {more : List Token} (h : names.ReadsAs 15 text tree isUnary)
    (htail : ∀ rest, Same (fun k => names.parseTail k 15 tree isUnary (more ++ rest))
      fun k => names.parseTail k 15 tree' true rest) :
    names.ReadsAs 15 (text ++ more) tree' true := by
  refine ⟨fun rest _ => ?_, fun _ k rest => ?_⟩
  · rw [List.append_assoc]
    exact (h.reads _ (quiet_fifteen _)).trans (htail rest)
  · rw [List.append_assoc]
    exact h.passes rfl k _

variable {op : Punctuator}

theorem reads_member (h : names.ReadsAs 15 text tree isUnary) (hop : op = .dot ∨ op = .arrow)
    (field : Text) :
    names.ReadsAs 15 (text ++ [.punctuator op, .word field]) (.member op tree field) true := by
  refine h.followed fun rest => .of_succ fun k => ?_
  rcases hop with rfl | rfl <;> rfl

theorem reads_postfixOp (h : names.ReadsAs 15 text tree isUnary)
    (hop : op = .plusPlus ∨ op = .minusMinus) :
    names.ReadsAs 15 (text ++ [.punctuator op]) (.postfixOp op tree) true := by
  refine h.followed fun rest => .of_succ fun k => ?_
  rcases hop with rfl | rfl <;> rfl

theorem reads_subscript (h : names.ReadsAs 15 text tree isUnary) {index : List Token}
    {indexTree : CTree} {isUnaryIndex : Bool}
    (hindex : names.ReadsAs 1 index indexTree isUnaryIndex) :
    names.ReadsAs 15
      (text ++ (.punctuator .leftBracket :: (index ++ [.punctuator .rightBracket])))
      (.subscript tree indexTree) true := by
  refine h.followed fun rest => ?_
  rw [List.cons_append, List.append_assoc]
  refine .trans (.of_succ fun k => ?_) (.bind (hindex.yields_before (p := .rightBracket)
    (fun m hm => nomatch hm) rest) (h := fun (x : CTree × Bool × List Token) k =>
      (expect .rightBracket x.2.2).bind fun rest =>
        names.parseTail k 15 (.subscript tree x.1) true rest))
  rfl

/-- A call, when its arguments are read up to the parenthesis. -/
theorem reads_call (h : names.ReadsAs 15 text tree isUnary) {arguments : List Token}
    {trees : List CTree}
    (harguments : ∀ rest, Yields (fun k => names.parseArguments k .rightParenthesis
      (arguments ++ .punctuator .rightParenthesis :: rest)) (trees, rest)) :
    names.ReadsAs 15
      (text ++ (.punctuator .leftParenthesis :: (arguments ++ [.punctuator .rightParenthesis])))
      (.call tree trees) true := by
  refine h.followed fun rest => ?_
  rw [List.cons_append, List.append_assoc]
  refine .trans (.of_succ fun k => ?_) (.bind (harguments rest) (h := fun x k =>
    names.parseTail k 15 (.call tree x.1) true x.2))
  rfl

theorem reads_prefixOp (h : names.ReadsAs 14 text tree isUnary) (hop : isPrefixOperator op = true)
    (hunary : op = .plusPlus ∨ op = .minusMinus → isUnary = true) :
    names.ReadsAs 14 (.punctuator op :: text) (.prefixOp op tree) true := by
  refine reads_fourteen fun rest hquiet => ?_
  have hbelow : Below 14 rest := fun p hp m hm =>
    (hquiet p hp m hm).elim id fun heq => absurd (heq.1 ▸ hm) (continuation_ne_fourteen p)
  refine .of_succ (fun k => ?_) ((h.reads.yields hbelow).bind (h := fun x _ =>
    if (op = .plusPlus ∨ op = .minusMinus) ∧ x.2.1 = false then none
    else some (.prefixOp op x.1, true, x.2.2)) ⟨0, fun _ _ => ?_⟩)
  · rw [List.cons_append, parseUnary, if_pos hop]
    · rfl
    · rintro rfl
      cases hop
  · refine if_neg fun hnot => ?_
    rw [hunary hnot.1] at hnot
    cases hnot.2

/-- A binary operator that groups to the left. -/
theorem reads_infixOp (hop : infixLevel op = some n) (h : names.ReadsAs n text tree isUnary)
    {text' : List Token} {isUnary' : Bool} (h' : names.ReadsAs (n + 1) text' tree' isUnary') :
    names.ReadsAs n (text ++ .punctuator op :: text') (.infixOp op tree tree') false := by
  have hcontinuation := continuation_of_infixLevel hop
  have hn : n ≠ 15 ∧ n ≠ 2 ∧ n ≠ 3 := by
    cases op <;> cases hop <;> decide
  refine ⟨fun rest hquiet => ?_, fun hfifteen => absurd hfifteen hn.1⟩
  rw [List.append_assoc, List.cons_append]
  refine (h.reads _ fun p hp m hm => ?_).trans (.trans (.of_succ fun k => ?_)
    (.bind (h'.reads.yields (below_succ hquiet)) (h := fun x k =>
      names.parseTail k n (.infixOp op tree x.1) false x.2.2)))
  · cases hp
    rw [hcontinuation, Option.some.injEq] at hm
    exact .inr ⟨hm.symm, hn.2⟩
  · rw [parseTail, if_pos hop]
    rfl

/-- The left operand of an assignment has to be unary. -/
theorem reads_assign (h : names.ReadsAs 3 text tree true) {text' : List Token} {isUnary' : Bool}
    (h' : names.ReadsAs 2 text' tree' isUnary') :
    names.ReadsAs 2 (text ++ .punctuator .equals :: text') (.infixOp .equals tree tree') false := by
  refine ⟨fun rest hquiet => ?_, fun h => nomatch h⟩
  have hbelow := below_of_quiet hquiet (.inl rfl)
  rw [List.append_assoc, List.cons_append]
  refine (parseLevel_same (by decide) (h.yields_before (fun m hm => ?_) (text' ++ rest))).trans
    (.of_yields ?_ (yields_parseTail hbelow.ne))
  · cases hm
    decide
  · refine .of_succ (fun k => ?_) ((h'.reads.yields hbelow).bind (h := fun x _ =>
      some (.infixOp .equals tree x.1, false, x.2.2)) ⟨0, fun _ _ => rfl⟩)
    rfl

theorem reads_ternary (h : names.ReadsAs 4 text tree isUnary) {lhs rhs : List Token}
    {lhsTree rhsTree : CTree} {isUnaryLhs isUnaryRhs : Bool}
    (hlhs : names.ReadsAs 1 lhs lhsTree isUnaryLhs) (hrhs : names.ReadsAs 3 rhs rhsTree isUnaryRhs) :
    names.ReadsAs 3
      (text ++ .punctuator .question :: (lhs ++ .punctuator .colon :: rhs))
      (.ternary tree lhsTree rhsTree) false := by
  refine ⟨fun rest hquiet => ?_, fun h => nomatch h⟩
  have hbelow := below_of_quiet hquiet (.inr rfl)
  rw [List.append_assoc, List.cons_append, List.append_assoc, List.cons_append]
  refine (parseLevel_same (by decide) (h.yields_before (fun m hm => ?_) _)).trans
    (.of_yields ?_ (yields_parseTail hbelow.ne))
  · cases hm
    decide
  · have hright : Yields (fun k => (names.parseLevel k 3 (rhs ++ rest)).bind fun x =>
        some (CTree.ternary tree lhsTree x.1, false, x.2.2))
        (.ternary tree lhsTree rhsTree, false, rest) :=
      (hrhs.reads.yields hbelow).bind (h := fun x _ =>
        some (CTree.ternary tree lhsTree x.1, false, x.2.2)) ⟨0, fun _ _ => rfl⟩
    refine .of_succ (fun k => ?_) ((hlhs.yields_before (p := .colon) (fun m hm => nomatch hm)
      (rhs ++ rest)).bind (h := fun (x : CTree × Bool × List Token) k =>
        (expect .colon x.2.2).bind fun next =>
        (names.parseLevel k 3 next).bind fun (y : CTree × Bool × List Token) =>
          some (CTree.ternary tree x.1 y.1, false, y.2.2)) hright)
    rfl

/-! ## Names of types -/

/-- Read from one depth of parentheses to another, none of the tokens ends the name. -/
def Spans (depth : Nat) (text : List Token) (depth' : Nat) : Prop :=
  ∀ rest, parseTypeName depth (text ++ rest) =
    (text ++ (parseTypeName depth' rest).1, (parseTypeName depth' rest).2)

section Spans

variable {d d' d'' : Nat} {text text' : List Token}

theorem Spans.append (h : Spans d text d') (h' : Spans d' text' d'') :
    Spans d (text ++ text') d'' := by
  intro rest
  rw [List.append_assoc, h, h', List.append_assoc]

theorem spans_nil : Spans d [] d := fun _ => rfl

theorem spans_word (name : Text) : Spans d [.word name] d := by
  intro rest
  cases d <;> rfl

theorem spans_number (digits : Text) : Spans d [.number digits] d := by
  intro rest
  cases d <;> rfl

theorem spans_punctuator {p : Punctuator} (hcomma : p ≠ .comma) (hleft : p ≠ .leftParenthesis)
    (hright : p ≠ .rightParenthesis) : Spans d [.punctuator p] d := by
  intro rest
  have hdepth : (if Token.punctuator p = .punctuator .leftParenthesis then d + 1
      else if Token.punctuator p = .punctuator .rightParenthesis then d - 1 else d) = d := by
    rw [if_neg (by simpa using hleft), if_neg (by simpa using hright)]
  rw [List.singleton_append, parseTypeName]
  · rw [hdepth]
    rfl
  · rintro - heq
    exact absurd (Token.punctuator.inj heq) hcomma
  · rintro - heq
    exact absurd (Token.punctuator.inj heq) hright

theorem spans_left : Spans d [.punctuator .leftParenthesis] (d + 1) := by
  intro rest
  cases d <;> rfl

theorem spans_right : Spans (d + 1) [.punctuator .rightParenthesis] d := fun _ => rfl

end Spans

end TypeNames

end CliftEmitC

import Revng.CliftEmitC.StatementGrammar
import Revng.CliftEmitC.Reading

/-!
# Reading statements back

What is parsed from a text is described without fuel: a statement that is followed by no `else`
(`IsStatement`), the body of another statement, which anything may follow (`IsBody`), and the items up
to the end of a block (`IsItems`).  Items are read from the last one to the first, as a label stands
before what has been read.
-/

namespace CliftEmitC

open StatementToken
open CStatement (readAll mayCompleteAll ClosesCasesAll splitCases IsClosedCase)

variable {ε δ ν : Type}

/-! ## The parser -/

/-- The items of a block from the text on, and what comes after its right brace. -/
inductive ItemsAt : List (StatementToken ε δ ν) → List (CStatement ε δ ν) →
    List (StatementToken ε δ ν) → Prop where
  | nil {rest : List (StatementToken ε δ ν)} : ItemsAt (rightBrace :: rest) [] rest
  | declaration {text rest : List (StatementToken ε δ ν)} {items : List (CStatement ε δ ν)} (d : δ) :
      ItemsAt text items rest →
        ItemsAt (StatementToken.declaration d :: semicolon :: text) (.declaration d :: items) rest
  | cons {text text' rest : List (StatementToken ε δ ν)} {c : CStatement ε δ ν}
      {items : List (CStatement ε δ ν)} :
      Yields (fun k => parseStatement k text) (c, text') → ItemsAt text' items rest →
        ItemsAt text (c :: items) rest

section Parser

variable {text text' rest : List (StatementToken ε δ ν)} {c : CStatement ε δ ν}
  {items : List (CStatement ε δ ν)}

theorem afterElse?_of_ne (h : rest.head? ≠ some (keyword .«else»)) : afterElse? rest = none := by
  cases rest with
  | nil => rfl
  | cons t rest =>
    cases t with
    | keyword k =>
      cases k with
      | «else» => exact absurd rfl h
      | _ => rfl
    | _ => rfl

/-- A statement is not begun by what ends a block, by a declaration or by an `else`. -/
theorem head?_of_parseStatement {t : StatementToken ε δ ν}
    (h : Yields (fun k => parseStatement k (t :: text)) (c, rest)) :
    t ≠ rightBrace ∧ (∀ d, t ≠ declaration d) ∧ t ≠ keyword .«else» := by
  obtain ⟨n, hn⟩ := h
  have hparse := hn (n + 1) (Nat.le_succ n)
  refine ⟨?_, fun d => ?_, ?_⟩
  all_goals
    rintro rfl
    cases hparse

theorem parseItems_statement (k : Nat) {t : StatementToken ε δ ν} (hbrace : t ≠ rightBrace)
    (hdeclaration : ∀ d, t ≠ declaration d) :
    parseItems (k + 1) (t :: text) = (parseStatement k (t :: text)).bind fun x =>
      (parseItems k x.2).bind fun y => some (x.1 :: y.1, y.2) := by
  cases t with
  | rightBrace => exact absurd rfl hbrace
  | declaration d => exact absurd rfl (hdeclaration d)
  | _ => rfl

theorem not_yields_nil : ¬ Yields (fun k => parseStatement k []) (c, rest) := by
  rintro ⟨n, hn⟩
  cases hn (n + 1) (Nat.le_succ n)

theorem ItemsAt.yields (h : ItemsAt text items rest) :
    Yields (fun k => parseItems k text) (items, rest) := by
  induction h with
  | nil => exact .of_some fun k => rfl
  | declaration d _ ih =>
    refine .of_succ (g := fun k => (parseItems k _).bind _) (fun k => rfl) ?_
    exact ih.bind (.some _)
  | @cons text text' rest c items hstatement _ ih =>
    cases text with
    | nil => exact absurd hstatement not_yields_nil
    | cons t text =>
      obtain ⟨hbrace, hdeclaration, -⟩ := head?_of_parseStatement hstatement
      refine .of_succ (fun k => parseItems_statement k hbrace hdeclaration) ?_
      refine hstatement.bind ?_
      exact ih.bind (.some _)

theorem ItemsAt.head?_ne_else (h : ItemsAt text items rest) :
    text.head? ≠ some (keyword .«else») := by
  cases h with
  | nil => nofun
  | declaration d _ => nofun
  | cons hstatement _ =>
    cases text with
    | nil => nofun
    | cons t text =>
      intro heq
      exact (head?_of_parseStatement hstatement).2.2 (Option.some.inj heq)

end Parser

/-! ## Reading regions -/

section Region

variable {s : Statement ε δ ν} {region : List (Statement ε δ ν)}

theorem toRegion?_map (region : List (Statement ε δ ν)) :
    toRegion? (region.map .statement) = some (withoutBlock region) := by
  have hall : (region.map SwitchItem.statement).mapM SwitchItem.toStatement? = some region := by
    induction region with
    | nil => rfl
    | cons s region ih =>
      rw [List.map_cons, List.mapM_cons, ih]
      rfl
  rw [toRegion?, hall, Option.map_some]

variable {items : List (CStatement ε δ ν)}

theorem readAll_cons {c : CStatement ε δ ν} {read read' : List (SwitchItem ε δ ν)}
    (h : c.read = some read) (h' : readAll items = some read') :
    readAll (c :: items) = some (read ++ read') := by
  rw [readAll, h, h']
  rfl

theorem readAll_cons_statement {c : CStatement ε δ ν} (h : c.read = some [.statement s])
    (h' : readAll items = some (region.map .statement)) :
    readAll (c :: items) = some ((s :: region).map .statement) := readAll_cons h h'

/-- A block of the items is a block of the region. -/
theorem read_compound (h : readAll items = some (region.map .statement)) :
    (CStatement.compound items).read =
      some [.statement (.blockStatement [] (withoutBlock region))] := by
  rw [CStatement.read, h]
  show (toRegion? (region.map .statement)).bind _ = _
  rw [toRegion?_map]
  rfl

/-- A region begins with a statement that a label may stand before. -/
def StartsStatement (region : List (Statement ε δ ν)) : Prop :=
  ∃ s rest, region = s :: rest ∧ s.isLocalVariable = false

end Region

/-! ## Statements, bodies and items -/

section

variable {text text' : List (StatementToken ε δ ν)} {s : Statement ε δ ν}
  {region region' : List (Statement ε δ ν)} {c : CStatement ε δ ν}
  {items : List (CStatement ε δ ν)} {ends ends' : Prop}

/-- The text is one statement, when no `else` comes after it. -/
structure IsStatement (text : List (StatementToken ε δ ν)) (s : Statement ε δ ν)
    (c : CStatement ε δ ν) : Prop where
  parses : ∀ rest : List (StatementToken ε δ ν), rest.head? ≠ some (keyword .«else») →
    Yields (fun k => parseStatement k (text ++ rest)) (c, rest)
  reads : c.read = some [.statement s]
  closes : c.ClosesCases

/-- The text is a statement that stands for the region.  If the region ends, what comes after the
statement is not reached from it. -/
structure IsBody (text : List (StatementToken ε δ ν)) (region : List (Statement ε δ ν)) (ends : Prop)
    (c : CStatement ε δ ν) : Prop where
  parses : ∀ rest, Yields (fun k => parseStatement k (text ++ rest)) (c, rest)
  reads : ∃ s, c.read = some [.statement s] ∧ withoutBlock [s] = withoutBlock region
  closes : c.ClosesCases
  mayComplete : ends → c.mayComplete = false
  isBreak : ¬ ends → c.isBreak = false

structure IsItems (text : List (StatementToken ε δ ν)) (region : List (Statement ε δ ν))
    (ends : Prop) (items : List (CStatement ε δ ν)) : Prop where
  parses : ∀ rest, ItemsAt (text ++ rightBrace :: rest) items rest
  reads : readAll items = some (region.map .statement)
  closes : ClosesCasesAll items
  mayComplete : ends → mayCompleteAll items = false

def ReadsStatement (text : List (StatementToken ε δ ν)) (s : Statement ε δ ν) : Prop :=
  ∃ c, IsStatement text s c

def ReadsRegion (text : List (StatementToken ε δ ν)) (region : List (Statement ε δ ν))
    (ends : Prop) : Prop := ∃ c, IsBody text region ends c

def ReadsItems (text : List (StatementToken ε δ ν)) (region : List (Statement ε δ ν))
    (ends : Prop) : Prop := ∃ items, IsItems text region ends items

theorem ReadsItems.imp (h : ReadsItems text region ends) (himp : ends' → ends) :
    ReadsItems text region ends' := by
  obtain ⟨items, hitems⟩ := h
  exact ⟨items, { hitems with mayComplete := fun hends => hitems.mayComplete (himp hends) }⟩

theorem readsItems_nil : ReadsItems ([] : List (StatementToken ε δ ν)) [] False :=
  ⟨[], fun _ => .nil, rfl, trivial, False.elim⟩

theorem IsItems.head?_ne_else (h : IsItems text region ends items)
    (rest : List (StatementToken ε δ ν)) :
    (text ++ rightBrace :: rest).head? ≠ some (keyword .«else») :=
  (h.parses rest).head?_ne_else

theorem mayCompleteAll_cons (hne : items ≠ []) :
    mayCompleteAll (c :: items) = mayCompleteAll items := by
  cases items with
  | nil => exact absurd rfl hne
  | cons c' items => rfl

theorem mayCompleteAll_cons_eq_false (h : mayCompleteAll items = false) :
    mayCompleteAll (c :: items) = false := by
  rwa [mayCompleteAll_cons]
  rintro rfl
  cases h

/-- Without text there are no items. -/
theorem IsItems.eq_nil (h : IsItems [] region ends items) : items = [] := by
  cases h.parses [] with
  | nil => rfl
  | cons hstatement _ => exact absurd rfl (head?_of_parseStatement hstatement).1

/-- A statement before the items. -/
theorem ReadsItems.statement (h : ReadsItems text' region' ends') (hstatement : IsStatement text s c) :
    ReadsItems (text ++ text') (s :: region')
      (ends' ∨ (text' = [] ∧ c.mayComplete = false)) := by
  obtain ⟨items, hitems⟩ := h
  refine ⟨c :: items, fun rest => ?_, readAll_cons_statement hstatement.reads hitems.reads,
    ⟨hstatement.closes, hitems.closes⟩, ?_⟩
  · rw [List.append_assoc]
    exact .cons (hstatement.parses _ (hitems.head?_ne_else rest)) (hitems.parses rest)
  · rintro (hends | ⟨rfl, hcomplete⟩)
    · exact mayCompleteAll_cons_eq_false (hitems.mayComplete hends)
    · obtain rfl := hitems.eq_nil
      exact hcomplete

theorem ReadsItems.declaration (h : ReadsItems text' region' ends') (d : δ) :
    ReadsItems (StatementToken.declaration d :: semicolon :: text')
      (.localVariable [] [] d :: region') ends' := by
  obtain ⟨items, hitems⟩ := h
  exact ⟨.declaration d :: items, fun rest => .declaration d (hitems.parses rest),
    readAll_cons_statement rfl hitems.reads, ⟨trivial, hitems.closes⟩,
    fun hends => mayCompleteAll_cons_eq_false (hitems.mayComplete hends)⟩

/-- A label with an empty statement before the items. -/
theorem ReadsItems.emptyLabel (h : ReadsItems text' region' ends') (name : Text) :
    ReadsItems (identifier name :: colon :: semicolon :: text')
      (.assignLabel [] (.named name) :: region') ends' := by
  obtain ⟨items, hitems⟩ := h
  refine ⟨.label name (.expression none) :: items, fun rest => .cons ?_ (hitems.parses rest),
    readAll_cons_statement rfl hitems.reads, ⟨trivial, hitems.closes⟩,
    fun hends => mayCompleteAll_cons_eq_false (hitems.mayComplete hends)⟩
  refine .of_succ (g := fun k => (parseStatement k _).bind _) (fun k => rfl) ?_
  exact Yields.bind (.of_some fun k => rfl) (.some _)

theorem readAll_label {name : Text} {read : List (SwitchItem ε δ ν)}
    (h : readAll (c :: items) = some read) :
    readAll (.label name c :: items) =
      some (.statement (.assignLabel [] (.named name)) :: read) := by
  rw [readAll] at h
  rw [readAll, CStatement.read]
  cases hc : c.read with
  | none =>
    rw [hc] at h
    cases h
  | some first =>
    cases hitems : readAll items with
    | none =>
      rw [hc, hitems] at h
      cases h
    | some more =>
      rw [hc, hitems] at h
      cases h
      rfl

theorem mayCompleteAll_label (name : Text) (c : CStatement ε δ ν) (items : List (CStatement ε δ ν)) :
    mayCompleteAll (.label name c :: items) = mayCompleteAll (c :: items) := by
  cases items <;> rfl

/-- The items begin with a statement if the region does. -/
theorem IsItems.exists_cons (h : IsItems text region ends items) (hstarts : StartsStatement region)
    (rest : List (StatementToken ε δ ν)) :
    ∃ c more text', items = c :: more ∧
      Yields (fun k => parseStatement k (text ++ rightBrace :: rest)) (c, text') ∧
        ItemsAt text' more rest := by
  obtain ⟨s, region, rfl, hs⟩ := hstarts
  have hreads := h.reads
  generalize hwhole : text ++ rightBrace :: rest = whole
  have hparses := h.parses rest
  rw [hwhole] at hparses
  cases hparses with
  | nil => cases hreads
  | @declaration _ _ items d _ =>
    exfalso
    rw [readAll] at hreads
    cases hitems : readAll items with
    | none =>
      rw [hitems] at hreads
      cases hreads
    | some read =>
      rw [hitems] at hreads
      cases hreads
      cases hs
  | cons hstatement hmore => exact ⟨_, _, _, rfl, hstatement, hmore⟩

/-- A label before the first statement. -/
theorem ReadsItems.label (h : ReadsItems text' region' ends') (hstarts : StartsStatement region')
    (name : Text) :
    ReadsItems (identifier name :: colon :: text')
      (.assignLabel [] (.named name) :: region') ends' := by
  obtain ⟨items, hitems⟩ := h
  obtain ⟨c, more, -, rfl, -⟩ := hitems.exists_cons hstarts []
  refine ⟨.label name c :: more, fun rest => ?_, readAll_label hitems.reads, hitems.closes,
    fun hends => ?_⟩
  · obtain ⟨c', more', text, heq, hstatement, hmore⟩ := hitems.exists_cons hstarts rest
    cases heq
    refine .cons (.of_succ (g := fun k => (parseStatement k _).bind _) (fun k => rfl) ?_) hmore
    exact hstatement.bind (.some _)
  · rw [mayCompleteAll_label]
    exact hitems.mayComplete hends

end

end CliftEmitC

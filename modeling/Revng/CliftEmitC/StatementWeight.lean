import Revng.CliftEmitC.StatementGrammar

/-!
# The weight of a text

The weight of a text counts its words but `else`, and its braces against each other.  What is parsed
and read has the weight of its text (`weight_of_reads`), so two texts that are read as the same
statements are of equal weight.
-/

namespace CliftEmitC

variable {ε δ ν : Type}

/-! ## Weights -/

def StatementToken.weight : StatementToken ε δ ν → Int
  | keyword .«else» => 0
  | keyword _ => 1
  | identifier _ => 1
  | leftBrace => 1
  | rightBrace => -1
  | expression _ => 1
  | declaration _ => 1
  | value _ => 1
  | _ => 0

def textWeight : List (StatementToken ε δ ν) → Int
  | [] => 0
  | t :: text => t.weight + textWeight text

def optionWeight {α : Type} : Option α → Int
  | none => 0
  | some _ => 1

mutual

def CStatement.weight : CStatement ε δ ν → Int
  | .label _ s => 1 + s.weight
  | .case value s => 1 + optionWeight value + s.weight
  | .compound items => itemsWeight items
  | .declaration _ => 1
  | .expression e => optionWeight e
  | .ifThen _ s => 2 + s.weight
  | .ifElse _ s s' => 2 + s.weight + s'.weight
  | .switch _ s => 2 + s.weight
  | .while _ s => 2 + s.weight
  | .doWhile s _ => 3 + s.weight
  | .for initializer condition e s =>
      1 + optionWeight initializer + optionWeight condition + optionWeight e + s.weight
  | .goto _ => 2
  | .breakTo label => 1 + optionWeight label
  | .continueTo label => 1 + optionWeight label
  | .return result => 1 + optionWeight result

def itemsWeight : List (CStatement ε δ ν) → Int
  | [] => 0
  | s :: items => s.weight + itemsWeight items

end

mutual

/-- The weight of what is printed, where the labels of loops are left out. -/
def Statement.weight : Statement ε δ ν → Int
  | .makeLabel _ => 0
  | .require => 0
  | .assignLabel _ _ => 1
  | .localVariable _ _ _ => 1
  | .expressionStatement _ _ => 1
  | .goto _ _ => 2
  | .breakTo _ label => 1 + optionWeight label
  | .continueTo _ label => 1 + optionWeight label
  | .returnOp _ result => 1 + optionWeight result
  | .ifOp _ _ thenRegion elseRegion => 2 + regionWeight thenRegion + regionWeight elseRegion
  | .switchOp _ _ cases => 2 + casesWeight cases
  | .forOp _ _ initializer condition e body =>
      1 + optionWeight initializer + optionWeight condition + optionWeight e + regionWeight body
  | .whileOp _ _ _ body => 2 + regionWeight body
  | .doWhile _ _ body _ => 3 + regionWeight body
  | .blockStatement _ block => regionWeight block

def regionWeight : List (Statement ε δ ν) → Int
  | [] => 0
  | s :: region => s.weight + regionWeight region

def casesWeight : Cases ε δ ν → Int
  | .nil => 0
  | .default region => 1 + regionWeight region
  | .case _ values region cases =>
      2 + 2 * values.length + regionWeight region + casesWeight cases

end

def SwitchItem.weight : SwitchItem ε δ ν → Int
  | caseLabel value => 1 + optionWeight value
  | statement s => s.weight

def readWeight : List (SwitchItem ε δ ν) → Int
  | [] => 0
  | item :: items => item.weight + readWeight items

theorem regionWeight_append (region region' : List (Statement ε δ ν)) :
    regionWeight (region ++ region') = regionWeight region + regionWeight region' := by
  induction region with
  | nil => simp [regionWeight]
  | cons s region ih => simp only [List.cons_append, regionWeight, ih]; omega

theorem readWeight_append (items items' : List (SwitchItem ε δ ν)) :
    readWeight (items ++ items') = readWeight items + readWeight items' := by
  induction items with
  | nil => simp [readWeight]
  | cons item items ih => simp only [List.cons_append, readWeight, ih]; omega

theorem textWeight_append (text text' : List (StatementToken ε δ ν)) :
    textWeight (text ++ text') = textWeight text + textWeight text' := by
  induction text with
  | nil => simp [textWeight]
  | cons t text ih => simp only [List.cons_append, textWeight, ih]; omega

/-! ## Parsing -/

theorem weight_of_parseOptionalExpression (text : List (StatementToken ε δ ν)) :
    textWeight text = optionWeight (parseOptionalExpression text).1 +
      textWeight (parseOptionalExpression text).2 := by
  fun_cases parseOptionalExpression text <;>
    simp [textWeight, StatementToken.weight, optionWeight]

theorem weight_of_parseForInitializer (text : List (StatementToken ε δ ν)) :
    textWeight text = optionWeight (parseForInitializer text).1 +
      textWeight (parseForInitializer text).2 := by
  fun_cases parseForInitializer text <;>
    simp [textWeight, StatementToken.weight, optionWeight]

theorem weight_of_afterElse? {text rest : List (StatementToken ε δ ν)}
    (h : afterElse? rest = some text) : textWeight rest = textWeight text := by
  unfold afterElse? at h
  split at h <;> cases h
  exact Int.zero_add _

theorem weight_of_expectToken {expected : StatementToken ε δ ν → Bool}
    (hexpected : ∀ t, expected t = true → t.weight = 0) {text rest : List (StatementToken ε δ ν)}
    (h : expectToken expected text = some rest) : textWeight text = textWeight rest := by
  cases text with
  | nil => cases h
  | cons t text =>
    rw [expectToken] at h
    split_ifs at h with ht
    cases h
    rw [textWeight, hexpected t ht, Int.zero_add]

theorem weight_of_parseForHead {text rest : List (StatementToken ε δ ν)}
    {head : Option (ForInitializer ε δ) × Option ε × Option ε}
    (h : parseForHead text = some (head, rest)) :
    textWeight text = optionWeight head.1 + optionWeight head.2.1 + optionWeight head.2.2 +
      textWeight rest := by
  simp only [parseForHead, Option.bind_eq_bind, Option.bind_eq_some_iff] at h
  obtain ⟨text₁, h₁, text₂, h₂, text₃, h₃, heq⟩ := h
  have hsemicolon : ∀ t : StatementToken ε δ ν, isSemicolon t = true → t.weight = 0 := by
    intro t ht
    cases t <;> first | rfl | cases ht
  have hparenthesis : ∀ t : StatementToken ε δ ν, isRightParenthesis t = true → t.weight = 0 := by
    intro t ht
    cases t <;> first | rfl | cases ht
  have hinitializer := weight_of_parseForInitializer text
  have hcondition := weight_of_parseOptionalExpression text₁
  have hexpression := weight_of_parseOptionalExpression text₂
  have hfirst := weight_of_expectToken hsemicolon h₁
  have hsecond := weight_of_expectToken hsemicolon h₂
  have hthird := weight_of_expectToken hparenthesis h₃
  cases heq
  simp only [hinitializer, hfirst, hcondition, hsecond, hexpression, hthird, Int.add_assoc]

theorem weight_of_parseStatement (k : Nat) :
    (∀ (text rest : List (StatementToken ε δ ν)) (c : CStatement ε δ ν),
      parseStatement k text = some (c, rest) → textWeight text = c.weight + textWeight rest) ∧
    (∀ (text rest : List (StatementToken ε δ ν)) (items : List (CStatement ε δ ν)),
      parseItems k text = some (items, rest) →
        textWeight text = itemsWeight items - 1 + textWeight rest) := by
  induction k with
  | zero => exact ⟨nofun, nofun⟩
  | succ k ih =>
    obtain ⟨ihStatement, ihItems⟩ := ih
    constructor
    · intro text rest c h
      unfold parseStatement at h
      split at h
      all_goals try simp only [Option.bind_eq_bind, Option.bind_eq_some_iff, Prod.exists] at h
      case h_8 =>
        obtain ⟨s, rest', hs, h⟩ := h
        cases helse : afterElse? rest' with
        | none => grind [textWeight, StatementToken.weight, CStatement.weight]
        | some text' =>
          have hweight := weight_of_afterElse? helse
          simp only [helse, Option.bind_eq_some_iff, Prod.exists] at h
          grind [textWeight, StatementToken.weight, CStatement.weight]
      case h_11 fuel text hfuel =>
        cases hfuel
        obtain ⟨s, rest', hs, h⟩ := h
        split at h <;> cases h
        have hbody := ihStatement _ _ _ hs
        simp only [textWeight, StatementToken.weight, CStatement.weight] at hbody ⊢
        omega
      case h_12 =>
        obtain ⟨initializer, condition, e, text', hhead, s, rest', hs, heq⟩ := h
        have hweight := weight_of_parseForHead hhead
        grind [textWeight, StatementToken.weight, CStatement.weight]
      all_goals grind [textWeight, StatementToken.weight, CStatement.weight, optionWeight]
    · intro text rest items h
      unfold parseItems at h
      split at h
      · cases h
      · cases h
        simp [textWeight, StatementToken.weight, itemsWeight]
      · simp only [Option.bind_eq_bind, Option.bind_eq_some_iff, Prod.exists] at h
        grind [textWeight, StatementToken.weight, CStatement.weight, itemsWeight]
      · simp only [Option.bind_eq_bind, Option.bind_eq_some_iff, Prod.exists] at h
        grind [textWeight, StatementToken.weight, CStatement.weight, itemsWeight]

/-! ## Reading -/

theorem regionWeight_withoutBlock (region : List (Statement ε δ ν)) :
    regionWeight (withoutBlock region) = regionWeight region := by
  fun_cases withoutBlock region with
  | case1 comments block => exact (Int.add_zero _).symm
  | case2 => rfl

theorem regionWeight_openCase (region : List (Statement ε δ ν)) :
    regionWeight (openCase region) = regionWeight region := by
  fun_cases openCase region with
  | case1 comments block comments' =>
    rw [regionWeight_append]
    rfl
  | case2 => exact regionWeight_withoutBlock region

theorem weight_of_toRegion? {items : List (SwitchItem ε δ ν)} {region : List (Statement ε δ ν)}
    (h : toRegion? items = some region) : readWeight items = regionWeight region := by
  rw [toRegion?, Option.map_eq_some_iff] at h
  obtain ⟨statements, hstatements, rfl⟩ := h
  rw [regionWeight_withoutBlock]
  induction items generalizing statements with
  | nil =>
    cases hstatements
    rfl
  | cons item items ih =>
    simp only [List.mapM_cons, Option.bind_eq_bind, Option.bind_eq_some_iff] at hstatements
    obtain ⟨s, hs, rest, hrest, heq⟩ := hstatements
    cases heq
    cases item with
    | caseLabel value => cases hs
    | statement s =>
      cases hs
      rw [readWeight, regionWeight, ih rest hrest]
      rfl

theorem weight_of_toCases? {items : List (SwitchItem ε δ ν)} {region : List (Statement ε δ ν)}
    {cases : Cases ε δ ν} (h : toCases? items = some (region, cases)) :
    readWeight items = regionWeight region + casesWeight cases := by
  induction items generalizing region cases with
  | nil =>
    cases h
    rfl
  | cons item items ih =>
    cases item with
    | statement s =>
      simp only [toCases?, Option.bind_eq_bind, Option.bind_eq_some_iff, Prod.exists] at h
      grind [readWeight, SwitchItem.weight, regionWeight]
    | caseLabel value =>
      cases value with
      | none =>
        simp only [toCases?, Option.bind_eq_bind, Option.bind_eq_some_iff, Prod.exists] at h
        grind [readWeight, SwitchItem.weight, regionWeight, casesWeight, optionWeight,
          regionWeight_openCase]
      | some value =>
        simp only [toCases?, Option.bind_eq_bind, Option.bind_eq_some_iff, Prod.exists] at h
        grind [readWeight, SwitchItem.weight, regionWeight, casesWeight, optionWeight,
          regionWeight_openCase]

theorem readWeight_statement (s : Statement ε δ ν) : readWeight [.statement s] = s.weight :=
  Int.add_zero _

/-- The body of a statement, which is read as a region. -/
theorem exists_region {c : CStatement ε δ ν} {α : Type} {a : α}
    {f : List (Statement ε δ ν) → Option α}
    (hc : ∀ items, c.read = some items → c.weight = readWeight items)
    (h : (c.read.bind fun items => (toRegion? items).bind f) = some a) :
    ∃ region, c.weight = regionWeight region ∧ f region = some a := by
  simp only [Option.bind_eq_some_iff] at h
  obtain ⟨items, hitems, region, hregion, hf⟩ := h
  exact ⟨region, (hc items hitems).trans (weight_of_toRegion? hregion), hf⟩

mutual

theorem weight_of_read : ∀ (c : CStatement ε δ ν) (items : List (SwitchItem ε δ ν)),
    c.read = some items → c.weight = readWeight items
  | .label name s, items, h => by
      rw [CStatement.read, Option.bind_eq_bind, Option.bind_eq_some_iff] at h
      obtain ⟨read, hread, heq⟩ := h
      cases heq
      rw [CStatement.weight, weight_of_read s read hread]
      rfl
  | .case value s, items, h => by
      rw [CStatement.read, Option.bind_eq_bind, Option.bind_eq_some_iff] at h
      obtain ⟨read, hread, heq⟩ := h
      cases heq
      rw [CStatement.weight, weight_of_read s read hread]
      rfl
  | .compound body, items, h => by
      simp only [CStatement.read, Option.bind_eq_bind, Option.bind_eq_some_iff] at h
      obtain ⟨read, hread, region, hregion, heq⟩ := h
      cases heq
      rw [CStatement.weight, weight_of_readAll body read hread, weight_of_toRegion? hregion,
        readWeight_statement, Statement.weight]
  | .declaration d, items, h => by
      cases h
      rfl
  | .expression none, items, h => by
      cases h
      rfl
  | .expression (some e), items, h => by
      cases h
      rfl
  | .ifThen condition s, items, h => by
      rw [CStatement.read] at h
      obtain ⟨region, hregion, heq⟩ := exists_region (weight_of_read s) h
      cases heq
      rw [CStatement.weight, hregion, readWeight_statement]
      exact (Int.add_zero _).symm
  | .ifElse condition s s', items, h => by
      rw [CStatement.read] at h
      obtain ⟨region, hregion, hrest⟩ := exists_region (weight_of_read s) h
      obtain ⟨region', hregion', heq⟩ := exists_region (weight_of_read s') hrest
      cases heq
      rw [CStatement.weight, hregion, hregion', readWeight_statement, Statement.weight]
  | .switch condition s, items, h => by
      cases s with
      | compound body =>
        simp only [CStatement.read, readCases?, Option.bind_eq_bind, Option.bind_eq_some_iff] at h
        obtain ⟨read, hread, cases, ⟨⟨region, cases'⟩, hcases, hnone⟩, heq⟩ := h
        cases heq
        have hbody := weight_of_readAll body read hread
        have htoCases := weight_of_toCases? hcases
        grind [readWeight_statement, CStatement.weight, Statement.weight, regionWeight]
      | _ => cases h
  | .while condition s, items, h => by
      rw [CStatement.read] at h
      obtain ⟨region, hregion, heq⟩ := exists_region (weight_of_read s) h
      cases heq
      rw [CStatement.weight, hregion, readWeight_statement, Statement.weight]
  | .doWhile s condition, items, h => by
      rw [CStatement.read] at h
      obtain ⟨region, hregion, heq⟩ := exists_region (weight_of_read s) h
      cases heq
      rw [CStatement.weight, hregion, readWeight_statement, Statement.weight]
  | .for initializer condition e s, items, h => by
      rw [CStatement.read] at h
      obtain ⟨region, hregion, heq⟩ := exists_region (weight_of_read s) h
      cases heq
      rw [CStatement.weight, hregion, readWeight_statement, Statement.weight]
  | .goto label, items, h => by
      cases h
      rfl
  | .breakTo label, items, h => by
      cases h
      cases label <;> rfl
  | .continueTo label, items, h => by
      cases h
      cases label <;> rfl
  | .return result, items, h => by
      cases h
      cases result <;> rfl

theorem weight_of_readAll : ∀ (body : List (CStatement ε δ ν)) (items : List (SwitchItem ε δ ν)),
    CStatement.readAll body = some items → itemsWeight body = readWeight items
  | [], items, h => by
      cases h
      rfl
  | s :: body, items, h => by
      simp only [CStatement.readAll, Option.bind_eq_bind, Option.bind_eq_some_iff] at h
      obtain ⟨read, hread, read', hread', heq⟩ := h
      cases heq
      rw [itemsWeight, weight_of_read s read hread, weight_of_readAll body read' hread',
        readWeight_append]

end

/-- What is parsed and read from a whole text has the weight of the text. -/
theorem weight_of_reads {text : List (StatementToken ε δ ν)} {k : Nat} {c : CStatement ε δ ν}
    {items : List (SwitchItem ε δ ν)} (hparse : parseStatement k text = some (c, []))
    (hread : c.read = some items) : textWeight text = readWeight items := by
  rw [(weight_of_parseStatement k).1 text [] c hparse, weight_of_read c items hread]
  exact Int.add_zero _

end CliftEmitC

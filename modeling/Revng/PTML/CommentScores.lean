import Mathlib.Algebra.Order.Field.Rat
import Mathlib.Data.List.Lex
import Revng.Binary.MetaAddress
import Revng.Lib.RunningBest

/-!
# Scores of locations

`CommentPlacementHelper` compares the addresses of a comment with those of each statement, and keeps
the address set with the best score for each comment.

A score is a fraction.  Whether two scores are the same is decided by their parts, and which one is
better by their value, so `1/2` and `2/4` are different and neither is better.
-/

namespace PTML

open Binary (MetaAddress)

/-! ## Address sets -/

/-- What addresses are ordered by. -/
def tie (a : MetaAddress) : List Nat :=
  [a.epoch.toNat, a.addressSpace.toNat, a.type.ctorIdx, a.address.toNat]

/-- A set of valid addresses. -/
structure Location where
  addresses : List MetaAddress
  sorted : addresses.Pairwise fun a b => tie a < tie b
  valid : ∀ a ∈ addresses, a.isValid = true
deriving DecidableEq

def Location.empty : Location := ⟨[], .nil, List.forall_mem_nil _⟩

/-- What locations are compared by when their scores are the same. -/
def Location.numbers (location : Location) : List Nat := location.addresses.map (·.address.toNat)

def SharesAddress (a b : Location) : Prop := ∃ x ∈ a.addresses, x ∈ b.addresses

/-! ## Scores -/

/-- A fraction of numbers of addresses.  They are small, so no product overflows. -/
structure Score where
  numerator : Nat
  denominator : Nat
  pos : 0 < denominator
deriving DecidableEq

namespace Score

def zero : Score := ⟨0, 1, Nat.one_pos⟩

/-- The two fractions with one denominator. -/
def gt (score another : Score) : Bool :=
  another.numerator * score.denominator < score.numerator * another.denominator

def value (score : Score) : ℚ := score.numerator / score.denominator

theorem gt_iff (score another : Score) : score.gt another ↔ another.value < score.value := by
  have hscore : (0 : ℚ) < score.denominator := Nat.cast_pos.2 score.pos
  have hanother : (0 : ℚ) < another.denominator := Nat.cast_pos.2 another.pos
  rw [gt, decide_eq_true_iff, value, value, div_lt_div_iff₀ hanother hscore]
  exact_mod_cast Iff.rfl

end Score

def relativeComplementSize (lhs rhs : List MetaAddress) : Nat := lhs.countP (· ∉ rhs)

def intersectionSize (lhs rhs : List MetaAddress) : Nat := lhs.countP (· ∈ rhs)

def tverskyIndex (alpha beta : Nat) (lhs rhs : List MetaAddress) : Option Score :=
  if h : intersectionSize lhs rhs = 0 then none
  else
    some ⟨intersectionSize lhs rhs,
      intersectionSize lhs rhs + alpha * relativeComplementSize lhs rhs +
        beta * relativeComplementSize rhs lhs, by omega⟩

/-- The score of a location for a comment. -/
def similarity (comment location : Location) : Option Score :=
  tverskyIndex 1 2 comment.addresses location.addresses

def shouldReplace (old new : Score × Location) : Bool :=
  if new.1.numerator = 0 ∨ new.2.addresses = [] then false
  else if old.1.numerator = 0 ∨ old.2.addresses = [] then true
  else if new.1 ≠ old.1 then new.1.gt old.1
  else new.2.numbers < old.2.numbers

/-- One statement and one comment. -/
def updateScore (comment : Location) (best : Score × Location) (location : Location) :
    Score × Location :=
  match similarity comment location with
  | some score => if shouldReplace best (score, location) then (score, location) else best
  | none => best

/-- What is left for a comment after these locations. -/
def selected (comment : Location) (locations : List Location) : Score × Location :=
  locations.foldl (updateScore comment) (.zero, .empty)

/-! ## Candidates -/

/-- The locations that share an address with the comment, with their scores. -/
def candidates (comment : Location) (locations : List Location) : List (Score × Location) :=
  locations.filterMap fun location => (similarity comment location).map (·, location)

theorem intersectionSize_eq_zero_iff {a b : Location} :
    intersectionSize a.addresses b.addresses = 0 ↔ ¬SharesAddress a b := by
  simp [intersectionSize, SharesAddress, List.countP_eq_zero]

variable {comment : Location}

variable {location : Location}

theorem similarity_eq_none_iff :
    similarity comment location = none ↔ ¬SharesAddress comment location := by
  rw [similarity, tverskyIndex, ← intersectionSize_eq_zero_iff]
  split_ifs with h
  · exact iff_of_true rfl h
  · exact iff_of_false (nomatch ·) h

theorem exists_similarity_iff :
    (∃ score, similarity comment location = some score) ↔ SharesAddress comment location := by
  rw [← Option.ne_none_iff_exists', ne_eq, similarity_eq_none_iff, not_not]

theorem numerator_of_similarity {score : Score} (h : similarity comment location = some score) :
    score.numerator ≠ 0 := by
  rw [similarity, tverskyIndex] at h
  split_ifs at h with hzero
  rw [← Option.some.inj h]
  exact hzero

theorem ne_nil_of_similarity {score : Score} (h : similarity comment location = some score) :
    location.addresses ≠ [] := by
  obtain ⟨x, -, hx⟩ := exists_similarity_iff.1 ⟨score, h⟩
  exact List.ne_nil_of_mem hx

variable {locations : List Location}

theorem mem_candidates_iff {candidate : Score × Location} :
    candidate ∈ candidates comment locations ↔
      candidate.2 ∈ locations ∧ similarity comment candidate.2 = some candidate.1 := by
  rw [candidates, List.mem_filterMap]
  constructor
  · rintro ⟨location, hmem, hsome⟩
    obtain ⟨score, hscore, rfl⟩ := Option.map_eq_some_iff.1 hsome
    exact ⟨hmem, hscore⟩
  · rintro ⟨hmem, hscore⟩
    exact ⟨candidate.2, hmem, by rw [hscore]; rfl⟩

/-! ## The pass over the candidates -/

/-- The best candidate. -/
def best (first : Score × Location) (rest : List (Score × Location)) : Score × Location :=
  RunningBest.best Prod.fst Score.value (·.2.numbers) first rest

/-- One candidate. -/
def replace (old new : Score × Location) : Score × Location :=
  if shouldReplace old new then new else old

theorem foldl_updateScore (comment : Location) (locations : List Location)
    (start : Score × Location) :
    locations.foldl (updateScore comment) start =
      (candidates comment locations).foldl replace start := by
  induction locations generalizing start with
  | nil => rfl
  | cons location locations ih =>
    rw [List.foldl_cons, ih]
    simp only [candidates, List.filterMap_cons, updateScore]
    cases similarity comment location with
    | none => rfl
    | some score => rfl

/-- A score that is not empty, of a location that is not empty. -/
def IsProper (candidate : Score × Location) : Prop :=
  candidate.1.numerator ≠ 0 ∧ candidate.2.addresses ≠ []

theorem isProper_of_mem {candidate : Score × Location}
    (h : candidate ∈ candidates comment locations) : IsProper candidate := by
  obtain ⟨-, hscore⟩ := mem_candidates_iff.1 h
  exact ⟨numerator_of_similarity hscore, ne_nil_of_similarity hscore⟩

theorem replace_empty {new : Score × Location} (h : IsProper new) :
    replace (.zero, .empty) new = new := by
  have hempty : Score.zero.numerator = 0 ∨ Location.empty.addresses = [] := .inl rfl
  rw [replace, shouldReplace, if_neg (not_or.2 h), if_pos hempty, if_pos rfl]

theorem replace_eq_step {old new : Score × Location} (hold : IsProper old) (hnew : IsProper new) :
    replace old new = RunningBest.step Prod.fst Score.value (·.2.numbers) old new := by
  have hreplaces : shouldReplace old new =
      RunningBest.replaces Prod.fst Score.value (·.2.numbers) old new := by
    rw [shouldReplace, if_neg (not_or.2 hnew), if_neg (not_or.2 hold), RunningBest.replaces]
    split_ifs
    · rw [Bool.eq_iff_iff, Score.gt_iff, decide_eq_true_iff]
    · rw [decide_eq_decide]
  rw [replace, RunningBest.step, hreplaces]

theorem foldl_replace {first : Score × Location} {rest : List (Score × Location)}
    (h : ∀ candidate ∈ first :: rest, IsProper candidate) :
    rest.foldl replace first = best first rest := by
  induction rest generalizing first with
  | nil => rfl
  | cons new rest ih =>
    simp only [List.forall_mem_cons] at h
    have hstep : IsProper (replace first new) := by
      rw [replace]
      split_ifs
      · exact h.2.1
      · exact h.1
    rw [List.foldl_cons, ih (List.forall_mem_cons.2 ⟨hstep, h.2.2⟩),
      replace_eq_step h.1 h.2.1]
    rfl

/-- What is left for a comment is its best candidate. -/
theorem selected_eq (comment : Location) (locations : List Location) :
    selected comment locations =
      match candidates comment locations with
      | [] => (.zero, .empty)
      | first :: rest => best first rest := by
  have hproper : ∀ candidate ∈ candidates comment locations, IsProper candidate :=
    fun _ => isProper_of_mem
  rw [selected, foldl_updateScore]
  cases h : candidates comment locations with
  | nil => rfl
  | cons first rest =>
    rw [h] at hproper
    rw [List.foldl_cons, replace_empty (hproper first List.mem_cons_self)]
    exact foldl_replace hproper

/-! ## What is selected -/

/-- The location has the best score of all. -/
def IsBest (comment : Location) (locations : List Location) (location : Location) : Prop :=
  ∃ score, similarity comment location = some score ∧
    ∀ other ∈ locations, ∀ score', similarity comment other = some score' → ¬score'.gt score

/-- The best scores are one fraction, and the best locations that come first by their numbers are
one location. -/
def Unambiguous (comment : Location) (locations : List Location) : Prop :=
  RunningBest.Determined Prod.fst Score.value (·.2.numbers) (candidates comment locations)

theorem candidates_eq_nil_iff :
    candidates comment locations = [] ↔ ∀ location ∈ locations, ¬SharesAddress comment location := by
  simp [candidates, List.filterMap_eq_nil_iff, similarity_eq_none_iff]

theorem selected_of_not_shares (h : ∀ location ∈ locations, ¬SharesAddress comment location) :
    selected comment locations = (.zero, .empty) := by
  rw [selected_eq, candidates_eq_nil_iff.2 h]

theorem unambiguous_of_not_shares (h : ∀ location ∈ locations, ¬SharesAddress comment location) :
    Unambiguous comment locations := by
  rw [Unambiguous, candidates_eq_nil_iff.2 h]
  exact ⟨fun a b ha => absurd ha.1 List.not_mem_nil, fun a b ha => absurd ha.1.1 List.not_mem_nil⟩

/-- A comment that shares an address with a location has a best location. -/
theorem selected_of_shares (h : ∃ location ∈ locations, SharesAddress comment location) :
    selected comment locations ∈ candidates comment locations ∧
      IsBest comment locations (selected comment locations).2 := by
  rw [selected_eq]
  cases hcandidates : candidates comment locations with
  | nil =>
    obtain ⟨location, hmem, hshares⟩ := h
    exact absurd hshares (candidates_eq_nil_iff.1 hcandidates location hmem)
  | cons first rest =>
    obtain ⟨⟨hmem, hvalue⟩, -⟩ :=
      RunningBest.holds_best Prod.fst Score.value (·.2.numbers) first rest
    refine ⟨hmem, ?_⟩
    rw [← hcandidates] at hmem hvalue
    refine ⟨_, (mem_candidates_iff.1 hmem).2, ?_⟩
    intro other hother score' hscore'
    rw [Score.gt_iff]
    exact not_lt.2 (hvalue (score', other) (mem_candidates_iff.2 ⟨hother, hscore'⟩))

variable {order : List Location}

theorem candidates_perm (comment : Location) (h : order.Perm locations) :
    (candidates comment order).Perm (candidates comment locations) :=
  h.filterMap _

theorem candidates_map_snd (comment : Location) (locations : List Location) :
    (candidates comment locations).map Prod.snd =
      locations.filter fun location => (similarity comment location).isSome := by
  induction locations with
  | nil => rfl
  | cons location locations ih =>
    rw [candidates] at ih
    rw [candidates, List.filterMap_cons, List.filter_cons]
    cases similarity comment location with
    | none => exact ih
    | some score => exact congrArg (location :: ·) ih

theorem candidates_of_similarity {cs : List (Score × Location)}
    (h : ∀ c ∈ cs, similarity comment c.2 = some c.1) :
    candidates comment (cs.map Prod.snd) = cs := by
  induction cs with
  | nil => rfl
  | cons c cs ih =>
    rw [List.forall_mem_cons] at h
    rw [candidates] at ih
    rw [candidates, List.map_cons, List.filterMap_cons, h.1, ih h.2]
    rfl

/-- Every order of the candidates comes from an order of the locations. -/
theorem exists_order {cs : List (Score × Location)} (h : cs.Perm (candidates comment locations)) :
    ∃ order, order.Perm locations ∧ candidates comment order = cs := by
  refine ⟨cs.map Prod.snd ++
    locations.filter fun location => ! (similarity comment location).isSome, ?_, ?_⟩
  · have hshares := (h.map Prod.snd).trans (.of_eq (candidates_map_snd comment locations))
    exact (hshares.append_right _).trans (List.filter_append_perm _ _)
  · have hcs : candidates comment (cs.map Prod.snd) = cs :=
      candidates_of_similarity fun c hc => (mem_candidates_iff.1 (h.mem_iff.1 hc)).2
    have hothers : candidates comment
        (locations.filter fun location => ! (similarity comment location).isSome) = [] := by
      rw [candidates_eq_nil_iff]
      intro location hlocation
      rw [← similarity_eq_none_iff]
      simpa using (List.mem_filter.1 hlocation).2
    rw [candidates] at hcs hothers ⊢
    rw [List.filterMap_append, hcs, hothers, List.append_nil]

theorem selected_of_candidates {first : Score × Location} {rest : List (Score × Location)}
    (h : candidates comment order = first :: rest) : selected comment order = best first rest := by
  rw [selected_eq, h]

theorem best_mem (first : Score × Location) (rest : List (Score × Location)) :
    best first rest ∈ first :: rest := (RunningBest.holds_best _ _ _ first rest).1.1

theorem candidate_ext {c c' : Score × Location} (hc : c ∈ candidates comment locations)
    (hc' : c' ∈ candidates comment locations) (h : c.2 = c'.2) : c = c' := by
  have hscore := (mem_candidates_iff.1 hc).2
  rw [h, (mem_candidates_iff.1 hc').2] at hscore
  exact Prod.ext (Option.some.inj hscore).symm h

theorem exists_cons (hne : candidates comment locations ≠ []) (h : order.Perm locations) :
    ∃ first rest, candidates comment order = first :: rest ∧
      (first :: rest).Perm (candidates comment locations) := by
  have hperm := candidates_perm comment h
  cases horder : candidates comment order with
  | nil => exact absurd (List.nil_perm.1 (horder ▸ hperm)) hne
  | cons first rest => exact ⟨first, rest, rfl, horder ▸ hperm⟩

/-- The selection is the same for every order of the locations exactly when it is not ambiguous. -/
theorem selected_perm_iff (h : ∃ location ∈ locations, SharesAddress comment location) :
    (∀ order order', order.Perm locations → order'.Perm locations →
        (selected comment order).2 = (selected comment order').2) ↔
      Unambiguous comment locations := by
  have hne : candidates comment locations ≠ [] := by
    rw [ne_eq, candidates_eq_nil_iff]
    exact fun hnone => h.elim fun location hlocation => hnone location hlocation.1 hlocation.2
  rw [Unambiguous, ← RunningBest.best_perm_iff]
  constructor
  · intro h first rest first' rest' hperm hperm'
    obtain ⟨order, horder, heq⟩ := exists_order hperm
    obtain ⟨order', horder', heq'⟩ := exists_order hperm'
    have hsame := h order order' horder horder'
    rw [selected_of_candidates heq, selected_of_candidates heq'] at hsame
    exact candidate_ext (hperm.mem_iff.1 (best_mem first rest))
      (hperm'.mem_iff.1 (best_mem first' rest')) hsame
  · intro h order order' horder horder'
    obtain ⟨first, rest, heq, hperm⟩ := exists_cons hne horder
    obtain ⟨first', rest', heq', hperm'⟩ := exists_cons hne horder'
    rw [selected_of_candidates heq, selected_of_candidates heq']
    exact congrArg Prod.snd (h first rest first' rest' hperm hperm')

end PTML

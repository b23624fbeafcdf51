import Mathlib.Algebra.Ring.Nat
import Mathlib.Data.List.Flatten

/-!
# Lines with a prefix

A text of lines that all start with the same prefix.  Some of the letters are solid, and those of the
bodies are what the text says.

If the prefix has a solid letter then a separator inside of a body cannot be mistaken for the end of a
line: cutting the text in lines again either meets a line without the prefix, or takes solid letters for
a prefix (`exists_lines_iff`).
-/

namespace PrefixedLines

variable {α : Type*} {sep : α} {p : List α} {bodies rest : List (List α)}

def prefixed (p : List α) (sep : α) (bodies : List (List α)) : List α :=
  bodies.flatMap fun body => p ++ body ++ [sep]

theorem prefixed_cons (body : List α) (bodies : List (List α)) :
    prefixed p sep (body :: bodies) = (p ++ body ++ [sep]) ++ prefixed p sep bodies := rfl

theorem prefixed_append (bodies bodies' : List (List α)) :
    prefixed p sep (bodies ++ bodies') = prefixed p sep bodies ++ prefixed p sep bodies' :=
  List.flatMap_append

/-! ## Counting -/

theorem countP_prefixed (solid : α → Bool) (hsep : solid sep = false) (bodies : List (List α)) :
    (prefixed p sep bodies).countP solid =
      bodies.length * p.countP solid + bodies.flatten.countP solid := by
  induction bodies with
  | nil => simp [prefixed]
  | cons body bodies ih =>
    rw [prefixed_cons, List.countP_append, ih, List.countP_append, List.countP_append,
      List.countP_singleton, hsep, List.length_cons, List.flatten_cons, List.countP_append,
      Nat.add_mul]
    simp only [Bool.false_eq_true, if_false, Nat.one_mul]
    omega

variable [DecidableEq α]

theorem count_prefixed (hp : sep ∉ p) (bodies : List (List α)) :
    (prefixed p sep bodies).count sep = bodies.length + bodies.flatten.count sep := by
  induction bodies with
  | nil => simp [prefixed]
  | cons body bodies ih =>
    rw [prefixed_cons, List.count_append, ih, List.count_append, List.count_append,
      List.count_eq_zero_of_not_mem hp, List.count_singleton_self, List.length_cons,
      List.flatten_cons, List.count_append]
    omega

/-- The text can be cut in lines that say the same exactly if no body has a separator in it. -/
theorem exists_lines_iff {solid : α → Bool} (hsep : solid sep = false) (hp : sep ∉ p)
    (hsolid : ∃ a ∈ p, solid a = true) (bodies : List (List α)) :
    (∃ lines : List (List α), (∀ line ∈ lines, sep ∉ line) ∧
      prefixed p sep bodies = prefixed p sep lines ∧
      lines.flatten.filter solid = bodies.flatten.filter solid) ↔
      ∀ body ∈ bodies, sep ∉ body := by
  constructor
  · rintro ⟨lines, hlines, heq, hfilter⟩ body hbody hmem
    have hpositive : 0 < p.countP solid := List.countP_pos_iff.2 hsolid
    have hletters := congrArg (List.countP solid) heq
    have hbodies : bodies.flatten.countP solid = lines.flatten.countP solid := by
      rw [List.countP_eq_length_filter, List.countP_eq_length_filter, hfilter]
    rw [countP_prefixed solid hsep, countP_prefixed solid hsep, hbodies,
      Nat.add_right_cancel_iff] at hletters
    have hlength := Nat.eq_of_mul_eq_mul_right hpositive hletters
    have hseps := congrArg (List.count sep) heq
    have hnone : lines.flatten.count sep = 0 := List.count_eq_zero_of_not_mem fun h => by
      obtain ⟨line, hline, h⟩ := List.mem_flatten.1 h
      exact hlines line hline h
    rw [count_prefixed hp, count_prefixed hp, hnone, hlength] at hseps
    have hzero : bodies.flatten.count sep = 0 := by omega
    exact List.count_eq_zero.1 hzero (List.mem_flatten.2 ⟨body, hbody, hmem⟩)
  · intro h
    exact ⟨bodies, h, rfl, rfl⟩

end PrefixedLines

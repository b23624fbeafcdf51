import Mathlib.Data.List.Infix

/-!
# Comments and whitespace of C

`splice` removes the backslashes in front of a newline, with the newline.  Compilers also splice
where blanks stand between the two and end lines at carriage returns; the standard does not, and
neither is modelled.  `skip` then leaves out comments and whitespace up to the first token.  It goes
through the text once and keeps in a `Mode` what it is in.

`run` is the mode that a text of nothing but comments and whitespace ends in.  A text keeps the
skipping inside of a block comment exactly when it has the shape `Inside` (`inside_iff`).
-/

namespace CTrivia

/-! ## Lines -/

def splice : List Char → List Char
  | '\\' :: '\n' :: rest => splice rest
  | c :: rest => c :: splice rest
  | [] => []

variable {c : Char}

theorem splice_cons_of_ne (h : c ≠ '\\') (rest : List Char) :
    splice (c :: rest) = c :: splice rest := by
  rw [splice]
  rintro _ rfl
  exact absurd rfl h

variable {x : List Char}

/-- Two texts are spliced one by one, unless they meet in a splice. -/
theorem splice_append {y : List Char} (h : x.getLast? = some '\\' → y.head? ≠ some '\n') :
    splice (x ++ y) = splice x ++ splice y := by
  fun_induction splice x with
  | case1 rest ih =>
    rw [List.cons_append, List.cons_append, splice]
    cases rest with
    | nil => rfl
    | cons d rest => exact ih (by simpa only [List.getLast?_cons_cons] using h)
  | case2 c rest hne ih =>
    have hpair : ∀ more, c = '\\' → rest ++ y = '\n' :: more → False := by
      rintro more rfl heq
      cases rest with
      | nil => exact h rfl (congrArg List.head? heq)
      | cons d rest => exact hne rest rfl (by rw [(List.cons.inj heq).1])
    have hrest : rest.getLast? = some '\\' → y.head? ≠ some '\n' := by
      cases rest with
      | nil => exact fun heq => nomatch heq
      | cons d rest => simpa only [List.getLast?_cons_cons] using h
    rw [List.cons_append, splice.eq_2 _ _ hpair, ih hrest, List.cons_append]
  | case3 => rfl

/-- There is nothing to splice in one line. -/
theorem splice_line {l : List Char} (h : '\n' ∉ l) : splice l = l := by
  fun_induction splice l with
  | case1 rest => simp at h
  | case2 c rest _ ih => rw [ih fun hmem => h (List.mem_cons_of_mem c hmem)]
  | case3 => rfl

/-! ## Skipping -/

inductive Mode where
  | between
  | slash
  | line
  | block
  | star
deriving DecidableEq, Repr

def isSpace (c : Char) : Bool :=
  c = ' ' || c = '\t' || c = '\n' || c = '\x0B' || c = '\x0C'

/-- The mode after another character, unless it belongs to a token. -/
def Mode.step : Mode → Char → Option Mode
  | .between, c => if isSpace c then some .between else if c = '/' then some .slash else none
  | .slash, c => if c = '/' then some .line else if c = '*' then some .block else none
  | .line, c => if c = '\n' then some .between else some .line
  | .block, c => if c = '*' then some .star else some .block
  | .star, c =>
      if c = '/' then some .between else if c = '*' then some .star else some .block

/-- What is read of a token. -/
def Mode.pending : Mode → List Char
  | .slash => ['/']
  | _ => []

/-- The text from the first token on.  A block comment that is not closed has none. -/
def skip (mode : Mode) : List Char → Option (List Char)
  | [] => if mode = .block ∨ mode = .star then none else some mode.pending
  | c :: rest =>
      match mode.step c with
      | some mode => skip mode rest
      | none => some (mode.pending ++ c :: rest)

/-- The mode after a text, unless there is a token in it. -/
def run (mode : Mode) : List Char → Option Mode
  | [] => some mode
  | c :: rest => (mode.step c).bind (run · rest)

variable {mode : Mode}

theorem run_cons {mode' : Mode} (h : mode.step c = some mode') (x : List Char) :
    run mode (c :: x) = run mode' x := by
  rw [run, h, Option.bind_some]

theorem skip_cons {mode' : Mode} (h : mode.step c = some mode') (x : List Char) :
    skip mode (c :: x) = skip mode' x := by
  rw [skip, h]

theorem run_append (mode : Mode) (x y : List Char) :
    run mode (x ++ y) = (run mode x).bind (run · y) := by
  induction x generalizing mode with
  | nil => rfl
  | cons c x ih =>
    rw [List.cons_append, run, run]
    cases mode.step c with
    | none => rfl
    | some mode => exact ih mode

theorem skip_append {mode' : Mode} (h : run mode x = some mode') (y : List Char) :
    skip mode (x ++ y) = skip mode' y := by
  induction x generalizing mode with
  | nil => rw [List.nil_append, Option.some.inj h]
  | cons c x ih =>
    rw [run, Option.bind_eq_some_iff] at h
    obtain ⟨next, hnext, hx⟩ := h
    rw [List.cons_append, skip_cons hnext, ih hx]

/-- The token that ends the skipping stands before whatever follows. -/
theorem skip_append_of_run_eq_none (h : run mode x = none) :
    ∃ token ≠ [], ∀ y, skip mode (x ++ y) = some (token ++ y) := by
  induction x generalizing mode with
  | nil => cases h
  | cons c x ih =>
    cases hstep : mode.step c with
    | none =>
      refine ⟨mode.pending ++ c :: x, by simp, fun y => ?_⟩
      rw [List.cons_append, skip, hstep, List.append_assoc, List.cons_append]
    | some next =>
      rw [run_cons hstep] at h
      obtain ⟨token, hne, htoken⟩ := ih h
      exact ⟨token, hne, fun y => by rw [List.cons_append, skip_cons hstep, htoken]⟩

theorem run_line (h : '\n' ∉ x) : run .line x = some .line := by
  induction x with
  | nil => rfl
  | cons c x ih =>
    rw [List.mem_cons, not_or] at h
    have hstep : Mode.line.step c = some .line := if_neg (Ne.symm h.1)
    rw [run_cons hstep, ih h.2]

/-! ## Inside of a block comment -/

/-- There is no end of a comment in the text. -/
def NoClose (x : List Char) : Prop := ¬['*', '/'] <:+: x

instance : DecidablePred NoClose := fun _ => inferInstanceAs (Decidable (¬_))

/-- Whitespace and line comments. -/
inductive Blank : List Char → Prop where
  | nil : Blank []
  | space {c w} : isSpace c → Blank w → Blank (c :: w)
  | line {l w} : '\n' ∉ l → Blank w → Blank ('/' :: '/' :: l ++ '\n' :: w)

/-- A text that starts and ends inside of a block comment: whenever a comment is closed, only
whitespace and line comments come before another one is opened. -/
inductive Inside : List Char → Prop where
  | plain {u} : NoClose u → Inside u
  | reopened {u w v} : NoClose u → Blank w → Inside v →
      Inside (u ++ '*' :: '/' :: w ++ '/' :: '*' :: v)

theorem noClose_cons (h : NoClose x) (hc : c = '*' → x.head? ≠ some '/') : NoClose (c :: x) := by
  intro hclose
  rcases List.infix_cons_iff.1 hclose with hprefix | hinfix
  · obtain ⟨rest, hrest⟩ := hprefix
    obtain ⟨rfl, rfl⟩ := List.cons.inj hrest
    exact hc rfl rfl
  · exact h hinfix

theorem inside_cons (h : Inside x) (hc : c = '*' → x.head? ≠ some '/') : Inside (c :: x) := by
  cases h with
  | plain hu => exact .plain (noClose_cons hu hc)
  | @reopened u w v hu hw hv =>
    refine .reopened (u := c :: u) (noClose_cons hu fun heq => ?_) hw hv
    cases u with
    | nil => simp
    | cons d u => exact hc heq

/-- Blank text up to a comment that is opened, and a text inside of that comment. -/
def Opens (x : List Char) : Prop :=
  ∃ w v, x = w ++ '/' :: '*' :: v ∧ Blank w ∧ Inside v

/-- The shape of a text that ends in a block comment, from each mode. -/
def Mode.Ends : Mode → List Char → Prop
  | .between, x => Opens x
  | .slash, x => Opens ('/' :: x)
  | .line, x => ∃ l y, x = l ++ '\n' :: y ∧ '\n' ∉ l ∧ Opens y
  | .block, x => Inside x
  | .star, x => Inside ('*' :: x)

theorem opens_space (hc : isSpace c) (h : Opens x) : Opens (c :: x) := by
  obtain ⟨w, v, rfl, hw, hv⟩ := h
  exact ⟨c :: w, v, rfl, .space hc hw, hv⟩

/-- One step back over a character. -/
theorem Mode.ends_cons {next : Mode} (hstep : mode.step c = some next) (h : next.Ends x) :
    mode.Ends (c :: x) := by
  cases mode with
  | between =>
    rw [step] at hstep
    split_ifs at hstep with hspace hslash
    · obtain rfl := Option.some.inj hstep
      exact opens_space hspace h
    · obtain rfl := Option.some.inj hstep
      rw [hslash]
      exact h
  | slash =>
    rw [step] at hstep
    split_ifs at hstep with hslash hstar
    · obtain rfl := Option.some.inj hstep
      obtain ⟨l, _, rfl, hl, w, v, rfl, hw, hv⟩ := h
      exact ⟨'/' :: '/' :: l ++ '\n' :: w, v, by simp [hslash], .line hl hw, hv⟩
    · obtain rfl := Option.some.inj hstep
      exact ⟨[], x, by rw [hstar, List.nil_append], .nil, h⟩
  | line =>
    rw [step] at hstep
    split_ifs at hstep with hnewline
    · obtain rfl := Option.some.inj hstep
      exact ⟨[], x, by rw [hnewline, List.nil_append], List.not_mem_nil, h⟩
    · obtain rfl := Option.some.inj hstep
      obtain ⟨l, y, rfl, hl, hy⟩ := h
      exact ⟨c :: l, y, rfl, List.not_mem_cons_of_ne_of_not_mem (Ne.symm hnewline) hl, hy⟩
  | block =>
    rw [step] at hstep
    split_ifs at hstep with hstar
    · obtain rfl := Option.some.inj hstep
      rw [hstar]
      exact h
    · obtain rfl := Option.some.inj hstep
      exact inside_cons h fun heq => absurd heq hstar
  | star =>
    rw [step] at hstep
    split_ifs at hstep with hslash hstar
    · obtain rfl := Option.some.inj hstep
      obtain ⟨w, v, rfl, hw, hv⟩ := h
      rw [hslash]
      exact .reopened (u := []) (by decide) hw hv
    · obtain rfl := Option.some.inj hstep
      subst hstar
      exact inside_cons h fun _ => by simp
    · obtain rfl := Option.some.inj hstep
      have hc : Inside (c :: x) := inside_cons h fun heq => absurd heq hstar
      exact inside_cons hc fun _ => by simpa using hslash

/-- A text that ends in a block comment has the shape for the mode it starts in. -/
theorem Mode.ends_of_run (h : run mode x = some .block ∨ run mode x = some .star) :
    mode.Ends x := by
  induction x generalizing mode with
  | nil =>
    rcases h with h | h
    · obtain rfl := Option.some.inj h
      exact .plain (by decide)
    · obtain rfl := Option.some.inj h
      exact .plain (by decide)
  | cons c x ih =>
    cases hstep : mode.step c with
    | none => simp [run, hstep] at h
    | some next =>
      rw [run_cons hstep] at h
      exact mode.ends_cons hstep (ih h)

theorem run_blank {w : List Char} (h : Blank w) : run .between w = some .between := by
  induction h with
  | nil => rfl
  | @space c w hc _ ih =>
    have hstep : Mode.between.step c = some .between := if_pos hc
    rw [run_cons hstep, ih]
  | @line l w hl _ ih =>
    rw [List.cons_append, List.cons_append]
    calc run .between ('/' :: '/' :: (l ++ '\n' :: w))
        = run .line (l ++ '\n' :: w) := rfl
      _ = run .line ('\n' :: w) := by rw [run_append, run_line hl, Option.bind_some]
      _ = run .between w := rfl
      _ = some .between := ih

theorem NoClose.of_cons (h : NoClose (c :: x)) : NoClose x :=
  fun hclose => h (List.infix_cons_iff.2 (.inr hclose))

/-- Without the end of a comment the comment goes on. -/
theorem run_noClose (x : List Char) :
    (NoClose x → run .block x = some .block ∨ run .block x = some .star) ∧
      (NoClose ('*' :: x) → run .star x = some .block ∨ run .star x = some .star) := by
  induction x with
  | nil => exact ⟨fun _ => .inl rfl, fun _ => .inr rfl⟩
  | cons c x ih =>
    refine ⟨fun h => ?_, fun h => ?_⟩
    · by_cases hstar : c = '*'
      · have hstep : Mode.block.step c = some .star := if_pos hstar
        rw [run_cons hstep]
        exact ih.2 (hstar ▸ h)
      · have hstep : Mode.block.step c = some .block := if_neg hstar
        rw [run_cons hstep]
        exact ih.1 h.of_cons
    · have hslash : c ≠ '/' := by
        rintro rfl
        exact h ⟨[], x, rfl⟩
      by_cases hstar : c = '*'
      · have hstep : Mode.star.step c = some .star := by rw [Mode.step, if_neg hslash, if_pos hstar]
        rw [run_cons hstep]
        exact ih.2 (hstar ▸ h.of_cons)
      · have hstep : Mode.star.step c = some .block := by
          rw [Mode.step, if_neg hslash, if_neg hstar]
        rw [run_cons hstep]
        exact ih.1 h.of_cons.of_cons

theorem run_close (h : mode = .block ∨ mode = .star) (x : List Char) :
    run mode ('*' :: '/' :: x) = run .between x := by
  rcases h with rfl | rfl <;> rfl

theorem run_inside (h : Inside x) : run .block x = some .block ∨ run .block x = some .star := by
  induction h with
  | plain hu => exact (run_noClose _).1 hu
  | @reopened u w v hu hw _ ih =>
    have hopen : run .block (u ++ '*' :: '/' :: w ++ '/' :: '*' :: v) = run .block v := by
      obtain ⟨mode, hmode, hrun⟩ : ∃ mode, (mode = .block ∨ mode = .star) ∧
          run .block u = some mode := by
        rcases (run_noClose u).1 hu with h | h
        · exact ⟨_, .inl rfl, h⟩
        · exact ⟨_, .inr rfl, h⟩
      calc run .block (u ++ '*' :: '/' :: w ++ '/' :: '*' :: v)
          = run mode ('*' :: '/' :: (w ++ '/' :: '*' :: v)) := by
            rw [List.append_assoc, run_append, hrun, Option.bind_some]
            rfl
        _ = run .between (w ++ '/' :: '*' :: v) := run_close hmode _
        _ = run .between ('/' :: '*' :: v) := by
            rw [run_append, run_blank hw, Option.bind_some]
        _ = run .block v := rfl
    rwa [hopen]

theorem inside_iff : Inside x ↔ run .block x = some .block ∨ run .block x = some .star :=
  ⟨run_inside, Mode.ends_of_run⟩

/-! ## Around a text -/

/-- A line comment goes on behind its line when the line ends in a backslash. -/
theorem skip_line {l : List Char} (h : '\n' ∉ l) (y : List Char) :
    skip .line (splice (l ++ '\n' :: y)) =
      if l.getLast? = some '\\' then skip .line (splice y) else skip .between (splice y) := by
  split_ifs with hlast
  · obtain ⟨l, rfl⟩ := List.getLast?_eq_some_iff.1 hlast
    have hl : '\n' ∉ l := fun hmem => h (List.mem_append_left _ hmem)
    have hsplice : splice (l ++ ['\\'] ++ '\n' :: y) = l ++ splice y := by
      rw [List.append_assoc, splice_append fun _ => by simp, splice_line hl]
      rfl
    rw [hsplice, skip_append (run_line hl)]
  · rw [splice_append fun heq => absurd heq hlast, splice_line h, skip_append (run_line h),
      splice_cons_of_ne (by decide)]
    rfl

/-- Another line comment on the next line goes on with the first one, whether the line ends in a
backslash or not. -/
theorem skip_line_comment {l : List Char} (h : '\n' ∉ l) (y : List Char) :
    skip .line (splice (l ++ '\n' :: '/' :: '/' :: y)) = skip .line (splice y) := by
  have hsplice : splice ('/' :: '/' :: y) = '/' :: '/' :: splice y := by
    rw [splice_cons_of_ne (by decide), splice_cons_of_ne (by decide)]
  rw [skip_line h, hsplice]
  split_ifs <;> rfl

/-- A block comment around a text ends where it should when the text stays inside. -/
theorem skip_block (h : Inside x) (y : List Char) :
    skip .block (x ++ '*' :: '/' :: y) = skip .between y := by
  rcases inside_iff.1 h with h | h
  · rw [skip_append h]
    rfl
  · rw [skip_append h]
    rfl

/-- Otherwise the end of the text, or another character behind it, is not what it seems. -/
theorem inside_of_skip_block (hnil : skip .block (x ++ ['*', '/']) = some [])
    (hcons : skip .block (x ++ ['*', '/', c]) = some [c]) : Inside x := by
  rw [inside_iff]
  cases h : run .block x with
  | none =>
    obtain ⟨token, hne, htoken⟩ := skip_append_of_run_eq_none h
    rw [htoken] at hnil
    simp [hne] at hnil
  | some mode =>
    rw [skip_append h] at hnil hcons
    cases mode with
    | between => cases hnil
    | slash => cases hnil
    | line =>
      have hline : skip .line ['*', '/', c] = some [] := by
        by_cases hc : c = '\n'
        · rw [hc]
          rfl
        · have hstep : Mode.line.step c = some .line := if_neg hc
          exact skip_cons hstep []
      rw [hline] at hcons
      cases hcons
    | block => exact .inl rfl
    | star => exact .inr rfl

end CTrivia

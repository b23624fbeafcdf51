import Revng.Lib.Worklist

/-!
# Least solutions and paths

Where a value is a set of facts and a transfer function adds some facts and carries over others,
fact by fact, the least solution of a flow problem holds the facts that come along some path
(`holds_least_iff`).
-/

namespace FlowPaths

variable {N L F α : Type*} [SemilatticeSup L] [OrderBot L] {Holds : L → F → Prop}

/-- The values are the sets of facts. -/
structure Facts (Holds : L → F → Prop) : Prop where
  le_iff : ∀ a b, a ≤ b ↔ ∀ x, Holds a x → Holds b x
  realized : ∀ P : F → Prop, ∃ a, ∀ x, Holds a x ↔ P x

/-- The facts of the output are generated, or each comes from one fact of the input. -/
def Distributive (Holds : L → F → Prop) (T : L → L) : Prop :=
  ∃ (gen : F → Prop) (move : F → F → Prop),
    ∀ a y, Holds (T a) y ↔ gen y ∨ ∃ x, Holds a x ∧ move x y

namespace Distributive

variable {S T : L → L}

omit [SemilatticeSup L] [OrderBot L] in
theorem comp (hS : Distributive Holds S) (hT : Distributive Holds T) :
    Distributive Holds fun a => T (S a) := by
  obtain ⟨gen, move, hS⟩ := hS
  obtain ⟨gen', move', hT⟩ := hT
  refine ⟨fun y => gen' y ∨ ∃ x, gen x ∧ move' x y, fun z y => ∃ x, move z x ∧ move' x y,
    fun a y => ?_⟩
  rw [hT]
  constructor
  · rintro (hgen | ⟨x, hx, hmove⟩)
    · exact .inl (.inl hgen)
    · rcases (hS a x).mp hx with hgen | ⟨z, hz, hfirst⟩
      · exact .inl (.inr ⟨x, hgen, hmove⟩)
      · exact .inr ⟨z, hz, x, hfirst, hmove⟩
  · rintro ((hgen | ⟨x, hgen, hmove⟩) | ⟨z, hz, x, hfirst, hmove⟩)
    · exact .inl hgen
    · exact .inr ⟨x, (hS a x).mpr (.inl hgen), hmove⟩
    · exact .inr ⟨x, (hS a x).mpr (.inr ⟨z, hz, hfirst⟩), hmove⟩

omit [SemilatticeSup L] [OrderBot L] in
theorem foldr {step : α → L → L} (h : ∀ o, Distributive Holds (step o)) (ops : List α) :
    Distributive Holds fun a => ops.foldr step a := by
  induction ops with
  | nil => exact ⟨fun _ => False, fun x y => x = y, fun a y => by simp⟩
  | cons o rest ih => exact ih.comp (h o)

omit [OrderBot L] in
theorem monotone (hT : Distributive Holds T)
    (hle : ∀ a b, a ≤ b ↔ ∀ x, Holds a x → Holds b x) : Monotone T := by
  obtain ⟨gen, move, hT⟩ := hT
  intro a b hab
  refine (hle _ _).mpr fun y hy => (hT b y).mpr (((hT a y).mp hy).imp_right ?_)
  rintro ⟨x, hx, hmove⟩
  exact ⟨x, (hle _ _).mp hab x hx, hmove⟩

end Distributive

/-- The nodes of a path to `n`, the last one first. -/
abbrev IsPath (edge : N → N → Prop) (n : N) (path : List N) : Prop :=
  (n :: path).IsChain fun a b => edge b a

/-- The least solution holds what comes along a path from nothing. -/
theorem holds_least_iff {P : Worklist.Problem N L} {X : N → L} (hF : Facts Holds)
    (hT : ∀ n, Distributive Holds (P.transfer n)) (hinit : ∀ n, P.init n = ⊥)
    (hdomain : ∀ m n, P.edge m n → P.domain m) (hX : P.IsSolution X)
    (hleast : ∀ Y, P.IsSolution Y → ∀ n, P.domain n → X n ≤ Y n) {n : N} (hn : P.domain n)
    {y : F} :
    Holds (X n) y ↔ ∃ path, IsPath P.edge n path ∧ Holds (path.foldr P.transfer ⊥) y := by
  constructor
  · have hY := fun n => hF.realized fun y =>
      ∃ path, IsPath P.edge n path ∧ Holds (path.foldr P.transfer ⊥) y
    choose Y hY using hY
    have hsolves : P.IsSolution Y := by
      refine ⟨fun n _ => hinit n ▸ bot_le, fun m n _ hmn => (hF.le_iff _ _).mpr fun y hy => ?_⟩
      obtain ⟨gen, move, hmove⟩ := hT m
      rcases (hmove _ y).mp hy with hgen | ⟨x, hx, hxy⟩
      · exact (hY n y).mpr ⟨[m], by simpa [IsPath] using hmn, (hmove _ y).mpr (.inl hgen)⟩
      · obtain ⟨path, hpath, hx⟩ := (hY m x).mp hx
        exact (hY n y).mpr ⟨m :: path, .cons_cons hmn hpath, (hmove _ y).mpr (.inr ⟨x, hx, hxy⟩)⟩
    exact fun hy => (hY n y).mp ((hF.le_iff _ _).mp (hleast Y hsolves n hn) y hy)
  · rintro ⟨path, hpath, hy⟩
    refine (hF.le_iff (path.foldr P.transfer ⊥) (X n)).mp ?_ y hy
    clear hy hn
    induction path generalizing n with
    | nil => exact bot_le
    | cons m path ih =>
      obtain ⟨hmn, hrest⟩ := List.isChain_cons_cons.mp hpath
      exact (P.mono m (ih hrest)).trans (hX.edge m n (hdomain m n hmn) hmn)

end FlowPaths

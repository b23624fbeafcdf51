import Mathlib.Data.DFinsupp.WellFounded
import Mathlib.Data.Fintype.Powerset

/-!
# Fixed points by worklist

A flow problem gives every node of a graph an initial value and a monotone transfer
function.  A solution is an assignment that is above the initial values and above
the output of every predecessor.  A worklist algorithm keeps an assignment and a set of
pending nodes, takes some pending node, joins its output into its successors, and
makes the successors pending that were not above that output yet.

`Invariant` holds along every such run, whatever node is taken.  When nothing is pending
it says that the assignment is the least solution (`Invariant.isSolution`).  Every step
raises the assignment or takes a node off the worklist (`Step.progress`), so in an order
with no infinite ascending chain every run ends (`wellFounded_step`).
-/

namespace Worklist

variable {N L : Type*} [SemilatticeSup L]

/-- The equations of an analysis of the nodes in `domain`. -/
structure Problem (N L : Type*) [SemilatticeSup L] where
  edge : N → N → Prop
  domain : N → Prop
  closed : ∀ {m n}, domain m → edge m n → domain n
  transfer : N → L → L
  mono : ∀ n, Monotone (transfer n)
  init : N → L

/-- The assignment is above the initial values and the outputs of the predecessors. -/
structure Problem.IsSolution (P : Problem N L) (X : N → L) : Prop where
  init : ∀ n, P.domain n → P.init n ≤ X n
  edge : ∀ m n, P.domain m → P.edge m n → P.transfer m (X m) ≤ X n

structure State (N L : Type*) where
  inVal : N → L
  outVal : N → L
  pending : N → Prop

/-- The node `n` is taken off the worklist and its output is passed on. -/
structure Step (P : Problem N L) (n : N) (s t : State N L) : Prop where
  taken : s.pending n
  out_self : t.outVal n = P.transfer n (s.inVal n)
  out_ne : ∀ m, m ≠ n → t.outVal m = s.outVal m
  in_edge : ∀ m, P.edge n m → t.inVal m = s.inVal m ⊔ P.transfer n (s.inVal n)
  in_ne : ∀ m, ¬ P.edge n m → t.inVal m = s.inVal m
  pending : ∀ m, t.pending m ↔
    (s.pending m ∧ m ≠ n) ∨ (P.edge n m ∧ ¬ P.transfer n (s.inVal n) ≤ s.inVal m)

/-- What holds along every run. -/
structure Invariant (P : Problem N L) (s : State N L) : Prop where
  pending : ∀ n, s.pending n → P.domain n
  init : ∀ n, P.domain n → P.init n ≤ s.inVal n
  below : ∀ X, P.IsSolution X → ∀ n, P.domain n → s.inVal n ≤ X n
  settled : ∀ n, P.domain n → ¬ s.pending n →
    s.outVal n = P.transfer n (s.inVal n) ∧ ∀ m, P.edge n m → s.outVal n ≤ s.inVal m

variable {P : Problem N L} {n : N} {s t : State N L}

/-- Everything is pending in the first state. -/
theorem Invariant.start (hin : ∀ n, P.domain n → s.inVal n = P.init n)
    (hpending : ∀ n, s.pending n ↔ P.domain n) : Invariant P s where
  pending n hn := (hpending n).mp hn
  init n hn := (hin n hn).ge
  below _ hX n hn := (hin n hn).le.trans (hX.init n hn)
  settled n hn hp := absurd ((hpending n).mpr hn) hp

theorem Step.in_le (h : Step P n s t) (m : N) : s.inVal m ≤ t.inVal m := by
  by_cases he : P.edge n m
  · rw [h.in_edge m he]
    exact le_sup_left
  · exact (h.in_ne m he).ge

/-- A node that is not pending after a step has kept its value. -/
theorem Step.in_eq_of_not_pending (h : Step P n s t) {m : N} (hm : ¬ t.pending m) :
    t.inVal m = s.inVal m := by
  by_cases he : P.edge n m
  · have hle : P.transfer n (s.inVal n) ≤ s.inVal m := by
      by_contra hnot
      exact hm ((h.pending m).mpr (Or.inr ⟨he, hnot⟩))
    rw [h.in_edge m he, sup_eq_left.mpr hle]
  · exact h.in_ne m he

theorem Step.invariant (h : Step P n s t) (hi : Invariant P s) : Invariant P t := by
  have hn : P.domain n := hi.pending n h.taken
  refine ⟨fun m hm => ?_, fun m hm => (hi.init m hm).trans (h.in_le m), fun X hX m hm => ?_,
    fun m hm hp => ?_⟩
  · rcases (h.pending m).mp hm with ⟨hm, -⟩ | ⟨he, -⟩
    · exact hi.pending m hm
    · exact P.closed hn he
  · by_cases he : P.edge n m
    · rw [h.in_edge m he]
      refine sup_le (hi.below X hX m hm) ?_
      calc P.transfer n (s.inVal n) ≤ P.transfer n (X n) := P.mono n (hi.below X hX n hn)
        _ ≤ X m := hX.edge n m hn he
    · rw [h.in_ne m he]
      exact hi.below X hX m hm
  · have hin := h.in_eq_of_not_pending hp
    by_cases hmn : m = n
    · subst hmn
      refine ⟨by rw [h.out_self, hin], fun k hk => ?_⟩
      rw [h.out_self, h.in_edge k hk]
      exact le_sup_right
    · have hs : ¬ s.pending m := fun hs => hp ((h.pending m).mpr (Or.inl ⟨hs, hmn⟩))
      obtain ⟨hout, hedge⟩ := hi.settled m hm hs
      refine ⟨by rw [h.out_ne m hmn, hin, hout], fun k hk => ?_⟩
      rw [h.out_ne m hmn]
      exact (hedge k hk).trans (h.in_le k)

/-- A step raises the assignment or leaves it and shortens the worklist. -/
theorem Step.progress (h : Step P n s t) :
    s.inVal < t.inVal ∨
      (t.inVal = s.inVal ∧ ∀ m, t.pending m ↔ s.pending m ∧ m ≠ n) := by
  by_cases hraise : ∃ m, P.edge n m ∧ ¬ P.transfer n (s.inVal n) ≤ s.inVal m
  · obtain ⟨m, he, hnot⟩ := hraise
    refine Or.inl (Pi.lt_def.mpr ⟨h.in_le, m, lt_of_le_of_ne (h.in_le m) fun heq => hnot ?_⟩)
    rw [h.in_edge m he] at heq
    exact sup_eq_left.mp heq.symm
  · have hpending : ∀ m, t.pending m ↔ s.pending m ∧ m ≠ n := by
      intro m
      rw [h.pending m]
      exact or_iff_left fun hm => hraise ⟨m, hm⟩
    refine Or.inr ⟨funext fun m => ?_, hpending⟩
    by_cases he : P.edge n m
    · have hle : P.transfer n (s.inVal n) ≤ s.inVal m := by
        by_contra hnot
        exact hraise ⟨m, he, hnot⟩
      rw [h.in_edge m he, sup_eq_left.mpr hle]
    · exact h.in_ne m he

/-- Over finitely many nodes, and with no infinite ascending chain, every run ends. -/
theorem wellFounded_step [Finite N] [WellFoundedGT L] (P : Problem N L) :
    WellFounded fun t s : State N L => ∃ n, Step P n s t := by
  have hin : WellFounded fun f g : N → L => g < f :=
    (Pi.wellFoundedLT : WellFoundedLT (N → Lᵒᵈ)).wf
  have hpending : WellFounded fun a b : Set N => a < b := wellFounded_lt
  refine Subrelation.wf ?_
    (InvImage.wf (fun s : State N L => (s.inVal, {n | s.pending n})) (hin.prod_lex hpending))
  rintro t s ⟨n, h⟩
  rcases h.progress with hlt | ⟨heq, hp⟩
  · exact Prod.Lex.left _ _ hlt
  · simp only [InvImage, heq]
    refine Prod.Lex.right _ (Set.ssubset_iff_of_subset ?_ |>.mpr ⟨n, h.taken, ?_⟩)
    · exact fun m hm => ((hp m).mp hm).1
    · exact fun hm => ((hp n).mp hm).2 rfl

/-- When nothing is pending the assignment is the least solution. -/
theorem Invariant.isSolution (h : Invariant P s) (hp : ∀ n, ¬ s.pending n) :
    P.IsSolution s.inVal where
  init := h.init
  edge m n hm he := by
    obtain ⟨hout, hedge⟩ := h.settled m hm (hp m)
    rw [← hout]
    exact hedge n he

end Worklist

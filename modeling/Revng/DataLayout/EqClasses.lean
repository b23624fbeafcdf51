import Revng.DataLayout.TypeSystem

/-!
# Classes of merged nodes

`VectEqClasses` joins the classes of nodes that are merged, and keeps all removed nodes in
one class.  `Classified` says what the classes are at any time: two integers are in one
class when they have the same owner.  The identifiers of the nodes are wider than
`unsigned`, so this needs that there are not too many of them.
-/

namespace DataLayout

variable {E : Type}

/-! ## Joining and growing -/

/-- What is documented of the classes: `grow` puts new integers into classes of their own,
and `join` makes one class of two. -/
class LawfulIntEqClasses (E : Type) [IntEqClasses E] : Prop where
  size_empty : IntEqClasses.size (IntEqClasses.empty : E) = 0
  size_grow : ∀ (e : E) (n : Nat), IntEqClasses.size (IntEqClasses.grow e n) =
    max (IntEqClasses.size e) n
  findLeader_grow : ∀ (e : E) (n x y : Nat), x < IntEqClasses.size (IntEqClasses.grow e n) →
    y < IntEqClasses.size (IntEqClasses.grow e n) →
    (IntEqClasses.findLeader (IntEqClasses.grow e n) x =
        IntEqClasses.findLeader (IntEqClasses.grow e n) y ↔
      x = y ∨ x < IntEqClasses.size e ∧ y < IntEqClasses.size e ∧
        IntEqClasses.findLeader e x = IntEqClasses.findLeader e y)
  size_join : ∀ (e : E) (a b : Nat), IntEqClasses.size (IntEqClasses.join e a b) =
    IntEqClasses.size e
  findLeader_join : ∀ (e : E) (a b x y : Nat), a < IntEqClasses.size e → b < IntEqClasses.size e →
    x < IntEqClasses.size e → y < IntEqClasses.size e →
    (IntEqClasses.findLeader (IntEqClasses.join e a b) x =
        IntEqClasses.findLeader (IntEqClasses.join e a b) y ↔
      IntEqClasses.findLeader e x = IntEqClasses.findLeader e y ∨
      IntEqClasses.findLeader e x = IntEqClasses.findLeader e a ∧
        IntEqClasses.findLeader e y = IntEqClasses.findLeader e b ∨
      IntEqClasses.findLeader e x = IntEqClasses.findLeader e b ∧
        IntEqClasses.findLeader e y = IntEqClasses.findLeader e a)

variable [IntEqClasses E]

/-- The first `n` integers have the classes of their owners, where `none` owns the removed
ones. -/
structure Classified (v : VectEqClasses E) (n : Nat) (owner : Nat → Option Nat) : Prop where
  nElems : v.nElems = n
  lt : n < 2 ^ 32
  size : IntEqClasses.size v.classes = n
  same : ∀ x < n, ∀ y < n,
    IntEqClasses.findLeader v.classes x = IntEqClasses.findLeader v.classes y ↔ owner x = owner y
  removed : ∀ r, v.removedID = some r → r < n ∧ owner r = none
  kept : v.removedID = none → ∀ x < n, owner x ≠ none

section Classes

variable [LawfulIntEqClasses E] {v : VectEqClasses E} {n : Nat} {owner : Nat → Option Nat}

theorem unsigned_of_lt {x : Nat} (h : x < 2 ^ 32) : unsigned x = x := Nat.mod_eq_of_lt h

theorem classified_empty (owner : Nat → Option Nat) :
    Classified (LayoutTypeSystem.empty (E := E)).eqClasses 0 owner where
  nElems := rfl
  lt := by decide
  size := LawfulIntEqClasses.size_empty
  same := by simp
  removed := by simp [LayoutTypeSystem.empty]
  kept := by simp

theorem Classified.growBy1 (h : Classified v n owner) (hn : n + 1 < 2 ^ 32)
    (hfresh : ∀ x < n, owner x ≠ some n) :
    Classified v.growBy1 (n + 1) (Function.update owner n (some n)) where
  nElems := by rw [VectEqClasses.growBy1, h.nElems, unsigned_of_lt hn]
  lt := hn
  size := by
    rw [VectEqClasses.growBy1, LawfulIntEqClasses.size_grow, h.nElems, unsigned_of_lt hn, h.size]
    exact max_eq_right (Nat.le_succ n)
  same := fun x hx y hy => by
    have hgrown : IntEqClasses.size (IntEqClasses.grow v.classes (unsigned (v.nElems + 1))) =
        n + 1 := by
      rw [LawfulIntEqClasses.size_grow, h.nElems, unsigned_of_lt hn, h.size]
      exact max_eq_right (Nat.le_succ n)
    rw [VectEqClasses.growBy1, LawfulIntEqClasses.findLeader_grow _ _ _ _ (hgrown ▸ hx)
      (hgrown ▸ hy), h.size]
    rcases Nat.lt_succ_iff_lt_or_eq.mp hx with hx | rfl <;>
      rcases Nat.lt_succ_iff_lt_or_eq.mp hy with hy | rfl
    · rw [Function.update_of_ne hx.ne, Function.update_of_ne hy.ne, h.same x hx y hy]
      simp only [hx, hy, true_and, or_iff_right_iff_imp]
      exact congrArg owner
    · simp [hx.ne, hfresh x hx]
    · simp [hy.ne, hy.ne', (hfresh y hy).symm]
    · simp
  removed := fun r hr => by
    obtain ⟨hlt, hnone⟩ := h.removed r hr
    exact ⟨hlt.trans (Nat.lt_succ_self n), by rwa [Function.update_of_ne hlt.ne]⟩
  kept := fun hnone x hx => by
    rcases Nat.lt_succ_iff_lt_or_eq.mp hx with hx | rfl
    · rw [Function.update_of_ne hx.ne]
      exact h.kept hnone x hx
    · simp

theorem replace_eq_iff {α : Type} [DecidableEq α] (a b p q : α) :
    (if p = b then a else p) = (if q = b then a else q) ↔
      p = q ∨ p = a ∧ q = b ∨ p = b ∧ q = a := by
  by_cases hp : p = b <;> by_cases hq : q = b
  · simp [hp, hq]
  · simp [hp, hq, eq_comm, Ne.symm hq]
  · simp [hp, hq]
  · simp [hp, hq]

/-- Joining two classes gives the elements of the second one the owner of the first. -/
theorem Classified.same_join (h : Classified v n owner) {a b : Nat} (ha : a < n) (hb : b < n) :
    ∀ x < n, ∀ y < n,
      IntEqClasses.findLeader (IntEqClasses.join v.classes a b) x =
          IntEqClasses.findLeader (IntEqClasses.join v.classes a b) y ↔
        (if owner x = owner b then owner a else owner x) =
          (if owner y = owner b then owner a else owner y) := by
  intro x hx y hy
  rw [LawfulIntEqClasses.findLeader_join v.classes a b x y (h.size ▸ ha) (h.size ▸ hb) (h.size ▸ hx)
    (h.size ▸ hy), h.same x hx y hy, h.same x hx a ha, h.same y hy b hb, h.same x hx b hb,
    h.same y hy a ha, replace_eq_iff]

/-- The nodes of `src` belong to `into`. -/
theorem Classified.merge (h : Classified v n owner) {src into : Nat} (hsrc : src < n)
    (hinto : into < n) (hosrc : owner src = some src) (hointo : owner into = some into) :
    Classified (v.join (unsigned into) (unsigned src)) n fun x =>
      if owner x = some src then some into else owner x where
  nElems := h.nElems
  lt := h.lt
  size := (LawfulIntEqClasses.size_join _ _ _).trans h.size
  same := by
    rw [unsigned_of_lt (hsrc.trans h.lt), unsigned_of_lt (hinto.trans h.lt), ← hosrc, ← hointo]
    exact h.same_join hinto hsrc
  removed := fun r hr => by
    obtain ⟨hlt, hnone⟩ := h.removed r hr
    simp [hlt, hnone]
  kept := fun hnone x hx => by
    split
    · simp
    · exact h.kept hnone x hx

/-- The nodes of `k` are removed. -/
theorem Classified.remove (h : Classified v n owner) {k : Nat} (hk : k < n)
    (hok : owner k = some k) :
    Classified (v.remove (unsigned k)) n fun x => if owner x = some k then none else owner x := by
  rw [unsigned_of_lt (hk.trans h.lt), VectEqClasses.remove]
  cases hremoved : v.removedID with
  | none =>
    refine ⟨h.nElems, h.lt, h.size, fun x hx y hy => ?_, fun r hr => ?_, by simp⟩
    · rw [replace_eq_iff, h.same x hx y hy]
      simp [h.kept hremoved x hx, h.kept hremoved y hy]
    · cases hr
      exact ⟨hk, if_pos hok⟩
  | some r =>
    obtain ⟨hr, hnone⟩ := h.removed r hremoved
    refine ⟨h.nElems, h.lt, (LawfulIntEqClasses.size_join _ _ _).trans h.size, ?_, ?_, ?_⟩
    · intro x hx y hy
      refine (h.same_join hk hr x hx y hy).trans ?_
      rw [replace_eq_iff, replace_eq_iff, hok, hnone,
        or_comm (a := owner x = some k ∧ owner y = none)]
    · intro r' hr'
      cases (hr'.symm.trans hremoved : some r' = some r)
      simp [hr, hnone]
    · exact fun hnone' => absurd (hnone'.symm.trans hremoved) (by simp)

end Classes

/-! ## A table of leaders -/

/-- Classes that know the smallest member of every class. -/
structure LeaderTable where
  size : Nat
  leader : Nat → Nat
  leader_le : ∀ x, leader x ≤ x
  leader_of_le : ∀ x, size ≤ x → leader x = x

namespace LeaderTable

def grow (e : LeaderTable) (n : Nat) : LeaderTable where
  size := max e.size n
  leader := e.leader
  leader_le := e.leader_le
  leader_of_le := fun x hx => e.leader_of_le x ((le_max_left _ _).trans hx)

def join (e : LeaderTable) (a b : Nat) : LeaderTable where
  size := e.size
  leader := fun x =>
    if x < e.size ∧ e.leader x = max (e.leader a) (e.leader b) then min (e.leader a) (e.leader b)
    else e.leader x
  leader_le := fun x => by
    have hle := e.leader_le x
    split
    next h => exact (min_le_max.trans h.2.ge).trans hle
    next => exact hle
  leader_of_le := fun x hx => by
    rw [if_neg fun h => h.1.not_ge hx]
    exact e.leader_of_le x hx

instance : IntEqClasses LeaderTable where
  empty := ⟨0, id, fun _ => le_rfl, fun _ _ => rfl⟩
  size := size
  grow := grow
  join := join
  findLeader := leader

instance : LawfulIntEqClasses LeaderTable where
  size_empty := rfl
  size_grow := fun _ _ => rfl
  findLeader_grow := fun e n x y _ _ => by
    change e.leader x = e.leader y ↔ x = y ∨ x < e.size ∧ y < e.size ∧ e.leader x = e.leader y
    constructor
    · intro h
      by_cases hx : x < e.size <;> by_cases hy : y < e.size
      · exact Or.inr ⟨hx, hy, h⟩
      · have hle := e.leader_le x
        rw [h, e.leader_of_le y (not_lt.mp hy)] at hle
        omega
      · have hle := e.leader_le y
        rw [← h, e.leader_of_le x (not_lt.mp hx)] at hle
        omega
      · rw [e.leader_of_le x (not_lt.mp hx), e.leader_of_le y (not_lt.mp hy)] at h
        exact Or.inl h
    · rintro (rfl | h)
      · rfl
      · exact h.2.2
  size_join := fun _ _ _ => rfl
  findLeader_join := fun e a b x y _ _ hx hy => by
    change (if x < e.size ∧ e.leader x = max (e.leader a) (e.leader b) then
        min (e.leader a) (e.leader b) else e.leader x) =
      (if y < e.size ∧ e.leader y = max (e.leader a) (e.leader b) then
        min (e.leader a) (e.leader b) else e.leader y) ↔ _
    have hx' : x < e.size := hx
    have hy' : y < e.size := hy
    simp only [hx', hy', true_and, replace_eq_iff]
    rcases le_total (e.leader a) (e.leader b) with hab | hab
    · rw [min_eq_left hab, max_eq_right hab]
      rfl
    · rw [min_eq_right hab, max_eq_left hab, or_comm (a := e.leader x = e.leader b ∧ _)]
      rfl

end LeaderTable

end DataLayout

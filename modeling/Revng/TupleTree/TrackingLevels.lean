import Revng.TupleTree.TrackedTree

/-!
# Tracking levels

A push puts a new level on all trackers of a tree, and the pop that matches it takes that level
off again.  What happens in between are accesses, further brackets of a push and a pop, and
clears.

The pop restores the trackers that the push found, unless there is a clear in between.  The clear
of a field's tracker is one of the current level, but that of a container drops the levels below
it as well.  So the bracket is right if it has no clear, or if the tree has no container
(`restores_iff`).
-/

namespace TupleTree

open TrackedTree

variable {S : Type} [DecidableEq S]

/-! ## Runs -/

/-- What happens to the trackers of a tree, in order. -/
inductive Acts (S : Type) where
  | nil
  | access (mark : Mark S) (rest : Acts S)
  | clear (rest : Acts S)
  | bracket (body rest : Acts S)

namespace Acts

/-- How many pushes are open at the same time. -/
def depth : Acts S → Nat
  | nil => 0
  | access _ rest => rest.depth
  | clear rest => rest.depth
  | bracket body rest => max (body.depth + 1) rest.depth

def ClearFree : Acts S → Prop
  | nil => True
  | access _ rest => rest.ClearFree
  | clear _ => False
  | bracket body rest => body.ClearFree ∧ rest.ClearFree

/-- There is no result when one of the operations aborts. -/
def run : Acts S → TrackedTree S → Option (TrackedTree S)
  | nil, u => some u
  | access mark rest, u => (TrackedTree.access mark u).bind rest.run
  | clear rest, u => (clearAndResume u).bind rest.run
  | bracket body rest, u => do
      let pushed ← push u
      let done ← body.run pushed
      let popped ← pop done
      rest.run popped

/-- A run from `u` clears the tree when it is in the state `w`. -/
inductive ReachesClear : Acts S → TrackedTree S → TrackedTree S → Prop where
  | here {rest : Acts S} {u : TrackedTree S} : ReachesClear (clear rest) u u
  | clear {rest : Acts S} {u v w : TrackedTree S} :
      clearAndResume u = some v → ReachesClear rest v w → ReachesClear (clear rest) u w
  | access {mark : Mark S} {rest : Acts S} {u v w : TrackedTree S} :
      TrackedTree.access mark u = some v → ReachesClear rest v w →
      ReachesClear (access mark rest) u w
  | inside {body rest : Acts S} {u v w : TrackedTree S} :
      push u = some v → ReachesClear body v w → ReachesClear (bracket body rest) u w
  | after {body rest : Acts S} {u v v' u' w : TrackedTree S} :
      push u = some v → body.run v = some v' → pop v' = some u' → ReachesClear rest u' w →
      ReachesClear (bracket body rest) u w

end Acts

/-- A push, these acts and the pop leave the tree as it was before the push, and each clear in
between leaves the levels below the current one. -/
structure Restores (body : Acts S) (u : TrackedTree S) : Prop where
  restored : (Acts.bracket body .nil).run u = some u
  clearsLocal : ∀ v w w', push u = some v → body.ReachesClear v w → clearAndResume w = some w' →
    outer w' = outer w

/-! ## Tracked trees -/

/-- The trackers are active, apart from those of kinds, which no clear activates.  So many further
pushes fit, and the numbers of levels in the containers satisfy `levels`. -/
structure TrackedAt (levels : Nat → Prop) (n : Nat) (u : TrackedTree S) : Prop where
  lt : n < 8
  all : All (fun isKind t => (isKind = false → t.isTracking = true) ∧ t.Fits n)
    (fun size c => c.Tracked n size ∧ levels c.existing.length) u

/-- A tree whose tracking has been started, and on which so many further pushes fit. -/
abbrev Tracked (n : Nat) (u : TrackedTree S) : Prop := TrackedAt (fun _ => True) n u

omit [DecidableEq S] in
theorem TrackedAt.mono {levels levels' : Nat → Prop} {n : Nat} {u : TrackedTree S}
    (h : TrackedAt levels n u) (hle : ∀ l, levels l → levels' l) : TrackedAt levels' n u :=
  ⟨h.lt, h.all.mono id fun hc => ⟨hc.1, hle _ hc.2⟩⟩

/-! ## One act -/

section Steps

variable {levels : Nat → Prop} {n : Nat} {u : TrackedTree S}

/-- An access does not matter to the pop. -/
theorem TrackedAt.access (h : TrackedAt levels n u) (m : Mark S) :
    ∃ v, TrackedTree.access m u = some v ∧ TrackedAt levels n v ∧ pop v = pop u := by
  have hs : AccessSafe (fun isKind t => (isKind = false → t.isTracking = true) ∧ t.Fits n)
      (fun size c => c.Tracked n size ∧ levels c.existing.length)
      (⟨fun t => some t.pop, TrackingContainer.trackingPop⟩ : Visitor S) :=
    { tracker := fun ht => ⟨ht.1, (AccessTracker.fits_access h.lt _).mpr ht.2⟩
      onTracker := by
        intro isKind t
        cases isKind with
        | false => simp [Visitor.onTracker]
        | true =>
          simp [Visitor.onTracker, AccessTracker.suspend, AccessTracker.access,
            AccessTracker.pop, AccessTracker.shift_or]
      exact := fun hc => ⟨⟨hc.1.exact_access h.lt, hc.2⟩,
        TrackingContainer.trackingPop_exact_access _ _⟩
      key := by
        intro size c index key hc
        obtain ⟨c', hc', htracked, hlength⟩ := hc.1.markKey index key
        refine ⟨c', hc', ⟨htracked, by rw [hlength]; exact hc.2⟩, ?_⟩
        exact TrackingContainer.trackingPop_markKey hc' }
  obtain ⟨v, hv, hall, hpop⟩ := hs.access m u h.all
  exact ⟨v, hv, ⟨h.lt, hall⟩, hpop⟩

omit [DecidableEq S] in
/-- A push makes a level, and the pop undoes it. -/
theorem TrackedAt.push (h : TrackedAt levels (n + 1) u) :
    ∃ v, TrackedTree.push u = some v ∧
      TrackedAt (fun l => ∃ k, 1 ≤ k ∧ levels k ∧ l = k + 1) n v ∧ pop v = some u := by
  have hn : n < 8 := by
    have hlt := h.lt
    omega
  have he : Establishes (fun isKind t => (isKind = false → t.isTracking = true) ∧ t.Fits (n + 1))
      (fun size c => c.Tracked (n + 1) size ∧ levels c.existing.length)
      (⟨AccessTracker.push, TrackingContainer.trackingPush⟩ : Visitor S)
      (fun isKind t => (isKind = false → t.isTracking = true) ∧ t.Fits n)
      (fun size c => c.Tracked n size ∧ ∃ k, 1 ≤ k ∧ levels k ∧ c.existing.length = k + 1) :=
    { tracker := by
        intro isKind t ht
        obtain ⟨t', ht', hfits, htracking⟩ := ht.2.push hn
        refine ⟨t', ?_, fun hkind => htracking.trans (ht.1 hkind), hfits⟩
        cases isKind <;> simp [Visitor.onTracker, ht']
      container := by
        intro size c hc
        obtain ⟨c', hc', htracked, hlength⟩ := hc.1.push hn
        exact ⟨c', hc', htracked, _, List.length_pos_iff.mpr hc.1.existing, hc.2, hlength⟩ }
  obtain ⟨v, hv, hall⟩ := exists_visitImpl he h.all
  have hc : Composes (fun isKind t => (isKind = false → t.isTracking = true) ∧ t.Fits (n + 1))
      (fun size c => c.Tracked (n + 1) size ∧ levels c.existing.length)
      (⟨AccessTracker.push, TrackingContainer.trackingPush⟩ : Visitor S)
      ⟨fun t => some t.pop, TrackingContainer.trackingPop⟩ ⟨some, fun _ => some⟩ :=
    { tracker := by
        intro isKind t t' _ ht'
        cases isKind with
        | false => exact congrArg some (AccessTracker.pop_push ht')
        | true =>
          have hpush : t.push = some t' := by simpa [Visitor.onTracker] using ht'
          simp [Visitor.onTracker, AccessTracker.pop_push hpush]
      container := fun hc hpush => hc.1.pop_push hpush }
  exact ⟨v, hv, ⟨hn, hall⟩, (visitImpl_visitImpl hc h.all hv).trans (visitImpl_some u)⟩

omit [DecidableEq S] in
theorem TrackedAt.clear (h : TrackedAt levels n u) :
    ∃ v, clearAndResume u = some v ∧ TrackedAt (fun l => ∃ k, levels k ∧ l = 1) n v := by
  have he : Establishes (fun isKind t => (isKind = false → t.isTracking = true) ∧ t.Fits n)
      (fun size c => c.Tracked n size ∧ levels c.existing.length)
      (⟨fun t => some t.clear, fun size c => some (c.clearTracking size)⟩ : Visitor S)
      (fun isKind t => (isKind = false → t.isTracking = true) ∧ t.Fits n)
      (fun size c => c.Tracked n size ∧ ∃ k, levels k ∧ c.existing.length = 1) :=
    { tracker := by
        intro isKind t ht
        cases isKind with
        | false => exact ⟨t.clear, rfl, fun _ => rfl, ht.2.clear⟩
        | true => exact ⟨_, rfl, by simp, ht.2.clear⟩
      container := fun hc => ⟨_, rfl, hc.1.clear, _, hc.2, rfl⟩ }
  obtain ⟨v, hv, hall⟩ := exists_visitImpl he h.all
  exact ⟨v, hv, h.lt, hall⟩

omit [DecidableEq S] in
/-- Without containers, a clear is one of the current level. -/
theorem TrackedAt.clear_local (h : TrackedAt (fun _ => False) n u) {v : TrackedTree S}
    (hv : clearAndResume u = some v) : pop v = pop u ∧ outer v = outer u := by
  have hc : ∀ containers,
      Composes (fun isKind t => (isKind = false → t.isTracking = true) ∧ t.Fits n)
        (fun size c => c.Tracked n size ∧ False)
        (⟨fun t => some t.clear, fun size c => some (c.clearTracking size)⟩ : Visitor S)
        ⟨fun t => some t.pop, containers⟩ ⟨fun t => some t.pop, containers⟩ := by
    intro containers
    refine { tracker := ?_, container := fun hc => hc.2.elim }
    intro isKind t t' ht ht'
    cases isKind with
    | false =>
      obtain rfl : t.clear = t' := Option.some.inj ht'
      exact congrArg some (AccessTracker.pop_clear (ht.1 rfl))
    | true =>
      obtain rfl : { t.clear with isTracking := t.isTracking } = t' := Option.some.inj ht'
      exact congrArg (fun c => some (AccessTracker.mk c t.isTracking))
        (AccessTracker.shift_clear t.counter)
  exact ⟨visitImpl_visitImpl (hc _) h.all hv, visitImpl_visitImpl (hc _) h.all hv⟩

omit [DecidableEq S] in
/-- A clear below which there are levels is only local if there is no container. -/
theorem TrackedAt.containerFree (h : TrackedAt (2 ≤ ·) n u) {v : TrackedTree S}
    (hv : clearAndResume u = some v) (hlocal : outer v = outer u) : ContainerFree u := by
  have he : Establishes (fun _ _ => True) (fun _ _ => True)
      (⟨fun t => some t.pop, fun _ c => some c.outer⟩ : Visitor S)
      (fun _ _ => True) (fun _ _ => True) :=
    { tracker := by
        intro isKind t _
        cases isKind <;> exact ⟨_, rfl, trivial⟩
      container := fun _ => ⟨_, rfl, trivial⟩ }
  obtain ⟨w, hw, -⟩ := exists_visitImpl he (h.all.mono (fun _ => trivial) fun _ => trivial)
  refine containerFree_of_visitImpl_eq ?_ h.all hv (hlocal.trans hw) hw
  intro size c c' hc hc' heq
  obtain rfl : c.clearTracking size = c' := Option.some.inj hc'
  exact TrackingContainer.outer_clearTracking_ne hc.2 (Option.some.inj heq)

omit [DecidableEq S] in
theorem containerFree_of_pop_eq {v : TrackedTree S} (hpop : pop v = pop u)
    (h : ContainerFree v) : ContainerFree u := by
  have he : Establishes (fun _ _ => True) (fun _ _ => False)
      (⟨fun t => some t.pop, TrackingContainer.trackingPop⟩ : Visitor S)
      (fun _ _ => True) (fun _ _ => False) :=
    { tracker := by
        intro isKind t _
        cases isKind <;> exact ⟨_, rfl, trivial⟩
      container := False.elim }
  obtain ⟨w, hw, hfree⟩ := exists_visitImpl he h
  exact containerFree_of_visitImpl (hpop.symm.trans hw) hfree

end Steps

/-! ## Runs -/

section Runs

variable {levels : Nat → Prop} {n : Nat}

/-- A run is not seen by a pop, if it clears nothing or there are no containers. -/
theorem TrackedAt.run (hlevels : ∀ k, 1 ≤ k → levels k → levels (k + 1)) {acts : Acts S}
    (hclear : acts.ClearFree ∨ ∀ k, ¬ levels k) {u : TrackedTree S} (h : TrackedAt levels n u)
    (hdepth : acts.depth ≤ n) :
    ∃ v, acts.run u = some v ∧ TrackedAt levels n v ∧ pop v = pop u := by
  induction acts generalizing n u with
  | nil => exact ⟨u, rfl, h, rfl⟩
  | access m rest ih =>
    obtain ⟨v, hv, hat, hpop⟩ := h.access m
    obtain ⟨w, hw, hat, hpop'⟩ := ih hclear hat hdepth
    exact ⟨w, by rw [Acts.run, hv, Option.bind_some, hw], hat, hpop'.trans hpop⟩
  | clear rest ih =>
    have hnone : ∀ k, ¬ levels k := hclear.resolve_left id
    have hfree : TrackedAt (fun _ => False) n u := h.mono fun k => hnone k
    obtain ⟨v, hv, hat⟩ := h.clear
    have hlocal := hfree.clear_local hv
    obtain ⟨w, hw, hat, hpop⟩ := ih (Or.inr hnone)
      (hat.mono fun l ⟨k, hk, _⟩ => absurd hk (hnone k)) hdepth
    exact ⟨w, by rw [Acts.run, hv, Option.bind_some, hw], hat, hpop.trans hlocal.1⟩
  | bracket body rest ihbody ihrest =>
    obtain ⟨hbody, hrest⟩ := max_le_iff.mp hdepth
    obtain ⟨m, rfl⟩ := Nat.exists_eq_add_of_le' (Nat.le_trans (Nat.le_add_left 1 _) hbody)
    obtain ⟨v, hv, hat, hpop⟩ := h.push
    have hat' : TrackedAt levels m v := hat.mono fun l ⟨k, hpos, hk, hl⟩ => hl ▸ hlevels k hpos hk
    obtain ⟨v', hv', -, hpop'⟩ := ihbody (hclear.imp_left And.left) hat' (by omega)
    obtain ⟨w, hw, hat, hpopw⟩ := ihrest (hclear.imp_left And.right) h hrest
    refine ⟨w, ?_, hat, hpopw⟩
    simp only [Acts.run, hv, hv', hpop', hpop, hw, Option.bind_eq_bind, Option.bind_some]

/-- Whatever the run has cleared before, the tree stays without containers. -/
theorem TrackedAt.reachesClear {acts : Acts S} {u w : TrackedTree S}
    (hreach : acts.ReachesClear u w) :
    ∀ {n}, TrackedAt (fun _ => False) n u → acts.depth ≤ n →
      ∃ m, TrackedAt (fun _ => False) m w := by
  induction hreach with
  | here => exact fun h _ => ⟨_, h⟩
  | clear hv _ ih =>
    intro n h hdepth
    obtain ⟨v, hv', hat⟩ := h.clear
    cases Option.some.inj (hv.symm.trans hv')
    exact ih (hat.mono fun l ⟨k, hk, _⟩ => hk) hdepth
  | access hv _ ih =>
    intro n h hdepth
    obtain ⟨v, hv', hat, -⟩ := h.access _
    cases Option.some.inj (hv.symm.trans hv')
    exact ih hat hdepth
  | inside hv _ ih =>
    intro n h hdepth
    obtain ⟨hbody, -⟩ := max_le_iff.mp hdepth
    obtain ⟨m, rfl⟩ := Nat.exists_eq_add_of_le' (Nat.le_trans (Nat.le_add_left 1 _) hbody)
    obtain ⟨v, hv', hat, -⟩ := h.push
    cases Option.some.inj (hv.symm.trans hv')
    exact ih (hat.mono fun l ⟨k, _, hk, _⟩ => hk) (by omega)
  | @after body rest u v v' u' w hv hrun hpop _ ih =>
    intro n h hdepth
    obtain ⟨hbody, hrest⟩ := max_le_iff.mp hdepth
    obtain ⟨m, rfl⟩ := Nat.exists_eq_add_of_le' (Nat.le_trans (Nat.le_add_left 1 _) hbody)
    obtain ⟨_, hv', hat, hpopv⟩ := h.push
    cases Option.some.inj (hv.symm.trans hv')
    have hat' : TrackedAt (fun _ => False) m v := hat.mono fun l ⟨k, _, hk, _⟩ => hk
    have hbody' : body.depth ≤ m := by omega
    obtain ⟨_, hrun', -, hpopv'⟩ := hat'.run (fun _ _ hk => hk) (Or.inr fun _ => id) hbody'
    cases Option.some.inj (hrun.symm.trans hrun')
    cases Option.some.inj (hpop.symm.trans (hpopv'.trans hpopv))
    exact ih h hrest

/-- The first clear of a run comes when the levels are still there. -/
theorem TrackedAt.exists_reachesClear {acts : Acts S} {u : TrackedTree S}
    (h : TrackedAt (2 ≤ ·) n u) (hdepth : acts.depth ≤ n) (hclear : ¬ acts.ClearFree) :
    ∃ m w, acts.ReachesClear u w ∧ TrackedAt (2 ≤ ·) m w ∧
      (ContainerFree w → ContainerFree u) := by
  induction acts generalizing n u with
  | nil => exact absurd trivial hclear
  | access mark rest ih =>
    obtain ⟨v, hv, hat, hpop⟩ := h.access mark
    obtain ⟨m, w, hreach, hatw, hfree⟩ := ih hat hdepth hclear
    exact ⟨m, w, .access hv hreach, hatw, fun hw => containerFree_of_pop_eq hpop (hfree hw)⟩
  | clear rest ih => exact ⟨n, u, .here, h, id⟩
  | bracket body rest ihbody ihrest =>
    obtain ⟨hbody, hrest⟩ := max_le_iff.mp hdepth
    obtain ⟨m, rfl⟩ := Nat.exists_eq_add_of_le' (Nat.le_trans (Nat.le_add_left 1 _) hbody)
    obtain ⟨v, hv, hat, hpop⟩ := h.push
    have hat' : TrackedAt (2 ≤ ·) m v := hat.mono fun l ⟨k, _, hk, hl⟩ => by omega
    by_cases hinside : body.ClearFree
    · obtain ⟨v', hv', -, hpop'⟩ := TrackedAt.run (fun k _ hk => Nat.le_succ_of_le hk)
        (Or.inl hinside) hat' (by omega)
      obtain ⟨m', w, hreach, hatw, hfree⟩ := ihrest h hrest fun h => hclear ⟨hinside, h⟩
      exact ⟨m', w, .after hv hv' (hpop'.trans hpop) hreach, hatw, hfree⟩
    · obtain ⟨m', w, hreach, hatw, hfree⟩ := ihbody hat' (by omega) hinside
      exact ⟨m', w, .inside hv hreach, hatw, fun hw => containerFree_of_visitImpl hv (hfree hw)⟩

end Runs

/-! ## When a bracket restores the trackers -/

omit [DecidableEq S] in
theorem Tracked.of_containerFree {n : Nat} {u : TrackedTree S} (h : Tracked n u)
    (hfree : ContainerFree u) : TrackedAt (fun _ => False) n u :=
  ⟨h.lt, (h.all.and hfree).mono And.left fun hc => ⟨hc.1.1, hc.2⟩⟩

theorem Acts.ClearFree.not_reachesClear {acts : Acts S} {u w : TrackedTree S}
    (h : acts.ReachesClear u w) : ¬ acts.ClearFree := by
  induction h with
  | here => exact id
  | clear => exact id
  | access _ _ ih => exact ih
  | inside _ _ ih => exact fun h => ih h.1
  | after _ _ _ _ ih => exact fun h => ih h.2

/-- A bracket is right exactly if nothing is cleared in it or there is no container. -/
theorem restores_iff {u : TrackedTree S} {body : Acts S} (h : Tracked (body.depth + 1) u) :
    Restores body u ↔ body.ClearFree ∨ ContainerFree u := by
  obtain ⟨v, hv, hat, hpop⟩ := h.push
  constructor
  · intro hrestores
    by_cases hclear : body.ClearFree
    · exact Or.inl hclear
    · right
      have hat' : TrackedAt (2 ≤ ·) body.depth v := hat.mono fun l ⟨k, hpos, _, hl⟩ => by omega
      obtain ⟨m, w, hreach, hatw, hfree⟩ := hat'.exists_reachesClear le_rfl hclear
      obtain ⟨w', hw', -⟩ := hatw.clear
      have hlocal := hrestores.clearsLocal v w w' hv hreach hw'
      exact containerFree_of_visitImpl hv (hfree (hatw.containerFree hw' hlocal))
  · intro hright
    -- the levels are not asked for when nothing is cleared
    obtain ⟨levels, hlevels, hclear, hat⟩ : ∃ levels : Nat → Prop,
        (∀ k, 1 ≤ k → levels k → levels (k + 1)) ∧ (body.ClearFree ∨ ∀ k, ¬ levels k) ∧
          TrackedAt levels (body.depth + 1) u := by
      rcases hright with hclear | hfree
      · exact ⟨fun _ => True, fun _ _ _ => trivial, Or.inl hclear, h⟩
      · exact ⟨fun _ => False, fun _ _ => id, Or.inr fun _ => id, h.of_containerFree hfree⟩
    refine ⟨?_, fun v' w w' hv' hreach hw' => ?_⟩
    · obtain ⟨v', hv', hat', hpop'⟩ := hat.push
      cases Option.some.inj (hv.symm.trans hv')
      obtain ⟨w, hw, -, hpopw⟩ := TrackedAt.run hlevels hclear
        (hat'.mono fun l ⟨k, hpos, hk, hl⟩ => hl ▸ hlevels k hpos hk) le_rfl
      simp only [Acts.run, hv, hw, hpopw, hpop, Option.bind_eq_bind, Option.bind_some]
    · rcases hright with hclear | hfree
      · exact absurd hclear (Acts.ClearFree.not_reachesClear hreach)
      · obtain ⟨v₁, hv₁, hatv, -⟩ := (h.of_containerFree hfree).push
        cases Option.some.inj (hv'.symm.trans hv₁)
        obtain ⟨m, hatw⟩ := TrackedAt.reachesClear hreach
          (hatv.mono fun l ⟨k, _, hk, _⟩ => hk) le_rfl
        exact (hatw.clear_local hw').2

/-- A binary with one function, whose tracking has been started. -/
def trackedFunctions (existing : List (List Bool)) : TrackedTree Nat :=
  .struct [(⟨0, true⟩, .container .sortedVector ⟨⟨0, true⟩, [∅], existing, true⟩
    [([1], .struct [(⟨0, true⟩, .scalar 1)])])]

theorem tracked_trackedFunctions (requested : Bool) : Tracked 2 (trackedFunctions [[requested]]) := by
  have hcontainer : TrackingContainer.Tracked 2 1
      (⟨⟨0, true⟩, [∅], [[requested]], true⟩ : TrackingContainer (List Nat)) :=
    ⟨rfl, by simp [AccessTracker.Fits], rfl, by simp, by simp, by simp⟩
  exact ⟨by decide, ⟨⟨⟨trivial, ⟨fun _ => rfl, by decide⟩, trivial⟩, trivial⟩, hcontainer, trivial⟩,
    ⟨fun _ => rfl, by decide⟩, trivial⟩

/-- Another function is asked for, in a bracket within a bracket. -/
theorem restores_nested :
    Restores (.bracket (.access (.key [.field 0] [2]) .nil) .nil)
      (trackedFunctions [[true]]) := by
  refine (restores_iff ?_).mpr (Or.inl ⟨trivial, trivial⟩)
  exact tracked_trackedFunctions true

/-- The function was asked for before the push, and a clear after the push forgets that. -/
theorem not_restores_clear :
    (Acts.clear (.access (.key [.field 0] [1]) .nil)).run (trackedFunctions [[false]]) =
        some (trackedFunctions [[true]]) ∧
      Tracked 2 (trackedFunctions [[true]]) ∧
      ¬ Restores (.clear .nil) (trackedFunctions [[true]]) := by
  refine ⟨rfl, tracked_trackedFunctions true, fun h => ?_⟩
  have hrun : (Acts.bracket (.clear .nil) .nil).run (trackedFunctions [[true]]) =
      some (trackedFunctions [[false]]) := rfl
  have heq := Option.some.inj (hrun.symm.trans h.restored)
  simp [trackedFunctions] at heq

end TupleTree

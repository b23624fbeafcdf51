import Mathlib.Data.List.Forall2
import Revng.Pypeline.LocalStorage
import Revng.Pypeline.MemoryStorage

/-!
# The storage providers agree

Both providers hold the same objects and dependencies as long as they delete the same
dependencies.  They do not always.  The provider in memory deletes the entries of the
changed paths.  The one on disk deletes the entries that start at the savepoint, in the
container and at the identifier of an invalidated object, whatever their path.

`SameCleanup` says that the two selections coincide, and that an operation stays within
what both providers support.  Sequences of such operations have the same results
(`results_agree`).
-/

namespace Pypeline

variable {K : KindLayout}

/-! ## Running a provider -/

/-- The results of a sequence of operations. -/
def results {σ : Type} (step : σ → StorageOp K → σ × Response K) :
    σ → List (StorageOp K) → List (Response K)
  | _, [] => []
  | s, op :: rest => (step s op).2 :: results step (step s op).1 rest

/-- The providers delete the same dependencies: an entry has a changed path exactly
when it starts at an invalidated object.  The identifiers have a rank that the
database supports, and objects are loaded from locations that have been stored to. -/
def SameCleanup (m : MemoryStorage K) (s : LocalStorage) : StorageOp K → Prop
  | .get location _ => (m.storage.lookup location).isSome = true
  | .addObjects dependencies _ =>
      ∀ d ∈ dependencies, ∀ x ∈ d.dependencies, x.2.1.rank ≤ 1
  | .setModel paths additional =>
      (∀ a ∈ additional, ∀ o ∈ a.objects, o.rank ≤ 1) ∧
        ∀ d ∈ s.dependencies, d.modelPath ∈ paths ↔
          ∃ o ∈ s.objects, s.isInvalidated paths additional o = true ∧ d.startsAt o = true
  | .has _ _ | .pruneObjects => True

instance (m : MemoryStorage K) (s : LocalStorage) (op : StorageOp K) :
    Decidable (SameCleanup m s op) :=
  match op with
  | .get _ _ => inferInstanceAs (Decidable (_ = true))
  | .addObjects dependencies _ =>
      inferInstanceAs (Decidable (∀ d ∈ dependencies, ∀ x ∈ d.dependencies, x.2.1.rank ≤ 1))
  | .setModel _ _ => inferInstanceAs (Decidable (_ ∧ _))
  | .has _ _ | .pruneObjects => inferInstanceAs (Decidable True)

/-- Every operation of the sequence meets the condition when it is its turn. -/
def SameCleanupThroughout : MemoryStorage K → LocalStorage → List (StorageOp K) → Prop
  | _, _, [] => True
  | m, s, op :: rest =>
      SameCleanup m s op ∧ SameCleanupThroughout (m.step op).1 (s.step op).1 rest

instance decidableSameCleanupThroughout :
    ∀ (m : MemoryStorage K) (s : LocalStorage) (ops : List (StorageOp K)),
      Decidable (SameCleanupThroughout m s ops)
  | _, _, [] => inferInstanceAs (Decidable True)
  | m, s, op :: rest =>
      have := decidableSameCleanupThroughout (m.step op).1 (s.step op).1 rest
      inferInstanceAs (Decidable (_ ∧ _))

/-! ## Simulation -/

/-- The providers hold the same. -/
structure SameContents (m : MemoryStorage K) (s : LocalStorage) : Prop where
  wellFormed : m.WellFormed
  supported : s.Supported K
  view : m.view = s.view K

theorem SameContents.empty : SameContents (K := K) MemoryStorage.empty LocalStorage.empty :=
  ⟨.empty, .empty, MemoryStorage.view_empty.trans LocalStorage.view_empty.symm⟩

theorem SameContents.setModel {m : MemoryStorage K} {s : LocalStorage} (h : SameContents m s)
    {paths : List ModelPath} {additional : List (ObjectsToInvalidate K)}
    (hc : SameCleanup m s (.setModel paths additional)) :
    SameContents (m.invalidate paths additional).1 (s.invalidate paths additional).1 := by
  obtain ⟨ha, hdel⟩ := hc
  refine ⟨h.wellFormed.invalidate paths additional, h.supported.invalidate paths additional, ?_⟩
  rw [MemoryStorage.view_invalidate]
  have hobjects : ((s.invalidate paths additional).1.view K).objects = _ :=
    LocalStorage.objects_invalidate h.supported ha
  rw [h.view, ← hobjects]
  congr 1
  ext x
  refine Iff.trans ?_ ((LocalStorage.invalidate_rows s paths additional).2 (dependencyRow x)).symm
  exact and_congr_right fun hx => not_congr (hdel (dependencyRow x) hx)

/-- One operation on providers that hold the same has the same result and leaves them
holding the same. -/
theorem SameContents.step {m : MemoryStorage K} {s : LocalStorage} (h : SameContents m s)
    {op : StorageOp K} (hc : SameCleanup m s op) :
    (m.step op).2.Agree (s.step op).2 ∧ SameContents (m.step op).1 (s.step op).1 := by
  cases op with
  | has location keys =>
    refine ⟨fun k => ?_, h⟩
    rw [MemoryStorage.mem_has h.wellFormed, LocalStorage.mem_has, h.view]
  | get location keys =>
    obtain ⟨objects, hl⟩ := Option.isSome_iff_exists.mp hc
    have hget : m.get location keys =
        .ok (keys.filterMap fun k => (objects.lookup k).map fun b => (k, b)) := by
      simp [MemoryStorage.get, hl]
    simp only [MemoryStorage.step, hget]
    refine ⟨fun x => ?_, h⟩
    rw [MemoryStorage.mem_get h.wellFormed hget, LocalStorage.mem_get, h.view]
  | addObjects dependencies objects =>
    obtain ⟨s', hs'⟩ : ∃ s', s.addObjects dependencies objects = .ok s' :=
      LocalStorage.addObjects_ok hc
    obtain ⟨hview, hsupported⟩ := LocalStorage.addObjects_eq_ok hs'
    simp only [MemoryStorage.step, LocalStorage.step, hs']
    refine ⟨trivial, h.wellFormed.addObjects _ _, hsupported h.supported, ?_⟩
    rw [MemoryStorage.view_addObjects, hview, h.view]
  | setModel paths additional =>
    refine ⟨fun x => (MemoryStorage.mem_invalidated h.wellFormed).trans ?_, h.setModel hc⟩
    rw [h.view]
    exact (LocalStorage.mem_invalidated h.supported hc.1).symm
  | pruneObjects =>
    refine ⟨trivial, .pruneObjects m, by simp [LocalStorage.Supported, LocalStorage.step,
      LocalStorage.pruneObjects], ?_⟩
    exact (MemoryStorage.view_pruneObjects m).trans (LocalStorage.view_pruneObjects s).symm

theorem SameContents.results {ops : List (StorageOp K)} :
    ∀ {m : MemoryStorage K} {s : LocalStorage}, SameContents m s →
      SameCleanupThroughout m s ops →
      List.Forall₂ Response.Agree (results MemoryStorage.step m ops)
        (results LocalStorage.step s ops) := by
  induction ops with
  | nil => exact fun _ _ => .nil
  | cons op rest ih =>
    rintro m s h ⟨hc, hrest⟩
    obtain ⟨hagree, hnext⟩ := h.step hc
    exact .cons hagree (ih hnext hrest)

/-- Providers that start empty have the same result at every step of a sequence whose
operations let them delete the same dependencies. -/
theorem results_agree (ops : List (StorageOp K))
    (h : SameCleanupThroughout MemoryStorage.empty LocalStorage.empty ops) :
    List.Forall₂ Response.Agree (results MemoryStorage.step MemoryStorage.empty ops)
      (results LocalStorage.step LocalStorage.empty ops) :=
  SameContents.empty.results h

/-- An object and its dependency are stored, invalidated and stored again. -/
theorem results_agree_store_invalidate_store :
    let K : KindLayout := ⟨fun _ => 16⟩
    let location : ContainerLocation := ⟨1, "c", "conf"⟩
    let add : StorageOp K := .addObjects
      [⟨0, ⟨1, 2⟩, "conf", [("c", rootObject K, "/Path")], []⟩] [(location, [(rootObject K, [7])])]
    let ops : List (StorageOp K) :=
      [add, .has location [rootObject K], .setModel ["/Path"] [], .has location [rootObject K], add,
        .get location [rootObject K], .setModel ["/Path"] []]
    SameCleanupThroughout MemoryStorage.empty LocalStorage.empty ops ∧
      List.Forall₂ Response.Agree (results MemoryStorage.step MemoryStorage.empty ops)
        (results LocalStorage.step LocalStorage.empty ops) :=
  ⟨by decide, results_agree _ (by decide)⟩

/-- A dependency whose range starts before the savepoint of the object outlives the
object on disk but not in memory, so a second object without dependencies is
invalidated by only one of the providers. -/
theorem not_results_agree :
    ¬ ∀ (K : KindLayout) (ops : List (StorageOp K)),
      List.Forall₂ Response.Agree (results MemoryStorage.step MemoryStorage.empty ops)
        (results LocalStorage.step LocalStorage.empty ops) := by
  intro h
  let K : KindLayout := ⟨fun _ => 16⟩
  let objects : ObjectMap K := [(⟨2, "c", "conf"⟩, [(rootObject K, [7])])]
  have hagree := h K
    [.addObjects [⟨0, ⟨1, 2⟩, "conf", [("c", rootObject K, "/Path")], []⟩] objects,
      .setModel ["/Path"] [], .addObjects [] objects, .setModel ["/Path"] []]
  simp only [results, List.forall₂_cons] at hagree
  have hlast := hagree.2.2.2.1 (⟨2, "c", "conf"⟩, rootObject K)
  exact absurd hlast (by decide)

end Pypeline

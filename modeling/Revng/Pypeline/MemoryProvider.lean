import Revng.Pypeline.MemoryStorage
import Revng.Pypeline.ScheduleSpec

/-!
# The in-memory provider under a schedule

The in-memory provider keeps what is stored, as schedules assume of a provider.
-/

namespace Pypeline

variable {K : KindLayout}

/-! ## Storing items -/

/-- What is stored after storing items: one of them, or what was there before. -/
theorem StorageView.mem_foldl_storeOne_or (items : List (ContainerLocation × ObjectID K × Bytes)) :
    ∀ {objects : Set (ContainerLocation × ObjectID K × Bytes)} {x},
      x ∈ items.foldl storeOne objects → x ∈ items ∨ x ∈ objects := by
  induction items with
  | nil => exact fun h => Or.inr h
  | cons y rest ih =>
    intro objects x hx
    rcases ih hx with h | ⟨h, -⟩ | rfl
    · exact Or.inl (List.mem_cons_of_mem _ h)
    · exact Or.inr h
    · exact Or.inl (List.mem_cons_self ..)

theorem StorageView.exists_mem_foldl_storeOne
    (items : List (ContainerLocation × ObjectID K × Bytes)) :
    ∀ {objects : Set (ContainerLocation × ObjectID K × Bytes)} {location k b},
      (location, k, b) ∈ objects → ∃ b', (location, k, b') ∈ items.foldl storeOne objects := by
  induction items with
  | nil => exact fun h => ⟨_, h⟩
  | cons y rest ih =>
    intro objects location k b h
    by_cases hkey : (location, k) = (y.1, y.2.1)
    · obtain ⟨rfl, rfl⟩ := Prod.mk.inj hkey
      exact ih (Or.inr (Eq.refl (y.1, y.2.1, y.2.2)))
    · exact ih (Or.inl ⟨h, hkey⟩)

/-! ## The provider -/

namespace MemoryStorage

/-- The provider as tasks see it. -/
def provider (K : KindLayout) : StorageProvider K (MemoryStorage K) Bytes where
  has := has
  get := get
  addObjects m dependencies objects := .ok (m.addObjects dependencies objects)

def contents (m : MemoryStorage K) (location : ContainerLocation) (k : ObjectID K) :
    Option Bytes :=
  ((m.storage.lookup location).getD []).lookup k

theorem lookup_filterMap {α β : Type} [DecidableEq α] (f : α → Option β) (keys : List α) (k : α) :
    (keys.filterMap fun k => (f k).map fun b => (k, b)).lookup k =
      if k ∈ keys then f k else none := by
  induction keys with
  | nil => rfl
  | cons a rest ih =>
    rw [List.filterMap_cons]
    cases hf : f a with
    | none =>
      simp only [Option.map_none, ih, List.mem_cons]
      by_cases hk : k = a
      · subst hk
        simp [hf]
      · simp [hk]
    | some b =>
      simp only [Option.map_some, List.lookup_cons, ih, List.mem_cons]
      by_cases hk : k = a
      · subst hk
        simp [hf]
      · have hne : (k == a) = false := by simpa using hk
        simp [hk, hne]

theorem provider_lawful (K : KindLayout) : (provider K).Lawful WellFormed contents where
  mem_has m location keys k h := by
    have hhas : k ∈ m.has location keys ↔ _ := mem_has h
    refine hhas.trans (and_congr_right fun _ => ?_)
    rw [Option.isSome_iff_exists]
    exact exists_congr fun b => h.lookup_objects.symm
  get_ok m location keys h hne hsome := by
    obtain ⟨k, hk⟩ := List.exists_mem_of_ne_nil _ hne
    simp only [provider, get, contents] at hsome ⊢
    cases hl : m.storage.lookup location with
    | none =>
      have := hsome k hk
      rw [hl] at this
      cases this
    | some objects => exact ⟨_, rfl, lookup_filterMap (objects.lookup ·) keys⟩
  addObjects_ok m dependencies objects h := by
    have h' := h.addObjects dependencies objects
    have hview : (m.addObjects dependencies objects).view.objects =
        (StorageView.items objects).foldl StorageView.storeOne m.view.objects :=
      congrArg StorageView.objects (view_addObjects m dependencies objects)
    refine ⟨_, rfl, h', fun location k => ?_⟩
    cases hnew : (m.addObjects dependencies objects).contents location k with
    | some b =>
      have hmem := h'.lookup_objects.mp hnew
      rw [hview] at hmem
      rcases StorageView.mem_foldl_storeOne_or _ hmem with hitem | hold
      · obtain ⟨x, hx, hitem⟩ := List.mem_flatMap.mp hitem
        obtain ⟨⟨k', b'⟩, hb, heq⟩ := List.mem_map.mp hitem
        cases heq
        exact Or.inl ⟨x, hx, _, rfl, hb, rfl⟩
      · exact Or.inr (h.lookup_objects.mpr hold).symm
    | none =>
      refine Or.inr ?_
      by_contra hsome
      obtain ⟨b, hb⟩ := Option.ne_none_iff_exists'.mp (Ne.symm hsome)
      obtain ⟨b', hb'⟩ := StorageView.exists_mem_foldl_storeOne (StorageView.items objects)
        (h.lookup_objects.mp hb)
      rw [← hview] at hb'
      cases hnew.symm.trans (h'.lookup_objects.mpr hb')

end MemoryStorage

end Pypeline

import Revng.Lib.DepthFirst
import Revng.Model.DroppedTypes

/-!
# Purging unreachable types

`purgeTypesImpl` keeps the definitions that are reached from the rest of the model, or from one
with a name where those are kept.  No reference loses its definition (`purgeTypesImpl_spec`).
-/

namespace Model

open Relation

/-- An empty type in an array or behind a pointer aborts. -/
def UpcastableType.skipToDefinition : UpcastableType → Option (Option ℕ)
  | .empty => none
  | .primitive _ _ _ => some none
  | .defined _ d => some (some d)
  | .array _ _ t | .pointer _ _ t => t.skipToDefinition

/-- The types that the definition refers to. -/
def TypeDefinition.edges (d : TypeDefinition) : List UpcastableType :=
  (d.references.map Prod.snd).filter (· ≠ .empty)

/-- The definitions that a definition refers to. -/
def edges (ds : KeyedVector TypeDefinition) (key : ℕ) : List ℕ :=
  (ds.find key).elim [] fun d => d.edges.filterMap fun t => t.skipToDefinition.join

/-- No definition has an empty type in an array or behind a pointer. -/
def KeyedVector.Skips (ds : KeyedVector TypeDefinition) : Prop :=
  ∀ x ∈ ds.entries, ∀ t ∈ x.2.edges, t.skipToDefinition.isSome = true

instance (ds : KeyedVector TypeDefinition) : Decidable ds.Skips :=
  inferInstanceAs (Decidable (∀ x ∈ _, _))

/-- The definitions refer to definitions. -/
def KeyedVector.Closed (ds : KeyedVector TypeDefinition) : Prop :=
  ∀ d ∈ ds.keys, ∀ e ∈ edges ds d, e ∈ ds.keys

instance (ds : KeyedVector TypeDefinition) : Decidable ds.Closed :=
  inferInstanceAs (Decidable (∀ d ∈ _, _))

/-- The references outside of the definitions, less those to no definition. -/
def Binary.outsideReferences (b : Binary) : List ℕ :=
  ((b.prototypes ++ b.otherTypes).filterMap UpcastableType.referencedDefinition).filter
    (· ∈ b.typeDefinitions.keys)

def toKeep (named : ℕ → Bool) (keepTypesWithName : Bool) (b : Binary) : List ℕ :=
  (b.typeDefinitions.keys.filter fun key => keepTypesWithName && named key) ++ b.outsideReferences

def visited (named : ℕ → Bool) (keepTypesWithName : Bool) (b : Binary) : List ℕ :=
  (toKeep named keepTypesWithName b).foldl (fun visited key =>
    DepthFirst.depthFirst (edges b.typeDefinitions) b.typeDefinitions.keys.length key visited) []

/-- An edge to no definition aborts, and so does one to an array or pointer of nothing. -/
def purgeTypesImpl (named : ℕ → Bool) (keepTypesWithName : Bool) (b : Binary) : Option Binary :=
  if b.typeDefinitions.Skips ∧ b.typeDefinitions.Closed then
    some { b with typeDefinitions := b.typeDefinitions.eraseIf fun key =>
      !(visited named keepTypesWithName b).contains key }
  else none

/-- What `ToKeep` reaches. -/
def Needed (named : ℕ → Bool) (keepTypesWithName : Bool) (b : Binary) (key : ℕ) : Prop :=
  ∃ root ∈ toKeep named keepTypesWithName b,
    ReflTransGen (fun d e => e ∈ edges b.typeDefinitions d) root key

variable {named : ℕ → Bool} {keepTypesWithName : Bool} {b : Binary}
  {ds : KeyedVector TypeDefinition} {d e : ℕ}

theorem mem_edges : e ∈ edges ds d ↔
    ∃ x, (d, x) ∈ ds.entries ∧ ∃ t ∈ x.edges, t.skipToDefinition.join = some e := by
  unfold edges
  cases hd : ds.find d with
  | none =>
    have hnot : d ∉ ds.keys := fun h => by simpa [hd] using KeyedVector.isSome_find.mpr h
    simpa using fun x hx => absurd (KeyedVector.mem_keys.mpr ⟨x, hx⟩) hnot
  | some x =>
    have hx := KeyedVector.find_eq_some.mp hd
    simp only [Option.elim_some, List.mem_filterMap]
    exact ⟨fun h => ⟨x, hx, h⟩, fun ⟨y, hy, h⟩ => KeyedVector.eq_of_mem hx hy ▸ h⟩

theorem mem_visited (h : b.typeDefinitions.Closed) {key : ℕ} :
    key ∈ visited named keepTypesWithName b ↔ Needed named keepTypesWithName b key := by
  refine DepthFirst.mem_foldl_depthFirst (fun d hd e he => List.mem_toFinset.mpr
    (h d (List.mem_toFinset.mp hd) e he)) (fun key hkey => List.mem_toFinset.mpr ?_)
    (List.toFinset_card_le _)
  rcases List.mem_append.mp hkey with hnamed | hout
  · exact (List.mem_filter.mp hnamed).1
  · simpa using (List.mem_filter.mp hout).2

theorem purgeTypesImpl_spec (named : ℕ → Bool) (keepTypesWithName : Bool) (b : Binary) :
    (purgeTypesImpl named keepTypesWithName b).elim
      (¬(b.typeDefinitions.Skips ∧ b.typeDefinitions.Closed)) fun r =>
      (b.typeDefinitions.Skips ∧ b.typeDefinitions.Closed) ∧
        (r.typeDefinitions.Skips ∧ r.typeDefinitions.Closed) ∧
        r = { b with typeDefinitions := r.typeDefinitions } ∧
        r.outsideReferences = b.outsideReferences ∧
        ∀ key d, (key, d) ∈ r.typeDefinitions.entries ↔
          (key, d) ∈ b.typeDefinitions.entries ∧ Needed named keepTypesWithName b key := by
  unfold purgeTypesImpl
  split
  next h =>
    have hkeys : ∀ key, key ∈ (b.typeDefinitions.eraseIf fun key =>
        !(visited named keepTypesWithName b).contains key).keys ↔
        key ∈ b.typeDefinitions.keys ∧ Needed named keepTypesWithName b key := fun key => by
      simp [KeyedVector.keys_eraseIf, mem_visited h.2]
    refine ⟨h, ⟨fun x hx => h.1 x (KeyedVector.mem_eraseIf.mp hx).1, fun d hd e he => ?_⟩, rfl,
      List.filter_congr fun e he => ?_, fun key d => ?_⟩
    · obtain ⟨hd, root, hroot, hr⟩ := (hkeys d).mp hd
      obtain ⟨x, hx, t, ht, hte⟩ := mem_edges.mp he
      have hde := mem_edges.mpr ⟨x, (KeyedVector.mem_eraseIf.mp hx).1, t, ht, hte⟩
      exact (hkeys e).mpr ⟨h.2 d hd e hde, root, hroot, hr.tail hde⟩
    · refine decide_eq_decide.mpr ((hkeys e).trans (and_iff_left_of_imp fun hkey => ?_))
      exact ⟨e, List.mem_append_right _ (List.mem_filter.mpr ⟨he, by simpa using hkey⟩), .refl⟩
    · simp [mem_visited h.2]
  next h => exact h

end Model

import Mathlib.Data.Set.Basic

/-!
# Graphs with labelled edges

Between two vertices there can be several edges with different labels.  A graph has no
loops, and its edges end in its vertices.  `contract` merges one vertex into another one:
their edges become one vertex' edges, and the edges between them are gone.
-/

structure LabelledGraph (V L : Type*) where
  vertices : Set V
  edges : Set (V × L × V)
  source_mem : ∀ {a l b}, (a, l, b) ∈ edges → a ∈ vertices
  target_mem : ∀ {a l b}, (a, l, b) ∈ edges → b ∈ vertices
  loopless : ∀ {a l b}, (a, l, b) ∈ edges → a ≠ b

namespace LabelledGraph

variable {V L : Type*} (g : LabelledGraph V L)

def empty : LabelledGraph V L where
  vertices := ∅
  edges := ∅
  source_mem := False.elim
  target_mem := False.elim
  loopless := False.elim

def addVertex (v : V) : LabelledGraph V L where
  vertices := insert v g.vertices
  edges := g.edges
  source_mem := fun h => Or.inr (g.source_mem h)
  target_mem := fun h => Or.inr (g.target_mem h)
  loopless := g.loopless

def connect (a : V) (l : L) (b : V) (ha : a ∈ g.vertices) (hb : b ∈ g.vertices) (hab : a ≠ b) :
    LabelledGraph V L where
  vertices := g.vertices
  edges := insert (a, l, b) g.edges
  source_mem := by
    rintro a' l' b' (h | h)
    · cases h
      exact ha
    · exact g.source_mem h
  target_mem := by
    rintro a' l' b' (h | h)
    · cases h
      exact hb
    · exact g.target_mem h
  loopless := by
    rintro a' l' b' (h | h)
    · cases h
      exact hab
    · exact g.loopless h

def disconnect (a : V) (l : L) (b : V) : LabelledGraph V L where
  vertices := g.vertices
  edges := g.edges \ {(a, l, b)}
  source_mem := fun h => g.source_mem h.1
  target_mem := fun h => g.target_mem h.1
  loopless := fun h => g.loopless h.1

def removeVertex (v : V) : LabelledGraph V L where
  vertices := g.vertices \ {v}
  edges := {e ∈ g.edges | e.1 ≠ v ∧ e.2.2 ≠ v}
  source_mem := fun h => ⟨g.source_mem h.1, h.2.1⟩
  target_mem := fun h => ⟨g.target_mem h.1, h.2.2⟩
  loopless := fun h => g.loopless h.1

/-- The vertex that is left of a vertex after `src` was merged into `into`. -/
def merged [DecidableEq V] (src into v : V) : V := if v = src then into else v

/-- `src` is merged into `into`. -/
def contract [DecidableEq V] (src into : V) (hinto : into ∈ g.vertices) (hne : into ≠ src) :
    LabelledGraph V L where
  vertices := g.vertices \ {src}
  edges := {e | e.1 ≠ e.2.2 ∧ ∃ a b, (a, e.2.1, b) ∈ g.edges ∧ merged src into a = e.1 ∧
    merged src into b = e.2.2}
  source_mem := by
    rintro a' l b' ⟨-, a, b, hedge, rfl, -⟩
    unfold merged
    split
    · exact ⟨hinto, hne⟩
    · exact ⟨g.source_mem hedge, by assumption⟩
  target_mem := by
    rintro a' l b' ⟨-, a, b, hedge, -, rfl⟩
    unfold merged
    split
    · exact ⟨hinto, hne⟩
    · exact ⟨g.target_mem hedge, by assumption⟩
  loopless := fun h => h.1

/-! ## The edges of a contraction -/

section Contract

variable {g} [DecidableEq V] {src into a b v : V} {l : L} {hinto : into ∈ g.vertices}
  {hne : into ≠ src}

theorem merged_ne (hne : into ≠ src) (v : V) : merged src into v ≠ src := by
  unfold merged
  split
  · exact hne
  · assumption

theorem merged_of_ne (h : v ≠ src) : merged src into v = v := if_neg h

theorem merged_eq_iff (h : v ≠ into) (h' : v ≠ src) : merged src into a = v ↔ a = v := by
  unfold merged
  split
  next heq => exact ⟨fun h'' => absurd h''.symm h, fun h'' => absurd (h''.symm.trans heq) h'⟩
  next => rfl

theorem merged_eq_into_iff : merged src into a = into ↔ a = src ∨ a = into := by
  unfold merged
  split
  next heq => exact ⟨fun _ => Or.inl heq, fun _ => rfl⟩
  next hne => exact ⟨Or.inr, fun h => h.resolve_left hne⟩

/-- The edges from another vertex lead to what is left of their targets. -/
theorem mem_contract_source (ha : a ≠ into) (ha' : a ≠ src) :
    (a, l, v) ∈ (g.contract src into hinto hne).edges ↔
      ∃ b, (a, l, b) ∈ g.edges ∧ merged src into b = v := by
  constructor
  · rintro ⟨-, a', b, hedge, heq, hb⟩
    obtain rfl : a' = a := (merged_eq_iff ha ha').mp heq
    exact ⟨b, hedge, hb⟩
  · rintro ⟨b, hedge, hb⟩
    refine ⟨fun heq => g.loopless hedge ?_, a, b, hedge, merged_of_ne ha', hb⟩
    exact ((merged_eq_iff ha ha').mp (hb.trans (heq : a = v).symm)).symm

/-- The edges from the merged vertex are those of both vertices. -/
theorem mem_contract_into :
    (into, l, v) ∈ (g.contract src into hinto hne).edges ↔
      (v ≠ src ∧ v ≠ into) ∧
        ((∃ b, (into, l, b) ∈ g.edges ∧ merged src into b = v) ∨ (src, l, v) ∈ g.edges) := by
  constructor
  · rintro ⟨hv, a, b, hedge, heq, rfl⟩
    have hv' : merged src into b ≠ into := fun h => hv h.symm
    refine ⟨⟨merged_ne hne b, hv'⟩, ?_⟩
    have hb : merged src into b = b := merged_of_ne fun h => hv' (if_pos h)
    rcases merged_eq_into_iff.mp heq with rfl | rfl
    · right
      rw [hb]
      exact hedge
    · exact Or.inl ⟨b, hedge, rfl⟩
  · rintro ⟨⟨hsrc, hinto'⟩, ⟨b, hedge, rfl⟩ | hedge⟩
    · exact ⟨hinto'.symm, into, b, hedge, merged_of_ne hne, rfl⟩
    · exact ⟨hinto'.symm, src, v, hedge, if_pos rfl, merged_of_ne hsrc⟩

/-- The graph with all edges turned around. -/
def reverse (g : LabelledGraph V L) : LabelledGraph V L where
  vertices := g.vertices
  edges := {e | (e.2.2, e.2.1, e.1) ∈ g.edges}
  source_mem := fun h => g.target_mem h
  target_mem := fun h => g.source_mem h
  loopless := fun h => (g.loopless h).symm

theorem mem_reverse_contract (hrev : into ∈ g.reverse.vertices) :
    (a, l, b) ∈ (g.reverse.contract src into hrev hne).edges ↔
      (b, l, a) ∈ (g.contract src into hinto hne).edges := by
  constructor
  · rintro ⟨hab, a', b', hedge, ha, hb⟩
    exact ⟨hab.symm, b', a', hedge, hb, ha⟩
  · rintro ⟨hab, b', a', hedge, hb, ha⟩
    exact ⟨hab.symm, a', b', hedge, ha, hb⟩

end Contract

/-! ## Quotients -/

/-- The edges of `g'` are those of `g` between the vertices that are left of its vertices. -/
def IsQuotient (m : V → V) (g g' : LabelledGraph V L) : Prop :=
  ∀ a l b, (a, l, b) ∈ g'.edges ↔ a ≠ b ∧ ∃ a₀ b₀, (a₀, l, b₀) ∈ g.edges ∧ m a₀ = a ∧ m b₀ = b

theorem IsQuotient.refl (g : LabelledGraph V L) : IsQuotient id g g := by
  intro a l b
  constructor
  · exact fun h => ⟨g.loopless h, a, b, h, rfl, rfl⟩
  · rintro ⟨-, a₀, b₀, h, rfl, rfl⟩
    exact h

theorem IsQuotient.trans {m m' : V → V} {g g' g'' : LabelledGraph V L} (h : IsQuotient m g g')
    (h' : IsQuotient m' g' g'') : IsQuotient (m' ∘ m) g g'' := by
  intro a l b
  rw [h' a l b]
  refine and_congr_right fun hab => ?_
  constructor
  · rintro ⟨a₁, b₁, hedge₁, rfl, rfl⟩
    obtain ⟨-, a₀, b₀, hedge, rfl, rfl⟩ := (h a₁ l b₁).mp hedge₁
    exact ⟨a₀, b₀, hedge, rfl, rfl⟩
  · rintro ⟨a₀, b₀, hedge, rfl, rfl⟩
    exact ⟨m a₀, m b₀, (h _ _ _).mpr ⟨fun heq => hab (congrArg m' heq), a₀, b₀, hedge, rfl, rfl⟩,
      rfl, rfl⟩

theorem isQuotient_contract [DecidableEq V] {src into : V} (hinto : into ∈ g.vertices)
    (hne : into ≠ src) : IsQuotient (merged src into) g (g.contract src into hinto hne) :=
  fun _ _ _ => Iff.rfl

end LabelledGraph

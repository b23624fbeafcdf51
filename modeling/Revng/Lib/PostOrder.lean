import Revng.Lib.StrongComponents

/-!
# Post-order visits

A visit leaves a node after it has visited its children, and leaving a node may change the graph.
As long as that only changes what the visit has left behind, the nodes of a graph without cycles
are left one by one, each after all of its children (`exists_postOrder`).
-/

namespace StrongComponents

open Relation

variable {α : Type*} {r : α → α → Prop}

/-- A finite graph without cycles has levels. -/
theorem Acyclic.exists_rank (h : Acyclic r) (domain : Finset α) (hdomain : ∀ a b, r a b → b ∈ domain) :
    ∃ rank : α → Nat, (∀ a b, r a b → rank b < rank a) ∧ ∀ a, rank a ≤ domain.card := by
  classical
  refine ⟨fun a => (domain.filter (TransGen r a)).card, fun a b hab => ?_, fun a =>
    Finset.card_filter_le _ _⟩
  refine Finset.card_lt_card (Finset.ssubset_iff_of_subset ?_ |>.mpr ⟨b, ?_, ?_⟩)
  · exact Finset.monotone_filter_right _ fun x _ hx => TransGen.head hab hx
  · exact Finset.mem_filter.mpr ⟨hdomain a b hab, .single hab⟩
  · exact fun hmem => h b (Finset.mem_filter.mp hmem).2

/-- Every node is reached from one that no edge leads to. -/
theorem exists_root_of_rank {rank : α → Nat} {bound : Nat} (hrank : ∀ a b, r a b → rank b < rank a)
    (hbound : ∀ a, rank a ≤ bound) (a : α) : ∃ root, ReflTransGen r root a ∧ ∀ b, ¬ r b root := by
  induction hless : bound - rank a using Nat.strong_induction_on generalizing a with
  | _ _ ih =>
    by_cases hpred : ∃ b, r b a
    · obtain ⟨b, hba⟩ := hpred
      have hlt := hrank b a hba
      have hle := hbound b
      obtain ⟨root, hreach, hroot⟩ := ih _ (by omega) b rfl
      exact ⟨root, hreach.tail hba, hroot⟩
    · exact ⟨a, .refl, fun b hba => hpred ⟨b, hba⟩⟩

end StrongComponents

namespace PostOrder

open Relation

variable {σ α : Type*} [DecidableEq α]

/-- Visit the children of `a` one after the other, unless it was visited, and leave it. -/
def postOrder (children : σ → α → List α) (leave : α → σ → Option σ) :
    Nat → α → Finset α × σ → Option (Finset α × σ)
  | 0, a, st => if a ∈ st.1 then some st else none
  | fuel + 1, a, st =>
      if a ∈ st.1 then some st
      else do
        let st ← (children st.2 a).foldlM (fun st b => postOrder children leave fuel b st)
          (insert a st.1, st.2)
        (leave a st.2).map fun s => (st.1, s)

/-- One visit after the other, from the nodes that are roots when it is their turn. -/
def postOrderFrom (isRoot : σ → α → Bool) (children : σ → α → List α) (leave : α → σ → Option σ)
    (fuel : Nat) (nodes : List α) (s : σ) : Option (Finset α × σ) :=
  nodes.foldlM (fun st a => if isRoot st.2 a then postOrder children leave fuel a st else some st)
    (∅, s)

variable {children : σ → α → List α} {leave : α → σ → Option σ} {r : α → α → Prop}
  {domain : Set α} {inv : Finset α → σ → Prop} {rank : α → Nat}

/-- What holds of the nodes that were left and the state, where `r` are the edges at the start. -/
structure Invariant (children : σ → α → List α) (leave : α → σ → Option σ) (r : α → α → Prop)
    (domain : Set α) (inv : Finset α → σ → Prop) : Prop where
  closed : ∀ a ∈ domain, ∀ b, r a b → b ∈ domain
  children : ∀ left s, inv left s → ∀ a ∈ domain, a ∉ left → ∀ b, b ∈ children s a ↔ r a b
  leave : ∀ left s, inv left s → ∀ a ∈ domain, a ∉ left → (∀ b, r a b → b ∈ left) →
    ∃ s', leave a s = some s' ∧ inv (insert a left) s'

omit [DecidableEq α] in
/-- Edges go down, so no child reaches its parent. -/
theorem not_reaches_of_rank (hrank : ∀ a b, r a b → rank b < rank a) {a b : α} (hab : r a b) :
    ¬ ReflTransGen r b a := by
  have hle : ∀ x y, ReflTransGen r x y → rank y ≤ rank x := by
    intro x y hxy
    induction hxy with
    | refl => exact le_rfl
    | tail _ hstep ih => exact (hrank _ _ hstep).le.trans ih
  exact fun hba => absurd (hle b a hba) (Nat.not_le.mpr (hrank a b hab))

/-- What a visit of some nodes leaves behind. -/
structure Visited (r : α → α → Prop) (inv : Finset α → σ → Prop) (nodes : List α)
    (left left' : Finset α) (s' : σ) : Prop where
  inv : inv left' s'
  subset : left ⊆ left'
  starts : ∀ a ∈ nodes, a ∈ left'
  reached : ∀ x ∈ left', x ∈ left ∨ ∃ a ∈ nodes, ReflTransGen r a x

/-- A visit that comes to a node only after it has left all that it visited below of it leaves the
node and what the node reaches. -/
theorem exists_postOrder (hinv : Invariant children leave r domain inv)
    (hrank : ∀ a b, r a b → rank b < rank a) (fuel : Nat) :
    ∀ {a : α} {left visited : Finset α} {s : σ}, rank a < fuel → a ∈ domain → inv left s →
      left ⊆ visited → (∀ x ∈ visited, ReflTransGen r a x → x ∈ left) →
      ∃ left' s', postOrder children leave fuel a (visited, s) = some (visited ∪ left', s') ∧
        Visited r inv [a] left left' s' := by
  induction fuel with
  | zero => exact fun hfuel => absurd hfuel (Nat.not_lt_zero _)
  | succ fuel ih =>
    intro a left visited s hfuel ha hs hsub hbelow
    rw [postOrder]
    split
    · next hvisited =>
        refine ⟨left, s, by rw [Finset.union_eq_left.mpr hsub], hs, Finset.Subset.refl _, ?_,
          fun x hx => Or.inl hx⟩
        exact fun b hb => List.mem_singleton.mp hb ▸ hbelow a hvisited .refl
    next hnew =>
    have hnotLeft : a ∉ left := fun hmem => hnew (hsub hmem)
    have hchildren := hinv.children left s hs a ha hnotLeft
    -- the children are visited one after the other, while `a` stays on the stack
    have hfold : ∀ (bs : List α) {left₁ : Finset α} {s₁ : σ}, (∀ b ∈ bs, r a b) →
        inv left₁ s₁ → left ⊆ left₁ →
        ∃ left' s', bs.foldlM (fun st b => postOrder children leave fuel b st)
          (insert a visited ∪ left₁, s₁) = some (insert a visited ∪ left', s') ∧
          Visited r inv bs left₁ left' s' := by
      intro bs
      induction bs with
      | nil =>
        exact fun _ hs₁ _ => ⟨_, _, rfl, hs₁, Finset.Subset.refl _, by simp, fun x hx =>
          Or.inl hx⟩
      | cons b bs ihbs =>
        intro left₁ s₁ hbs hs₁ hsub₁
        have hab := hbs b List.mem_cons_self
        have hbelow₁ : ∀ x ∈ insert a visited ∪ left₁, ReflTransGen r b x → x ∈ left₁ := by
          intro x hx hbx
          rcases Finset.mem_union.mp hx with hx | hx
          · rcases Finset.mem_insert.mp hx with rfl | hx
            · exact absurd hbx (not_reaches_of_rank hrank hab)
            · exact hsub₁ (hbelow x hx (.head hab hbx))
          · exact hx
        have hless : rank b < fuel := by
          have := hrank a b hab
          omega
        obtain ⟨left₂, s₂, hone, hv₂⟩ := ih hless (hinv.closed a ha b hab) hs₁
          Finset.subset_union_right hbelow₁
        obtain ⟨left', s', hrest, hv'⟩ := ihbs (fun c hc => hbs c (List.mem_cons_of_mem _ hc))
          hv₂.inv (hsub₁.trans hv₂.subset)
        refine ⟨left', s', ?_, hv'.inv, hv₂.subset.trans hv'.subset, fun c hc => ?_,
          fun x hx => ?_⟩
        · rw [List.foldlM_cons, hone, Finset.union_assoc, Finset.union_eq_right.mpr hv₂.subset]
          exact hrest
        · rcases List.mem_cons.mp hc with rfl | hc
          · exact hv'.subset (hv₂.starts c (List.mem_singleton_self c))
          · exact hv'.starts c hc
        · rcases hv'.reached x hx with hx | ⟨c, hc, hcx⟩
          · rcases hv₂.reached x hx with hx | ⟨c, hc, hcx⟩
            · exact Or.inl hx
            · obtain rfl := List.mem_singleton.mp hc
              exact Or.inr ⟨c, List.mem_cons_self, hcx⟩
          · exact Or.inr ⟨c, List.mem_cons_of_mem _ hc, hcx⟩
    obtain ⟨left₁, s₁, hrun, hv⟩ := hfold (children s a) (fun b hb => (hchildren b).mp hb) hs
      (Finset.Subset.refl _)
    rw [Finset.union_eq_left.mpr (hsub.trans (Finset.subset_insert _ _))] at hrun
    have hnot : a ∉ left₁ := by
      intro hmem
      rcases hv.reached a hmem with hmem | ⟨b, hb, hba⟩
      · exact hnotLeft hmem
      · exact not_reaches_of_rank hrank ((hchildren b).mp hb) hba
    obtain ⟨s', hleave, hs'⟩ := hinv.leave left₁ s₁ hv.inv a ha hnot fun b hab =>
      hv.starts b ((hchildren b).mpr hab)
    refine ⟨insert a left₁, s', ?_, hs', hv.subset.trans (Finset.subset_insert _ _), by simp,
      fun x hx => ?_⟩
    · rw [hrun, Finset.union_insert, ← Finset.insert_union]
      simp only [Option.bind_eq_bind, Option.bind_some, hleave]
      rfl
    · rcases Finset.mem_insert.mp hx with rfl | hx
      · exact Or.inr ⟨x, List.mem_singleton_self x, .refl⟩
      · rcases hv.reached x hx with hx | ⟨b, hb, hbx⟩
        · exact Or.inl hx
        · exact Or.inr ⟨a, List.mem_singleton_self a, .head ((hchildren b).mp hb) hbx⟩

/-- What is a root in all states is left behind. -/
theorem exists_postOrderFrom (isRoot : σ → α → Bool)
    (hinv : Invariant children leave r domain inv) (hrank : ∀ a b, r a b → rank b < rank a)
    {fuel : Nat} {nodes : List α} {s : σ} (hs : inv ∅ s) (hnodes : ∀ a ∈ nodes, a ∈ domain)
    (hfuel : ∀ a ∈ nodes, rank a < fuel) :
    ∃ left s', postOrderFrom isRoot children leave fuel nodes s = some (left, s') ∧ inv left s' ∧
      ∀ a ∈ nodes, (∀ left s, inv left s → isRoot s a) → a ∈ left := by
  have hfold : ∀ (nodes : List α) {left : Finset α} {s : σ}, inv left s →
      (∀ a ∈ nodes, a ∈ domain) → (∀ a ∈ nodes, rank a < fuel) →
      ∃ left' s', nodes.foldlM (fun st a =>
          if isRoot st.2 a then postOrder children leave fuel a st else some st) (left, s) =
          some (left', s') ∧ inv left' s' ∧ left ⊆ left' ∧
        ∀ a ∈ nodes, (∀ left s, inv left s → isRoot s a) → a ∈ left' := by
    intro nodes
    induction nodes with
    | nil => exact fun hs _ _ => ⟨_, _, rfl, hs, Finset.Subset.refl _, by simp⟩
    | cons a nodes ih =>
      intro left s hs hnodes hfuel
      have hrest := fun b hb => hnodes b (List.mem_cons_of_mem a hb)
      have hfuelRest := fun b hb => hfuel b (List.mem_cons_of_mem a hb)
      rw [List.foldlM_cons]
      by_cases hroot : isRoot s a
      · obtain ⟨left₁, s₁, hone, hv⟩ := exists_postOrder hinv hrank fuel
          (hfuel a List.mem_cons_self) (hnodes a List.mem_cons_self) hs (Finset.Subset.refl left)
          fun x hx _ => hx
        rw [Finset.union_eq_right.mpr hv.subset] at hone
        obtain ⟨left', s', hrun, hs', hsub, hmem⟩ := ih hv.inv hrest hfuelRest
        refine ⟨left', s', ?_, hs', hv.subset.trans hsub, fun b hb hall => ?_⟩
        · rw [if_pos hroot, hone]
          exact hrun
        · rcases List.mem_cons.mp hb with rfl | hb
          · exact hsub (hv.starts b (List.mem_singleton_self b))
          · exact hmem b hb hall
      · obtain ⟨left', s', hrun, hs', hsub, hmem⟩ := ih hs hrest hfuelRest
        refine ⟨left', s', ?_, hs', hsub, fun b hb hall => ?_⟩
        · rw [if_neg hroot]
          exact hrun
        · rcases List.mem_cons.mp hb with rfl | hb
          · exact absurd (hall left s hs) hroot
          · exact hmem b hb hall
  obtain ⟨left, s', hrun, hs', -, hmem⟩ := hfold nodes hs hnodes hfuel
  exact ⟨left, s', hrun, hs', hmem⟩

/-- The children of what was left were left before. -/
theorem Invariant.and_closed (hinv : Invariant children leave r domain inv) :
    Invariant children leave r domain fun left s =>
      inv left s ∧ ∀ a ∈ left, ∀ b, r a b → b ∈ left where
  closed := hinv.closed
  children left s hs := hinv.children left s hs.1
  leave left s hs a ha hnot hbelow := by
    obtain ⟨s', hrun, hs'⟩ := hinv.leave left s hs.1 a ha hnot hbelow
    refine ⟨s', hrun, hs', fun b hb c hbc => Finset.mem_insert_of_mem ?_⟩
    rcases Finset.mem_insert.mp hb with rfl | hb
    · exact hbelow c hbc
    · exact hs.2 b hb c hbc

/-- If the roots of the graph are roots in all states, every node is left. -/
theorem exists_postOrderFrom_all (isRoot : σ → α → Bool)
    (hinv : Invariant children leave r domain inv) (hrank : ∀ a b, r a b → rank b < rank a)
    {bound : Nat} (hbound : ∀ a, rank a ≤ bound) (hsource : ∀ a b, r a b → a ∈ domain)
    (hroot : ∀ a ∈ domain, (∀ b, ¬ r b a) → ∀ left s, inv left s → isRoot s a)
    {nodes : List α} (hnodes : ∀ a, a ∈ nodes ↔ a ∈ domain) {s : σ} (hs : inv ∅ s) :
    ∃ left s', postOrderFrom isRoot children leave (bound + 1) nodes s = some (left, s') ∧
      inv left s' ∧ ∀ a ∈ domain, a ∈ left := by
  obtain ⟨left, s', hrun, ⟨hs', hclosed⟩, hroots⟩ := exists_postOrderFrom isRoot hinv.and_closed
    hrank ⟨hs, by simp⟩ (fun a ha => (hnodes a).mp ha)
    fun a _ => Nat.lt_succ_of_le (hbound a)
  refine ⟨left, s', hrun, hs', fun a ha => ?_⟩
  obtain ⟨root, hreach, hnone⟩ := StrongComponents.exists_root_of_rank hrank hbound a
  have hmem : root ∈ domain := by
    rcases hreach.cases_head with rfl | ⟨b, hedge, -⟩
    · exact ha
    · exact hsource _ _ hedge
  have hleft : root ∈ left := hroots root ((hnodes root).mpr hmem) fun left' t ht =>
    hroot root hmem hnone left' t ht.1
  clear ha hmem hnone
  induction hreach with
  | refl => exact hleft
  | tail _ hstep ih => exact hclosed _ ih _ hstep

end PostOrder

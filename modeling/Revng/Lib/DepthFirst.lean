import Mathlib.Data.Finset.Card

/-!
# Depth-first visits

A visit from a node lists the nodes in the order in which it enters them, and does not
enter the nodes that are in the list already.  So a visit that starts from the list of an
earlier one does not enter the nodes of that one again.
-/

namespace DepthFirst

open Relation

variable {α : Type*} [DecidableEq α]

/-- Enter `a`, unless it was visited, and then its successors one after the other. -/
def depthFirst (next : α → List α) : Nat → α → List α → List α
  | 0, _, visited => visited
  | fuel + 1, a, visited =>
      if a ∈ visited then visited
      else (next a).foldl (fun visited b => depthFirst next fuel b visited) (visited ++ [a])

variable {next : α → List α} {roots : List α} {u v w : List α}

/-- A visit from the nodes `roots` that takes the list `v` to `w`. -/
structure Visits (next : α → List α) (roots v w : List α) : Prop where
  subset : ∀ x ∈ v, x ∈ w
  starts : ∀ a ∈ roots, a ∈ w
  closed : ∀ x ∈ w, x ∉ v → ∀ y ∈ next x, y ∈ w
  reached : ∀ x ∈ w, x ∉ v → ∃ a ∈ roots, ReflTransGen (fun x y => y ∈ next x) a x

omit [DecidableEq α] in
theorem Visits.refl (v : List α) : Visits next [] v v where
  subset _ hx := hx
  starts _ ha := absurd ha List.not_mem_nil
  closed _ hx hnot := absurd hx hnot
  reached _ hx hnot := absurd hx hnot

omit [DecidableEq α] in
theorem Visits.skip {a : α} (ha : a ∈ v) : Visits next [a] v v where
  subset _ hx := hx
  starts b hb := by rwa [List.mem_singleton.mp hb]
  closed _ hx hnot := absurd hx hnot
  reached _ hx hnot := absurd hx hnot

theorem Visits.trans {xs ys : List α} (h : Visits next xs u v) (h' : Visits next ys v w) :
    Visits next (xs ++ ys) u w where
  subset x hx := h'.subset x (h.subset x hx)
  starts a ha := by
    rcases List.mem_append.mp ha with ha | ha
    · exact h'.subset a (h.starts a ha)
    · exact h'.starts a ha
  closed x hx hnot y hy := by
    by_cases hv : x ∈ v
    · exact h'.subset y (h.closed x hv hnot y hy)
    · exact h'.closed x hx hv y hy
  reached x hx hnot := by
    by_cases hv : x ∈ v
    · obtain ⟨a, ha, hr⟩ := h.reached x hv hnot
      exact ⟨a, List.mem_append_left _ ha, hr⟩
    · obtain ⟨a, ha, hr⟩ := h'.reached x hx hv
      exact ⟨a, List.mem_append_right _ ha, hr⟩

/-- Entering a node and visiting its successors is a visit from the node. -/
theorem Visits.node {a : α} (h : Visits next (next a) (v ++ [a]) w) : Visits next [a] v w where
  subset x hx := h.subset x (List.mem_append_left _ hx)
  starts b hb := h.subset b (List.mem_append_right _ hb)
  closed x hx hnot y hy := by
    by_cases hxa : x = a
    · exact h.starts y (hxa ▸ hy)
    · exact h.closed x hx (by simp [hnot, hxa]) y hy
  reached x hx hnot := by
    refine ⟨a, List.mem_singleton_self a, ?_⟩
    by_cases hxa : x = a
    · exact hxa ▸ .refl
    · obtain ⟨b, hb, hr⟩ := h.reached x hx (by simp [hnot, hxa])
      exact .head hb hr

/-- With fuel for the nodes of a closed set that were not visited the visit is complete. -/
theorem visits_depthFirst {domain : Finset α} (hclosed : ∀ x ∈ domain, ∀ y ∈ next x, y ∈ domain)
    (fuel : Nat) : ∀ {a : α} {v : List α}, a ∈ domain → (domain.filter (· ∉ v)).card ≤ fuel →
      Visits next [a] v (depthFirst next fuel a v) := by
  induction fuel with
  | zero =>
    intro a v ha hfuel
    have hempty := Finset.card_eq_zero.mp (Nat.le_zero.mp hfuel)
    have hav : a ∈ v := by
      by_contra hnot
      exact Finset.notMem_empty a (hempty ▸ Finset.mem_filter.mpr ⟨ha, hnot⟩)
    exact .skip hav
  | succ fuel ih =>
    intro a v ha hfuel
    rw [depthFirst]
    split
    · next hav => exact .skip hav
    next hav =>
    refine .node ?_
    have hless : (domain.filter (· ∉ v ++ [a])).card ≤ fuel := by
      have hlt : (domain.filter (· ∉ v ++ [a])).card < (domain.filter (· ∉ v)).card := by
        refine Finset.card_lt_card (Finset.ssubset_iff_of_subset ?_ |>.mpr ⟨a, ?_, ?_⟩)
        · exact Finset.monotone_filter_right _ fun x _ hx hv =>
            hx (List.mem_append_left _ hv)
        · exact Finset.mem_filter.mpr ⟨ha, hav⟩
        · simp
      omega
    -- the successors are visited one after the other, with fewer nodes left each time
    have hfold : ∀ (bs : List α) (w : List α), (∀ b ∈ bs, b ∈ domain) →
        (domain.filter (· ∉ w)).card ≤ fuel →
        Visits next bs w (bs.foldl (fun v b => depthFirst next fuel b v) w) := by
      intro bs
      induction bs with
      | nil => exact fun w _ _ => .refl w
      | cons b bs ihbs =>
        intro w hbs hw
        have hone := ih (hbs b (by simp)) hw
        refine hone.trans (ihbs _ (fun c hc => hbs c (by simp [hc])) (le_trans ?_ hw))
        exact Finset.card_le_card
          (Finset.monotone_filter_right _ fun x _ hx hv => hx (hone.subset x hv))
    exact hfold _ _ (hclosed a ha) hless

/-- The first visit enters what its node reaches. -/
theorem mem_depthFirst {domain : Finset α} (hclosed : ∀ x ∈ domain, ∀ y ∈ next x, y ∈ domain)
    {a x : α} (ha : a ∈ domain) : x ∈ depthFirst next domain.card a [] ↔
      ReflTransGen (fun x y => y ∈ next x) a x := by
  have hvisits : Visits next [a] [] (depthFirst next domain.card a []) :=
    visits_depthFirst hclosed _ ha (Finset.card_filter_le _ _)
  constructor
  · intro hx
    obtain ⟨b, hb, hr⟩ := hvisits.reached x hx List.not_mem_nil
    exact List.mem_singleton.mp hb ▸ hr
  · intro hr
    induction hr with
    | refl => exact hvisits.starts a (List.mem_singleton_self a)
    | tail _ hstep ih => exact hvisits.closed _ ih List.not_mem_nil _ hstep

/-- Visits from several nodes, one after the other, enter what one of the nodes reaches. -/
theorem mem_foldl_depthFirst {domain : Finset α}
    (hclosed : ∀ x ∈ domain, ∀ y ∈ next x, y ∈ domain) (hroots : ∀ a ∈ roots, a ∈ domain)
    {fuel : ℕ} (hfuel : domain.card ≤ fuel) {x : α} :
    x ∈ roots.foldl (fun v a => depthFirst next fuel a v) [] ↔
      ∃ a ∈ roots, ReflTransGen (fun x y => y ∈ next x) a x := by
  have hvisits : ∀ (as v : List α), (∀ a ∈ as, a ∈ domain) →
      Visits next as v (as.foldl (fun v a => depthFirst next fuel a v) v) := by
    intro as
    induction as with
    | nil => exact fun v _ => .refl v
    | cons a as ih =>
      intro v has
      have hone := visits_depthFirst hclosed fuel (has a (by simp))
        ((Finset.card_filter_le _ (· ∉ v)).trans hfuel)
      exact hone.trans (ih _ fun b hb => has b (by simp [hb]))
  have hv := hvisits roots [] hroots
  refine ⟨fun hx => hv.reached x hx List.not_mem_nil, ?_⟩
  rintro ⟨a, ha, hr⟩
  induction hr with
  | refl => exact hv.starts a ha
  | tail _ hstep ih => exact hv.closed _ ih List.not_mem_nil _ hstep

/-- A visit lists the nodes that it enters after those it was given. -/
theorem prefix_depthFirst (next : α → List α) (fuel : Nat) :
    ∀ (a : α) (v : List α), v <+: depthFirst next fuel a v := by
  induction fuel with
  | zero => exact fun _ v => List.prefix_rfl
  | succ fuel ih =>
    intro a v
    rw [depthFirst]
    split
    · exact List.prefix_rfl
    · have hfold : ∀ (bs w : List α),
          w <+: bs.foldl (fun v b => depthFirst next fuel b v) w := by
        intro bs
        induction bs with
        | nil => exact fun w => List.prefix_rfl
        | cons b bs ihbs => exact fun w => (ih b w).trans (ihbs _)
      exact (List.prefix_append v [a]).trans (hfold _ _)

/-- No node is entered twice. -/
theorem nodup_depthFirst (next : α → List α) (fuel : Nat) :
    ∀ (a : α) (v : List α), v.Nodup → (depthFirst next fuel a v).Nodup := by
  induction fuel with
  | zero => exact fun _ _ hv => hv
  | succ fuel ih =>
    intro a v hv
    rw [depthFirst]
    split
    · exact hv
    · next hav =>
        have hfold : ∀ (bs w : List α), w.Nodup →
            (bs.foldl (fun v b => depthFirst next fuel b v) w).Nodup := by
          intro bs
          induction bs with
          | nil => exact fun w hw => hw
          | cons b bs ihbs => exact fun w hw => ihbs _ (ih b w hw)
        exact hfold _ _ (List.nodup_append'.mpr ⟨hv, List.nodup_singleton a, by simpa using hav⟩)

end DepthFirst

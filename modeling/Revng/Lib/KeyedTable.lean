import Mathlib.Data.List.Basic

/-!
# Tables with a key

A table is a list of rows, each with a key.  `put` is what a database does for
`INSERT … ON CONFLICT`: the row that has the key of the new one is merged with it,
and otherwise the new row is appended.  `DO NOTHING` keeps the old row, `REPLACE`
takes the new one, and `DO UPDATE` does what its assignments say.
-/

namespace KeyedTable

variable {α κ : Type*} [DecidableEq κ] {key : α → κ} {merge : α → α → α}

/-- Insert `x`, or merge it into the row that has its key. -/
def put (key : α → κ) (merge : α → α → α) (x : α) (rows : List α) : List α :=
  if rows.any (key · = key x) then rows.map fun r => if key r = key x then merge r x else r
  else rows ++ [x]

/-- Insert rows one after the other. -/
def putAll (key : α → κ) (merge : α → α → α) (xs rows : List α) : List α :=
  xs.foldl (fun rows x => put key merge x rows) rows

variable {rows : List α}

/-- The rows after an insertion. -/
theorem mem_put {x r : α} :
    r ∈ put key merge x rows ↔
      (r ∈ rows ∧ key r ≠ key x) ∨ (∃ a ∈ rows, key a = key x ∧ r = merge a x) ∨
        (r = x ∧ ∀ a ∈ rows, key a ≠ key x) := by
  unfold put
  split
  next hany =>
    simp only [List.any_eq_true, decide_eq_true_eq] at hany
    obtain ⟨b, hb, hbk⟩ := hany
    simp only [List.mem_map]
    constructor
    · rintro ⟨a, ha, rfl⟩
      split
      next hk => exact Or.inr (Or.inl ⟨a, ha, hk, rfl⟩)
      next hk => exact Or.inl ⟨ha, hk⟩
    · rintro (⟨hr, hk⟩ | ⟨a, ha, hk, rfl⟩ | ⟨-, hnone⟩)
      · exact ⟨r, hr, if_neg hk⟩
      · exact ⟨a, ha, if_pos hk⟩
      · exact absurd hbk (hnone b hb)
  next hany =>
    have hnone : ∀ a ∈ rows, key a ≠ key x := by
      intro a ha hk
      exact hany (List.any_eq_true.mpr ⟨a, ha, decide_eq_true hk⟩)
    simp only [List.mem_append, List.mem_singleton]
    constructor
    · rintro (hr | rfl)
      · exact Or.inl ⟨hr, hnone r hr⟩
      · exact Or.inr (Or.inr ⟨rfl, hnone⟩)
    · rintro (⟨hr, -⟩ | ⟨a, ha, hk, -⟩ | ⟨rfl, -⟩)
      · exact Or.inl hr
      · exact absurd hk (hnone a ha)
      · exact Or.inr rfl

/-- Insertion that replaces the old row. -/
theorem mem_put_replace {x r : α} :
    r ∈ put key (fun _ new => new) x rows ↔ (r ∈ rows ∧ key r ≠ key x) ∨ r = x := by
  rw [mem_put]
  constructor
  · rintro (h | ⟨_, _, _, rfl⟩ | ⟨rfl, -⟩)
    · exact Or.inl h
    · exact Or.inr rfl
    · exact Or.inr rfl
  · rintro (h | rfl)
    · exact Or.inl h
    · by_cases hex : ∃ a ∈ rows, key a = key r
      · obtain ⟨a, ha, hk⟩ := hex
        exact Or.inr (Or.inl ⟨a, ha, hk, rfl⟩)
      · exact Or.inr (Or.inr ⟨rfl, fun a ha hk => hex ⟨a, ha, hk⟩⟩)

/-- A row after insertions that replace is a new one, or an old one with another key. -/
theorem mem_putAll_replace {xs : List α} {r : α} :
    ∀ {rows : List α}, r ∈ putAll key (fun _ new => new) xs rows →
      r ∈ xs ∨ (r ∈ rows ∧ ∀ x ∈ xs, key r ≠ key x) := by
  induction xs with
  | nil => exact fun h => Or.inr ⟨h, by simp⟩
  | cons x rest ih =>
    intro rows h
    rw [putAll, List.foldl_cons, ← putAll] at h
    rcases ih h with h | ⟨h, hrest⟩
    · exact Or.inl (List.mem_cons_of_mem _ h)
    · rcases mem_put_replace.mp h with ⟨hr, hx⟩ | rfl
      · exact Or.inr ⟨hr, List.forall_mem_cons.mpr ⟨hx, hrest⟩⟩
      · exact Or.inl (List.mem_cons_self ..)

/-- An update keeps the rows of a part of the table it does not touch. -/
theorem filter_map_of_frame {p : α → Bool} {f : α → α}
    (h : ∀ r ∈ rows, f r = r ∨ (p r = false ∧ p (f r) = false)) :
    (rows.map f).filter p = rows.filter p := by
  induction rows with
  | nil => rfl
  | cons r rest ih =>
    have ih := ih fun a ha => h a (List.mem_cons_of_mem _ ha)
    rcases h r List.mem_cons_self with hr | ⟨hr, hfr⟩
    · simp only [List.map_cons, List.filter_cons, hr, ih]
    · simp [hr, hfr, ih]

/-- An insertion keeps the rows of a part of the table that its key is not in. -/
theorem filter_put {p : α → Bool} {x : α} (hkey : ∀ r, key r = key x → p r = false)
    (hmerge : ∀ r, p (merge r x) = p r) : (put key merge x rows).filter p = rows.filter p := by
  unfold put
  split
  · refine filter_map_of_frame fun r _ => ?_
    split
    next hk => exact Or.inr ⟨hkey r hk, (hmerge r).trans (hkey r hk)⟩
    · exact Or.inl rfl
  · simp [List.filter_append, hkey x rfl]

theorem filter_putAll {p : α → Bool} {xs : List α}
    (hkey : ∀ x ∈ xs, ∀ r, key r = key x → p r = false)
    (hmerge : ∀ x ∈ xs, ∀ r, p (merge r x) = p r) :
    ∀ {rows : List α}, (putAll key merge xs rows).filter p = rows.filter p := by
  induction xs with
  | nil => exact rfl
  | cons x rest ih =>
    intro rows
    have hrest : (putAll key merge (x :: rest) rows).filter p =
        (put key merge x rows).filter p :=
      ih (fun y hy => hkey y (List.mem_cons_of_mem _ hy))
        (fun y hy => hmerge y (List.mem_cons_of_mem _ hy))
    exact hrest.trans (filter_put (hkey x List.mem_cons_self) (hmerge x List.mem_cons_self))

/-- Insertion keeps the keys distinct. -/
theorem nodup_put {x : α} (h : (rows.map key).Nodup)
    (hmerge : ∀ r, key r = key x → key (merge r x) = key x) :
    ((put key merge x rows).map key).Nodup := by
  unfold put
  split
  · have hmap : (rows.map fun r => if key r = key x then merge r x else r).map key =
        rows.map key := by
      rw [List.map_map]
      refine List.map_congr_left fun r _ => ?_
      by_cases hk : key r = key x
      · simp [hk, hmerge r hk]
      · simp [hk]
    rw [hmap]
    exact h
  next hany =>
    rw [List.map_append, List.nodup_append]
    refine ⟨h, by simp, fun k hk k' hk' hkk => hany ?_⟩
    obtain ⟨r, hr, rfl⟩ := List.mem_map.mp hk
    simp only [List.map_cons, List.map_nil, List.mem_singleton] at hk'
    exact List.any_eq_true.mpr ⟨r, hr, decide_eq_true (hkk.trans hk')⟩

theorem nodup_putAll {xs : List α}
    (hmerge : ∀ x ∈ xs, ∀ r, key r = key x → key (merge r x) = key x) :
    ∀ {rows : List α}, (rows.map key).Nodup → ((putAll key merge xs rows).map key).Nodup := by
  induction xs with
  | nil => exact fun h => h
  | cons x rest ih =>
    intro rows h
    exact ih (fun y hy => hmerge y (List.mem_cons_of_mem _ hy))
      (nodup_put h (hmerge x List.mem_cons_self))

/-! ## Lookups in lists of pairs -/

section Lookup

variable {β : Type*} {d : List (κ × β)}

/-- In a list of pairs with distinct keys a lookup finds every pair. -/
theorem lookup_eq_some_iff (h : (d.map Prod.fst).Nodup) {k : κ} {v : β} :
    d.lookup k = some v ↔ (k, v) ∈ d := by
  induction d with
  | nil => simp
  | cons x rest ih =>
    obtain ⟨k', v'⟩ := x
    simp only [List.map_cons, List.nodup_cons, List.mem_map, not_exists, not_and] at h
    rw [List.lookup_cons, List.mem_cons, Prod.mk.injEq]
    by_cases hk : k = k'
    · subst hk
      have hrest : (k, v) ∉ rest := fun hm => h.1 _ hm rfl
      simp [hrest, eq_comm]
    · rw [beq_false_of_ne hk]
      simp [hk, ih h.2]

/-- Lookup after an update that keeps the keys. -/
theorem lookup_map {f : κ × β → κ × β} (hf : ∀ x, (f x).1 = x.1) (k : κ) :
    (d.map f).lookup k = (d.lookup k).map fun v => (f (k, v)).2 := by
  induction d with
  | nil => rfl
  | cons x rest ih =>
    obtain ⟨k', v'⟩ := x
    rw [List.map_cons, List.lookup_cons, List.lookup_cons, hf, ih]
    by_cases hk : k = k'
    · subst hk
      simp
    · simp [beq_false_of_ne hk]

/-- Lookup after a deletion by key. -/
theorem lookup_filter {p : κ → Bool} (k : κ) :
    (d.filter fun x => p x.1).lookup k = if p k then d.lookup k else none := by
  induction d with
  | nil => simp
  | cons x rest ih =>
    obtain ⟨k', v'⟩ := x
    rw [List.filter_cons, List.lookup_cons]
    by_cases hk : k = k'
    · subst hk
      by_cases hp : p k
      · simp [hp]
      · simp [hp, ih]
    · by_cases hp : p k'
      · simp [hp, List.lookup_cons, beq_false_of_ne hk, ih]
      · simp [hp, beq_false_of_ne hk, ih]

/-- Lookup after an insertion. -/
theorem lookup_put {merge : κ × β → κ × β → κ × β} {x : κ × β}
    (hmerge : ∀ r, (merge r x).1 = r.1) (k : κ) :
    (put Prod.fst merge x d).lookup k =
      if k = x.1 then some (((d.lookup k).map fun v => (merge (k, v) x).2).getD x.2)
      else d.lookup k := by
  obtain ⟨k', v'⟩ := x
  unfold put
  split
  next hany =>
    rw [lookup_map (fun r => by split; exacts [hmerge r, rfl])]
    split
    next hk =>
      subst hk
      have hsome : (d.lookup k).isSome := by
        rw [List.lookup_isSome_iff]
        simp only [List.any_eq_true, decide_eq_true_eq] at hany
        obtain ⟨r, hr, hrk⟩ := hany
        exact ⟨r, hr, beq_iff_eq.mpr hrk.symm⟩
      obtain ⟨v, hv⟩ := Option.isSome_iff_exists.mp hsome
      simp [hv]
    · simp
  next hany =>
    have hnone : d.lookup k' = none := by
      rw [List.lookup_eq_none_iff]
      intro r hr
      simp only [List.any_eq_true, decide_eq_true_eq, not_exists, not_and] at hany
      exact bne_iff_ne.mpr (Ne.symm (hany r hr))
    rw [List.lookup_append]
    split
    next hk =>
      subst hk
      simp [hnone]
    next hk => simp [List.lookup_cons, beq_false_of_ne hk]

end Lookup

end KeyedTable

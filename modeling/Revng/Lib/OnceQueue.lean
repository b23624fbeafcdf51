import Mathlib.Data.Finset.Card

/-!
# Queues that take an element once

An element that was inserted once is not inserted again, also not after it was taken.  A loop takes
the elements off such a queue until it is empty: `visit` updates a state and yields the elements to
insert.  Whatever the loop does is told by the order in which it takes the elements (`Drained`): the
state is the one after the visits in that order, every seed and every element that a visit yields is
taken, and nothing else is.
-/

/-- The elements ever inserted, in this order, and those not taken yet. -/
structure OnceQueue (α : Type) where
  set : List α
  queue : List α

namespace OnceQueue

variable {α σ : Type}

def empty : OnceQueue α := ⟨[], []⟩

def insert [DecidableEq α] (q : OnceQueue α) (x : α) : OnceQueue α :=
  if x ∈ q.set then q else ⟨q.set ++ [x], q.queue ++ [x]⟩

def insertAll [DecidableEq α] (q : OnceQueue α) (xs : List α) : OnceQueue α := xs.foldl insert q

/-- The loop, which gives up when elements are left but no fuel. -/
def drain [DecidableEq α] (visit : α → σ → σ × List α) : ℕ → OnceQueue α → σ → Option σ
  | 0, q, s => if q.queue.isEmpty then some s else none
  | fuel + 1, q, s =>
      match q.queue with
      | [] => some s
      | x :: rest =>
          let (s, next) := visit x s
          drain visit fuel (insertAll ⟨q.set, rest⟩ next) s

/-! ## The order of the visits -/

variable (visit : α → σ → σ × List α)

/-- The state after visits in the given order. -/
def after (s : σ) (order : List α) : σ := order.foldl (fun s x => (visit x s).1) s

/-- What the visit after those of `us` yields. -/
def yielded (s : σ) (us : List α) (x : α) : List α := (visit x (after visit s us)).2

theorem after_append (s : σ) (us : List α) (x : α) :
    after visit s (us ++ [x]) = (visit x (after visit s us)).1 := by
  simp [after]

/-- An order in which the elements are taken, from the seeds to the empty queue. -/
structure Drained (seeds : List α) (s : σ) (order : List α) : Prop where
  nodup : order.Nodup
  seed : ∀ x ∈ seeds, x ∈ order
  yields : ∀ us x, us ++ [x] <+: order → ∀ y ∈ yielded visit s us x, y ∈ order
  origin : ∀ us x, us ++ [x] <+: order →
    x ∈ seeds ∨ ∃ vs c, vs ++ [c] <+: us ∧ x ∈ yielded visit s vs c

variable {visit} {seeds order : List α} {s : σ}

/-- What holds of the seeds, and of everything that a visit after such elements yields, holds of
every element taken. -/
theorem Drained.induction (h : Drained visit seeds s order) {P : α → Prop}
    (hseed : ∀ x ∈ seeds, P x)
    (hstep : ∀ us x, us ++ [x] <+: order → (∀ u ∈ us, P u) → P x →
      ∀ y ∈ yielded visit s us x, P y) :
    ∀ x ∈ order, P x := by
  suffices hinitial : ∀ n us, us.length = n → us <+: order → ∀ u ∈ us, P u from
    hinitial _ order rfl List.prefix_rfl
  intro n
  induction n with
  | zero =>
    intro us hlen _ u hu
    rw [List.length_eq_zero_iff.1 hlen] at hu
    exact absurd hu List.not_mem_nil
  | succ n ih =>
    intro us hlen hus u hu
    obtain ⟨init, x, rfl⟩ : ∃ init x, us = init ++ [x] := by
      rcases List.eq_nil_or_concat us with rfl | ⟨init, x, rfl⟩
      · simp at hlen
      · exact ⟨init, x, List.concat_eq_append⟩
    have hinit : ∀ u ∈ init, P u :=
      ih init (by simpa using hlen) ((List.prefix_append init [x]).trans hus)
    rcases List.mem_append.1 hu with hu | hu
    · exact hinit u hu
    · obtain rfl := List.mem_singleton.1 hu
      rcases h.origin init u hus with hseeds | ⟨vs, c, hvs, hyield⟩
      · exact hseed u hseeds
      · have hc : ∀ v ∈ vs ++ [c], P v := fun v hv => hinit v (hvs.subset hv)
        refine hstep vs c ((hvs.trans (List.prefix_append init [u])).trans hus)
          (fun v hv => hc v (List.mem_append_left _ hv)) (hc c (by simp)) u hyield

/-! ## The queue -/

/-- The elements taken so far, and nothing twice. -/
structure Holds (done : List α) (q : OnceQueue α) : Prop where
  set_eq : q.set = done ++ q.queue
  nodup : q.set.Nodup

variable {done xs : List α} {q : OnceQueue α} {x : α}

theorem Holds.empty : Holds [] (empty : OnceQueue α) := ⟨rfl, List.nodup_nil⟩

/-- The first element of the queue is taken. -/
theorem Holds.take {rest : List α} (h : Holds done q) (hq : q.queue = x :: rest) :
    Holds (done ++ [x]) ⟨q.set, rest⟩ :=
  ⟨by simp [h.set_eq, hq], h.nodup⟩

/-- A list that extends a prefix by one element ends inside the prefix or is longer. -/
theorem concat_isPrefix_append {us ys zs : List α} (h : us ++ [x] <+: ys ++ zs) :
    us ++ [x] <+: ys ∨ ys <+: us ∧ x ∈ zs := by
  obtain ⟨rest, hrest⟩ := h
  rcases List.append_eq_append_iff.1 hrest with ⟨cs, hys, -⟩ | ⟨cs, hux, hzs⟩
  · exact .inl ⟨cs, hys.symm⟩
  · rcases List.eq_nil_or_concat cs with rfl | ⟨init, last, rfl⟩
    · exact .inl (by simp [hux])
    · rw [List.concat_eq_append, ← List.append_assoc] at hux
      obtain ⟨rfl, hlast⟩ := List.append_inj' hux rfl
      refine .inr ⟨List.prefix_append ys init, ?_⟩
      rw [hzs, List.concat_eq_append, List.cons.inj hlast |>.1]
      simp

variable [DecidableEq α]

theorem Holds.insert (h : Holds done q) (x : α) : Holds done (q.insert x) := by
  rw [OnceQueue.insert]
  split_ifs with hx
  · exact h
  · refine ⟨by simp [h.set_eq], ?_⟩
    exact List.nodup_append.2 ⟨h.nodup, List.nodup_singleton x, by
      rintro a ha b hb rfl
      exact hx (List.mem_singleton.1 hb ▸ ha)⟩

theorem Holds.insertAll (h : Holds done q) (xs : List α) : Holds done (q.insertAll xs) := by
  induction xs generalizing q with
  | nil => exact h
  | cons x xs ih => exact ih (h.insert x)

theorem mem_set_insert {y : α} : y ∈ (q.insert x).set ↔ y ∈ q.set ∨ y = x := by
  rw [insert]
  split_ifs with hx
  · exact ⟨.inl, fun h => h.elim id fun hy => hy ▸ hx⟩
  · simp

theorem mem_set_insertAll {y : α} : y ∈ (q.insertAll xs).set ↔ y ∈ q.set ∨ y ∈ xs := by
  induction xs generalizing q with
  | nil => simp [insertAll]
  | cons x xs ih =>
    rw [show q.insertAll (x :: xs) = (q.insert x).insertAll xs from rfl, ih, mem_set_insert,
      List.mem_cons, or_assoc]

/-- What is inserted stands behind everything else, and is one of the elements given. -/
theorem exists_set_insertAll (q : OnceQueue α) (xs : List α) :
    ∃ ys, (q.insertAll xs).set = q.set ++ ys ∧ ∀ y ∈ ys, y ∈ xs := by
  induction xs generalizing q with
  | nil => exact ⟨[], by simp [insertAll], by simp⟩
  | cons x xs ih =>
    obtain ⟨ys, hys, hmem⟩ := ih (q.insert x)
    rw [show q.insertAll (x :: xs) = (q.insert x).insertAll xs from rfl, hys, insert]
    split_ifs with hx
    · exact ⟨ys, rfl, fun y hy => List.mem_cons_of_mem x (hmem y hy)⟩
    · refine ⟨x :: ys, by simp, fun y hy => ?_⟩
      rcases List.mem_cons.1 hy with rfl | hy
      · exact List.mem_cons_self
      · exact List.mem_cons_of_mem x (hmem y hy)

/-! ## The loop -/

variable (visit)

/-- The invariant of the loop, in which only some of the elements are taken. -/
structure Draining (seeds : List α) (s : σ) (done : List α) (q : OnceQueue α) : Prop where
  holds : Holds done q
  seed : ∀ x ∈ seeds, x ∈ q.set
  yields : ∀ us x, us ++ [x] <+: done → ∀ y ∈ yielded visit s us x, y ∈ q.set
  origin : ∀ us x, us ++ [x] <+: q.set →
    x ∈ seeds ∨ ∃ vs c, vs ++ [c] <+: us ∧ x ∈ yielded visit s vs c

variable {visit} {t : σ} {fuel : ℕ}

theorem Draining.start (seeds : List α) (s : σ) :
    Draining visit seeds s [] (empty.insertAll seeds) where
  holds := Holds.empty.insertAll seeds
  seed x hx := mem_set_insertAll.2 (.inr hx)
  yields us x h := by simp at h
  origin us x h := by
    have hx : x ∈ (empty.insertAll seeds).set := h.subset (by simp)
    exact .inl ((mem_set_insertAll.1 hx).resolve_left (by simp [empty]))

theorem Draining.step {rest : List α} (h : Draining visit seeds s done q)
    (hq : q.queue = x :: rest) :
    Draining visit seeds s (done ++ [x]) (insertAll ⟨q.set, rest⟩ (yielded visit s done x)) := by
  have hkeep : ∀ y ∈ q.set, y ∈ (insertAll ⟨q.set, rest⟩ (yielded visit s done x)).set :=
    fun y hy => mem_set_insertAll.2 (.inl hy)
  refine ⟨(h.holds.take hq).insertAll _, fun y hy => hkeep y (h.seed y hy),
    fun us c hus y hy => ?_, fun us c hus => ?_⟩
  · rcases concat_isPrefix_append hus with hus | ⟨hdone, hc⟩
    · exact hkeep y (h.yields us c hus y hy)
    · obtain rfl := List.mem_singleton.1 hc
      have hlen := hus.length_le
      obtain rfl : done = us := hdone.eq_of_length (by
        have := hdone.length_le
        simp only [List.length_append, List.length_singleton] at hlen
        omega)
      exact mem_set_insertAll.2 (.inr hy)
  · obtain ⟨ys, hys, hmem⟩ := exists_set_insertAll ⟨q.set, rest⟩ (yielded visit s done x)
    rw [hys] at hus
    rcases concat_isPrefix_append hus with hus | ⟨hset, hc⟩
    · exact h.origin us c hus
    · refine .inr ⟨done, x, ?_, hmem c hc⟩
      -- the element that is taken stands in the set already
      have hx : done ++ [x] <+: q.set := by
        rw [h.holds.set_eq, hq]
        exact ⟨rest, by simp⟩
      exact hx.trans hset

/-- What the loop returns is the state after the visits in some such order. -/
theorem exists_drained_of_drain (h : drain visit fuel (empty.insertAll seeds) s = some t) :
    ∃ order, Drained visit seeds s order ∧ t = after visit s order := by
  suffices hloop : ∀ fuel done (q : OnceQueue α), Draining visit seeds s done q →
      drain visit fuel q (after visit s done) = some t →
      ∃ order, Drained visit seeds s order ∧ t = after visit s order from
    hloop fuel [] _ (Draining.start seeds s) h
  have hend : ∀ done (q : OnceQueue α), Draining visit seeds s done q → q.queue = [] →
      Drained visit seeds s done := by
    intro done q hq hempty
    have hset : q.set = done := by rw [hq.holds.set_eq, hempty, List.append_nil]
    exact ⟨hset ▸ hq.holds.nodup, hset ▸ hq.seed, hset ▸ hq.yields, hset ▸ hq.origin⟩
  intro fuel
  induction fuel with
  | zero =>
    intro done q hq hdrain
    rw [drain] at hdrain
    split_ifs at hdrain with hempty
    exact ⟨done, hend done q hq (by simpa using hempty), (Option.some.inj hdrain).symm⟩
  | succ fuel ih =>
    intro done q hq hdrain
    rw [drain] at hdrain
    split at hdrain
    case h_1 hempty => exact ⟨done, hend done q hq hempty, (Option.some.inj hdrain).symm⟩
    case h_2 x rest hqueue =>
        refine ih (done ++ [x]) _ (hq.step hqueue) ?_
        rw [after_append]
        exact hdrain

/-- With as much fuel as there are elements the loop returns. -/
theorem drain_isSome (domain : Finset α) (hseeds : ∀ x ∈ seeds, x ∈ domain)
    (hvisit : ∀ x ∈ domain, ∀ s, ∀ y ∈ (visit x s).2, y ∈ domain) (hfuel : domain.card ≤ fuel) :
    (drain visit fuel (empty.insertAll seeds) s).isSome := by
  suffices hloop : ∀ fuel done (q : OnceQueue α) s, Holds done q → (∀ x ∈ q.set, x ∈ domain) →
      domain.card ≤ fuel + done.length → (drain visit fuel q s).isSome from
    hloop fuel [] _ s (Holds.empty.insertAll seeds)
      (fun x hx => hseeds x ((mem_set_insertAll.1 hx).resolve_left (by simp [empty])))
      (by simpa using hfuel)
  intro fuel
  induction fuel with
  | zero =>
    intro done q s hq hdomain hcard
    have hlen : q.set.length ≤ domain.card := by
      rw [← List.toFinset_card_of_nodup hq.nodup]
      exact Finset.card_le_card fun x hx => hdomain x (List.mem_toFinset.1 hx)
    have hempty : q.queue = [] := by
      rw [hq.set_eq, List.length_append] at hlen
      exact List.length_eq_zero_iff.1 (by omega)
    simp [drain, hempty]
  | succ fuel ih =>
    intro done q s hq hdomain hcard
    rw [drain]
    split
    · rfl
    · next x rest hqueue =>
        have hx : x ∈ domain := hdomain x (by simp [hq.set_eq, hqueue])
        refine ih (done ++ [x]) _ _ ((hq.take hqueue).insertAll _) (fun y hy => ?_) ?_
        · rcases mem_set_insertAll.1 hy with hy | hy
          · exact hdomain y hy
          · exact hvisit x hx s y hy
        · simp only [List.length_append, List.length_singleton]
          omega

end OnceQueue

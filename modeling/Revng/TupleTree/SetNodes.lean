import Mathlib.Data.List.Sort
import Revng.TupleTree.ReplayContainer

/-!
# The nodes of a set

While a diff is replayed on a `MutableSet`, a removal takes the last node of the map and
an addition puts in a node of its own.  The nodes end up with the keys of the new set
only when the removals come last.
-/

namespace TupleTree

open SortedMerge

/-! ## What happens to the keys of the nodes -/

section Nodes

variable {α K : Type} [LinearOrder K] {key : α → K}

/-- The keys of the nodes after the changes at one place of the merge. -/
def nodeStep (key : α → K) (nodes : List K) : Zipped α → List K
  | .left _ => nodes.dropLast
  | .right r => nodes.orderedInsert (· ≤ ·) (key r)
  | .both _ _ => nodes

theorem orderedInsert_above {k : K} {done nodes : List K} (h : ∀ d ∈ done, d < k) :
    (done ++ nodes).orderedInsert (· ≤ ·) k = done ++ nodes.orderedInsert (· ≤ ·) k := by
  induction done with
  | nil => rfl
  | cons d done ih =>
    have hd := h d (by simp)
    simp [hd.not_ge, ih fun e he => h e (by simp [he])]

theorem orderedInsert_past {k m : K} {done nodes : List K} (hdone : ∀ d ∈ done, d < m)
    (hk : k < m) : (done ++ k :: nodes).orderedInsert (· ≤ ·) m =
      done ++ k :: nodes.orderedInsert (· ≤ ·) m := by
  rw [orderedInsert_above hdone]
  simp [hk.not_ge]

omit [LinearOrder K] in
theorem dropLast_past {k : K} {done nodes : List K} (h : nodes ≠ []) :
    (done ++ k :: nodes).dropLast = done ++ k :: nodes.dropLast := by
  rw [List.dropLast_append_of_ne_nil (by simp), List.dropLast_cons_of_ne_nil h]

/-- A node survives while there are as many nodes after it as elements to come on the
left. -/
theorem mem_nodes_of_length_le {k : K} (ls rs : List α) (done nodes : List K)
    (hdone : ∀ d ∈ done, ∀ r ∈ rs, d < key r) (hk : ∀ r ∈ rs, k < key r)
    (hlen : ls.length ≤ nodes.length) :
    k ∈ (zipmap key ls rs).foldl (nodeStep key) (done ++ k :: nodes) := by
  have hne : ∀ {n}, n + 1 ≤ nodes.length → nodes ≠ [] := fun h heq => by simp [heq] at h
  fun_induction zipmap key ls rs generalizing nodes with
  | case1 => simp
  | case2 r rs ih =>
    rw [List.foldl_cons, nodeStep, orderedInsert_past (hdone · · r (by simp)) (hk r (by simp))]
    exact ih _ (fun d hd x hx => hdone d hd x (by simp [hx])) (fun x hx => hk x (by simp [hx]))
      (by simp) fun h heq => by simp [heq] at h
  | case3 l ls ih =>
    rw [List.foldl_cons, nodeStep, dropLast_past (hne hlen)]
    exact ih _ hdone hk (by simp at hlen ⊢; omega) fun h heq => by simp [heq] at h
  | case4 l ls r rs hlt ih =>
    rw [List.foldl_cons, nodeStep, dropLast_past (hne hlen)]
    exact ih _ hdone hk (by simp at hlen ⊢; omega) fun h heq => by simp [heq] at h
  | case5 l ls r rs hnot hlt ih =>
    rw [List.foldl_cons, nodeStep, orderedInsert_past (hdone · · r (by simp)) (hk r (by simp))]
    exact ih _ (fun d hd x hx => hdone d hd x (by simp [hx])) (fun x hx => hk x (by simp [hx]))
      (by simp [List.orderedInsert_length] at hlen ⊢; omega) fun h heq => by simp [heq] at h
  | case6 l ls r rs hnot hnot' ih =>
    rw [List.foldl_cons, nodeStep]
    exact ih _ (fun d hd x hx => hdone d hd x (by simp [hx])) (fun x hx => hk x (by simp [hx]))
      (by simp at hlen; omega) hne

/-- A node goes only when the elements to come on the left are below the others. -/
theorem lt_of_notMem_nodes {k : K} (ls rs : List α) (done nodes : List K)
    (hrs : Ascending key rs) (hdone : ∀ d ∈ done, ∀ r ∈ rs, d < key r)
    (hk : ∀ r ∈ rs, k < key r) (hlen : nodes.length + 1 = ls.length)
    (hmem : k ∉ (zipmap key ls rs).foldl (nodeStep key) (done ++ k :: nodes)) :
    ∀ l ∈ ls, ∀ r ∈ rs, key l < key r := by
  fun_induction zipmap key ls rs generalizing nodes with
  | case1 => simp
  | case2 r rs ih => simp at hlen
  | case3 l ls ih => simp
  | case4 l ls r rs hlt ih =>
    have hl := hrs.lt_of_lt_head hlt
    by_cases hne : nodes = []
    · have hls : ls = [] := by simpa [hne] using hlen.symm
      simpa [hls] using hl
    · rw [List.foldl_cons, nodeStep, dropLast_past hne] at hmem
      have hpos := List.length_pos_iff.mpr hne
      have hrest := ih nodes.dropLast hrs hdone hk (by simp at hlen ⊢; omega) hmem
      intro x hx y hy
      rcases List.mem_cons.mp hx with rfl | hx
      · exact hl y hy
      · exact hrest x hx y hy
  | case5 l ls r rs hnot hlt ih =>
    rw [List.foldl_cons, nodeStep,
      orderedInsert_past (hdone · · r (by simp)) (hk r (by simp))] at hmem
    refine absurd (mem_nodes_of_length_le (l :: ls) rs done _ ?_ ?_ ?_) hmem
    · exact fun d hd x hx => hdone d hd x (by simp [hx])
    · exact fun x hx => hk x (by simp [hx])
    · simp [List.orderedInsert_length] at hlen ⊢
      omega
  | case6 l ls r rs hnot hnot' ih =>
    rw [List.foldl_cons, nodeStep] at hmem
    refine absurd (mem_nodes_of_length_le ls rs done _ ?_ ?_ ?_) hmem
    · exact fun d hd x hx => hdone d hd x (by simp [hx])
    · exact fun x hx => hk x (by simp [hx])
    · simp at hlen
      omega

end Nodes

variable {S : Type} [LinearOrder S] [Inhabited S] {element : Schema S}

theorem keys_below_append {k : List S} {done : List (List S)} {xs : List (Tree S)}
    (hdone : ∀ d ∈ done, ∀ x ∈ xs, d < element.keyOf x) (hk : ∀ x ∈ xs, k < element.keyOf x) :
    ∀ d ∈ done ++ [k], ∀ x ∈ xs, d < element.keyOf x := by
  intro d hd x hx
  rcases List.mem_append.mp hd with hd | hd
  · exact hdone d hd x hx
  · exact List.mem_singleton.mp hd ▸ hk x hx

/-- When the nodes end up with the keys of the new set, the removals came last.  The
induction follows the merge up to the first removal. -/
theorem removalsLast_of_nodes (ls rs : List (Tree S)) (done : List (List S))
    (hls : Ascending element.keyOf ls) (hrs : Ascending element.keyOf rs)
    (hdl : ∀ d ∈ done, ∀ l ∈ ls, d < element.keyOf l)
    (hdr : ∀ d ∈ done, ∀ r ∈ rs, d < element.keyOf r)
    (h : (zipmap element.keyOf ls rs).foldl (nodeStep element.keyOf)
      (done ++ ls.map element.keyOf) = done ++ rs.map element.keyOf) :
    RemovalsLast (ls.map element.keyOf) (rs.map element.keyOf) := by
  fun_induction zipmap element.keyOf ls rs generalizing done with
  | case1 => intro k hk; simp at hk
  | case2 r rs ih => intro k hk; simp at hk
  | case3 l ls ih => intro k _ _ m hm; simp at hm
  | case4 l ls r rs hlt ih =>
    have hl := hrs.lt_of_lt_head hlt
    have habove : ∀ x ∈ l :: ls, ∀ y ∈ r :: rs, element.keyOf x < element.keyOf y := by
      by_cases hne : ls = []
      · simpa [hne] using hl
      · have hmap : ls.map element.keyOf ≠ [] := by simpa using hne
        have hpos := List.length_pos_iff.mpr hne
        have hgone : element.keyOf l ∉ done ++ (r :: rs).map element.keyOf := by
          intro hmem
          rcases List.mem_append.mp hmem with hmem | hmem
          · exact (hdl _ hmem l (by simp)).false
          · obtain ⟨x, hx, heq⟩ := List.mem_map.mp hmem
            exact (hl x hx).ne heq.symm
        rw [List.map_cons, List.foldl_cons, nodeStep, dropLast_past hmap] at h
        have hrest := lt_of_notMem_nodes ls (r :: rs) done _ hrs hdr hl (by simp; omega)
          (h ▸ hgone)
        intro x hx y hy
        rcases List.mem_cons.mp hx with rfl | hx
        · exact hl y hy
        · exact hrest x hx y hy
    intro k _ _ m hm _ n hn
    obtain ⟨y, hy, rfl⟩ := List.mem_map.mp hm
    obtain ⟨x, hx, rfl⟩ := List.mem_map.mp hn
    exact habove x hx y hy
  | case5 l ls r rs hnot hlt ih =>
    have hrl := hls.lt_of_lt_head hlt
    obtain ⟨hr, hrs⟩ := List.pairwise_cons.mp hrs
    have hinsert : (done ++ (l :: ls).map element.keyOf).orderedInsert (· ≤ ·) (element.keyOf r) =
        (done ++ [element.keyOf r]) ++ (l :: ls).map element.keyOf := by
      rw [orderedInsert_above (hdr · · r (by simp))]
      simp [hlt.le]
    have hnew : done ++ (r :: rs).map element.keyOf =
        (done ++ [element.keyOf r]) ++ rs.map element.keyOf := by simp
    rw [List.foldl_cons, nodeStep, hinsert, hnew] at h
    have hrest := ih (done ++ [element.keyOf r]) hls hrs (keys_below_append hdl hrl)
      (keys_below_append (fun d hd x hx => hdr d hd x (by simp [hx])) hr) h
    intro k hk hnotin m hm hkm n hn
    rw [List.map_cons, List.mem_cons, not_or] at hnotin
    rcases List.mem_cons.mp hm with rfl | hm
    · obtain ⟨x, hx, rfl⟩ := List.mem_map.mp hk
      exact absurd hkm (hrl x hx).not_gt
    · exact hrest k hk hnotin.2 m hm hkm n hn
  | case6 l ls r rs hnot hnot' ih =>
    have hkey : element.keyOf l = element.keyOf r :=
      le_antisymm (not_lt.mp hnot') (not_lt.mp hnot)
    obtain ⟨hl, hls⟩ := List.pairwise_cons.mp hls
    obtain ⟨hr, hrs⟩ := List.pairwise_cons.mp hrs
    have hold : done ++ (l :: ls).map element.keyOf =
        (done ++ [element.keyOf l]) ++ ls.map element.keyOf := by simp
    have hnew : done ++ (r :: rs).map element.keyOf =
        (done ++ [element.keyOf l]) ++ rs.map element.keyOf := by simp [hkey]
    rw [List.foldl_cons, nodeStep, hold, hnew] at h
    have hrest := ih (done ++ [element.keyOf l]) hls hrs
      (keys_below_append (fun d hd x hx => hdl d hd x (by simp [hx])) hl)
      (keys_below_append (fun d hd x hx => hdr d hd x (by simp [hx])) fun x hx => hkey ▸ hr x hx) h
    intro k hk hnotin m hm hkm n hn
    rw [List.map_cons, List.mem_cons, not_or] at hnotin
    have hk : k ∈ ls.map element.keyOf :=
      (List.mem_cons.mp hk).resolve_left fun heq => hnotin.1 (heq.trans hkey)
    have hlk : element.keyOf l < k := by
      obtain ⟨x, hx, rfl⟩ := List.mem_map.mp hk
      exact hl x hx
    have hm : m ∈ rs.map element.keyOf :=
      (List.mem_cons.mp hm).resolve_left fun heq => (hlk.trans (heq ▸ hkm)).ne hkey
    rcases List.mem_cons.mp hn with rfl | hn
    · exact hlk.trans hkm
    · exact hrest k hk hnotin.2 m hm hkm n hn

/-! ## The nodes of the set follow -/

/-- A set whose nodes have the given keys. -/
def HasNodes (nodes : List (List S)) (t : Tree S) : Prop :=
  ∃ xs : List (Tree S), t = .mutableSet nodes xs ∧ xs.length = nodes.length

omit [Inhabited S] in
theorem insertNode_length {k : List S} {x : Tree S} :
    ∀ {nodes : List (List S)} {xs : List (Tree S)}, xs.length = nodes.length →
      (insertNode k x nodes xs).2.length = (insertNode k x nodes xs).1.length ∧
        ((insertNode k x nodes xs).2.length = xs.length + 1 →
          (insertNode k x nodes xs).1 = nodes.orderedInsert (· ≤ ·) k) := by
  intro nodes
  induction nodes with
  | nil =>
    intro xs hlen
    simp [List.length_eq_zero_iff.mp hlen, insertNode]
  | cons node nodes ih =>
    intro xs hlen
    cases xs with
    | nil => simp at hlen
    | cons y ys =>
      obtain ⟨hrest, hnodes⟩ := ih (by simpa using hlen)
      have hlen' : ys.length = nodes.length := by simpa using hlen
      simp only [insertNode]
      split
      next hlt => simpa [hrest, hlt.not_ge] using hnodes
      next hnot =>
        split
        next hlt => simp [hlen', hlt.le]
        next => simp [hlen']

theorem HasNodes.remove {nodes : List (List S)} {t t' l : Tree S} (h : HasNodes nodes t)
    (hstep : Change.attempt (.container .mutableSet element) t ⟨[], some l, none⟩ = some t') :
    HasNodes nodes.dropLast t' := by
  obtain ⟨xs, rfl, hlen⟩ := h
  simp only [Change.attempt, arrive, if_true, visit, visitContainer, Tree.removeKey,
    callOnPathSteps, Tree.elements, succeeded, Option.or_none, and_true] at hstep
  by_cases hsize : (xs.filter (element.keyOf · ≠ element.keyOf l)).length + 1 = xs.length
  · simp only [hsize, if_true, Option.some.injEq] at hstep
    have hkept : (xs.filter (element.keyOf · ≠ element.keyOf l)).length = nodes.length - 1 := by
      omega
    exact ⟨_, by rw [← hstep, hkept, List.dropLast_eq_take], by rw [hkept, List.length_dropLast]⟩
  · simp only [hsize, if_false, reduceCtorEq] at hstep

theorem HasNodes.add {nodes : List (List S)} {t t' r : Tree S} (h : HasNodes nodes t)
    (hstep : Change.attempt (.container .mutableSet element) t ⟨[], none, some r⟩ = some t') :
    HasNodes (nodes.orderedInsert (· ≤ ·) (element.keyOf r)) t' := by
  obtain ⟨xs, rfl, hlen⟩ := h
  simp only [Change.attempt, arrive, if_true, visit, visitContainer, Tree.insertOrAssign,
    callOnPathSteps, Tree.elements, succeeded, Option.or_none, and_true] at hstep
  obtain ⟨hinsert, hnodes⟩ := insertNode_length (k := element.keyOf r) (x := r) hlen
  by_cases hsize : xs.length + 1 = (insertNode (element.keyOf r) r nodes xs).2.length
  · simp only [hsize, if_true, Option.some.injEq] at hstep
    exact ⟨_, by rw [← hstep, hnodes hsize.symm], by rw [hinsert, hnodes hsize.symm]⟩
  · simp [hsize] at hstep

theorem HasNodes.inside {nodes : List (List S)} {t t' : Tree S} {c : Change S} {k : List S}
    {rest : Path S} (h : HasNodes nodes t) (hpath : c.path = .key k :: rest)
    (hstep : Change.attempt (.container .mutableSet element) t c = some t') :
    HasNodes nodes t' := by
  obtain ⟨xs, rfl, hlen⟩ := h
  simp only [Change.attempt, arrive, hpath, reduceCtorEq, if_false, callOnPathSteps,
    Option.none_or] at hstep
  cases hfind : (Tree.mutableSet nodes xs).find element.keyOf k with
  | none => simp [hfind, succeeded] at hstep
  | some i =>
    simp only [hfind] at hstep
    cases hget : (Tree.mutableSet nodes xs).elements[i]? with
    | none => simp [hget, succeeded] at hstep
    | some x =>
      simp only [hget, Tree.setElement] at hstep
      rw [succeeded_map (fun u => .mutableSet nodes (xs.set i u))] at hstep
      obtain ⟨u, -, rfl⟩ := Option.map_eq_some_iff.mp hstep
      exact ⟨xs.set i u, rfl, by simp [hlen]⟩

/-- A diff that is replayed moves the nodes as `nodeStep` says. -/
theorem HasNodes.replay (zs : List (Zipped (Tree S))) : ∀ {nodes : List (List S)} {t t' : Tree S},
    HasNodes nodes t →
    TupleTree.replay (.container .mutableSet element) (zs.flatMap (zipChanges element)) t =
      some t' →
    HasNodes (zs.foldl (nodeStep element.keyOf) nodes) t' := by
  induction zs with
  | nil =>
    intro nodes t t' h hrun
    rw [← Option.some.inj hrun]
    exact h
  | cons z zs ih =>
    intro nodes t t' h hrun
    rw [replay_flatMap_cons] at hrun
    obtain ⟨u, hone, hrest⟩ := Option.bind_eq_some_iff.mp hrun
    refine ih ?_ hrest
    cases z with
    | left l =>
      obtain ⟨v, hv, hvu⟩ := Option.bind_eq_some_iff.mp hone
      exact Option.some.inj hvu ▸ h.remove hv
    | right r =>
      obtain ⟨v, hv, hvu⟩ := Option.bind_eq_some_iff.mp hone
      exact Option.some.inj hvu ▸ h.add hv
    | both l r =>
      refine foldlM_invariant (I := HasNodes nodes) ?_ t u h hone
      intro c hc y y' hy hy'
      obtain ⟨d, -, rfl⟩ := List.mem_map.mp hc
      exact hy.inside rfl hy'

/-- A set whose diff can be replayed has its removals last. -/
theorem removalsLast_of_replay {ls rs : List (Tree S)} (hls : element.Elements ls)
    (hrs : element.Elements rs)
    (h : replay (.container .mutableSet element)
      ((zipmap element.keyOf ls rs).flatMap (zipChanges element))
      (Tree.container .mutableSet element.keyOf ls) =
        some (Tree.container .mutableSet element.keyOf rs)) :
    RemovalsLast (ls.map element.keyOf) (rs.map element.keyOf) := by
  have hstart : HasNodes (ls.map element.keyOf)
      (Tree.container .mutableSet element.keyOf ls) := ⟨ls, rfl, by simp⟩
  obtain ⟨xs, heq, -⟩ := hstart.replay _ h
  have hnodes : rs.map element.keyOf = _ := (Tree.mutableSet.inj heq).1
  exact removalsLast_of_nodes ls rs [] hls.ascending hrs.ascending (by simp) (by simp)
    (by simpa using hnodes.symm)

end TupleTree

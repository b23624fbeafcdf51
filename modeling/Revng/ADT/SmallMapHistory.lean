import Revng.ADT.SmallMap

/-!
# The history of a small map

The map a history stands for is what its operations make of a finite map.  A small map agrees
with it as long as no `erase` takes the last element out of the large container
(`follows_iff`): then the elements are back that the vector had when the map grew.
-/

namespace ADT.SmallMap

open ListedMap

variable {K V : Type*} [LinearOrder K] {N : Nat} {m m' : SmallMap K V N} {f : K → Option V}

/-! ## The finite map -/

def entries (f : K → Option V) (k : K) : Option (K × V) := (f k).map (Prod.mk k)

/-- The first element whose key is not below the given one. -/
def IsLowerBound (f : K → Option V) (key : K) : Option (K × V) → Prop
  | none => ∀ k, f k ≠ none → k < key
  | some e => f e.1 = some e.2 ∧ key ≤ e.1 ∧ ∀ k, f k ≠ none → key ≤ k → e.1 ≤ k

/-- The lookups and the iteration are those of the finite map. -/
structure Agrees (m : SmallMap K V N) (f : K → Option V) : Prop where
  elements : Lists Prod.fst m.elements (entries f)
  find : ∀ k, m.find k = entries f k
  count : ∀ k, m.count k = if f k = none then 0 else 1
  size : m.size = {k | f k ≠ none}.ncard

/-- A small map that stands for a finite map. -/
structure Holds (m : SmallMap K V N) (f : K → Option V) : Prop where
  lists : Lists Prod.fst m.elements (entries f)
  vector_sorted : m.isSorted = true → (m.vector.map Prod.fst).Pairwise (· ≤ ·)
  map_sorted : (m.map.map Prod.fst).Pairwise (· ≤ ·)
  vector_full : m.map ≠ [] → m.vector.length = N

theorem entries_update (f : K → Option V) (k : K) (v : Option V) :
    entries (Function.update f k v) = Function.update (entries f) k (v.map (Prod.mk k)) := by
  funext k'
  rcases eq_or_ne k' k with rfl | hk
  · simp [entries]
  · simp [entries, hk]

omit [LinearOrder K] in
@[simp]
theorem entries_eq_none {k : K} : entries f k = none ↔ f k = none := Option.map_eq_none_iff

section

omit [LinearOrder K]

theorem elements_of_small (h : m.map = []) : m.elements = m.vector := by
  rw [elements, isSmall, h]
  rfl

theorem elements_of_large (h : m.map ≠ []) : m.elements = m.map := by
  rw [elements, isSmall, if_neg (by simpa using h)]

theorem isSmall_of_small (h : m.map = []) : m.isSmall = true := by rw [isSmall, h]; rfl

theorem isSmall_of_large (h : m.map ≠ []) : m.isSmall = false := by simpa [isSmall] using h

theorem sort_map [LinearOrder K] (m : SmallMap K V N) : m.sort.map = m.map := by
  rw [sort]
  split <;> rfl

theorem size_eq_length (m : SmallMap K V N) : m.size = m.elements.length := by
  rw [size, elements]
  split <;> rfl

end

theorem find_eq_find? (m : SmallMap K V N) (k : K) : m.find k = m.elements.find? (·.1 = k) := by
  rw [find, elements]
  split
  next => rw [vfind, List.find?_eq_getElem?_findIdx]
  next => rfl

namespace Holds

theorem empty : Holds (empty : SmallMap K V N) fun _ => none where
  lists := Lists.nil Prod.fst
  vector_sorted _ := List.Pairwise.nil
  map_sorted := List.Pairwise.nil
  vector_full h := absurd rfl h

theorem lists_vector (h : Holds m f) (hsmall : m.map = []) :
    Lists Prod.fst m.vector (entries f) := elements_of_small hsmall ▸ h.lists

theorem lists_map (h : Holds m f) (hlarge : m.map ≠ []) : Lists Prod.fst m.map (entries f) :=
  elements_of_large hlarge ▸ h.lists

theorem find (h : Holds m f) (k : K) : m.find k = entries f k := by
  rw [find_eq_find?, h.lists.find]

theorem count (h : Holds m f) (k : K) : m.count k = if f k = none then 0 else 1 := by
  by_cases hsmall : m.map = []
  · have hnone : m.vfind k = m.vector.length ↔ f k = none := by
      rw [vfind, List.findIdx_eq_length, ← entries_eq_none,
        (h.lists_vector hsmall).eq_none_iff]
      simp only [decide_eq_false_iff_not, ne_eq]
    rw [SmallMap.count, if_pos (isSmall_of_small hsmall)]
    exact if_congr hnone rfl rfl
  · have hlists := h.lists_map hsmall
    have hcount : m.map.countP (·.1 = k) = (m.map.map Prod.fst).count k := by
      rw [List.count, List.countP_map]
      exact List.countP_congr fun e _ => by simp
    rw [SmallMap.count, isSmall_of_large hsmall, if_neg Bool.false_ne_true, hcount]
    split
    next hk =>
      refine List.count_eq_zero_of_not_mem fun hmem => ?_
      obtain ⟨e, he, hkey⟩ := List.mem_map.mp hmem
      exact hlists.eq_none_iff.mp (entries_eq_none.mpr hk) e he hkey
    next hk =>
      refine List.count_eq_one_of_mem hlists.nodup ?_
      obtain ⟨e, he⟩ := Option.ne_none_iff_exists'.mp (mt entries_eq_none.mp hk)
      obtain ⟨hmem, rfl⟩ := hlists.eq_some_iff.mp he
      exact List.mem_map_of_mem hmem

theorem agrees (h : Holds m f) : Agrees m f where
  elements := h.lists
  find := h.find
  count := h.count
  size := by
    rw [size_eq_length, h.lists.length_eq]
    simp only [ne_eq, entries_eq_none]

end Holds

/-! ## Insertion -/

/-- The growth of the vector into the map, with a new element. -/
theorem grown_perm {p : K × V} (hnodup : (m.vector.map Prod.fst).Nodup)
    (hfresh : ∀ e ∈ m.vector, e.1 ≠ p.1) :
    let map := mapInsert p (m.vector.foldl (fun map e => mapInsert e map) [])
    map.Perm (p :: m.vector) ∧ (map.map Prod.fst).Pairwise (· ≤ ·) := by
  rw [← List.append_nil m.vector] at hnodup
  obtain ⟨hperm, hsorted⟩ := foldl_mapInsert hnodup List.Pairwise.nil
  rw [List.append_nil] at hperm
  have hfresh' := mapInsert_perm fun e he => hfresh e (hperm.mem_iff.mp he)
  exact ⟨hfresh'.trans (hperm.cons p), map_fst_mapInsert_pairwise hsorted⟩

theorem insert_of_find_eq_some {p e : K × V} (h : m.find p.1 = some e) :
    m.insert p = (m, e, false) := by
  rw [find] at h
  rw [insert]
  cases hsmall : m.isSmall with
  | true =>
    rw [hsmall, if_pos rfl] at h
    simp [h]
  | false =>
    rw [hsmall, if_neg Bool.false_ne_true] at h
    simp [h]

/-- An element after the last one keeps the order. -/
theorem pushed_pairwise {xs : List (K × V)} {p : K × V}
    (hsorted : (xs.map Prod.fst).Pairwise (· ≤ ·)) (hlast : ∀ e ∈ xs.getLast?, ¬p.1 < e.1) :
    ((xs ++ [p]).map Prod.fst).Pairwise (· ≤ ·) := by
  cases hxs : xs.getLast? with
  | none =>
    rw [List.getLast?_eq_none_iff.mp hxs]
    exact List.pairwise_singleton _ _
  | some last =>
    obtain ⟨init, rfl⟩ := List.getLast?_eq_some_iff.mp hxs
    have hle : last.1 ≤ p.1 := le_of_not_gt (hlast last hxs)
    rw [List.map_append, List.pairwise_append] at hsorted ⊢
    refine ⟨?_, List.pairwise_singleton _ _, ?_⟩
    · rw [List.map_append, List.pairwise_append]
      exact hsorted
    · simp only [List.map_append, List.map_cons, List.map_nil, List.mem_append,
        List.mem_singleton] at hsorted ⊢
      rintro k (hk | rfl) _ rfl
      · exact (hsorted.2.2 k hk last.1 rfl).trans hle
      · exact hle

namespace Holds

theorem insert_small (h : Holds m f) {p : K × V} (hsmall : m.map = []) (hnone : f p.1 = none) :
    (m.insert p).2 = (p, true) ∧ Holds (m.insert p).1 (Function.update f p.1 (some p.2)) := by
  have hlists := h.lists_vector hsmall
  have hcons := hlists.cons (entries_eq_none.mpr hnone)
  have hentries : entries (Function.update f p.1 (some p.2)) =
      Function.update (entries f) p.1 (some p) := entries_update f p.1 (some p.2)
  have hfind : m.vector[m.vfind p.1]? = none := by
    rw [vfind, ← List.find?_eq_getElem?_findIdx, hlists.find, entries_eq_none, hnone]
  rw [insert, isSmall_of_small hsmall]
  simp only [Bool.not_true, Bool.false_eq_true, if_false, hfind]
  split
  next hN =>
    refine ⟨rfl, ?_, fun hsorted => ?_, h.map_sorted, fun hlarge => absurd hsmall hlarge⟩
    · rw [elements_of_small (by exact hsmall), hentries]
      exact hcons.perm (List.perm_append_singleton p m.vector).symm
    · cases hlast : m.vector.getLast? with
      | none =>
        rw [hlast] at hsorted
        exact pushed_pairwise (h.vector_sorted hsorted) (by rw [hlast]; rintro _ ⟨⟩)
      | some last =>
        rw [hlast, Bool.and_eq_true, Bool.not_eq_true', decide_eq_false_iff_not] at hsorted
        refine pushed_pairwise (h.vector_sorted hsorted.1) ?_
        rw [hlast]
        rintro _ ⟨⟩
        exact hsorted.2
  next hN =>
    -- the map takes over
    obtain ⟨hperm, hsorted⟩ := grown_perm hlists.nodup
      (hlists.eq_none_iff.mp (entries_eq_none.mpr hnone))
    rw [← hsmall] at hperm hsorted
    have hlarge : mapInsert p (m.vector.foldl (fun map e => mapInsert e map) m.map) ≠ [] :=
      fun hnil => List.cons_ne_nil _ _ (hnil ▸ hperm).nil_eq.symm
    refine ⟨rfl, ?_, h.vector_sorted, hsorted, fun _ => ?_⟩
    · rw [elements_of_large (by exact hlarge), hentries]
      exact hcons.perm hperm.symm
    · exact Nat.le_antisymm m.size_le (Nat.le_of_not_lt hN)

theorem insert_large (h : Holds m f) {p : K × V} (hlarge : m.map ≠ []) (hnone : f p.1 = none) :
    (m.insert p).2 = (p, true) ∧ Holds (m.insert p).1 (Function.update f p.1 (some p.2)) := by
  have hlists := h.lists_map hlarge
  have hperm := mapInsert_perm (hlists.eq_none_iff.mp (entries_eq_none.mpr hnone))
  have hlarge' : mapInsert p m.map ≠ [] :=
    fun hnil => List.cons_ne_nil _ _ (hnil ▸ hperm).nil_eq.symm
  have hfind : m.map.find? (·.1 = p.1) = none := by rw [hlists.find, entries_eq_none, hnone]
  rw [insert, isSmall_of_large hlarge]
  simp only [Bool.not_false, if_true, hfind]
  refine ⟨trivial, ?_, h.vector_sorted, map_fst_mapInsert_pairwise h.map_sorted,
    fun _ => h.vector_full hlarge⟩
  rw [elements_of_large (by exact hlarge'), entries_update]
  exact (hlists.cons (entries_eq_none.mpr hnone)).perm hperm.symm

theorem insert (h : Holds m f) (p : K × V) :
    (m.insert p).2 = ((p.1, (f p.1).getD p.2), (f p.1).isNone) ∧
      Holds (m.insert p).1 (Function.update f p.1 (some ((f p.1).getD p.2))) := by
  cases hf : f p.1 with
  | some v =>
    rw [insert_of_find_eq_some (by rw [h.find, entries, hf]; rfl), Option.getD_some, ← hf,
      Function.update_eq_self]
    exact ⟨by rw [hf]; rfl, h⟩
  | none =>
    by_cases hsmall : m.map = []
    · exact h.insert_small hsmall hf
    · exact h.insert_large hsmall hf

/-! ## The other operations -/

theorem write (h : Holds m f) (key : K) (w : V → V) :
    Holds (m.write key w) (Function.update f key ((f key).map w)) := by
  have hentries : entries (Function.update f key ((f key).map w)) =
      fun k => (entries f k).map (writeTo key w) := by
    funext k
    rcases eq_or_ne k key with rfl | hk
    · simp [entries, writeTo, Function.comp_def]
    · simp [entries, writeTo, Function.comp_def, hk]
  by_cases hsmall : m.map = []
  · rw [SmallMap.write, if_pos (isSmall_of_small hsmall)]
    refine ⟨?_, fun hsorted => ?_, h.map_sorted, fun hlarge => absurd hsmall hlarge⟩
    · rw [elements_of_small (by exact hsmall), hentries]
      exact (h.lists_vector hsmall).map (writeTo_fst key w)
    · rw [map_fst_map_writeTo]
      exact h.vector_sorted hsorted
  · have hlarge : m.map.map (writeTo key w) ≠ [] := mt List.map_eq_nil_iff.mp hsmall
    rw [SmallMap.write, isSmall_of_large hsmall, if_neg Bool.false_ne_true]
    refine ⟨?_, h.vector_sorted, ?_, fun _ => h.vector_full hsmall⟩
    · rw [elements_of_large (by exact hlarge), hentries]
      exact (h.lists_map hsmall).map (writeTo_fst key w)
    · rw [map_fst_map_writeTo]
      exact h.map_sorted

theorem subscript [Inhabited V] (h : Holds m f) (key : K) (w : V → V) :
    (m.subscript key w).2 = (f key).getD default ∧
      Holds (m.subscript key w).1
        (Function.update f key (some (w ((f key).getD default)))) := by
  obtain ⟨hanswer, hholds⟩ := h.insert (key, default)
  refine ⟨congrArg (·.1.2) hanswer, ?_⟩
  have hwrite := hholds.write key w
  rwa [Function.update_self, Option.map_some, Function.update_idem] at hwrite

omit [LinearOrder K] in
theorem map_fst_eq_singleton [DecidableEq K] {xs : List (K × V)} {key : K} (hxs : xs ≠ [])
    (herase : xs.eraseP (·.1 = key) = []) : xs.map Prod.fst = [key] := by
  obtain ⟨e, es, rfl⟩ := List.exists_cons_of_ne_nil hxs
  by_cases hkey : e.1 = key
  · have hes : es = [] := by simpa [List.eraseP_cons, hkey] using herase
    rw [hes, List.map_cons, hkey, List.map_nil]
  · simp [hkey] at herase

theorem erase (h : Holds m f) {key : K} (hkeeps : m.map.map Prod.fst = [key] → N = 0) :
    Holds (m.erase key) (Function.update f key none) := by
  have hentries : entries (Function.update f key none) =
      Function.update (entries f) key none := entries_update f key none
  by_cases hsmall : m.map = []
  · rw [SmallMap.erase, if_pos (isSmall_of_small hsmall)]
    refine ⟨?_, fun hsorted => ?_, h.map_sorted, fun hlarge => absurd hsmall hlarge⟩
    · have herase : m.vector.eraseIdx (m.vfind key) = m.vector.eraseP (·.1 = key) :=
        eraseIdx_findIdx _ _
      rw [elements_of_small (by exact hsmall), hentries]
      show Lists Prod.fst (m.vector.eraseIdx (m.vfind key)) _
      rw [herase]
      exact (h.lists_vector hsmall).eraseP key
    · exact (h.vector_sorted hsorted).sublist ((List.eraseIdx_sublist _ _).map Prod.fst)
  · have hlists := (h.lists_map hsmall).eraseP key
    have hsorted := h.map_sorted.sublist ((List.eraseP_sublist (p := (·.1 = key))).map Prod.fst)
    rw [SmallMap.erase, isSmall_of_large hsmall, if_neg Bool.false_ne_true]
    refine ⟨?_, h.vector_sorted, hsorted, fun _ => h.vector_full hsmall⟩
    rw [hentries]
    by_cases hlast : m.map.eraseP (·.1 = key) = []
    · have hN : N = 0 := hkeeps (map_fst_eq_singleton hsmall hlast)
      have hvector : m.vector = [] := by
        rw [← List.length_eq_zero_iff, h.vector_full hsmall, hN]
      rw [elements_of_small (by exact hlast), hvector, ← hlast]
      exact hlists
    · rw [elements_of_large (by exact hlast)]
      exact hlists

/-- The vector comes back with its elements. -/
theorem not_agrees_erase (h : Holds m f) {key : K} (hlast : m.map.map Prod.fst = [key])
    (hN : N ≠ 0) : ¬Agrees (m.erase key) (Function.update f key none) := by
  have hlarge : m.map ≠ [] := by
    rintro hnil
    rw [hnil] at hlast
    cases hlast
  obtain ⟨e, hmap, rfl⟩ := List.map_eq_singleton_iff.mp hlast
  have hnone : Function.update f e.1 none = fun _ => none := by
    refine Function.update_eq_iff.mpr ⟨rfl, fun k hk => entries_eq_none.mp ?_⟩
    rw [(h.lists_map hlarge).eq_none_iff, hmap]
    simpa using hk.symm
  have hsize : (m.erase e.1).size = N := by
    rw [SmallMap.erase, isSmall_of_large hlarge, if_neg Bool.false_ne_true]
    simpa [size, isSmall, hmap] using h.vector_full hlarge
  intro hagrees
  rw [hnone] at hagrees
  exact hN (by simpa [hsize] using hagrees.size)

theorem clear (m : SmallMap K V N) : Holds m.clear fun _ => none where
  lists := Lists.nil Prod.fst
  vector_sorted _ := List.Pairwise.nil
  map_sorted := List.Pairwise.nil
  vector_full h := absurd rfl h

theorem sort (h : Holds m f) : Holds m.sort f := by
  rw [SmallMap.sort]
  split
  next => exact h
  next hsort =>
    have hsmall : m.map = [] := by
      simp only [Bool.or_eq_true, Bool.not_eq_true', not_or] at hsort
      simpa [isSmall] using hsort.1.2
    refine ⟨?_, fun _ => ?_, h.map_sorted, fun hlarge => absurd hsmall hlarge⟩
    · rw [elements_of_small (by exact hsmall)]
      exact (h.lists_vector hsmall).perm (List.perm_insertionSort _ _).symm
    · rw [List.map_insertionSort (fun e e' : K × V => e.1 ≤ e'.1) (· ≤ ·) Prod.fst]
      · exact List.pairwise_insertionSort _ _
      · exact fun _ _ _ _ => Iff.rfl

theorem sort_vector_pairwise (h : Holds m f) (hsmall : m.map = []) :
    (m.sort.vector.map Prod.fst).Pairwise (· ≤ ·) := by
  by_cases hsort : (m.isSorted || !m.isSmall || m.vector.length ≤ 1) = true
  · rw [SmallMap.sort, if_pos hsort]
    rw [isSmall_of_small hsmall, Bool.not_true, Bool.or_false, Bool.or_eq_true] at hsort
    rcases hsort with hsorted | hlen
    · exact h.vector_sorted hsorted
    · rcases hvector : m.vector with _ | ⟨e, _ | ⟨e', es⟩⟩
      · exact List.Pairwise.nil
      · exact List.pairwise_singleton _ _
      · simp [hvector] at hlen
  · exact h.sort.vector_sorted (by rw [SmallMap.sort, if_neg hsort])

theorem isLowerBound_find? {xs : List (K × V)} (h : Lists Prod.fst xs (entries f))
    (hsorted : (xs.map Prod.fst).Pairwise (· ≤ ·)) (key : K) :
    IsLowerBound f key (xs.find? fun e => ¬e.1 < key) := by
  have hmem {k : K} (hk : f k ≠ none) : ∃ e ∈ xs, e.1 = k := by
    obtain ⟨e, he⟩ := Option.ne_none_iff_exists'.mp (mt entries_eq_none.mp hk)
    exact ⟨e, h.eq_some_iff.mp he⟩
  cases hfind : xs.find? fun e => ¬e.1 < key with
  | none =>
    intro k hk
    obtain ⟨e, he, rfl⟩ := hmem hk
    simpa using List.find?_eq_none.mp hfind e he
  | some e =>
    obtain ⟨hle, before, after, rfl, hbefore⟩ := List.find?_eq_some_iff_append.mp hfind
    have hle : key ≤ e.1 := by simpa using hle
    refine ⟨?_, hle, fun k hk hkey => ?_⟩
    · have he : entries f e.1 = some e := (h.mem_iff e).mp (by simp)
      obtain ⟨v, hv, hve⟩ := Option.map_eq_some_iff.mp he
      rw [hv, ← hve]
    · obtain ⟨e', he', rfl⟩ := hmem hk
      rcases List.mem_append.mp he' with he' | he'
      · have hlt : e'.1 < key := by simpa using hbefore e' he'
        exact absurd hkey hlt.not_ge
      rcases List.mem_cons.mp he' with rfl | he'
      · exact le_rfl
      · rw [List.map_append, List.map_cons, List.pairwise_append, List.pairwise_cons] at hsorted
        exact hsorted.2.1.1 e'.1 (List.mem_map_of_mem he')

theorem lowerBound (h : Holds m f) (key : K) :
    IsLowerBound f key (m.lowerBound key).2 ∧ Holds (m.lowerBound key).1 f := by
  by_cases hsmall : m.map = []
  · rw [SmallMap.lowerBound, if_pos (isSmall_of_small hsmall)]
    have hmap : m.sort.map = [] := by rw [sort_map, hsmall]
    exact ⟨isLowerBound_find? (h.sort.lists_vector hmap) (h.sort_vector_pairwise hsmall) key,
      h.sort⟩
  · rw [SmallMap.lowerBound, isSmall_of_large hsmall, if_neg Bool.false_ne_true]
    exact ⟨isLowerBound_find? (h.lists_map hsmall) h.map_sorted key, h⟩

end Holds

/-! ## Histories -/

/-- The operations that change a small map or the order of its elements. -/
inductive Operation (K V : Type*) where
  | insert (p : K × V)
  | subscript (key : K) (write : V → V)
  | erase (key : K)
  | clear
  | lowerBound (key : K)

inductive Response (K V : Type*) where
  | done
  | inserted (element : K × V) (isNew : Bool)
  | value (v : V)
  | bound (element : Option (K × V))

variable [Inhabited V]

def step (m : SmallMap K V N) : Operation K V → SmallMap K V N × Response K V
  | .insert p => let (m, e, isNew) := m.insert p; (m, .inserted e isNew)
  | .subscript key w => let (m, v) := m.subscript key w; (m, .value v)
  | .erase key => (m.erase key, .done)
  | .clear => (m.clear, .done)
  | .lowerBound key => let (m, e) := m.lowerBound key; (m, .bound e)

def run (m : SmallMap K V N) : List (Operation K V) → SmallMap K V N × List (Response K V)
  | [] => (m, [])
  | op :: ops =>
      let (m, response) := m.step op
      let (m, responses) := m.run ops
      (m, response :: responses)

/-- The values by their keys, after an operation. -/
def applyTo (f : K → Option V) : Operation K V → K → Option V
  | .insert p => Function.update f p.1 (some ((f p.1).getD p.2))
  | .subscript key w => Function.update f key (some (w ((f key).getD default)))
  | .erase key => Function.update f key none
  | .clear => fun _ => none
  | .lowerBound _ => f

/-- What an operation answers for a finite map. -/
def Answered (f : K → Option V) : Operation K V → Response K V → Prop
  | .insert p, response => response = .inserted (p.1, (f p.1).getD p.2) (f p.1).isNone
  | .subscript key _, response => response = .value ((f key).getD default)
  | .erase _, response => response = .done
  | .clear, response => response = .done
  | .lowerBound key, response => ∃ e, response = .bound e ∧ IsLowerBound f key e

def AllAnswered (f : K → Option V) : List (Operation K V) → List (Response K V) → Prop
  | [], responses => responses = []
  | _ :: _, [] => False
  | op :: ops, response :: responses =>
      Answered f op response ∧ AllAnswered (applyTo f op) ops responses

/-- The large container is not emptied by `erase`, unless the vector never has elements. -/
def StaysLarge (m : SmallMap K V N) : Operation K V → Prop
  | .erase key => m.map.map Prod.fst = [key] → N = 0
  | _ => True

def AllStayLarge : SmallMap K V N → List (Operation K V) → Prop
  | _, [] => True
  | m, op :: ops => StaysLarge m op ∧ AllStayLarge (m.step op).1 ops

theorem Holds.step (h : Holds m f) {op : Operation K V} (hstays : StaysLarge m op) :
    Answered f op (m.step op).2 ∧ Holds (m.step op).1 (applyTo f op) := by
  cases op with
  | insert p =>
    obtain ⟨hanswer, hholds⟩ := h.insert p
    refine ⟨?_, hholds⟩
    show Response.inserted (m.insert p).2.1 (m.insert p).2.2 = _
    rw [hanswer]
  | subscript key w =>
    obtain ⟨hanswer, hholds⟩ := h.subscript key w
    exact ⟨congrArg Response.value hanswer, hholds⟩
  | erase key => exact ⟨rfl, h.erase hstays⟩
  | clear => exact ⟨rfl, Holds.clear m⟩
  | lowerBound key =>
    obtain ⟨hanswer, hholds⟩ := h.lowerBound key
    exact ⟨⟨_, rfl, hanswer⟩, hholds⟩

/-- The answers of a history, and the map after it, are those of the finite map. -/
def Follows (m : SmallMap K V N) (f : K → Option V) (ops : List (Operation K V)) : Prop :=
  AllAnswered f ops (m.run ops).2 ∧ Agrees (m.run ops).1 (ops.foldl applyTo f)

theorem Holds.follows (h : Holds m f) {ops : List (Operation K V)}
    (hstay : AllStayLarge m ops) : Follows m f ops := by
  induction ops generalizing m f with
  | nil => exact ⟨rfl, h.agrees⟩
  | cons op ops ih =>
    obtain ⟨hanswer, hholds⟩ := h.step hstay.1
    obtain ⟨hanswers, hagrees⟩ := ih hholds hstay.2
    exact ⟨⟨hanswer, hanswers⟩, hagrees⟩

theorem AllStayLarge.of_prefix {done ops : List (Operation K V)} (h : AllStayLarge m ops)
    (hdone : done <+: ops) : AllStayLarge m done := by
  induction done generalizing m ops with
  | nil => trivial
  | cons op done ih =>
    obtain ⟨after, rfl⟩ := hdone
    exact ⟨h.1, ih h.2 (List.prefix_append done after)⟩

/-- An `erase` that takes the last element out of the large container is seen at once. -/
theorem Holds.staysLarge (h : Holds m f) {op : Operation K V} (hfollows : Follows m f [op]) :
    StaysLarge m op := by
  cases op with
  | erase key =>
    intro hlast
    by_contra hN
    exact h.not_agrees_erase hlast hN hfollows.2
  | insert | subscript | clear | lowerBound => trivial

theorem Holds.allStayLarge (h : Holds m f) {ops : List (Operation K V)}
    (hfollows : ∀ done, done <+: ops → Follows m f done) : AllStayLarge m ops := by
  induction ops generalizing m f with
  | nil => trivial
  | cons op ops ih =>
    have hstays : StaysLarge m op :=
      h.staysLarge (hfollows [op] (List.cons_prefix_cons.mpr ⟨rfl, List.nil_prefix⟩))
    refine ⟨hstays, ih (h.step hstays).2 fun done hdone => ?_⟩
    obtain ⟨hanswers, hagrees⟩ := hfollows (op :: done) (List.cons_prefix_cons.mpr ⟨rfl, hdone⟩)
    exact ⟨hanswers.2, hagrees⟩

/-- A small map agrees with the finite map of its history, after every operation, exactly when
no `erase` takes the last element out of the large container. -/
theorem follows_iff (ops : List (Operation K V)) :
    (∀ done, done <+: ops → Follows (empty : SmallMap K V N) (fun _ => none) done) ↔
      AllStayLarge (empty : SmallMap K V N) ops :=
  ⟨fun h => Holds.empty.allStayLarge h, fun h _ hdone => Holds.empty.follows (h.of_prefix hdone)⟩

/-- After the growth the first element is gone with the second, and is back when the map is
empty. -/
theorem not_follows_erase :
    ¬∀ ops : List (Operation Nat Nat), Follows (empty : SmallMap Nat Nat 1) (fun _ => none) ops := by
  intro h
  have hfollows := h [.insert (1, 10), .insert (2, 20), .erase 1, .erase 2]
  have hfind := hfollows.2.find 1
  revert hfind
  decide

end ADT.SmallMap

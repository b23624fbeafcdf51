import Revng.PTML.CommentScores

/-!
# Placement of statement comments

`CommentPlacementHelper` goes over a tree of statements twice.  The first pass keeps the best
location for each comment, and a comment without one is homeless.  The second pass attaches each
comment to the statements with its location, except below or after one that has the comment
already.

The index of a comment is its position.
-/

namespace PTML

open Binary (MetaAddress)

/-! ## Trees of statements -/

/-- A node of the tree, with its statements in order. -/
inductive TreeNode (σ : Type) where
  | node (statements : List σ) (children : List (TreeNode σ))

namespace TreeNode

variable {σ : Type}

mutual

/-- The statements, those of a node before those of its children. -/
def depthFirst : TreeNode σ → List σ
  | .node statements children => statements ++ depthFirstAll children

def depthFirstAll : List (TreeNode σ) → List σ
  | [] => []
  | child :: children => child.depthFirst ++ depthFirstAll children

end

/-- A statement dominates those after it in its node, and those below its node. -/
inductive Dominates : TreeNode σ → σ → σ → Prop where
  | earlier {statements children s₁ s₂} :
      [s₁, s₂].Sublist statements → Dominates (.node statements children) s₁ s₂
  | above {statements children s₁ s₂} :
      s₁ ∈ statements → s₂ ∈ depthFirstAll children → Dominates (.node statements children) s₁ s₂
  | inside {statements children child s₁ s₂} :
      child ∈ children → Dominates child s₁ s₂ → Dominates (.node statements children) s₁ s₂

end TreeNode

/-- No statement is in the tree twice. -/
structure StatementTree (σ : Type) where
  root : TreeNode σ
  nodup : root.depthFirst.Nodup

def StatementTree.statements {σ : Type} (tree : StatementTree σ) : List σ := tree.root.depthFirst

/-! ## Placement -/

structure CommentAssignment where
  commentIndex : Nat
  locationMatchesExactly : Bool
  score : Score
  expectedLocation : Location
deriving DecidableEq

section

variable {σ : Type} (getAddresses : σ → Location)

/-- One statement and all comments. -/
def updateScores (comments : List Location) (scores : List (Score × Location)) (statement : σ) :
    List (Score × Location) :=
  List.zipWith (fun comment best => updateScore comment best (getAddresses statement)) comments
    scores

/-- The best location for each comment. -/
def computeScores (comments : List Location) (tree : TreeNode σ) : List (Score × Location) :=
  tree.depthFirst.foldl (updateScores getAddresses comments)
    (comments.map fun _ => (.zero, .empty))

/-- A comment with what was selected for it and its index. -/
abbrev ScoredComment := (Location × Score × Location) × Nat

def processHomeless (scored : List ScoredComment) : List CommentAssignment :=
  scored.filterMap fun comment =>
    if comment.1.2.1.numerator = 0 then some ⟨comment.2, false, .zero, comment.1.1⟩ else none

/-- One comment at a statement.  `assigned` has the comments that a dominating statement has. -/
def visitComment (location : Location) (state : List Nat × List CommentAssignment)
    (scored : ScoredComment) : List Nat × List CommentAssignment :=
  let (assigned, result) := state
  let ((comment, score, best), index) := scored
  if index ∈ assigned then state
  -- Statements without locations never have comments.
  else if location.addresses = [] then state
  else if location = best then
    (index :: assigned, result ++ [⟨index, comment = best, score, comment⟩])
  else state

def visitStatement (scored : List ScoredComment) (state : List Nat × List (σ × CommentAssignment))
    (statement : σ) : List Nat × List (σ × CommentAssignment) :=
  let (assigned, result) := state
  let (assigned, here) := scored.foldl (visitComment (getAddresses statement)) (assigned, [])
  (assigned, result ++ here.map (statement, ·))

mutual

def visit (scored : List ScoredComment) : TreeNode σ → List Nat → List (σ × CommentAssignment)
  | .node statements children, assigned =>
      let (assigned, here) := statements.foldl (visitStatement getAddresses scored) (assigned, [])
      here ++ visitAll scored children assigned

/-- The children get a copy of `assigned` each. -/
def visitAll (scored : List ScoredComment) :
    List (TreeNode σ) → List Nat → List (σ × CommentAssignment)
  | [], _ => []
  | child :: children, assigned =>
      visit scored child assigned ++ visitAll scored children assigned

end

structure Placement (σ : Type) where
  resultMap : List (σ × CommentAssignment)
  homelessComments : List CommentAssignment

def place (comments : List Location) (tree : StatementTree σ) : Placement σ :=
  if comments = [] then ⟨[], []⟩
  else
    let scored := (comments.zip (computeScores getAddresses comments tree.root)).zipIdx
    ⟨visit getAddresses scored tree.root [], processHomeless scored⟩

def Placement.getComments [DecidableEq σ] (placement : Placement σ) (statement : σ) :
    List CommentAssignment :=
  (placement.resultMap.filter (·.1 = statement)).map Prod.snd

/-- The statements that a comment is attached to. -/
def Placement.attachedTo (placement : Placement σ) (index : Nat) : List σ :=
  (placement.resultMap.filter (·.2.commentIndex = index)).map Prod.fst

/-! ## Scores of all comments -/

theorem foldl_updateScores (comments : List Location) (statements : List σ)
    (start : Location → Score × Location) :
    statements.foldl (updateScores getAddresses comments) (comments.map start) =
      comments.map fun comment =>
        (statements.map getAddresses).foldl (updateScore comment) (start comment) := by
  induction statements generalizing start with
  | nil => rfl
  | cons statement statements ih =>
    have hstep : updateScores getAddresses comments (comments.map start) statement =
        comments.map fun comment =>
          updateScore comment (start comment) (getAddresses statement) := by
      rw [updateScores, List.zipWith_map_right, List.zipWith_self]
    rw [List.foldl_cons, hstep, ih]
    rfl

theorem computeScores_eq (comments : List Location) (tree : TreeNode σ) :
    computeScores getAddresses comments tree =
      comments.map fun comment => selected comment (tree.depthFirst.map getAddresses) :=
  foldl_updateScores getAddresses comments tree.depthFirst fun _ => (.zero, .empty)

/-! ## One comment -/

/-- What is attached for one comment. -/
def ofComment (index : Nat) (result : List (σ × CommentAssignment)) : List σ :=
  (result.filter (·.2.commentIndex = index)).map Prod.fst

theorem ofComment_append (index : Nat) (result result' : List (σ × CommentAssignment)) :
    ofComment index (result ++ result') = ofComment index result ++ ofComment index result' := by
  rw [ofComment, List.filter_append, List.map_append]
  rfl

variable {index : Nat}

theorem visitComment_of_ne (location : Location) (state : List Nat × List CommentAssignment)
    {scored : ScoredComment} (h : scored.2 ≠ index) :
    (index ∈ (visitComment location state scored).1 ↔ index ∈ state.1) ∧
      (visitComment location state scored).2.filter (·.commentIndex = index) =
        state.2.filter (·.commentIndex = index) := by
  rw [visitComment]
  split_ifs
  · exact ⟨.rfl, rfl⟩
  · exact ⟨.rfl, rfl⟩
  · simp [h, Ne.symm h]
  · exact ⟨.rfl, rfl⟩

variable {scored : List ScoredComment}

theorem foldl_visitComment_of_ne (location : Location) (h : index ∉ scored.map Prod.snd)
    (state : List Nat × List CommentAssignment) :
    (index ∈ (scored.foldl (visitComment location) state).1 ↔ index ∈ state.1) ∧
      (scored.foldl (visitComment location) state).2.filter (·.commentIndex = index) =
        state.2.filter (·.commentIndex = index) := by
  induction scored generalizing state with
  | nil => exact ⟨.rfl, rfl⟩
  | cons c scored ih =>
    rw [List.map_cons, List.mem_cons, not_or] at h
    have hstep := visitComment_of_ne location state (Ne.symm h.1)
    have hrest := ih h.2 (visitComment location state c)
    exact ⟨hrest.1.trans hstep.1, hrest.2.trans hstep.2⟩

/-- Whether a comment with this location goes to a statement with the other one. -/
def Fits (best location : Location) : Prop := location.addresses ≠ [] ∧ location = best

instance (best location : Location) : Decidable (Fits best location) :=
  inferInstanceAs (Decidable (_ ∧ _))

theorem visitComment_self {location : Location} (state : List Nat × List CommentAssignment)
    (comment : Location) (score : Score) (best : Location) (index : Nat) :
    visitComment location state ((comment, score, best), index) =
      if index ∉ state.1 ∧ Fits best location then
        (index :: state.1, state.2 ++ [⟨index, comment = best, score, comment⟩])
      else state := by
  obtain ⟨assigned, result⟩ := state
  rw [visitComment]
  by_cases hindex : index ∈ assigned
  · simp [hindex]
  · by_cases hnil : location.addresses = []
    · simp [Fits, hnil]
    · by_cases heq : location = best
      · simp [Fits, hindex, heq]
      · simp [Fits, hindex, heq]

variable {comment best : Location} {score : Score}

/-- All comments at a statement, seen from one of them. -/
theorem foldl_visitComment (location : Location) (hnodup : (scored.map Prod.snd).Nodup)
    (hmem : ((comment, score, best), index) ∈ scored) (state : List Nat × List CommentAssignment) :
    (index ∈ (scored.foldl (visitComment location) state).1 ↔
        index ∈ state.1 ∨ Fits best location) ∧
      (scored.foldl (visitComment location) state).2.filter (·.commentIndex = index) =
        state.2.filter (·.commentIndex = index) ++
          if index ∉ state.1 ∧ Fits best location then
            [⟨index, comment = best, score, comment⟩]
          else [] := by
  obtain ⟨before, after, rfl⟩ := List.append_of_mem hmem
  rw [List.map_append, List.map_cons, List.nodup_append, List.nodup_cons] at hnodup
  obtain ⟨-, ⟨hafter, -⟩, hdisjoint⟩ := hnodup
  have hbefore : index ∉ before.map Prod.snd :=
    fun h => hdisjoint _ h _ List.mem_cons_self rfl
  have hfirst := foldl_visitComment_of_ne location hbefore state
  have hlast := foldl_visitComment_of_ne location hafter
    (visitComment location (before.foldl (visitComment location) state)
      ((comment, score, best), index))
  rw [List.foldl_append, List.foldl_cons, hlast.1, hlast.2, visitComment_self]
  simp only [hfirst.1]
  split_ifs with h
  · refine ⟨iff_of_true List.mem_cons_self (.inr h.2), ?_⟩
    rw [List.filter_append, hfirst.2]
    simp
  · refine ⟨hfirst.1.trans ⟨.inl, fun hor => ?_⟩, ?_⟩
    · by_contra hindex
      exact h ⟨hindex, hor.resolve_left hindex⟩
    · rw [hfirst.2, List.append_nil]

/-- Whether a comment with this location goes to the statement. -/
def fits (best : Location) (statement : σ) : Bool := Fits best (getAddresses statement)

theorem visitStatement_spec (hnodup : (scored.map Prod.snd).Nodup)
    (hmem : ((comment, score, best), index) ∈ scored)
    (state : List Nat × List (σ × CommentAssignment)) (statement : σ) :
    decide (index ∈ (visitStatement getAddresses scored state statement).1) =
        (decide (index ∈ state.1) || fits getAddresses best statement) ∧
      ofComment index (visitStatement getAddresses scored state statement).2 =
        ofComment index state.2 ++
          if !decide (index ∈ state.1) && fits getAddresses best statement then [statement]
          else [] := by
  obtain ⟨assigned, result⟩ := state
  obtain ⟨hassigned, hresult⟩ :=
    foldl_visitComment (getAddresses statement) hnodup hmem (assigned, [])
  have hhere : ∀ here : List CommentAssignment, ofComment index (here.map (statement, ·)) =
      (here.filter (·.commentIndex = index)).map fun _ => statement := by
    intro here
    rw [ofComment, List.filter_map, List.map_map]
    rfl
  constructor
  · rw [fits, ← Bool.decide_or, decide_eq_decide]
    exact hassigned
  · rw [visitStatement, ofComment_append, hhere, hresult]
    by_cases hindex : index ∈ assigned
    · simp [hindex]
    · by_cases hfits : Fits best (getAddresses statement)
      · simp [hindex, hfits, fits]
      · simp [hfits, fits]

/-- The statements of one node, seen from one comment. -/
theorem foldl_visitStatement (hnodup : (scored.map Prod.snd).Nodup)
    (hmem : ((comment, score, best), index) ∈ scored) (statements : List σ)
    (state : List Nat × List (σ × CommentAssignment)) :
    decide (index ∈ (statements.foldl (visitStatement getAddresses scored) state).1) =
        (decide (index ∈ state.1) || statements.any (fits getAddresses best)) ∧
      ofComment index (statements.foldl (visitStatement getAddresses scored) state).2 =
        ofComment index state.2 ++
          if decide (index ∈ state.1) then []
          else (statements.find? (fits getAddresses best)).toList := by
  induction statements generalizing state with
  | nil =>
    refine ⟨(Bool.or_false _).symm, ?_⟩
    split_ifs <;> exact (List.append_nil _).symm
  | cons s statements ih =>
    obtain ⟨hassigned, hresult⟩ := visitStatement_spec getAddresses hnodup hmem state s
    obtain ⟨hassigned', hresult'⟩ := ih (visitStatement getAddresses scored state s)
    rw [List.foldl_cons, hassigned', hresult', hassigned, hresult, List.any_cons,
      List.find?_cons]
    cases decide (index ∈ state.1) <;> cases fits getAddresses best s <;> simp

/-! ## One comment in the tree -/

mutual

/-- The statements that fit and have no dominating one. -/
def attach (fits : σ → Bool) : TreeNode σ → Bool → List σ
  | .node statements children, assigned =>
      (if assigned then [] else (statements.find? fits).toList) ++
        attachAll fits children (assigned || statements.any fits)

def attachAll (fits : σ → Bool) : List (TreeNode σ) → Bool → List σ
  | [], _ => []
  | child :: children, assigned => attach fits child assigned ++ attachAll fits children assigned

end

mutual

/-- The tree, seen from one comment. -/
theorem visit_spec {scored : List ScoredComment} (hnodup : (scored.map Prod.snd).Nodup)
    {comment : Location} {score : Score} {best : Location} {index : Nat}
    (hmem : ((comment, score, best), index) ∈ scored) :
    ∀ (node : TreeNode σ) (assigned : List Nat),
      ofComment index (visit getAddresses scored node assigned) =
        attach (fits getAddresses best) node (decide (index ∈ assigned))
  | .node statements children, assigned => by
      obtain ⟨hassigned, hresult⟩ :=
        foldl_visitStatement getAddresses hnodup hmem statements (assigned, [])
      rw [visit, ofComment_append, hresult, visitAll_spec hnodup hmem children, hassigned, attach]
      rfl

theorem visitAll_spec {scored : List ScoredComment} (hnodup : (scored.map Prod.snd).Nodup)
    {comment : Location} {score : Score} {best : Location} {index : Nat}
    (hmem : ((comment, score, best), index) ∈ scored) :
    ∀ (children : List (TreeNode σ)) (assigned : List Nat),
      ofComment index (visitAll getAddresses scored children assigned) =
        attachAll (fits getAddresses best) children (decide (index ∈ assigned))
  | [], _ => rfl
  | child :: children, assigned => by
      rw [visitAll, ofComment_append, visit_spec hnodup hmem child,
        visitAll_spec hnodup hmem children, attachAll]

end

end

/-! ## What is attached in the tree -/

section

variable {σ : Type} {p : σ → Bool}

mutual

theorem attach_true : ∀ node : TreeNode σ, attach p node true = []
  | .node _ children => by
      rw [attach, Bool.true_or, attachAll_true children]
      rfl

theorem attachAll_true : ∀ children : List (TreeNode σ), attachAll p children true = []
  | [] => rfl
  | child :: children => by
      rw [attachAll, attach_true child, attachAll_true children]
      rfl

end

mutual

/-- Only statements of the tree that fit are attached. -/
theorem mem_attach : ∀ (node : TreeNode σ) {assigned : Bool} {s : σ},
    s ∈ attach p node assigned → s ∈ node.depthFirst ∧ p s = true
  | .node statements children, assigned, s, h => by
      rw [attach, List.mem_append] at h
      rw [TreeNode.depthFirst, List.mem_append]
      rcases h with h | h
      · split_ifs at h
        · cases h
        · rw [Option.mem_toList] at h
          exact ⟨.inl (List.mem_of_find?_eq_some h), List.find?_some h⟩
      · obtain ⟨hmem, hp⟩ := mem_attachAll children h
        exact ⟨.inr hmem, hp⟩

theorem mem_attachAll : ∀ (children : List (TreeNode σ)) {assigned : Bool} {s : σ},
    s ∈ attachAll p children assigned → s ∈ TreeNode.depthFirstAll children ∧ p s = true
  | child :: children, assigned, s, h => by
      rw [attachAll, List.mem_append] at h
      rw [TreeNode.depthFirstAll, List.mem_append]
      rcases h with h | h
      · obtain ⟨hmem, hp⟩ := mem_attach child h
        exact ⟨.inl hmem, hp⟩
      · obtain ⟨hmem, hp⟩ := mem_attachAll children h
        exact ⟨.inr hmem, hp⟩

end

mutual

/-- If a statement fits, one is attached. -/
theorem attach_ne_nil : ∀ (node : TreeNode σ) {s : σ}, s ∈ node.depthFirst → p s = true →
    attach p node false ≠ []
  | .node statements children, s, h, hp => by
      rw [TreeNode.depthFirst, List.mem_append] at h
      rw [attach, Bool.false_or]
      cases hfind : statements.find? p with
      | some first => exact List.cons_ne_nil _ _
      | none =>
        have hnone : ∀ s ∈ statements, p s = false := by simpa using hfind
        have hchildren : s ∈ TreeNode.depthFirstAll children :=
          h.resolve_left fun hmem => Bool.false_ne_true ((hnone s hmem).symm.trans hp)
        have hany : statements.any p = false := List.any_eq_false.2 (by simpa using hnone)
        rw [hany]
        exact attachAll_ne_nil children hchildren hp

theorem attachAll_ne_nil : ∀ (children : List (TreeNode σ)) {s : σ},
    s ∈ TreeNode.depthFirstAll children → p s = true → attachAll p children false ≠ []
  | child :: children, s, h, hp => by
      rw [TreeNode.depthFirstAll, List.mem_append] at h
      rw [attachAll, ne_eq, List.append_eq_nil_iff, not_and_or]
      rcases h with h | h
      · exact .inl (attach_ne_nil child h hp)
      · exact .inr (attachAll_ne_nil children h hp)

end

variable {children : List (TreeNode σ)}

theorem depthFirst_sublist {child : TreeNode σ} (h : child ∈ children) :
    child.depthFirst.Sublist (TreeNode.depthFirstAll children) := by
  induction children with
  | nil => cases h
  | cons first children ih =>
    rw [TreeNode.depthFirstAll]
    rcases List.mem_cons.1 h with rfl | h
    · exact List.sublist_append_left ..
    · exact (ih h).trans (List.sublist_append_right ..)

theorem TreeNode.Dominates.mem {node : TreeNode σ} {s₁ s₂ : σ} (h : node.Dominates s₁ s₂) :
    s₁ ∈ node.depthFirst ∧ s₂ ∈ node.depthFirst := by
  induction h with
  | earlier h =>
    rw [TreeNode.depthFirst]
    exact ⟨List.mem_append_left _ (h.subset (by simp)),
      List.mem_append_left _ (h.subset (by simp))⟩
  | above h₁ h₂ =>
    rw [TreeNode.depthFirst]
    exact ⟨List.mem_append_left _ h₁, List.mem_append_right _ h₂⟩
  | inside hchild _ ih =>
    rw [TreeNode.depthFirst]
    exact ⟨List.mem_append_right _ ((depthFirst_sublist hchild).subset ih.1),
      List.mem_append_right _ ((depthFirst_sublist hchild).subset ih.2)⟩

variable {assigned : Bool}

/-- What is attached below one child is attached by that child. -/
theorem mem_attach_child {child : TreeNode σ} {s : σ} (hchild : child ∈ children)
    (hnodup : (TreeNode.depthFirstAll children).Nodup) (hmem : s ∈ child.depthFirst)
    (h : s ∈ attachAll p children assigned) : s ∈ attach p child assigned := by
  induction children with
  | nil => cases hchild
  | cons first children ih =>
    rw [TreeNode.depthFirstAll, List.nodup_append] at hnodup
    obtain ⟨-, hnodup, hdisjoint⟩ := hnodup
    rw [attachAll, List.mem_append] at h
    rcases List.mem_cons.1 hchild with rfl | hchild
    · exact h.resolve_right fun h => hdisjoint s hmem s (mem_attachAll children h).1 rfl
    · have hall := (depthFirst_sublist hchild).subset hmem
      exact ih hchild hnodup (h.resolve_left fun h => hdisjoint s (mem_attach first h).1 s hall rfl)

/-- What is attached at a node is its first statement that fits. -/
theorem find_of_mem_attach {statements : List σ} {s : σ}
    (hnodup : (TreeNode.node statements children).depthFirst.Nodup) (hmem : s ∈ statements)
    (h : s ∈ attach p (.node statements children) assigned) : statements.find? p = some s := by
  rw [TreeNode.depthFirst, List.nodup_append] at hnodup
  rw [attach, List.mem_append] at h
  rcases h with h | h
  · split_ifs at h
    · cases h
    · exact Option.mem_toList.1 h
  · exact absurd rfl (hnodup.2.2 s hmem s (mem_attachAll children h).1)

/-- What is attached below a node is attached by its children. -/
theorem mem_attachAll_of_mem_attach {statements : List σ} {s : σ}
    (hnodup : (TreeNode.node statements children).depthFirst.Nodup)
    (hmem : s ∈ TreeNode.depthFirstAll children)
    (h : s ∈ attach p (.node statements children) assigned) :
    s ∈ attachAll p children (assigned || statements.any p) := by
  rw [TreeNode.depthFirst, List.nodup_append] at hnodup
  rw [attach, List.mem_append] at h
  refine h.resolve_left fun h => ?_
  split_ifs at h
  · cases h
  · exact hnodup.2.2 s (List.mem_of_find?_eq_some (Option.mem_toList.1 h)) s hmem rfl

/-- No statement is attached that another one dominates. -/
theorem not_dominates_of_attach {node : TreeNode σ} {s₁ s₂ : σ} (h : node.Dominates s₁ s₂)
    (hnodup : node.depthFirst.Nodup) (h₁ : s₁ ∈ attach p node assigned)
    (h₂ : s₂ ∈ attach p node assigned) : False := by
  induction h generalizing assigned with
  | @earlier statements children s₁ s₂ h =>
    have hfind₁ := find_of_mem_attach hnodup (h.subset (by simp)) h₁
    have hfind₂ := find_of_mem_attach hnodup (h.subset (by simp)) h₂
    obtain rfl : s₁ = s₂ := Option.some.inj (hfind₁.symm.trans hfind₂)
    rw [TreeNode.depthFirst, List.nodup_append] at hnodup
    exact absurd (hnodup.1.sublist h) (by simp)
  | @above statements children s₁ s₂ h₁' h₂' =>
    have hfind := find_of_mem_attach hnodup h₁' h₁
    have hany : statements.any p = true :=
      List.any_eq_true.2 ⟨s₁, h₁', List.find?_some hfind⟩
    have hall := mem_attachAll_of_mem_attach hnodup h₂' h₂
    rw [hany, Bool.or_true, attachAll_true] at hall
    cases hall
  | @inside statements children child s₁ s₂ hchild h ih =>
    have hsublist := depthFirst_sublist hchild
    have hall₁ := mem_attachAll_of_mem_attach hnodup (hsublist.subset h.mem.1) h₁
    have hall₂ := mem_attachAll_of_mem_attach hnodup (hsublist.subset h.mem.2) h₂
    rw [TreeNode.depthFirst, List.nodup_append] at hnodup
    exact ih (hnodup.2.1.sublist hsublist) (mem_attach_child hchild hnodup.2.1 h.mem.1 hall₁)
      (mem_attach_child hchild hnodup.2.1 h.mem.2 hall₂)

end

/-! ## Placement of one comment -/

section

variable {σ : Type} (getAddresses : σ → Location)

/-- A comment is placed where it belongs, whatever the order of the statements. -/
structure IsPlaced (comments : List Location) (tree : StatementTree σ)
    (index : Fin comments.length) : Prop where
  homeless_iff :
    (∃ a ∈ (place getAddresses comments tree).homelessComments, a.commentIndex = index) ↔
      ∀ s ∈ tree.statements, ¬SharesAddress comments[index] (getAddresses s)
  attached : (∃ s ∈ tree.statements, SharesAddress comments[index] (getAddresses s)) →
    ∃ location, IsBest comments[index] (tree.statements.map getAddresses) location ∧
      (place getAddresses comments tree).attachedTo index ≠ [] ∧
      ∀ s ∈ (place getAddresses comments tree).attachedTo index, getAddresses s = location
  order : ∀ other : StatementTree σ, other.statements.Perm tree.statements →
    ∀ s ∈ (place getAddresses comments tree).attachedTo index,
    ∀ s' ∈ (place getAddresses comments other).attachedTo index, getAddresses s = getAddresses s'
  dominance : ∀ s ∈ (place getAddresses comments tree).attachedTo index,
    ∀ s' ∈ (place getAddresses comments tree).attachedTo index, ¬tree.root.Dominates s s'

/-- The comments with what is selected for them. -/
def scoredComments (comments : List Location) (tree : StatementTree σ) : List ScoredComment :=
  (comments.map fun comment =>
    (comment, selected comment (tree.statements.map getAddresses))).zipIdx

variable {comments : List Location}

theorem place_eq (h : comments ≠ []) (tree : StatementTree σ) :
    place getAddresses comments tree =
      ⟨visit getAddresses (scoredComments getAddresses comments tree) tree.root [],
        processHomeless (scoredComments getAddresses comments tree)⟩ := by
  have hzip : comments.zip (computeScores getAddresses comments tree.root) =
      comments.map fun comment =>
        (comment, selected comment (tree.statements.map getAddresses)) := by
    rw [computeScores_eq, List.zip_map_right, List.zip_eq_zipWith, List.zipWith_self, List.map_map]
    rfl
  rw [place, if_neg h, hzip]
  rfl

theorem nodup_scoredComments (comments : List Location) (tree : StatementTree σ) :
    ((scoredComments getAddresses comments tree).map Prod.snd).Nodup := by
  rw [scoredComments, List.zipIdx_map_snd]
  exact List.nodup_range'

variable {comment : Location}

theorem mem_scoredComments_iff (tree : StatementTree σ) {scored : Score × Location} {index : Nat} :
    ((comment, scored), index) ∈ scoredComments getAddresses comments tree ↔
      comments[index]? = some comment ∧
        scored = selected comment (tree.statements.map getAddresses) := by
  rw [scoredComments, List.mem_zipIdx_iff_getElem?, List.getElem?_map, Option.map_eq_some_iff]
  constructor
  · rintro ⟨_, hcomment, ⟨⟩⟩
    exact ⟨hcomment, rfl⟩
  · rintro ⟨hcomment, rfl⟩
    exact ⟨comment, hcomment, rfl⟩

/-- What is selected for a comment in a tree. -/
def selectedIn (comment : Location) (tree : StatementTree σ) : Score × Location :=
  selected comment (tree.statements.map getAddresses)

theorem attachedTo_eq (tree : StatementTree σ) (index : Fin comments.length) :
    (place getAddresses comments tree).attachedTo index =
      attach (fits getAddresses (selectedIn getAddresses comments[index] tree).2) tree.root
        false := by
  have hne : comments ≠ [] := List.ne_nil_of_length_pos (Nat.zero_lt_of_lt index.isLt)
  have hmem := (mem_scoredComments_iff getAddresses tree).2
    ⟨List.getElem?_eq_getElem index.isLt, rfl⟩
  rw [place_eq getAddresses hne]
  exact visit_spec getAddresses (nodup_scoredComments getAddresses comments tree) hmem tree.root []

variable {tree : StatementTree σ}

theorem exists_shares_iff :
    (∃ l ∈ tree.statements.map getAddresses, SharesAddress comment l) ↔
      ∃ s ∈ tree.statements, SharesAddress comment (getAddresses s) := by
  simp

theorem numerator_selectedIn_iff :
    (selectedIn getAddresses comment tree).1.numerator = 0 ↔
      ∀ s ∈ tree.statements, ¬SharesAddress comment (getAddresses s) := by
  constructor
  · intro hzero s hs hshares
    have hselected := (selected_of_shares
      ((exists_shares_iff getAddresses).2 ⟨s, hs, hshares⟩)).1
    exact (isProper_of_mem hselected).1 hzero
  · intro h
    rw [selectedIn, selected_of_not_shares (by simpa using h)]
    rfl

theorem homeless_iff (tree : StatementTree σ) (index : Fin comments.length) :
    (∃ a ∈ (place getAddresses comments tree).homelessComments, a.commentIndex = index) ↔
      ∀ s ∈ tree.statements, ¬SharesAddress comments[index] (getAddresses s) := by
  have hne : comments ≠ [] := List.ne_nil_of_length_pos (Nat.zero_lt_of_lt index.isLt)
  rw [place_eq getAddresses hne, ← numerator_selectedIn_iff, processHomeless]
  constructor
  · rintro ⟨a, ha, hindex⟩
    obtain ⟨⟨⟨comment, scored⟩, index'⟩, hmem, ha⟩ := List.mem_filterMap.1 ha
    obtain ⟨hcomment, rfl⟩ := (mem_scoredComments_iff getAddresses _).1 hmem
    split_ifs at ha with hzero
    obtain rfl := Option.some.inj ha
    obtain rfl : index' = index := hindex
    rw [List.getElem?_eq_getElem index.isLt] at hcomment
    rw [← Option.some.inj hcomment] at hzero
    exact hzero
  · intro hzero
    have hmem := (mem_scoredComments_iff getAddresses tree).2
      ⟨List.getElem?_eq_getElem index.isLt, rfl⟩
    exact ⟨_, List.mem_filterMap.2 ⟨_, hmem, if_pos hzero⟩, rfl⟩

variable {index : Fin comments.length}

/-- Statements that a comment is attached to have the location that is selected for it. -/
theorem getAddresses_of_mem_attachedTo {s : σ}
    (h : s ∈ (place getAddresses comments tree).attachedTo index) :
    getAddresses s = (selectedIn getAddresses comments[index] tree).2 := by
  rw [attachedTo_eq] at h
  exact (of_decide_eq_true (mem_attach tree.root h).2).2

theorem attachedTo_ne_nil
    (h : ∃ s ∈ tree.statements, SharesAddress comments[index] (getAddresses s)) :
    (place getAddresses comments tree).attachedTo index ≠ [] := by
  rw [attachedTo_eq]
  obtain ⟨hmem, -⟩ := selected_of_shares ((exists_shares_iff getAddresses).2 h)
  obtain ⟨hlocation, -⟩ := mem_candidates_iff.1 hmem
  obtain ⟨s, hs, heq⟩ := List.mem_map.1 hlocation
  exact attach_ne_nil tree.root hs
    (decide_eq_true ⟨heq ▸ (isProper_of_mem hmem).2, heq⟩)

/-- Every order of the locations comes from an order of the statements. -/
theorem exists_perm_map {order : List Location} {statements : List σ}
    (h : order.Perm (statements.map getAddresses)) :
    ∃ statements' : List σ, statements'.Perm statements ∧
      statements'.map getAddresses = order := by
  induction order generalizing statements with
  | nil =>
    have hnil : statements = [] := List.map_eq_nil_iff.1 (List.nil_perm.1 h)
    exact ⟨[], by rw [hnil], rfl⟩
  | cons location order ih =>
    obtain ⟨s, hs, rfl⟩ := List.mem_map.1 (h.mem_iff.1 List.mem_cons_self)
    obtain ⟨before, after, rfl⟩ := List.append_of_mem hs
    have hmiddle : ((before ++ s :: after).map getAddresses).Perm
        (getAddresses s :: (before ++ after).map getAddresses) :=
      List.perm_middle.map getAddresses
    obtain ⟨rest, hperm, hmap⟩ := ih (h.trans hmiddle).cons_inv
    exact ⟨s :: rest, (hperm.cons s).trans List.perm_middle.symm, by rw [List.map_cons, hmap]⟩

/-- A tree of one node. -/
def StatementTree.ofStatements (tree : StatementTree σ) {statements : List σ}
    (h : statements.Perm tree.statements) : StatementTree σ :=
  ⟨.node statements [], by
    rw [TreeNode.depthFirst, TreeNode.depthFirstAll, List.append_nil]
    exact h.nodup_iff.2 tree.nodup⟩

theorem statements_ofStatements (tree : StatementTree σ) {statements : List σ}
    (h : statements.Perm tree.statements) : (tree.ofStatements h).statements = statements :=
  List.append_nil statements

/-- With an order that is observed, the selection is the same for every order. -/
theorem selectedIn_of_order {other : StatementTree σ}
    (h : IsPlaced getAddresses comments tree index)
    (hshares : ∃ s ∈ tree.statements, SharesAddress comments[index] (getAddresses s))
    (hperm : other.statements.Perm tree.statements) :
    (selectedIn getAddresses comments[index] other).2 =
      (selectedIn getAddresses comments[index] tree).2 := by
  have hother : ∃ s ∈ other.statements, SharesAddress comments[index] (getAddresses s) := by
    simpa only [hperm.mem_iff] using hshares
  obtain ⟨s, hs⟩ := List.exists_mem_of_ne_nil _ (attachedTo_ne_nil getAddresses hshares)
  obtain ⟨s', hs'⟩ := List.exists_mem_of_ne_nil _ (attachedTo_ne_nil getAddresses hother)
  calc (selectedIn getAddresses comments[index] other).2
      = getAddresses s' := (getAddresses_of_mem_attachedTo getAddresses hs').symm
    _ = getAddresses s := (h.order other hperm s hs s' hs').symm
    _ = _ := getAddresses_of_mem_attachedTo getAddresses hs

theorem isPlaced_iff (comments : List Location) (tree : StatementTree σ)
    (index : Fin comments.length) :
    IsPlaced getAddresses comments tree index ↔
      Unambiguous comments[index] (tree.statements.map getAddresses) := by
  constructor
  · intro h
    by_cases hshares : ∃ s ∈ tree.statements, SharesAddress comments[index] (getAddresses s)
    · rw [← selected_perm_iff ((exists_shares_iff getAddresses).2 hshares)]
      have hselected : ∀ order : List Location, order.Perm (tree.statements.map getAddresses) →
          (selected comments[index] order).2 = (selectedIn getAddresses comments[index] tree).2 := by
        intro order horder
        obtain ⟨statements, hperm, rfl⟩ := exists_perm_map getAddresses horder
        have hsingle := selectedIn_of_order getAddresses h hshares
          ((statements_ofStatements tree hperm).symm ▸ hperm)
        rwa [selectedIn, statements_ofStatements] at hsingle
      intro order order' horder horder'
      rw [hselected order horder, hselected order' horder']
    · exact unambiguous_of_not_shares (by simpa using hshares)
  · intro h
    refine ⟨homeless_iff getAddresses tree index, fun hshares => ?_, fun other hperm s hs s' hs' => ?_,
      fun s hs s' hs' hdominates => ?_⟩
    · exact ⟨_, (selected_of_shares ((exists_shares_iff getAddresses).2 hshares)).2,
        attachedTo_ne_nil getAddresses hshares,
        fun s hs => getAddresses_of_mem_attachedTo getAddresses hs⟩
    · rw [getAddresses_of_mem_attachedTo getAddresses hs,
        getAddresses_of_mem_attachedTo getAddresses hs', selectedIn, selectedIn]
      by_cases hshares : ∃ s ∈ tree.statements, SharesAddress comments[index] (getAddresses s)
      · exact (selected_perm_iff ((exists_shares_iff getAddresses).2 hshares)).2 h _ _
          (.refl _) (hperm.map getAddresses)
      · have hnone : ∀ location ∈ tree.statements.map getAddresses,
            ¬SharesAddress comments[index] location := by simpa using hshares
        have hother : ∀ location ∈ other.statements.map getAddresses,
            ¬SharesAddress comments[index] location :=
          fun location hmem => hnone location ((hperm.map getAddresses).mem_iff.1 hmem)
        rw [selected_of_not_shares hnone, selected_of_not_shares hother]
    · rw [attachedTo_eq] at hs hs'
      exact not_dominates_of_attach hdominates tree.nodup hs hs'

end

/-! ## Two sets of one value -/

/-- The generic addresses with these numbers. -/
def generic (number : BitVec 64) : MetaAddress := ⟨0, 0, .generic64, number⟩

def firstTwo : Location := ⟨[generic 1, generic 2], by decide, by decide⟩

/-- One statement with the first address of the comment, and one with both and one more. -/
def exampleAddresses : Nat → Location
  | 0 => ⟨[generic 1], by decide, by decide⟩
  | _ => ⟨[generic 1, generic 2, generic 3], by decide, by decide⟩

/-- The scores `1/2` and `2/4` have one value, and the first statement that is visited wins. -/
theorem not_isPlaced_equalValues : ¬∀ (getAddresses : Nat → Location) comments tree index,
    IsPlaced getAddresses comments tree index := by
  intro h
  have horder := (h exampleAddresses [firstTwo] ⟨.node [0, 1] [], by decide⟩ 0).order
    ⟨.node [1, 0] [], by decide⟩ (by decide) 0 (by decide) 1 (by decide)
  exact absurd horder (by decide)

end PTML

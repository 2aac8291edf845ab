import NameResolution.Resolution.Search

namespace NameResolution

variable {L : Type} [DecidableEq L] [Label L]

namespace Query

/-- The resolutions that continue `path`, whose labels have led to `m`, in the order of a search. -/
def continuations (q : Query L) (active : SortedSet Occurrence) (path : ReferencePath L)
    (m : Matcher q.automaton) : List (ResolutionPath L) :=
  if m.stuck then [] else
  q.endings path m ++ m.branches.flatMap fun branch =>
    if branch.2.stuck then [] else
    ((q.graph.edgesFrom path.target branch.1).toList.attach.flatMap fun target =>
      match _ : path.join (.edge path.target branch.1 target.1) with
      | .error _ => []
      | .ok path' => q.continuations active path' branch.2) ++
    (q.graph.importsFrom path.target branch.1).toList.flatMap fun reference =>
      if reference ∈ path.references then []
      else if _ : reference ∈ active then []
      else
        match _ : q.graph.scopeOf? reference with
        | none => []
        | some scope =>
          (q.continuations ((active.union path.references).insert reference)
            (.ofReference reference scope) q.start).flatMap fun resolution =>
              (q.graph.associatedWith resolution.stop).toList.attach.flatMap fun target =>
                match _ : path.join (.named path.target branch.1 resolution target.1) with
                | .error _ => []
                | .ok path' => q.continuations active path' branch.2
termination_by (q.graph.inactive active, q.graph.unvisited path.scopes)
decreasing_by
  · exact .right _ (ScopeGraph.unvisited_lt_of_join (ScopeGraph.mem_targets_of_edge target.2) ‹_›
      (Path.target_not_mem_of_join_edge ‹_›))
  · exact .right _ (ScopeGraph.unvisited_lt_of_join
      (ScopeGraph.mem_targets_of_association target.2) ‹_› (Path.target_not_mem_of_join_named ‹_›))
  · refine .left _ _ (ScopeGraph.inactive_lt ‹_› ‹_› (by simp) fun o ho => ?_)
    simp [ho]

/-- The resolutions of a reference that go through no excluded one. -/
def resolutions (q : Query L) (excluded : SortedSet Occurrence) (reference : Occurrence) :
    List (ResolutionPath L) :=
  match q.graph.scopeOf? reference with
  | none => []
  | some scope =>
    q.continuations (excluded.insert reference) (.ofReference reference scope) q.start

def along (q : Query L) (active : SortedSet Occurrence) (path : ReferencePath L)
    (m : Matcher q.automaton) (step : ScopePath L) : List (ResolutionPath L) :=
  match path.join step with
  | .error _ => []
  | .ok path' => q.continuations active path' m

def through (q : Query L) (active : SortedSet Occurrence) (path : ReferencePath L) (label : L)
    (m : Matcher q.automaton) (resolution : ResolutionPath L) : List (ResolutionPath L) :=
  (q.graph.associatedWith resolution.stop).toList.flatMap fun target =>
    q.along active path m (.named path.target label resolution target)

def importing (q : Query L) (active : SortedSet Occurrence) (path : ReferencePath L) (label : L)
    (m : Matcher q.automaton) (reference : Occurrence) : List (ResolutionPath L) :=
  if reference ∈ path.references ∨ reference ∈ active then []
  else (q.resolutions (active.union path.references) reference).flatMap
    (q.through active path label m)

def stepping (q : Query L) (active : SortedSet Occurrence) (path : ReferencePath L)
    (branch : L × Matcher q.automaton) : List (ResolutionPath L) :=
  if branch.2.stuck then [] else
  (q.graph.edgesFrom path.target branch.1).toList.flatMap
      (fun target => q.along active path branch.2 (.edge path.target branch.1 target)) ++
    (q.graph.importsFrom path.target branch.1).toList.flatMap
      (q.importing active path branch.1 branch.2)

variable {q : Query L}

/-- Membership that only termination needs can be dropped. -/
theorem flatMap_attach {α β : Type} {l : List α} {f : {x // x ∈ l} → List β} {g : α → List β}
    (h : ∀ x hx, f ⟨x, hx⟩ = g x) : l.attach.flatMap f = l.flatMap g := by
  rw [List.flatMap_subtype h, List.unattach_attach]

theorem along_eq (active : SortedSet Occurrence) (path : ReferencePath L)
    (m : Matcher q.automaton) (step : ScopePath L) :
    (match _ : path.join step with
      | .error _ => []
      | .ok path' => q.continuations active path' m) = q.along active path m step := by
  unfold along
  cases path.join step <;> rfl

theorem continuations_eq (active : SortedSet Occurrence) (path : ReferencePath L)
    (m : Matcher q.automaton) :
    q.continuations active path m =
      if m.stuck then []
      else q.endings path m ++ m.branches.flatMap (q.stepping active path) := by
  rw [continuations]
  split
  · rfl
  · congr 2
    funext branch
    unfold stepping
    split
    · rfl
    · congr 1
      · exact flatMap_attach fun target _ => along_eq active path branch.2 _
      · congr 1
        funext reference
        unfold importing
        by_cases hpath : reference ∈ path.references
        · simp [hpath]
        · by_cases hactive : reference ∈ active
          · simp [hactive]
          · simp only [hpath, hactive, if_false, dif_neg, or_self, not_false_eq_true]
            unfold resolutions
            cases q.graph.scopeOf? reference with
            | none => rfl
            | some scope =>
              dsimp only
              congr 1
              funext resolution
              exact flatMap_attach fun target _ => along_eq active path branch.2 _

theorem along_ok {active : SortedSet Occurrence} {path path' : ReferencePath L}
    {m : Matcher q.automaton} {step : ScopePath L} (h : path.join step = .ok path') :
    q.along active path m step = q.continuations active path' m := by
  rw [along, h]

theorem along_error {active : SortedSet Occurrence} {path : ReferencePath L}
    {m : Matcher q.automaton} {step : ScopePath L} {e : Path.JoinError}
    (h : path.join step = .error e) : q.along active path m step = [] := by
  rw [along, h]

theorem resolutions_of_scope {excluded : SortedSet Occurrence} {reference : Occurrence}
    {scope : Scope} (h : q.graph.scopeOf? reference = some scope) :
    q.resolutions excluded reference =
      q.continuations (excluded.insert reference) (.ofReference reference scope) q.start := by
  rw [resolutions, h]

theorem resolutions_of_no_scope {excluded : SortedSet Occurrence} {reference : Occurrence}
    (h : q.graph.scopeOf? reference = none) : q.resolutions excluded reference = [] := by
  rw [resolutions, h]

/-- What holds of a search if it holds of the searches that it leads to, holds of every search: a
step visits a scope that is not yet on the path, and an import activates a reference. -/
theorem search_induction {motive : SortedSet Occurrence → ReferencePath L → Prop}
    (step : ∀ active path,
      (∀ label target path', target ∈ q.graph.edgesFrom path.target label →
        path.join (.edge path.target label target) = .ok path' → motive active path') →
      (∀ label resolution target path', target ∈ q.graph.associatedWith resolution.stop →
        path.join (.named path.target label resolution target) = .ok path' →
          motive active path') →
      (∀ reference scope, reference ∉ active → q.graph.scopeOf? reference = some scope →
        motive ((active.union path.references).insert reference) (.ofReference reference scope)) →
      motive active path)
    (active : SortedSet Occurrence) (path : ReferencePath L) : motive active path := by
  refine step active path ?_ ?_ ?_
  · intro label target path' _ h
    exact search_induction step active path'
  · intro label resolution target path' _ h
    exact search_induction step active path'
  · intro reference scope h hscope
    exact search_induction step _ _
termination_by (q.graph.inactive active, q.graph.unvisited path.scopes)
decreasing_by
  · exact .right _ (ScopeGraph.unvisited_lt_of_join (ScopeGraph.mem_targets_of_edge ‹_›) h
      (Path.target_not_mem_of_join_edge h))
  · exact .right _ (ScopeGraph.unvisited_lt_of_join (ScopeGraph.mem_targets_of_association ‹_›) h
      (Path.target_not_mem_of_join_named h))
  · exact .left _ _ (ScopeGraph.inactive_lt hscope h (by simp) fun o ho => by simp [ho])

end Query

end NameResolution

import NameResolution.Resolution.Search

namespace NameResolution

variable {L : Type} [DecidableEq L] [Label L]

namespace Enumeration

variable {σ α β : Type}

theorem each_attach {l : List β} {f : {x // x ∈ l} → σ → Enumeration σ α}
    {g : β → σ → Enumeration σ α} (h : ∀ x hx, f ⟨x, hx⟩ = g x) : each l.attach f = each l g := by
  -- in general, since the induction changes the list but not the type of its members
  have of_map : ∀ l' : List {x // x ∈ l}, each l' f = each (l'.map (·.1)) g := by
    intro l'
    induction l' with
    | nil => rfl
    | cons x xs ih =>
      funext s
      simp only [List.map_cons, each, h x.1 x.2, ih]
  rw [of_map, List.attach_map_subtype_val]

end Enumeration

namespace Query

variable (consult : ImportTable L → ImportKey → Option (ResolvedImport L)) (q : Query L)

def searchAlong (active : SortedSet Occurrence) (path : ReferencePath L) (m : Matcher q.automaton)
    (step : ScopePath L) (progress : Progress L) : Enumeration (Progress L) (ResolutionPath L) :=
  match path.join step with
  | .error _ => .done progress
  | .ok path' => q.searchBy consult active path' m progress

def searchThrough (active : SortedSet Occurrence) (path : ReferencePath L) (label : L)
    (m : Matcher q.automaton) (resolution : ResolutionPath L) :
    Progress L → Enumeration (Progress L) (ResolutionPath L) :=
  .each (q.graph.associatedWith resolution.stop).toList fun target =>
    q.searchAlong consult active path m (.named path.target label resolution target)

/-- The search for an import, with nothing blocked so far. -/
def searchImport (key : ImportKey) (scope : Scope) (table : ImportTable L) :
    Enumeration (Progress L) (ResolutionPath L) :=
  q.searchBy consult (key.excluded.insert key.reference) (.ofReference key.reference scope) q.start
    ⟨table, .empty⟩

/-- The outcome of an import, recalled or searched for, and the table after it. -/
def resolveImport (key : ImportKey) (scope : Scope) (table : ImportTable L) :
    ResolvedImport L × ImportTable L :=
  match consult table key with
  | some resolved => (resolved, table)
  | none => ImportTable.record key (q.searchImport consult key scope table)

def searchImporting (active : SortedSet Occurrence) (path : ReferencePath L) (label : L)
    (m : Matcher q.automaton) (reference : Occurrence) (progress : Progress L) :
    Enumeration (Progress L) (ResolutionPath L) :=
  if reference ∈ path.references then .done progress
  else if reference ∈ active then
    .done { progress with blocked := progress.blocked.insert reference }
  else
    match q.graph.scopeOf? reference with
    | none => .done progress
    | some scope =>
      let outcome :=
        q.resolveImport consult ⟨reference, active.union path.references⟩ scope progress.table
      .each outcome.1.resolutions (q.searchThrough consult active path label m)
        ⟨outcome.2, progress.blocked.union outcome.1.blocked⟩

def searchStepping (active : SortedSet Occurrence) (path : ReferencePath L)
    (branch : L × Matcher q.automaton) (progress : Progress L) :
    Enumeration (Progress L) (ResolutionPath L) :=
  if branch.2.stuck then .done progress else
  (Enumeration.each (q.graph.edgesFrom path.target branch.1).toList
    (fun target => q.searchAlong consult active path branch.2 (.edge path.target branch.1 target))
    progress).andThen <|
  .each (q.graph.importsFrom path.target branch.1).toList
    (q.searchImporting consult active path branch.1 branch.2)

theorem searchAlong_eq (active : SortedSet Occurrence) (path : ReferencePath L)
    (m : Matcher q.automaton) (step : ScopePath L) (progress : Progress L) :
    (match _ : path.join step with
      | .error _ => .done progress
      | .ok path' => q.searchBy consult active path' m progress) =
      q.searchAlong consult active path m step progress := by
  unfold searchAlong
  cases path.join step <;> rfl

theorem searchBy_eq (active : SortedSet Occurrence) (path : ReferencePath L)
    (m : Matcher q.automaton) (progress : Progress L) :
    q.searchBy consult active path m progress =
      if m.stuck then .done progress
      else (Enumeration.ofList (q.endings path m) progress).andThen
        (.each m.branches (q.searchStepping consult active path)) := by
  rw [searchBy]
  split
  · rfl
  · congr 2
    funext branch progress
    unfold searchStepping
    split
    · rfl
    · congr 1
      · refine congrFun (Enumeration.each_attach fun target _ => ?_) progress
        funext progress
        exact q.searchAlong_eq consult active path branch.2 _ progress
      · congr 1
        funext reference progress
        -- the proofs that the search keeps for termination are dropped case by case
        unfold searchImporting
        by_cases hpath : reference ∈ path.references
        · simp only [hpath, if_true]
        by_cases hactive : reference ∈ active
        · simp only [hpath, hactive, if_false, if_true, dif_pos]
        simp only [hpath, hactive, if_false, dif_neg, not_false_eq_true]
        cases q.graph.scopeOf? reference with
        | none => rfl
        | some scope =>
          dsimp only [resolveImport, searchImport]
          congr 1
          funext resolution
          apply Enumeration.each_attach
          intro target _
          funext progress
          exact q.searchAlong_eq consult active path branch.2 _ progress

end Query

end NameResolution

import NameResolution.Enumeration
import NameResolution.Resolution.ImportTable
import NameResolution.Resolution.Query

namespace NameResolution

variable {L : Type} [DecidableEq L] [Label L]

structure Progress (L : Type) where
  table : ImportTable L
  /-- The active references that the search, or one nested in it, could not go through. -/
  blocked : SortedSet Occurrence

namespace Progress

def empty : Progress L := ⟨.empty, .empty⟩

end Progress

/-- The outcome of a finished search for an import, and the table that keeps it. -/
def ImportTable.record (key : ImportKey) (search : Enumeration (Progress L) (ResolutionPath L)) :
    ResolvedImport L × ImportTable L :=
  let (resolutions, after) := search.collect
  let resolved : ResolvedImport L := ⟨resolutions, after.blocked.filter (· ∈ key.excluded)⟩
  (resolved, after.table.insert key resolved)

namespace Query

/-- The resolutions that continue `path`, whose labels have led to `m`. The active references are
the one being resolved and those whose searches wait for it; imports must not go through them.
`consult` looks an import up in the table, so that the search for it can be left out. -/
def searchBy (consult : ImportTable L → ImportKey → Option (ResolvedImport L)) (q : Query L)
    (active : SortedSet Occurrence) (path : ReferencePath L) (m : Matcher q.automaton)
    (progress : Progress L) : Enumeration (Progress L) (ResolutionPath L) :=
  if m.stuck then .done progress else
  (Enumeration.ofList (q.endings path m) progress).andThen <|
  .each m.branches fun branch progress =>
    if branch.2.stuck then .done progress else
    (Enumeration.each (q.graph.edgesFrom path.target branch.1).toList.attach
      (fun target progress =>
        match _ : path.join (.edge path.target branch.1 target.1) with
        | .error _ => .done progress
        | .ok path' => q.searchBy consult active path' branch.2 progress) progress).andThen <|
    .each (q.graph.importsFrom path.target branch.1).toList fun reference progress =>
      if reference ∈ path.references then .done progress
      else if _ : reference ∈ active then
        .done { progress with blocked := progress.blocked.insert reference }
      else
        match _ : q.graph.scopeOf? reference with
        | none => .done progress
        | some scope =>
          -- the search for the import must not go through what is on the path, either
          let key : ImportKey := ⟨reference, active.union path.references⟩
          let (resolved, table) :=
            match consult progress.table key with
            | some resolved => (resolved, progress.table)
            | none => ImportTable.record key
              (q.searchBy consult (key.excluded.insert reference) (.ofReference reference scope)
                q.start ⟨progress.table, .empty⟩)
          .each resolved.resolutions
            (fun resolution =>
              .each (q.graph.associatedWith resolution.stop).toList.attach fun target progress =>
                match _ : path.join (.named path.target branch.1 resolution target.1) with
                | .error _ => .done progress
                | .ok path' => q.searchBy consult active path' branch.2 progress)
            ⟨table, progress.blocked.union resolved.blocked⟩
termination_by (q.graph.inactive active, q.graph.unvisited path.scopes)
decreasing_by
  · exact .right _ (ScopeGraph.unvisited_lt_of_join (ScopeGraph.mem_targets_of_edge target.2) ‹_›
      (Path.target_not_mem_of_join_edge ‹_›))
  · refine .left _ _ (ScopeGraph.inactive_lt ‹_› ‹_› (by simp) fun o ho => ?_)
    simp [ho]
  · exact .right _ (ScopeGraph.unvisited_lt_of_join
      (ScopeGraph.mem_targets_of_association target.2) ‹_› (Path.target_not_mem_of_join_named ‹_›))

structure UnknownReference where
  reference : Occurrence

def UnknownReference.message (e : UnknownReference) : String :=
  e.reference.render ++ " is not a reference in this scope graph"

def resolveBy? (consult : ImportTable L → ImportKey → Option (ResolvedImport L)) (q : Query L)
    (reference : Occurrence) :
    Except UnknownReference (Enumeration (Progress L) (ResolutionPath L)) :=
  match q.graph.scopeOf? reference with
  | none => .error ⟨reference⟩
  | some scope =>
    .ok (q.searchBy consult (.singleton reference) (.ofReference reference scope) q.start .empty)

def resolve? (q : Query L) (reference : Occurrence) :
    Except UnknownReference (Enumeration (Progress L) (ResolutionPath L)) :=
  q.resolveBy? ImportTable.get? reference

end Query

end NameResolution

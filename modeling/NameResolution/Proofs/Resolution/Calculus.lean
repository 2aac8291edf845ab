import NameResolution.Proofs.Path.Steps
import NameResolution.Resolution.Query

namespace NameResolution

variable {L : Type} [DecidableEq L] [Label L]

namespace Query

/-- The graph lets a step be taken after a path, and an import goes through no excluded reference
and through none that the path resolves through. -/
def Allows (q : Query L) (excluded : SortedSet Occurrence) (path : ReferencePath L) :
    Step L → Prop
  | .edge source label target =>
    source = path.target ∧ target ∈ q.graph.edgesFrom source label
  | .named source label resolution target =>
    source = path.target ∧ resolution.start ∈ q.graph.importsFrom source label ∧
      resolution.start ∉ excluded ∧ resolution.start ∉ path.references ∧
      target ∈ q.graph.associatedWith resolution.stop

def Accepts {automaton : Automaton L} (m : Matcher automaton) (steps : List (Step L)) : Prop :=
  ∃ m', m.matchAll? (steps.map Step.label) = .ok m' ∧ m'.accepting = true

/-- The resolutions of a reference that go through no excluded one. An import is taken by a
resolution of its name that goes through no reference of the path before it either. -/
inductive Resolves (q : Query L) : Occurrence → SortedSet Occurrence → ResolutionPath L → Prop
  | intro {reference : Occurrence} {excluded : SortedSet Occurrence} {scope : Scope}
      {steps : List (Step L)} {declaration : Occurrence}
      (home : q.graph.scopeOf? reference = some scope)
      (acyclic : (scope :: steps.map Step.target).Nodup)
      (accepted : Accepts q.start steps)
      (allowed : ∀ before step rest, steps = before ++ step :: rest →
        q.Allows excluded ((Path.ofReference reference scope).afterAll before) step)
      (nested : ∀ before source label resolution target rest,
        steps = before ++ .named source label resolution target :: rest →
          q.Resolves resolution.start
            (excluded.union ((Path.ofReference reference scope).afterAll before).references)
            resolution)
      (declared : declaration ∈ q.graph.declarationsOf
        ((Path.ofReference reference scope).afterAll steps).target)
      (fits : q.fits reference declaration = true) :
      q.Resolves reference excluded
        (((Path.ofReference reference scope).afterAll steps).declaring declaration)

end Query

end NameResolution

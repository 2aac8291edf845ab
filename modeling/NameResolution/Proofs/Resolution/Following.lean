import NameResolution.Proofs.Resolution.Machine
import NameResolution.Proofs.ScopeGraph.Consistency

namespace NameResolution

variable {L : Type} [DecidableEq L] [Label L] {q : Query L}

namespace Machine

def Task.Leaving : Task q → Prop
  | .expand _ _ => True
  | .follow pending => pending.reference ∈ q.graph.importsFrom pending.path.target pending.label

/-- The imports in all tasks, also of the searches that wait, leave the ends of their paths. -/
def Leaving (machine : Machine q) : Prop :=
  (∀ task ∈ machine.search.tasks, task.Leaving) ∧
    ∀ w ∈ machine.waiting, ∀ task ∈ w.2.tasks, task.Leaving

inductive Advances : Machine q → Machine q → Prop
  | found {machine rest : Machine q} {r : ResolutionPath L} (h : machine.round = .found r rest) :
    Advances machine rest
  | again {machine next : Machine q} (h : machine.round = .again next) : Advances machine next

section Tasks

variable {path : ReferencePath L} {m : Matcher q.automaton} {task : Task q}

theorem leaving_of_mem_along {step : ScopePath L} (h : task ∈ Task.along path m step) :
    task.Leaving := by
  unfold Task.along at h
  split at h
  · cases h
  · rw [List.mem_singleton.mp h]
    trivial

theorem leaving_of_mem_stepping {branch : L × Matcher q.automaton}
    (h : task ∈ Task.stepping path branch) : task.Leaving := by
  unfold Task.stepping at h
  split at h
  · cases h
  rcases List.mem_append.mp h with hedge | himport
  · obtain ⟨target, -, htask⟩ := List.mem_flatMap.mp hedge
    exact leaving_of_mem_along htask
  · obtain ⟨reference, hreference, rfl⟩ := List.mem_map.mp himport
    exact hreference

theorem leaving_of_mem_tasks {pending : Pending q} {resolutions : List (ResolutionPath L)}
    (h : task ∈ pending.tasks resolutions) : task.Leaving := by
  obtain ⟨resolution, -, h⟩ := List.mem_flatMap.mp h
  obtain ⟨target, -, h⟩ := List.mem_flatMap.mp h
  exact leaving_of_mem_along h

theorem leaving_of_mem_expand {s : Search q} (hs : ∀ task ∈ s.tasks, task.Leaving)
    (h : task ∈ (s.expand path m).tasks) : task.Leaving := by
  unfold Search.expand at h
  split at h
  · exact hs task h
  rcases List.mem_append.mp h with hnew | hold
  · obtain ⟨branch, -, htask⟩ := List.mem_flatMap.mp hnew
    exact leaving_of_mem_stepping htask
  · exact hs task hold

theorem leaving_of_mem_enter {s : Search q} (hs : ∀ task ∈ s.tasks, task.Leaving)
    {pending : Pending q} {resolved : ResolvedImport L}
    (h : task ∈ (s.enter pending resolved).tasks) : task.Leaving := by
  rcases List.mem_append.mp h with hnew | hold
  · exact leaving_of_mem_tasks hnew
  · exact hs task hold

theorem leaving_of_mem_start {key : ImportKey} {scope : Scope}
    (h : task ∈ (Search.start q key scope).tasks) : task.Leaving := by
  rw [List.mem_singleton.mp h]
  trivial

end Tasks

section Rounds

variable {machine next : Machine q}

theorem Leaving.follow (h : machine.Leaving) (pending : Pending q) :
    (machine.follow pending).Leaving := by
  obtain ⟨hsearch, hwaiting⟩ := h
  unfold Machine.follow
  split
  · exact ⟨hsearch, hwaiting⟩
  split
  · exact ⟨hsearch, hwaiting⟩
  split
  · exact ⟨hsearch, hwaiting⟩
  dsimp only
  split
  · exact ⟨fun task htask => leaving_of_mem_enter hsearch htask, hwaiting⟩
  · refine ⟨fun task htask => leaving_of_mem_start htask, fun w hw => ?_⟩
    rcases List.mem_cons.mp hw with rfl | hw
    · exact hsearch
    · exact hwaiting w hw

theorem Leaving.perform (h : machine.Leaving) (task : Task q) : (machine.perform task).Leaving := by
  cases task with
  | expand path m => exact ⟨fun task htask => leaving_of_mem_expand h.1 htask, h.2⟩
  | follow pending => exact h.follow pending

/-- A round keeps the imports at the ends of their paths. -/
theorem Leaving.advance (h : machine.Leaving) (hadvances : Advances machine next) :
    next.Leaving := by
  obtain ⟨hsearch, hwaiting⟩ := h
  cases hadvances with
  | found hround =>
    obtain ⟨-, found, -, rfl⟩ := round_eq_found hround
    exact ⟨hsearch, hwaiting⟩
  | again hround =>
    rcases round_eq_again hround with
      ⟨task, tasks, htasks, rfl⟩ | ⟨pending, outer, rest, hrest, -, rfl⟩
    · have hleft : ∀ task ∈ tasks, task.Leaving := by
        intro task' htask'
        apply hsearch
        rw [htasks]
        exact .tail _ htask'
      have hrest : Leaving { machine with search.tasks := tasks } := ⟨hleft, hwaiting⟩
      exact hrest.perform task
    · rw [hrest] at hwaiting
      refine ⟨fun task htask => ?_, fun w hw => hwaiting w (.tail _ hw)⟩
      exact leaving_of_mem_enter (hwaiting (pending, outer) (.head _)) htask

theorem leaving_start {reference : Occurrence} (h : start? q reference = .ok machine) :
    machine.Leaving := by
  unfold start? at h
  split at h
  · cases h
  · cases h
    exact ⟨fun task htask => leaving_of_mem_start htask, fun w hw => by cases hw⟩

/-- Through all rounds of a search, its imports leave the ends of their paths. -/
theorem leaving_of_rounds {reference : Occurrence} (hstart : start? q reference = .ok machine)
    (h : Relation.ReflTransGen Advances machine next) : next.Leaving := by
  induction h with
  | refl => exact leaving_start hstart
  | tail _ hlast ih => exact ih.advance hlast

/-- When an import is to be followed, it is a reference of the scope where its path ends. -/
theorem scopeOf?_of_follow (hgraph : q.graph.Consistent) {reference : Occurrence}
    (hstart : start? q reference = .ok machine)
    (h : Relation.ReflTransGen Advances machine next) {pending : Pending q}
    (hpending : .follow pending ∈ next.search.tasks) :
    q.graph.scopeOf? pending.reference = some pending.path.target := by
  have himport : pending.reference ∈ q.graph.importsFrom pending.path.target pending.label :=
    (leaving_of_rounds hstart h).1 _ hpending
  exact hgraph.scopeOf?_iff.mpr (hgraph.import_reference himport)

end Rounds

end Machine

namespace ScopeGraph

/-- In every version of a graph that is built from the empty one, the tables agree; all occurrences
that were returned on the way are different; a direct edge is counted once, and an import as often
as it was added; and a search always knows the scope of an import that it is to follow. -/
theorem versions_consistent (revisions : List (Revision (Operation L))) :
    let traces := Revision.performAll Trace.perform Trace.empty revisions
    traces.map Trace.graph =
        Revision.performAll (fun graph operation => (operation.perform graph).2) empty revisions ∧
      traces.map Trace.operations = Revision.histories revisions ∧
      ∀ trace ∈ traces,
        trace.graph.Consistent ∧
        trace.occurrences.Nodup ∧
        trace.graph.edgeCount =
          (trace.operations.filterMap Operation.edge?).toFinset.card +
            trace.operations.countP Operation.isImport ∧
        ∀ (q : Query L) (reference : Occurrence) (start machine : Machine q)
          (pending : Machine.Pending q), q.graph = trace.graph →
          Machine.start? q reference = .ok start →
          Relation.ReflTransGen Machine.Advances start machine →
          .follow pending ∈ machine.search.tasks →
            q.graph.scopeOf? pending.reference = some pending.path.target := by
  refine ⟨Revision.map_performAll _ (fun _ _ => rfl) rfl revisions,
    Revision.map_performAll _ (fun _ _ => rfl) rfl revisions, fun trace htrace => ?_⟩
  have haccurate : trace.Accurate :=
    Revision.invariant_performAll (fun trace operation h => h.perform operation)
      Trace.accurate_empty revisions trace htrace
  have hconsistent := haccurate.consistent
  refine ⟨hconsistent, haccurate.nodup_occurrences, haccurate.edgeCount_eq, ?_⟩
  intro q reference start machine pending hgraph hstart hrounds hpending
  rw [← hgraph] at hconsistent
  exact Machine.scopeOf?_of_follow hconsistent hstart hrounds hpending

end ScopeGraph

end NameResolution

import Mathlib.Logic.Hydra
import Mathlib.Tactic.Abel
import NameResolution.Proofs.Resolution.Rounds

namespace NameResolution

variable {L : Type} [DecidableEq L] [Label L] {q : Query L}

namespace Machine

/-- An item of work is the less, the more references are active; then, the more scopes are on its
path; then, the further the path has been dealt with. -/
def Less : Nat × Nat × Nat → Nat × Nat × Nat → Prop :=
  Prod.Lex (· < ·) (Prod.Lex (· < ·) (· < ·))

theorem wellFounded_less : WellFounded Less :=
  WellFounded.prod_lex Nat.lt_wfRel.wf (WellFounded.prod_lex Nat.lt_wfRel.wf Nat.lt_wfRel.wf)

def weight (graph : ScopeGraph L) (active : SortedSet Occurrence) (path : ReferencePath L)
    (stage : Nat) : Nat × Nat × Nat :=
  (graph.inactive active, graph.unvisited path.scopes, stage)

/-- A path is expanded first; then its imports are followed, and then they are waited for. -/
def Task.weight (active : SortedSet Occurrence) : Task q → Nat × Nat × Nat
  | .expand path _ => Machine.weight q.graph active path 2
  | .follow pending => Machine.weight q.graph active pending.path 1

def Pending.weight (active : SortedSet Occurrence) (pending : Pending q) : Nat × Nat × Nat :=
  Machine.weight q.graph active pending.path 0

def weights (active : SortedSet Occurrence) (tasks : List (Task q)) : Multiset (Nat × Nat × Nat) :=
  tasks.map (Task.weight active)

def waitingWork : List (Pending q × Search q) → Multiset (Nat × Nat × Nat)
  | [] => 0
  | (pending, outer) :: waiting =>
    {pending.weight outer.key.active} + weights outer.key.active outer.tasks + waitingWork waiting

def work (machine : Machine q) : Multiset (Nat × Nat × Nat) :=
  weights machine.search.key.active machine.search.tasks + waitingWork machine.waiting

section Weights

variable {active : SortedSet Occurrence} {path path' : ReferencePath L} {m : Matcher q.automaton}

theorem weights_nil : weights active ([] : List (Task q)) = 0 := rfl

theorem weights_append {tasks tasks' : List (Task q)} :
    weights active (tasks ++ tasks') = weights active tasks + weights active tasks' := by
  simp [weights]

theorem weights_cons {task : Task q} {tasks : List (Task q)} :
    weights active (task :: tasks) = {task.weight active} + weights active tasks := by
  simp [weights]

theorem less_of_mem_weights {tasks : List (Task q)} {bound : Nat × Nat × Nat}
    (h : ∀ task ∈ tasks, Less (task.weight active) bound) :
    ∀ w ∈ weights active tasks, Less w bound := by
  intro w hw
  obtain ⟨task, htask, rfl⟩ := List.mem_map.mp (Multiset.mem_coe.mp hw)
  exact h task htask

/-- Going on to a scope off the path makes less work, whatever the stages are. -/
theorem less_of_join {graph : ScopeGraph L} {step : ScopePath L}
    (h : path.join step = .ok path') (hmem : step.target ∈ graph.targets)
    (hnew : step.target ∉ path.scopes) {stage stage' : Nat} :
    Less (weight graph active path' stage') (weight graph active path stage) :=
  .right _ (.left _ _ (ScopeGraph.unvisited_lt_of_join hmem h hnew))

theorem less_of_mem_along {step : ScopePath L} (hmem : step.target ∈ q.graph.targets)
    (hnew : ∀ path', path.join step = .ok path' → step.target ∉ path.scopes) {stage : Nat} :
    ∀ task ∈ Task.along path m step,
      Less (task.weight active) (weight q.graph active path stage) := by
  intro task htask
  unfold Task.along at htask
  cases hjoin : path.join step with
  | error e =>
    rw [hjoin] at htask
    cases htask
  | ok path' =>
    rw [hjoin] at htask
    obtain rfl := List.mem_singleton.mp htask
    exact less_of_join hjoin hmem (hnew path' hjoin)

theorem less_of_mem_stepping {branch : L × Matcher q.automaton} :
    ∀ task ∈ Task.stepping path branch,
      Less (task.weight active) (weight q.graph active path 2) := by
  intro task htask
  unfold Task.stepping at htask
  split at htask
  · cases htask
  rcases List.mem_append.mp htask with hedge | himport
  · obtain ⟨target, htarget, htask⟩ := List.mem_flatMap.mp hedge
    exact less_of_mem_along (ScopeGraph.mem_targets_of_edge htarget)
      (fun _ => Path.target_not_mem_of_join_edge) task htask
  · -- an import is followed from the end of the same path
    obtain ⟨reference, -, rfl⟩ := List.mem_map.mp himport
    exact .right _ (.right _ (by decide))

theorem less_of_mem_tasks {pending : Pending q} {resolutions : List (ResolutionPath L)}
    {stage : Nat} :
    ∀ task ∈ pending.tasks resolutions,
      Less (task.weight active) (weight q.graph active pending.path stage) := by
  intro task htask
  obtain ⟨resolution, -, htask⟩ := List.mem_flatMap.mp htask
  obtain ⟨target, htarget, htask⟩ := List.mem_flatMap.mp htask
  exact less_of_mem_along (ScopeGraph.mem_targets_of_association htarget)
    (fun _ => Path.target_not_mem_of_join_named) task htask

/-- The search for an import has one more active reference than the search that waits for it. -/
theorem less_of_import {reference : Occurrence} {scope : Scope} {stage stage' : Nat}
    (hactive : reference ∉ active) (hscope : q.graph.scopeOf? reference = some scope) :
    Less (weight q.graph ((active.union path.references).insert reference)
      (.ofReference reference scope) stage') (weight q.graph active path stage) := by
  apply Prod.Lex.left
  apply ScopeGraph.inactive_lt hscope hactive (by simp)
  intro o ho
  simp [ho]

end Weights

variable {machine next rest rest' : Machine q} {outcome outcome' : Option (ResolutionPath L)}

/-- To follow an import brings about less work than there was in it. -/
theorem work_follow (machine : Machine q) (pending : Pending q) :
    ∃ added, (∀ w ∈ added, Less w ((Task.follow pending).weight machine.search.key.active)) ∧
      (machine.follow pending).work = machine.work + added := by
  unfold follow
  split
  · exact ⟨0, by simp, by simp⟩
  split
  · exact ⟨0, by simp, by simp [work]⟩
  next hactive =>
  split
  · exact ⟨0, by simp, by simp⟩
  next scope hscope =>
  dsimp only
  split
  · next resolved _ =>
    refine ⟨weights machine.search.key.active (pending.tasks resolved.resolutions), ?_, ?_⟩
    · exact less_of_mem_weights less_of_mem_tasks
    · simp only [work, Search.enter, weights_append]
      abel
  · -- the search for the import, and the search that waits for it
    let key : ImportKey :=
      ⟨pending.reference, machine.search.key.active.union pending.path.references⟩
    refine ⟨{weight q.graph key.active (.ofReference pending.reference scope) 2} +
      {pending.weight machine.search.key.active}, ?_, ?_⟩
    · intro w hw
      rcases Multiset.mem_add.mp hw with hw | hw
      · obtain rfl := Multiset.mem_singleton.mp hw
        exact less_of_import hactive hscope
      · obtain rfl := Multiset.mem_singleton.mp hw
        exact .right _ (.right _ (by decide))
    · simp only [work, waitingWork, Search.start, weights_cons, weights_nil, Task.weight]
      abel

/-- To perform a task brings about less work than there was in it. -/
theorem work_perform (machine : Machine q) (task : Task q) :
    ∃ added, (∀ w ∈ added, Less w (task.weight machine.search.key.active)) ∧
      (machine.perform task).work = machine.work + added := by
  cases task with
  | expand path m =>
    simp only [perform, Search.expand]
    split
    · exact ⟨0, by simp, by simp⟩
    · refine ⟨weights machine.search.key.active (m.branches.flatMap (Task.stepping path)), ?_, ?_⟩
      · apply less_of_mem_weights
        intro task htask
        obtain ⟨branch, -, htask⟩ := List.mem_flatMap.mp htask
        exact less_of_mem_stepping task htask
      · simp only [work, weights_append]
        abel
  | follow pending => exact work_follow machine pending

/-- A round puts smaller items of work in the place of one. -/
theorem cutExpand_round (h : machine.round = .again next) :
    Relation.CutExpand Less next.work machine.work := by
  obtain ⟨⟨key, blocked, tasks, found⟩, waiting, table⟩ := machine
  rcases round_eq_again h with ⟨task, tasks, rfl, rfl⟩ | ⟨pending, outer, waiting, rfl, rfl, rfl⟩
  · obtain ⟨added, hless, hwork⟩ :=
      work_perform ⟨⟨key, blocked, tasks, found⟩, waiting, table⟩ task
    refine ⟨added, task.weight key.active, hless, ?_⟩
    rw [hwork]
    simp only [work, weights_cons]
    abel
  · refine ⟨weights outer.key.active (pending.tasks found), pending.weight outer.key.active, ?_, ?_⟩
    · exact less_of_mem_weights less_of_mem_tasks
    · simp only [work, waitingWork, Search.enter, Search.outcome, weights_append, weights_nil]
      abel

/-- There is no endless sequence of rounds. -/
theorem wellFounded_round :
    WellFounded fun next machine : Machine q => machine.round = .again next :=
  Subrelation.wf cutExpand_round (InvImage.wf work wellFounded_less.cutExpand)

/-- A call returns the first resolution that is still to be found, if there is one, and leaves the
others to be found. -/
theorem exists_returns (machine : Machine q) :
    ∃ rest, machine.Returns machine.remaining.toList.head? rest ∧
      rest.remaining.toList = machine.remaining.toList.tail := by
  -- on the rounds: a round without a result leads to a machine with less work
  induction machine using wellFounded_round.induction with
  | _ machine ih =>
    cases hround : machine.round with
    | found r rest =>
      rw [remaining_of_found hround]
      exact ⟨rest, .found hround, rfl⟩
    | exhausted =>
      have hdone := remaining_of_exhausted hround
      refine ⟨machine, ?_, ?_⟩
      · rw [hdone]
        exact .exhausted hround
      · rw [hdone]
        rfl
    | again next =>
      obtain ⟨rest, hreturns, hrest⟩ := ih next hround
      rw [remaining_of_again hround]
      exact ⟨rest, .again hround hreturns, hrest⟩

theorem Returns.unique (h : machine.Returns outcome rest) (h' : machine.Returns outcome' rest') :
    outcome = outcome' ∧ rest = rest' := by
  induction h with
  | found hround =>
    cases h' with
    | found hround' =>
      cases hround.symm.trans hround'
      exact ⟨rfl, rfl⟩
    | exhausted hround' => cases hround.symm.trans hround'
    | again hround' _ => cases hround.symm.trans hround'
  | exhausted hround =>
    cases h' with
    | found hround' => cases hround.symm.trans hround'
    | exhausted => exact ⟨rfl, rfl⟩
    | again hround' _ => cases hround.symm.trans hround'
  | again hround _ ih =>
    cases h' with
    | found hround' => cases hround.symm.trans hround'
    | exhausted hround' => cases hround.symm.trans hround'
    | again hround' hnext =>
      cases hround.symm.trans hround'
      exact ih hnext

/-- Each call takes one resolution from what is to be found. -/
theorem Calls.remaining_eq_drop {start : Machine q}
    {outcomes : List (Option (ResolutionPath L))} (h : start.Calls outcomes machine) :
    machine.remaining.toList = start.remaining.toList.drop outcomes.length := by
  induction h with
  | none => rfl
  | @another machine rest outcomes outcome _ hreturns ih =>
    obtain ⟨rest', hreturns', hrest⟩ := exists_returns machine
    obtain ⟨-, rfl⟩ := hreturns.unique hreturns'
    rw [hrest, ih, List.tail_drop, List.length_append, List.length_singleton]

end Machine

namespace Query

/-- Whatever calls have been made, a further call returns: the next resolution in the order of the
search, and none once all of them have been returned. -/
theorem resolve_terminates (q : Query L) {reference : Occurrence} {start : Machine q}
    (hstart : Machine.start? q reference = .ok start) :
    ∃ found, q.resolve? reference = .ok found ∧
      ∀ outcomes machine, start.Calls outcomes machine →
        (∃ rest, machine.Returns found.toList[outcomes.length]? rest) ∧
          ∀ outcome rest, machine.Returns outcome rest →
            outcome = found.toList[outcomes.length]? ∧
              (found.toList.length ≤ outcomes.length → outcome = none) := by
  refine ⟨start.remaining, Machine.resolve?_of_start? hstart, ?_⟩
  intro outcomes machine hcalls
  obtain ⟨rest, hreturns, -⟩ := machine.exists_returns
  rw [hcalls.remaining_eq_drop, List.head?_drop] at hreturns
  refine ⟨⟨rest, hreturns⟩, ?_⟩
  intro outcome rest' hreturns'
  obtain ⟨houtcome, -⟩ := hreturns'.unique hreturns
  refine ⟨houtcome, ?_⟩
  intro hall
  rw [houtcome, List.getElem?_eq_none hall]

/-- Two modules that import each other, with edges from each of them to the scope that declares both
and back, where every word of labels leads to declarations. -/
def mutualImports : Query EdgeLabel where
  graph :=
    let graph := ((ScopeGraph.empty.declare ⟨0⟩ "A").2.associate ⟨"A", 0⟩ ⟨1⟩).declare ⟨0⟩ "B"
    let graph := graph.2.associate ⟨"B", 1⟩ ⟨2⟩
    let graph := (graph.connect ⟨1⟩ .lexical ⟨0⟩).connect ⟨2⟩ .lexical ⟨0⟩
    let graph := (graph.connect ⟨0⟩ .lexical ⟨1⟩).connect ⟨0⟩ .lexical ⟨2⟩
    let graph := (graph.importName ⟨1⟩ .importing "B").2.importName ⟨2⟩ .importing "A"
    ((graph.2.declare ⟨2⟩ "x").2.refer ⟨1⟩ "x").2
  automaton :=
    Regex.compile (.star (.or (.symbol .lexical) (.symbol .importing))) Label.alphabet (by decide)
  start := Automaton.start _
  fits := Occurrence.sameName

/-- A second call, whatever the first one has returned. -/
theorem resolve_terminates_mutualImports :
    ∃ start found, Machine.start? mutualImports ⟨"x", 5⟩ = .ok start ∧
      mutualImports.resolve? ⟨"x", 5⟩ = .ok found ∧
        ∃ rest, start.Returns found.toList[0]? rest ∧
          ∃ rest', rest.Returns found.toList[1]? rest' := by
  obtain ⟨start, hstart⟩ : ∃ start, Machine.start? mutualImports ⟨"x", 5⟩ = .ok start := ⟨_, rfl⟩
  obtain ⟨found, hresolve, hcalls⟩ := resolve_terminates mutualImports hstart
  obtain ⟨⟨rest, hreturns⟩, -⟩ := hcalls [] start (.none start)
  obtain ⟨hreturns', -⟩ := hcalls _ rest ((Machine.Calls.none start).another hreturns)
  exact ⟨start, found, hstart, hresolve, rest, hreturns, hreturns'⟩

end Query

end NameResolution

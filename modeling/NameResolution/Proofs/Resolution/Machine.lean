import NameResolution.Proofs.Resolution.Stepwise

namespace NameResolution

variable {L : Type} [DecidableEq L] [Label L]

/-- What the imports in a search must not go through: its own reference and the excluded ones. -/
def ImportKey.active (key : ImportKey) : SortedSet Occurrence := key.excluded.insert key.reference

namespace Machine

structure Pending (q : Query L) where
  path : ReferencePath L
  label : L
  matcher : Matcher q.automaton
  reference : Occurrence

inductive Task (q : Query L) where
  | expand (path : ReferencePath L) (matcher : Matcher q.automaton)
  | follow (pending : Pending q)

structure Search (q : Query L) where
  key : ImportKey
  /-- The active references that the search, or one nested in it, could not go through. -/
  blocked : SortedSet Occurrence
  tasks : List (Task q)
  found : List (ResolutionPath L)

end Machine

/-- The search that runs, the searches that wait for it with the imports that they have reached, and
what is known about imports. -/
structure Machine (q : Query L) where
  search : Machine.Search q
  waiting : List (Machine.Pending q × Machine.Search q)
  table : ImportTable L

namespace Machine

variable {q : Query L}

def Task.along (path : ReferencePath L) (m : Matcher q.automaton) (step : ScopePath L) :
    List (Task q) :=
  match path.join step with
  | .error _ => []
  | .ok path' => [.expand path' m]

def Task.stepping (path : ReferencePath L) (branch : L × Matcher q.automaton) : List (Task q) :=
  if branch.2.stuck then [] else
  (q.graph.edgesFrom path.target branch.1).toList.flatMap
      (fun target => Task.along path branch.2 (.edge path.target branch.1 target)) ++
    (q.graph.importsFrom path.target branch.1).toList.map fun reference =>
      .follow ⟨path, branch.1, branch.2, reference⟩

def Pending.tasks (pending : Pending q) (resolutions : List (ResolutionPath L)) : List (Task q) :=
  resolutions.flatMap fun resolution =>
    (q.graph.associatedWith resolution.stop).toList.flatMap fun target =>
      Task.along pending.path pending.matcher
        (.named pending.path.target pending.label resolution target)

namespace Search

def start (q : Query L) (key : ImportKey) (scope : Scope) : Search q :=
  ⟨key, .empty, [.expand (.ofReference key.reference scope) q.start], []⟩

def expand (s : Search q) (path : ReferencePath L) (m : Matcher q.automaton) : Search q :=
  if m.stuck then s
  else { s with
    tasks := m.branches.flatMap (Task.stepping path) ++ s.tasks
    found := s.found ++ q.endings path m }

def enter (s : Search q) (pending : Pending q) (resolved : ResolvedImport L) : Search q :=
  { s with
    blocked := s.blocked.union resolved.blocked
    tasks := pending.tasks resolved.resolutions ++ s.tasks }

def outcome (s : Search q) : ResolvedImport L := ⟨s.found, s.blocked.filter (· ∈ s.key.excluded)⟩

end Search

/-- Goes through an import: by its outcome if the table has one, or else by a search for it. -/
def follow (machine : Machine q) (pending : Pending q) : Machine q :=
  if pending.reference ∈ pending.path.references then machine
  else if pending.reference ∈ machine.search.key.active then
    { machine with
      search.blocked := machine.search.blocked.insert pending.reference }
  else
    match q.graph.scopeOf? pending.reference with
    | none => machine
    | some scope =>
      let key : ImportKey :=
        ⟨pending.reference, machine.search.key.active.union pending.path.references⟩
      match machine.table.get? key with
      | some resolved => { machine with search := machine.search.enter pending resolved }
      | none =>
        { machine with
          search := .start q key scope
          waiting := (pending, machine.search) :: machine.waiting }

def perform (machine : Machine q) : Task q → Machine q
  | .expand path m => { machine with search := machine.search.expand path m }
  | .follow pending => machine.follow pending

inductive Round (q : Query L) where
  | found (r : ResolutionPath L) (rest : Machine q)
  | exhausted
  | again (next : Machine q)

/-- Hands out what the queried search has found, or else performs the next task of the search that
runs. When this has none left, its outcome is kept and the search that waits for it goes on. -/
def round (machine : Machine q) : Round q :=
  match machine.waiting with
  | [] =>
    match machine.search.found with
    | r :: found => .found r { machine with search.found := found }
    | [] =>
      match machine.search.tasks with
      | task :: tasks => .again ({ machine with search.tasks := tasks }.perform task)
      | [] => .exhausted
  | (pending, outer) :: waiting =>
    match machine.search.tasks with
    | task :: tasks => .again ({ machine with search.tasks := tasks }.perform task)
    -- the search for an import has ended, and the one that waits for it goes on
    | [] => .again
      { search := outer.enter pending machine.search.outcome
        waiting := waiting
        table := machine.table.insert machine.search.key machine.search.outcome }

section Round

variable {machine next rest : Machine q} {r : ResolutionPath L}

theorem round_eq_found (h : machine.round = .found r rest) :
    machine.waiting = [] ∧ ∃ found, machine.search.found = r :: found ∧
      rest = { machine with search.found := found } := by
  unfold round at h
  split at h
  · next hwaiting =>
    split at h
    · next r' found hfound =>
      cases h
      exact ⟨hwaiting, found, hfound, rfl⟩
    · split at h <;> cases h
  · split at h <;> cases h

theorem round_eq_exhausted (h : machine.round = .exhausted) :
    machine.waiting = [] ∧ machine.search.found = [] ∧ machine.search.tasks = [] := by
  unfold round at h
  split at h
  · next hwaiting =>
    split at h
    · cases h
    · next hfound =>
      split at h
      · cases h
      · next htasks => exact ⟨hwaiting, hfound, htasks⟩
  · split at h <;> cases h

/-- A round that is not the last performs a task, or goes back to a search that waits. -/
theorem round_eq_again (h : machine.round = .again next) :
    (∃ task tasks, machine.search.tasks = task :: tasks ∧
      next = ({ machine with search.tasks := tasks } : Machine q).perform task) ∨
    ∃ pending outer waiting, machine.waiting = (pending, outer) :: waiting ∧
      machine.search.tasks = [] ∧ next =
        { search := outer.enter pending machine.search.outcome
          waiting := waiting
          table := machine.table.insert machine.search.key machine.search.outcome } := by
  unfold round at h
  split at h
  · split at h
    · cases h
    · split at h
      · next task tasks htasks =>
        cases h
        exact .inl ⟨task, tasks, htasks, rfl⟩
      · cases h
  · next pending outer waiting hwaiting =>
    split at h
    · next task tasks htasks =>
      cases h
      exact .inl ⟨task, tasks, htasks, rfl⟩
    · next htasks =>
      cases h
      exact .inr ⟨pending, outer, waiting, hwaiting, htasks, rfl⟩

end Round

/-- A call goes through rounds until there is a resolution or nothing is left to do. -/
inductive Returns : Machine q → Option (ResolutionPath L) → Machine q → Prop
  | found {machine rest : Machine q} {r : ResolutionPath L} (h : machine.round = .found r rest) :
    Returns machine (some r) rest
  | exhausted {machine : Machine q} (h : machine.round = .exhausted) : Returns machine none machine
  | again {machine next rest : Machine q} {outcome : Option (ResolutionPath L)}
    (h : machine.round = .again next) (hnext : Returns next outcome rest) :
    Returns machine outcome rest

inductive Calls : Machine q → List (Option (ResolutionPath L)) → Machine q → Prop
  | none (machine : Machine q) : Calls machine [] machine
  | another {start machine rest : Machine q} {outcomes : List (Option (ResolutionPath L))}
    {outcome : Option (ResolutionPath L)} (h : Calls start outcomes machine)
    (hreturns : Returns machine outcome rest) : Calls start (outcomes ++ [outcome]) rest

def start? (q : Query L) (reference : Occurrence) : Except Query.UnknownReference (Machine q) :=
  match q.graph.scopeOf? reference with
  | none => .error ⟨reference⟩
  | some scope => .ok ⟨.start q ⟨reference, .empty⟩ scope, [], .empty⟩

end Machine

end NameResolution

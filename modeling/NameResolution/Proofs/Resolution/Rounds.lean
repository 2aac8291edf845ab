import NameResolution.Proofs.Resolution.Machine

namespace NameResolution

variable {L : Type} [DecidableEq L] [Label L] {q : Query L}

namespace Machine

def Task.search (active : SortedSet Occurrence) :
    Task q → Progress L → Enumeration (Progress L) (ResolutionPath L)
  | .expand path m => q.searchBy ImportTable.get? active path m
  | .follow pending => q.searchImporting ImportTable.get? active pending.path pending.label
      pending.matcher pending.reference

def Search.remaining (s : Search q) (table : ImportTable L) :
    Enumeration (Progress L) (ResolutionPath L) :=
  (Enumeration.ofList s.found ⟨table, s.blocked⟩).andThen (.each s.tasks (Task.search s.key.active))

/-- What the queried search has still to find: what waits goes on with the outcome of what runs. -/
def remainingAfter :
    List (Pending q × Search q) → Search q → ImportTable L →
      Enumeration (Progress L) (ResolutionPath L)
  | [], s, table => s.remaining table
  | (pending, outer) :: waiting, s, table =>
    let (resolved, table) := ImportTable.record s.key (s.remaining table)
    remainingAfter waiting (outer.enter pending resolved) table

def remaining (machine : Machine q) : Enumeration (Progress L) (ResolutionPath L) :=
  remainingAfter machine.waiting machine.search machine.table

section Tasks

variable {active : SortedSet Occurrence} {path : ReferencePath L} {m : Matcher q.automaton}

theorem each_along {step : ScopePath L} :
    Enumeration.each (Task.along path m step) (Task.search active) =
      q.searchAlong ImportTable.get? active path m step := by
  funext progress
  unfold Task.along Query.searchAlong
  cases path.join step with
  | error e => rfl
  | ok path' => exact congrFun Enumeration.each_singleton progress

theorem each_stepping {branch : L × Matcher q.automaton} :
    Enumeration.each (Task.stepping path branch) (Task.search active) =
      q.searchStepping ImportTable.get? active path branch := by
  funext progress
  unfold Task.stepping Query.searchStepping
  split
  · rfl
  · simp only [Enumeration.each_append, Enumeration.each_flatMap, Enumeration.each_map, each_along]
    rfl

theorem each_tasks {pending : Pending q} {resolutions : List (ResolutionPath L)} :
    Enumeration.each (pending.tasks resolutions) (Task.search active) =
      .each resolutions (q.searchThrough ImportTable.get? active pending.path pending.label
        pending.matcher) := by
  unfold Pending.tasks Query.searchThrough
  simp only [Enumeration.each_flatMap, each_along]

end Tasks

section Search

variable {s s' : Search q} {table table' : ImportTable L}

theorem remaining_expand {path : ReferencePath L} {m : Matcher q.automaton} :
    (s.expand path m).remaining table =
      ({ s with tasks := .expand path m :: s.tasks } : Search q).remaining table := by
  unfold Search.remaining Search.expand
  simp only [Enumeration.each_cons, Task.search, q.searchBy_eq]
  split
  · rfl
  · simp only [Enumeration.ofList_append, Enumeration.each_append, Enumeration.each_flatMap,
      Enumeration.andThen_assoc, each_stepping]

theorem remaining_start (key : ImportKey) (scope : Scope) (table : ImportTable L) :
    (Search.start q key scope).remaining table =
      q.searchImport ImportTable.get? key scope table := by
  exact congrFun Enumeration.each_singleton (Progress.mk table .empty)

/-- To go on with the outcome of an import is what the search does once it is resolved. -/
theorem remaining_enter (table : ImportTable L) {pending : Pending q} {scope : Scope}
    {key : ImportKey} (hkey : key = ⟨pending.reference, s.key.active.union pending.path.references⟩)
    (hpath : pending.reference ∉ pending.path.references)
    (hactive : pending.reference ∉ s.key.active)
    (hscope : q.graph.scopeOf? pending.reference = some scope) :
    (s.enter pending (q.resolveImport ImportTable.get? key scope table).1).remaining
        (q.resolveImport ImportTable.get? key scope table).2 =
      ({ s with tasks := .follow pending :: s.tasks } : Search q).remaining table := by
  subst hkey
  unfold Search.remaining Search.enter
  apply Enumeration.ofList_andThen_congr
  simp only [Enumeration.each_append, Enumeration.each_cons, each_tasks, Task.search]
  unfold Query.searchImporting
  rw [if_neg hpath, if_neg hactive, hscope]

theorem remaining_skip {pending : Pending q}
    (h : q.searchImporting ImportTable.get? s.key.active pending.path pending.label pending.matcher
      pending.reference ⟨table, s.blocked⟩ = .done ⟨table, s'.blocked⟩)
    (hkey : s'.key = s.key) (htasks : s'.tasks = s.tasks) (hfound : s'.found = s.found) :
    s'.remaining table =
      ({ s with tasks := .follow pending :: s.tasks } : Search q).remaining table := by
  unfold Search.remaining
  rw [hkey, htasks, hfound]
  apply Enumeration.ofList_andThen_congr
  simp only [Enumeration.each_cons, Task.search, h, Enumeration.done_andThen]

end Search

section Machine

variable {machine next rest : Machine q} {r : ResolutionPath L}

theorem remainingAfter_congr {waiting : List (Pending q × Search q)} {s s' : Search q}
    {table table' : ImportTable L} (hkey : s.key = s'.key)
    (h : s.remaining table = s'.remaining table') :
    remainingAfter waiting s table = remainingAfter waiting s' table' := by
  cases waiting with
  | nil => exact h
  | cons w waiting => simp only [remainingAfter, hkey, h]

theorem remaining_follow {pending : Pending q} :
    (machine.follow pending).remaining =
      remainingAfter machine.waiting
        { machine.search with tasks := .follow pending :: machine.search.tasks } machine.table := by
  unfold follow
  split
  · next hpath =>
    refine remainingAfter_congr rfl (remaining_skip ?_ rfl rfl rfl)
    rw [Query.searchImporting, if_pos hpath]
  next hpath =>
  split
  · next hactive =>
    refine remainingAfter_congr rfl (remaining_skip ?_ rfl rfl rfl)
    rw [Query.searchImporting, if_neg hpath, if_pos hactive]
  next hactive =>
  split
  · next hscope =>
    refine remainingAfter_congr rfl (remaining_skip ?_ rfl rfl rfl)
    rw [Query.searchImporting, if_neg hpath, if_neg hactive, hscope]
  next scope hscope =>
  have henter := remaining_enter machine.table rfl hpath hactive hscope
  unfold Query.resolveImport at henter
  dsimp only
  split
  · next resolved hget =>
    rw [hget] at henter
    exact remainingAfter_congr rfl henter
  · next hget =>
    -- the new search ends in the outcome that is recorded, and the one that waits enters it
    rw [hget] at henter
    simp only [remaining, remainingAfter, remaining_start]
    exact remainingAfter_congr rfl henter

theorem remaining_perform (machine : Machine q) (task : Task q) :
    (machine.perform task).remaining =
      remainingAfter machine.waiting
        { machine.search with tasks := task :: machine.search.tasks } machine.table := by
  cases task with
  | expand path m =>
    have hkey : (machine.search.expand path m).key = machine.search.key := by
      unfold Search.expand
      split <;> rfl
    exact remainingAfter_congr hkey remaining_expand
  | follow pending => exact remaining_follow

/-- The outcome of a search without tasks is what it has found. -/
theorem record_remaining {s : Search q} {table : ImportTable L} (h : s.tasks = []) :
    ImportTable.record s.key (s.remaining table) =
      (s.outcome, table.insert s.key s.outcome) := by
  have htoList : (s.remaining table).toList = s.found := by simp [Search.remaining, h]
  have hfinal : (s.remaining table).final = ⟨table, s.blocked⟩ := by simp [Search.remaining, h]
  have hcollect : (s.remaining table).collect = (s.found, ⟨table, s.blocked⟩) :=
    Prod.ext htoList hfinal
  rw [ImportTable.record, hcollect]
  rfl

theorem remaining_of_found (h : machine.round = .found r rest) :
    machine.remaining = .found r fun _ => rest.remaining := by
  obtain ⟨⟨key, blocked, tasks, found⟩, waiting, table⟩ := machine
  obtain ⟨rfl, found', rfl, rfl⟩ := round_eq_found h
  rfl

theorem remaining_of_exhausted (h : machine.round = .exhausted) :
    machine.remaining = .done ⟨machine.table, machine.search.blocked⟩ := by
  obtain ⟨⟨key, blocked, tasks, found⟩, waiting, table⟩ := machine
  obtain ⟨rfl, rfl, rfl⟩ := round_eq_exhausted h
  rfl

/-- A round without a resolution leaves what is still to be found as it is. -/
theorem remaining_of_again (h : machine.round = .again next) :
    machine.remaining = next.remaining := by
  obtain ⟨⟨key, blocked, tasks, found⟩, waiting, table⟩ := machine
  rcases round_eq_again h with ⟨task, tasks, rfl, rfl⟩ | ⟨pending, outer, waiting, rfl, rfl, rfl⟩
  · exact (remaining_perform ⟨⟨key, blocked, tasks, found⟩, waiting, table⟩ task).symm
  · exact congrArg (fun outcome => remainingAfter waiting (outer.enter pending outcome.1) outcome.2)
      (record_remaining (s := ⟨key, blocked, [], found⟩) rfl)

/-- A machine has to find at the start what the search finds. -/
theorem resolve?_of_start? {reference : Occurrence} {start : Machine q}
    (h : start? q reference = .ok start) : q.resolve? reference = .ok start.remaining := by
  cases hscope : q.graph.scopeOf? reference with
  | none =>
    rw [start?, hscope] at h
    cases h
  | some scope =>
    rw [start?, hscope] at h
    obtain rfl := Except.ok.inj h
    rw [Query.resolve?, Query.resolveBy?, hscope]
    exact congrArg Except.ok (remaining_start ⟨reference, .empty⟩ scope .empty).symm

end Machine

end Machine

end NameResolution

import NameResolution.Proofs.Resolution.Completeness

namespace NameResolution

variable {L : Type} [DecidableEq L] [Label L]

namespace Query

/-- Every search for an import finds one resolution of it before another. -/
def FoundEarlier (q : Query L) (excluded : SortedSet Occurrence) (r r' : ResolutionPath L) : Prop :=
  ∃ scope, q.graph.scopeOf? r.start = some scope ∧ ∀ table, q.Reached table →
    [r, r'].Sublist (q.searchImport ImportTable.get? ⟨r.start, excluded⟩ scope table).toList

inductive TriedBefore (q : Query L) (active : SortedSet Occurrence) (path : ReferencePath L) :
    Step L → Step L → Prop
  | label {step step' : Step L}
    (h : q.automaton.alphabet.position step.label < q.automaton.alphabet.position step'.label) :
    TriedBefore q active path step step'
  | edgeFirst {source target target' : Scope} {label : L} {resolution : ResolutionPath L} :
    TriedBefore q active path (.edge source label target) (.named source label resolution target')
  | edgeTarget {source target target' : Scope} {label : L} (h : compare target target' = .lt) :
    TriedBefore q active path (.edge source label target) (.edge source label target')
  | reference {source target target' : Scope} {label : L}
    {resolution resolution' : ResolutionPath L}
    (h : compare resolution.start resolution'.start = .lt) :
    TriedBefore q active path (.named source label resolution target)
      (.named source label resolution' target')
  | resolution {source target target' : Scope} {label : L}
    {resolution resolution' : ResolutionPath L}
    (hstart : resolution.start = resolution'.start)
    (h : q.FoundEarlier (active.union path.references) resolution resolution') :
    TriedBefore q active path (.named source label resolution target)
      (.named source label resolution' target')
  | namedTarget {source target target' : Scope} {label : L} {resolution : ResolutionPath L}
    (h : compare target target' = .lt) :
    TriedBefore q active path (.named source label resolution target)
      (.named source label resolution target')

/-- The order of two resolutions that go on from a path. They have the `common` steps after it. -/
inductive FoundBefore (q : Query L) (active : SortedSet Occurrence) (path : ReferencePath L)
    (r r' : ResolutionPath L) : Prop
  | ending {common rest : List (Step L)} {next : Step L} (h : r.steps = path.steps ++ common)
    (h' : r'.steps = path.steps ++ common ++ next :: rest)
  | declaration (hsteps : r.steps = r'.steps) (h : compare r.stop r'.stop = .lt)
  | parting {common rest rest' : List (Step L)} {step step' : Step L}
    (h : r.steps = path.steps ++ common ++ step :: rest)
    (h' : r'.steps = path.steps ++ common ++ step' :: rest') (hne : (step == step') = false)
    (hbefore : q.TriedBefore active (path.afterAll common) step step')

variable {q : Query L} {active excluded : SortedSet Occurrence} {path : ReferencePath L}
  {m : Matcher q.automaton} {r r' : ResolutionPath L} {step step' : Step L}

/-- Two resolutions part after the path if they take different steps there. -/
theorem FoundBefore.of_isPrefix (hr : path.steps ++ [step] <+: r.steps)
    (hr' : path.steps ++ [step'] <+: r'.steps) (hne : (step == step') = false)
    (hbefore : q.TriedBefore active path step step') : q.FoundBefore active path r r' := by
  obtain ⟨rest, hrest⟩ := hr
  obtain ⟨rest', hrest'⟩ := hr'
  have h : r.steps = path.steps ++ [] ++ step :: rest := by simp [← hrest]
  have h' : r'.steps = path.steps ++ [] ++ step' :: rest' := by simp [← hrest']
  exact .parting h h' hne hbefore

/-- An order below a longer path is an order below the path. -/
theorem FoundBefore.of_after (h : q.FoundBefore active (path.after step) r r') :
    q.FoundBefore active path r r' := by
  have hsteps (common : List (Step L)) :
      (path.after step).steps ++ common = path.steps ++ (step :: common) := by
    simp [Path.after]
  cases h with
  | ending h h' =>
    rw [hsteps] at h h'
    exact .ending h h'
  | declaration hsteps h => exact .declaration hsteps h
  | parting h h' hne hbefore =>
    rw [hsteps] at h h'
    exact .parting h h' hne hbefore

theorem isPrefix_of_mem_along (step : Step L) (hsimple : path.Simple)
    (hr : r ∈ q.along active path m step.path) : path.steps ++ [step] <+: r.steps := by
  obtain ⟨-, hnew, hr⟩ := (mem_along_iff step hsimple).mp hr
  exact isPrefix_of_mem_continuations (hsimple.after hnew) hr

theorem isPrefix_of_mem_through (hsimple : path.Simple) {label : L} {resolution : ResolutionPath L}
    (hr : r ∈ q.through active path label m resolution) :
    ∃ target, path.steps ++ [.named path.target label resolution target] <+: r.steps := by
  obtain ⟨target, -, hr⟩ := List.mem_flatMap.mp hr
  exact ⟨target, isPrefix_of_mem_along (.named path.target label resolution target) hsimple hr⟩

theorem isPrefix_of_mem_importing (hsimple : path.Simple) {label : L} {reference : Occurrence}
    (hr : r ∈ q.importing active path label m reference) :
    ∃ resolution target, resolution.start = reference ∧
      path.steps ++ [.named path.target label resolution target] <+: r.steps := by
  obtain ⟨-, -, resolution, hresolution, target, -, hr⟩ := mem_importing_iff.mp hr
  exact ⟨resolution, target, start_of_mem_resolutions hresolution,
    isPrefix_of_mem_along (.named path.target label resolution target) hsimple hr⟩

theorem isPrefix_of_mem_stepping (hsimple : path.Simple) {label : L}
    (hr : r ∈ q.stepping active path (label, m)) :
    ∃ step, step.label = label ∧ path.steps ++ [step] <+: r.steps := by
  obtain ⟨-, step, hlabel, hnew, -, -, hr⟩ := (mem_stepping hsimple).mp hr
  exact ⟨step, hlabel, isPrefix_of_mem_continuations (hsimple.after hnew) hr⟩

theorem pairwise_endings (hsimple : path.Simple) :
    (q.endings path m).Pairwise (q.FoundBefore active path) := by
  unfold endings
  split
  · rw [List.pairwise_filterMap]
    apply (q.graph.declarationsOf path.target).ascending.imp
    intro d d' hlt r hr r' hr'
    rw [Path.join_ofDeclaration hsimple] at hr hr'
    split at hr
    · split at hr'
      · cases hr
        cases hr'
        exact .declaration rfl hlt
      · cases hr'
    · cases hr
  · exact .nil

theorem pairwise_along (step : Step L) (hsimple : path.Simple)
    (h : step.target ∉ path.scopes → (q.continuations active (path.after step) m).Pairwise
      (q.FoundBefore active (path.after step))) :
    (q.along active path m step.path).Pairwise (q.FoundBefore active path) := by
  cases hjoin : path.join step.path with
  | error e =>
    rw [along_error hjoin]
    exact .nil
  | ok path' =>
    obtain ⟨-, hnew, rfl⟩ := (Path.join_path_eq_ok_iff hsimple).mp hjoin
    rw [along_ok hjoin]
    exact (h hnew).imp FoundBefore.of_after

/-- Steps that differ in their targets only are tried in the order of these. -/
theorem pairwise_targets (hsimple : path.Simple) (step : Scope → Step L) (targets : SortedSet Scope)
    (hnext : ∀ target ∈ targets, (step target).target ∉ path.scopes →
      (q.continuations active (path.after (step target)) m).Pairwise
        (q.FoundBefore active (path.after (step target))))
    (hne : ∀ target target', (step target == step target') = true → target = target')
    (hbefore : ∀ target target', compare target target' = .lt →
      q.TriedBefore active path (step target) (step target')) :
    (targets.toList.flatMap fun target => q.along active path m (step target).path).Pairwise
      (q.FoundBefore active path) := by
  rw [List.pairwise_flatMap]
  constructor
  · intro target htarget
    exact pairwise_along (step target) hsimple (hnext target htarget)
  · apply targets.ascending.imp
    intro target target' hlt r hr r' hr'
    refine FoundBefore.of_isPrefix (isPrefix_of_mem_along (step target) hsimple hr)
      (isPrefix_of_mem_along (step target') hsimple hr') ?_ (hbefore target target' hlt)
    apply Bool.eq_false_iff.mpr
    intro hsame
    exact Multimap.ne_of_compare hlt (by simp) (hne target target' hsame)

/-- Resolutions that a search for an import finds one after the other are different. -/
theorem foundEarlier_of_sublist {reference : Occurrence} {resolution resolution' : ResolutionPath L}
    (h : [resolution, resolution'].Sublist (q.resolutions excluded reference)) :
    resolution.start = reference ∧ resolution'.start = reference ∧
      (resolution == resolution') = false ∧ q.FoundEarlier excluded resolution resolution' := by
  have hmem : resolution ∈ q.resolutions excluded reference := h.subset (by simp)
  have hmem' : resolution' ∈ q.resolutions excluded reference := h.subset (by simp)
  obtain rfl := start_of_mem_resolutions hmem
  refine ⟨rfl, start_of_mem_resolutions hmem', ?_, ?_⟩
  · apply Bool.eq_false_iff.mpr
    intro hbeq
    have heq : resolution = resolution' :=
      (resolves_of_mem_resolutions hmem).eq_of_beq (resolves_of_mem_resolutions hmem') hbeq
    have hnodup := nodup_resolutions.sublist h
    simp [heq] at hnodup
  · obtain ⟨scope, hscope, -⟩ := mem_resolutions_iff_exists.mp hmem
    refine ⟨scope, hscope, fun table htable => ?_⟩
    rw [toList_searchImport trusts_get? htable.sound hscope]
    exact h

theorem pairwise_through (hsimple : path.Simple) {label : L} {resolution : ResolutionPath L}
    (hnext : ∀ target ∈ q.graph.associatedWith resolution.stop, target ∉ path.scopes →
      (q.continuations active (path.after (.named path.target label resolution target)) m).Pairwise
        (q.FoundBefore active (path.after (.named path.target label resolution target)))) :
    (q.through active path label m resolution).Pairwise (q.FoundBefore active path) := by
  apply pairwise_targets hsimple (.named path.target label resolution) _ hnext
  · intro target target' hsame
    simp only [Step.beq_named, Bool.and_eq_true, decide_eq_true_eq] at hsame
    exact hsame.1.2
  · intro target target' hlt
    exact .namedTarget hlt

theorem pairwise_importing (hsimple : path.Simple) {label : L} {reference : Occurrence}
    (hmem : reference ∈ q.graph.importsFrom path.target label)
    (hnext : ∀ step, step.target ∉ path.scopes → q.Allows active path step →
      (q.continuations active (path.after step) m).Pairwise
        (q.FoundBefore active (path.after step))) :
    (q.importing active path label m reference).Pairwise (q.FoundBefore active path) := by
  unfold importing
  split
  · exact .nil
  next h =>
  obtain ⟨hpath, hactive⟩ := not_or.mp h
  rw [List.pairwise_flatMap]
  constructor
  · intro resolution hresolution
    obtain rfl := start_of_mem_resolutions hresolution
    apply pairwise_through hsimple
    intro target htarget hnew
    exact hnext _ hnew ⟨rfl, hmem, hactive, hpath, htarget⟩
  · apply List.pairwise_iff_forall_sublist.mpr
    intro resolution resolution' hsublist r hr r' hr'
    obtain ⟨hstart, hstart', hne, hearlier⟩ := foundEarlier_of_sublist hsublist
    obtain ⟨target, hprefix⟩ := isPrefix_of_mem_through hsimple hr
    obtain ⟨target', hprefix'⟩ := isPrefix_of_mem_through hsimple hr'
    apply FoundBefore.of_isPrefix hprefix hprefix'
    · simp [Step.beq_named, hne]
    · exact .resolution (hstart.trans hstart'.symm) hearlier

theorem pairwise_stepping (hsimple : path.Simple) {label : L}
    (hnext : ∀ step, step.target ∉ path.scopes → q.Allows active path step →
      (q.continuations active (path.after step) m).Pairwise
        (q.FoundBefore active (path.after step))) :
    (q.stepping active path (label, m)).Pairwise (q.FoundBefore active path) := by
  unfold stepping
  split
  · exact .nil
  rw [List.pairwise_append]
  refine ⟨?_, ?_, ?_⟩
  · apply pairwise_targets hsimple (.edge path.target label)
    · intro target htarget hnew
      exact hnext _ hnew ⟨rfl, htarget⟩
    · intro target target' hsame
      simp only [Step.beq_edge, Bool.and_eq_true, decide_eq_true_eq] at hsame
      exact hsame.2
    · intro target target' hlt
      exact .edgeTarget hlt
  · rw [List.pairwise_flatMap]
    constructor
    · intro reference hreference
      exact pairwise_importing hsimple hreference hnext
    · apply (q.graph.importsFrom path.target label).ascending.imp
      intro reference reference' hlt r hr r' hr'
      -- the import is the start of the resolution in the step
      obtain ⟨resolution, target, rfl, hprefix⟩ := isPrefix_of_mem_importing hsimple hr
      obtain ⟨resolution', target', rfl, hprefix'⟩ := isPrefix_of_mem_importing hsimple hr'
      refine FoundBefore.of_isPrefix hprefix hprefix' ?_ (.reference hlt)
      apply Bool.eq_false_iff.mpr
      intro hsame
      simp only [Step.beq_named, Bool.and_eq_true] at hsame
      exact Multimap.ne_of_compare hlt (by simp) (ends_and_steps_of_beq hsame.2).1
  · intro r hr r' hr'
    obtain ⟨target, -, hr⟩ := List.mem_flatMap.mp hr
    obtain ⟨reference, -, hr'⟩ := List.mem_flatMap.mp hr'
    obtain ⟨resolution, target', -, hprefix'⟩ := isPrefix_of_mem_importing hsimple hr'
    exact FoundBefore.of_isPrefix
      (isPrefix_of_mem_along (.edge path.target label target) hsimple hr) hprefix' rfl .edgeFirst

/-- The branches of a matcher are in the order of the alphabet. -/
theorem pairwise_branches (m : Matcher q.automaton) :
    m.branches.Pairwise fun branch branch' =>
      q.automaton.alphabet.position branch.1 < q.automaton.alphabet.position branch'.1 := by
  have hsymbols : q.automaton.alphabet.symbols.Pairwise fun a a' =>
      q.automaton.alphabet.position a < q.automaton.alphabet.position a' := by
    rw [List.pairwise_iff_getElem]
    intro i j hi hj hlt
    unfold Alphabet.position
    rw [q.automaton.alphabet.nodup.idxOf_getElem i hi,
      q.automaton.alphabet.nodup.idxOf_getElem j hj]
    exact hlt
  rw [← Matcher.map_fst_branches m, List.pairwise_map] at hsymbols
  exact hsymbols

/-- What a search finds below a path is in order. -/
theorem pairwise_continuations (hsimple : path.Simple) :
    (q.continuations active path m).Pairwise (q.FoundBefore active path) := by
  induction active, path using allowed_induction (q := q) generalizing m with
  | step active path hnext _ =>
    rw [continuations_eq]
    split
    · exact .nil
    rw [List.pairwise_append, List.pairwise_flatMap]
    refine ⟨pairwise_endings hsimple, ⟨?_, ?_⟩, ?_⟩
    · intro ⟨label, m'⟩ _
      apply pairwise_stepping hsimple
      intro step hnew hallowed
      exact hnext step hsimple hnew hallowed (hsimple.after hnew)
    · apply (pairwise_branches m).imp
      intro ⟨label, m'⟩ ⟨label', m''⟩ hlt r hr r' hr'
      obtain ⟨step, rfl, hprefix⟩ := isPrefix_of_mem_stepping hsimple hr
      obtain ⟨step', rfl, hprefix'⟩ := isPrefix_of_mem_stepping hsimple hr'
      refine FoundBefore.of_isPrefix hprefix hprefix' ?_ (.label hlt)
      apply Bool.eq_false_iff.mpr
      intro hsame
      rw [Step.label_eq_of_beq hsame] at hlt
      exact Nat.lt_irrefl _ hlt
    · -- an ending has the steps of the path, anything else goes on from it
      intro r hr r' hr'
      obtain ⟨-, declaration, -, -, rfl⟩ := (mem_endings_iff hsimple).mp hr
      obtain ⟨⟨label, m'⟩, -, hr'⟩ := List.mem_flatMap.mp hr'
      obtain ⟨step, -, rest, hrest⟩ := isPrefix_of_mem_stepping hsimple hr'
      have hsteps : (path.declaring declaration).steps = path.steps ++ [] := by simp
      have hsteps' : r'.steps = path.steps ++ [] ++ step :: rest := by simp [← hrest]
      exact .ending hsteps hsteps'

theorem pairwise_resolutions {reference : Occurrence} {scope : Scope}
    (hscope : q.graph.scopeOf? reference = some scope) :
    (q.resolutions excluded reference).Pairwise
      (q.FoundBefore (excluded.insert reference) (.ofReference reference scope)) := by
  rw [resolutions_of_scope hscope]
  exact pairwise_continuations (Path.ofReference_simple reference scope)

/-- Of any two resolutions of a reference, the one that is found first comes first in the order. The
same is true of the resolutions of an import, whatever is known about imports when it is searched
for. -/
theorem resolve_ordered (q : Query L) :
    (∀ reference found, q.resolve? reference = .ok found →
      ∃ scope, q.graph.scopeOf? reference = some scope ∧
        found.toList.Pairwise
          (q.FoundBefore (.singleton reference) (.ofReference reference scope))) ∧
      ∀ key scope table, q.graph.scopeOf? key.reference = some scope → q.Reached table →
        (q.searchImport ImportTable.get? key scope table).toList.Pairwise
          (q.FoundBefore (key.excluded.insert key.reference)
            (.ofReference key.reference scope)) := by
  constructor
  · intro reference found hresolve
    obtain ⟨scope, hscope⟩ := exists_scope_of_resolve? hresolve
    refine ⟨scope, hscope, ?_⟩
    rw [toList_of_resolve? hresolve]
    exact pairwise_resolutions hscope
  · intro key scope table hscope htable
    rw [toList_searchImport trusts_get? htable.sound hscope]
    exact pairwise_resolutions hscope

def shadowing : Query EdgeLabel where
  graph :=
    let graph := ((ScopeGraph.empty.declare ⟨0⟩ "x").2.declare ⟨1⟩ "x").2
    ((graph.connect ⟨1⟩ .importing ⟨0⟩).refer ⟨1⟩ "x").2
  automaton := unknownImports.automaton
  start := unknownImports.start
  fits := Occurrence.sameName

/-- The declaration in the scope of the reference is found before the one in the enclosing scope. -/
theorem resolve_ordered_shadowing :
    ∃ found, shadowing.resolve? ⟨"x", 2⟩ = .ok found ∧
      found.toList.map (fun r => r.stop) = [⟨"x", 1⟩, ⟨"x", 0⟩] ∧
        ∃ scope, shadowing.graph.scopeOf? ⟨"x", 2⟩ = some scope ∧
          found.toList.Pairwise
            (shadowing.FoundBefore (.singleton ⟨"x", 2⟩) (.ofReference ⟨"x", 2⟩ scope)) := by
  have hscope : shadowing.graph.scopeOf? ⟨"x", 2⟩ = some ⟨1⟩ := by decide
  obtain ⟨found, hresolve, hfound⟩ := exists_resolve? hscope
  refine ⟨found, hresolve, ?_, (resolve_ordered shadowing).1 _ found hresolve⟩
  let first := Path.ofReference (L := EdgeLabel) ⟨"x", 2⟩ ⟨1⟩
  let second := first.after (.edge ⟨1⟩ .importing ⟨0⟩)
  have inner (active : SortedSet Occurrence) :
      shadowing.continuations active first shadowing.start =
        first.declaring ⟨"x", 1⟩ :: shadowing.continuations active second shadowing.start := by
    have hjoin : first.join (Step.edge ⟨1⟩ .importing ⟨0⟩).path = .ok second :=
      (Path.join_path_eq_ok_iff (Path.ofReference_simple _ _)).mpr ⟨rfl, by decide, rfl⟩
    rw [continuations_eq, ← along_ok hjoin]
    show first.declaring ⟨"x", 1⟩ :: (((shadowing.along active first shadowing.start
      (Step.edge ⟨1⟩ .importing ⟨0⟩).path ++ []) ++ []) ++ []) = _
    simp
  have outer (active : SortedSet Occurrence) :
      shadowing.continuations active second shadowing.start = [second.declaring ⟨"x", 0⟩] := by
    rw [continuations_eq]
    rfl
  rw [hfound, resolutions_of_scope hscope, inner, outer]
  rfl

end Query

end NameResolution

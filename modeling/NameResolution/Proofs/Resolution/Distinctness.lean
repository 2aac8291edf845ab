import NameResolution.Path.Equality
import NameResolution.Proofs.Resolution.Membership

namespace NameResolution

variable {L : Type} [DecidableEq L] [Label L]

theorem nodup_flatMap {α β : Type} {l : List α} {f : α → List β} (hl : l.Nodup)
    (hf : ∀ x ∈ l, (f x).Nodup) (hdistinct : ∀ x ∈ l, ∀ y ∈ l, ∀ b ∈ f x, b ∈ f y → x = y) :
    (l.flatMap f).Nodup := by
  rw [List.nodup_flatMap]
  refine ⟨hf, ?_⟩
  apply hl.imp_of_mem
  intro x y hx hy hne b hbx hby
  exact hne (hdistinct x hx y hy b hbx hby)

namespace Query

variable {q : Query L} {active excluded : SortedSet Occurrence} {path : ReferencePath L}
  {m : Matcher q.automaton} {r : ResolutionPath L} {step : Step L}

/-- What is found below a path goes on from it. -/
theorem isPrefix_of_mem_continuations (hsimple : path.Simple)
    (hr : r ∈ q.continuations active path m) : path.steps <+: r.steps := by
  induction active, path using allowed_induction (q := q) generalizing m with
  | step active path hnext _ =>
    rcases (mem_continuations_iff.mp hr).2 with hend | ⟨branch, -, hstep⟩
    · obtain ⟨-, declaration, -, -, rfl⟩ := (mem_endings_iff hsimple).mp hend
      exact List.prefix_rfl
    · obtain ⟨-, step, -, hnew, hallowed, -, hr⟩ := (mem_stepping hsimple).mp hstep
      exact (List.prefix_append _ _).trans
        (hnext step hsimple hnew hallowed (hsimple.after hnew) hr)

/-- The step after a path is seen in what is found along it. -/
theorem getElem?_of_mem_along (step : Step L) (hsimple : path.Simple)
    (hr : r ∈ q.along active path m step.path) : r.steps[path.steps.length]? = some step := by
  obtain ⟨-, hnew, hr⟩ := (mem_along_iff _ hsimple).mp hr
  obtain ⟨rest, hrest⟩ := isPrefix_of_mem_continuations (hsimple.after hnew) hr
  rw [← hrest]
  simp [Path.after]

theorem getElem?_of_mem_importing (hsimple : path.Simple) {label : L} {reference : Occurrence}
    (hr : r ∈ q.importing active path label m reference) :
    ∃ resolution target, resolution.start = reference ∧
      r.steps[path.steps.length]? = some (.named path.target label resolution target) := by
  obtain ⟨-, -, resolution, hresolution, target, -, hr⟩ := mem_importing_iff.mp hr
  exact ⟨resolution, target, start_of_mem_resolutions hresolution,
    getElem?_of_mem_along (.named path.target label resolution target) hsimple hr⟩

theorem getElem?_of_mem_stepping (hsimple : path.Simple) {label : L}
    (hr : r ∈ q.stepping active path (label, m)) :
    ∃ step, step.label = label ∧ r.steps[path.steps.length]? = some step := by
  obtain ⟨-, step, hlabel, hnew, -, -, hr⟩ := (mem_stepping hsimple).mp hr
  obtain ⟨rest, hrest⟩ := isPrefix_of_mem_continuations (hsimple.after hnew) hr
  refine ⟨step, hlabel, ?_⟩
  rw [← hrest]
  simp [Path.after]

theorem nodup_endings (hsimple : path.Simple) : (q.endings path m).Nodup := by
  unfold endings
  split
  · apply List.Nodup.filterMap _ (SortedSet.nodup_toList _)
    intro d d' r hd hd'
    rw [Path.join_ofDeclaration hsimple] at hd hd'
    split at hd
    · split at hd'
      · cases hd
        cases hd'
        rfl
      · cases hd'
    · cases hd
  · exact List.nodup_nil

theorem nodup_along (step : Step L) (hsimple : path.Simple)
    (h : step.target ∉ path.scopes → (q.continuations active (path.after step) m).Nodup) :
    (q.along active path m step.path).Nodup := by
  cases hjoin : path.join step.path with
  | error e =>
    rw [along_error hjoin]
    exact List.nodup_nil
  | ok path' =>
    obtain ⟨-, hnew, rfl⟩ := (Path.join_path_eq_ok_iff hsimple).mp hjoin
    rw [along_ok hjoin]
    exact h hnew

theorem nodup_through (hsimple : path.Simple) {label : L} {resolution : ResolutionPath L}
    (h : ∀ target ∈ q.graph.associatedWith resolution.stop, target ∉ path.scopes →
      (q.continuations active (path.after (.named path.target label resolution target)) m).Nodup) :
    (q.through active path label m resolution).Nodup := by
  apply nodup_flatMap (SortedSet.nodup_toList _)
  · intro target htarget
    exact nodup_along (.named path.target label resolution target) hsimple
      (h target htarget)
  · intro target _ target' _ r hr hr'
    have heq := (getElem?_of_mem_along
      (.named path.target label resolution target) hsimple hr).symm.trans
        (getElem?_of_mem_along (.named path.target label resolution target') hsimple hr')
    cases heq
    rfl

theorem getElem?_of_mem_through (hsimple : path.Simple) {label : L}
    {resolution : ResolutionPath L} (hr : r ∈ q.through active path label m resolution) :
    ∃ target, r.steps[path.steps.length]? = some (.named path.target label resolution target) := by
  obtain ⟨target, -, hr⟩ := List.mem_flatMap.mp hr
  exact ⟨target,
    getElem?_of_mem_along (.named path.target label resolution target) hsimple hr⟩

theorem nodup_importing (hsimple : path.Simple) {label : L} {reference : Occurrence}
    (hnext : ∀ step, step.target ∉ path.scopes → q.Allows active path step →
      (q.continuations active (path.after step) m).Nodup)
    (hmem : reference ∈ q.graph.importsFrom path.target label)
    (himport : reference ∉ active →
      (q.resolutions (active.union path.references) reference).Nodup) :
    (q.importing active path label m reference).Nodup := by
  unfold importing
  split
  · exact List.nodup_nil
  next h =>
  obtain ⟨hpath, hactive⟩ := not_or.mp h
  apply nodup_flatMap (himport hactive)
  · intro resolution hresolution
    obtain rfl := start_of_mem_resolutions hresolution
    apply nodup_through hsimple
    intro target htarget hnew
    exact hnext _ hnew ⟨rfl, hmem, hactive, hpath, htarget⟩
  · intro resolution _ resolution' _ r hr hr'
    obtain ⟨target, htarget⟩ := getElem?_of_mem_through hsimple hr
    obtain ⟨target', htarget'⟩ := getElem?_of_mem_through hsimple hr'
    cases htarget.symm.trans htarget'
    rfl

theorem nodup_stepping (hsimple : path.Simple) {label : L}
    (hnext : ∀ step, step.target ∉ path.scopes → q.Allows active path step →
      (q.continuations active (path.after step) m).Nodup)
    (himport : ∀ reference, reference ∉ active →
      (q.resolutions (active.union path.references) reference).Nodup) :
    (q.stepping active path (label, m)).Nodup := by
  unfold stepping
  split
  · exact List.nodup_nil
  apply List.Nodup.append
  · apply nodup_flatMap (SortedSet.nodup_toList _)
    · intro target htarget
      apply nodup_along (.edge path.target label target) hsimple
      intro hnew
      exact hnext _ hnew ⟨rfl, htarget⟩
    · intro target _ target' _ r hr hr'
      have hstep := getElem?_of_mem_along (.edge path.target label target) hsimple hr
      have hstep' := getElem?_of_mem_along (.edge path.target label target') hsimple hr'
      cases hstep.symm.trans hstep'
      rfl
  · apply nodup_flatMap (SortedSet.nodup_toList _)
    · intro reference hreference
      exact nodup_importing hsimple hnext hreference (himport reference)
    · -- the import is the start of the resolution in the step
      intro reference _ reference' _ r hr hr'
      obtain ⟨resolution, target, rfl, hstep⟩ := getElem?_of_mem_importing hsimple hr
      obtain ⟨resolution', target', rfl, hstep'⟩ := getElem?_of_mem_importing hsimple hr'
      cases hstep.symm.trans hstep'
      rfl
  · -- an edge is no import
    intro r hr hr'
    obtain ⟨target, -, hr⟩ := List.mem_flatMap.mp hr
    obtain ⟨reference, -, hr'⟩ := List.mem_flatMap.mp hr'
    have hstep := getElem?_of_mem_along (.edge path.target label target) hsimple hr
    obtain ⟨resolution, target', -, hstep'⟩ := getElem?_of_mem_importing hsimple hr'
    cases hstep.symm.trans hstep'

/-- No continuation is found twice: what ends with the path takes no step after it, and what goes on
by different labels takes different ones. -/
theorem nodup_continuations (hsimple : path.Simple) : (q.continuations active path m).Nodup := by
  induction active, path using allowed_induction (q := q) generalizing m with
  | step active path hnext himport =>
    rw [continuations_eq]
    split
    · exact List.nodup_nil
    apply List.Nodup.append (nodup_endings hsimple)
    · apply nodup_flatMap m.nodup_branches
      · intro ⟨label, m'⟩ _
        apply nodup_stepping hsimple
        · intro step hnew hallowed
          exact hnext step hsimple hnew hallowed (hsimple.after hnew)
        · intro reference hactive
          unfold resolutions
          split
          · exact List.nodup_nil
          · next scope hscope =>
            exact himport reference scope hactive hscope (Path.ofReference_simple reference scope)
      · -- a label leads to one matcher only, so two branches differ in their labels
        intro ⟨label, m'⟩ hbranch ⟨label', m''⟩ hbranch' r hr hr'
        obtain ⟨step, rfl, hstep⟩ := getElem?_of_mem_stepping hsimple hr
        obtain ⟨step', rfl, hstep'⟩ := getElem?_of_mem_stepping hsimple hr'
        cases hstep.symm.trans hstep'
        obtain ⟨_, rfl⟩ := Matcher.mem_branches.mp hbranch
        obtain ⟨_, rfl⟩ := Matcher.mem_branches.mp hbranch'
        rfl
    · -- an ending has as many steps as the path, anything else has more
      intro r hend hr
      obtain ⟨-, declaration, -, -, rfl⟩ := (mem_endings_iff hsimple).mp hend
      obtain ⟨⟨label, m'⟩, -, hr⟩ := List.mem_flatMap.mp hr
      obtain ⟨step, -, hstep⟩ := getElem?_of_mem_stepping hsimple hr
      simp at hstep

theorem nodup_resolutions {reference : Occurrence} : (q.resolutions excluded reference).Nodup := by
  unfold resolutions
  split
  · exact List.nodup_nil
  · next scope _ => exact nodup_continuations (Path.ofReference_simple reference scope)

end Query

end NameResolution

import NameResolution.Proofs.Automaton.Liveness
import NameResolution.Proofs.Resolution.Calculus
import NameResolution.Proofs.Resolution.Continuations

namespace NameResolution

variable {L : Type} [DecidableEq L] [Label L]

namespace Query

variable {q : Query L} {active excluded : SortedSet Occurrence} {path : ReferencePath L}
  {m : Matcher q.automaton} {r : ResolutionPath L} {step : Step L} {steps : List (Step L)}

/-- An import is taken by a resolution that the search for it finds. -/
def Found (q : Query L) (active : SortedSet Occurrence) (path : ReferencePath L) : Step L → Prop
  | .edge _ _ _ => True
  | .named _ _ resolution _ =>
    resolution ∈ q.resolutions (active.union path.references) resolution.start

def Leads (q : Query L) (active : SortedSet Occurrence) (path : ReferencePath L)
    (m : Matcher q.automaton) : List (Step L) → Prop
  | [] => m.accepting = true
  | step :: steps =>
    step.target ∉ path.scopes ∧ q.Allows active path step ∧ q.Found active path step ∧
      ∃ h : step.label ∈ q.automaton.alphabet,
        q.Leads active (path.after step) (m.step step.label h) steps

theorem mem_continuations_iff :
    r ∈ q.continuations active path m ↔ m.stuck = false ∧
      (r ∈ q.endings path m ∨ ∃ branch ∈ m.branches, r ∈ q.stepping active path branch) := by
  rw [continuations_eq]
  cases m.stuck
  · simp
  · simp

theorem mem_stepping_iff {branch : L × Matcher q.automaton} :
    r ∈ q.stepping active path branch ↔ branch.2.stuck = false ∧
      ((∃ target ∈ q.graph.edgesFrom path.target branch.1,
          r ∈ q.along active path branch.2 (.edge path.target branch.1 target)) ∨
        ∃ reference ∈ q.graph.importsFrom path.target branch.1,
          r ∈ q.importing active path branch.1 branch.2 reference) := by
  unfold stepping
  cases branch.2.stuck
  · simp [SortedSet.mem_toList]
  · simp

theorem mem_importing_iff {label : L} {reference : Occurrence} :
    r ∈ q.importing active path label m reference ↔
      reference ∉ path.references ∧ reference ∉ active ∧
        ∃ resolution ∈ q.resolutions (active.union path.references) reference,
          ∃ target ∈ q.graph.associatedWith resolution.stop,
            r ∈ q.along active path m (.named path.target label resolution target) := by
  unfold importing through
  split
  · next h =>
    simp only [List.not_mem_nil, false_iff]
    rintro ⟨hpath, hactive, -⟩
    exact h.elim hpath hactive
  · next h =>
    simp only [not_or] at h
    simp [h, SortedSet.mem_toList]

theorem mem_resolutions_iff_exists {reference : Occurrence} :
    r ∈ q.resolutions excluded reference ↔ ∃ scope, q.graph.scopeOf? reference = some scope ∧
      r ∈ q.continuations (excluded.insert reference) (.ofReference reference scope) q.start := by
  unfold resolutions
  cases q.graph.scopeOf? reference with
  | none => simp
  | some scope => simp

theorem mem_along_iff (step : Step L) (hsimple : path.Simple) :
    r ∈ q.along active path m step.path ↔
      step.source = path.target ∧ step.target ∉ path.scopes ∧
        r ∈ q.continuations active (path.after step) m := by
  constructor
  · intro hr
    unfold along at hr
    cases hjoin : path.join step.path with
    | error e =>
      rw [hjoin] at hr
      cases hr
    | ok path' =>
      rw [hjoin] at hr
      obtain ⟨hsource, hnew, rfl⟩ := (Path.join_path_eq_ok_iff hsimple).mp hjoin
      exact ⟨hsource, hnew, hr⟩
  · rintro ⟨hsource, hnew, hr⟩
    rw [along_ok ((Path.join_path_eq_ok_iff hsimple).mpr ⟨hsource, hnew, rfl⟩)]
    exact hr

theorem mem_endings_iff (hsimple : path.Simple) :
    r ∈ q.endings path m ↔ m.accepting = true ∧
      ∃ declaration ∈ q.graph.declarationsOf path.target,
        q.fits path.start declaration = true ∧ r = path.declaring declaration := by
  unfold endings
  cases m.accepting
  · simp
  · simp only [if_true, true_and, List.mem_filterMap, SortedSet.mem_toList]
    apply exists_congr
    intro declaration
    apply and_congr_right
    intro _
    rw [Path.join_ofDeclaration hsimple]
    cases q.fits path.start declaration
    · simp
    · simp [Except.toOption, eq_comm]

theorem start_of_mem_along {scopePath : ScopePath L}
    (h : ∀ path', path.join scopePath = .ok path' →
      r ∈ q.continuations active path' m → r.start = path'.start)
    (hr : r ∈ q.along active path m scopePath) : r.start = path.start := by
  cases hjoin : path.join scopePath with
  | error e =>
    rw [along_error hjoin] at hr
    cases hr
  | ok path' =>
    rw [along_ok hjoin] at hr
    exact (h path' hjoin hr).trans (Path.join_ok hjoin).1

/-- What is found below a path starts where the path does. -/
theorem start_of_mem_continuations (hr : r ∈ q.continuations active path m) :
    r.start = path.start := by
  induction active, path using search_induction (q := q) generalizing m with
  | step active path hedge hnamed _ =>
    rcases (mem_continuations_iff.mp hr).2 with hend | ⟨branch, -, hstep⟩
    -- `mem_endings_iff` is of no use here: the path may visit a scope twice
    · unfold endings at hend
      split at hend
      · obtain ⟨declaration, -, hjoin⟩ := List.mem_filterMap.mp hend
        split at hjoin
        · cases hj : path.join (.ofDeclaration path.target declaration) with
          | error e => simp [hj, Except.toOption] at hjoin
          | ok r' =>
            obtain rfl : r' = r := by simpa [hj, Except.toOption] using hjoin
            exact (Path.join_ok hj).1
        · cases hjoin
      · cases hend
    · rcases (mem_stepping_iff.mp hstep).2 with ⟨target, htarget, hr⟩ | ⟨reference, -, hr⟩
      · exact start_of_mem_along (fun path' hjoin => hedge _ target path' htarget hjoin) hr
      · obtain ⟨-, -, resolution, -, target, htarget, hr⟩ := mem_importing_iff.mp hr
        exact start_of_mem_along
          (fun path' hjoin => hnamed _ resolution target path' htarget hjoin) hr

theorem start_of_mem_resolutions {reference : Occurrence}
    (hr : r ∈ q.resolutions excluded reference) : r.start = reference := by
  unfold resolutions at hr
  split at hr
  · cases hr
  · exact start_of_mem_continuations hr

/-- A label is taken by the steps that the calculus allows and whose imports are found. -/
theorem mem_stepping (hsimple : path.Simple) {label : L} :
    r ∈ q.stepping active path (label, m) ↔ m.stuck = false ∧
      ∃ step, step.label = label ∧ step.target ∉ path.scopes ∧ q.Allows active path step ∧
        q.Found active path step ∧ r ∈ q.continuations active (path.after step) m := by
  rw [mem_stepping_iff]
  apply and_congr_right
  intro _
  constructor
  · rintro (⟨target, htarget, hr⟩ | ⟨reference, hreference, hr⟩)
    · obtain ⟨-, hnew, hr⟩ := (mem_along_iff (.edge path.target label target) hsimple).mp hr
      exact ⟨_, rfl, hnew, ⟨rfl, htarget⟩, trivial, hr⟩
    · obtain ⟨hpath, hactive, resolution, hresolution, target, htarget, hralong⟩ :=
        mem_importing_iff.mp hr
      -- the import is known from the start of its resolution
      obtain rfl := start_of_mem_resolutions hresolution
      obtain ⟨-, hnew, hr'⟩ :=
        (mem_along_iff (.named path.target label resolution target) hsimple).mp hralong
      exact ⟨_, rfl, hnew, ⟨rfl, hreference, hactive, hpath, htarget⟩, hresolution, hr'⟩
  · rintro ⟨step, rfl, hnew, hallowed, hfound, hr⟩
    cases step with
    | edge source label target =>
      obtain ⟨rfl, htarget⟩ := hallowed
      exact .inl ⟨target, htarget, (mem_along_iff _ hsimple).mpr ⟨rfl, hnew, hr⟩⟩
    | named source label resolution target =>
      obtain ⟨rfl, hreference, hactive, hpath, htarget⟩ := hallowed
      refine .inr ⟨resolution.start, hreference, mem_importing_iff.mpr ?_⟩
      exact ⟨hpath, hactive, resolution, hfound, target, htarget,
        (mem_along_iff _ hsimple).mpr ⟨rfl, hnew, hr⟩⟩

/-- An allowed step to a new scope leads to a smaller search, and so does an import. -/
theorem allowed_induction {motive : SortedSet Occurrence → ReferencePath L → Prop}
    (step : ∀ active path,
      (∀ step, path.Simple → step.target ∉ path.scopes → q.Allows active path step →
        motive active (path.after step)) →
      (∀ reference scope, reference ∉ active → q.graph.scopeOf? reference = some scope →
        motive ((active.union path.references).insert reference) (.ofReference reference scope)) →
      motive active path)
    (active : SortedSet Occurrence) (path : ReferencePath L) : motive active path := by
  induction active, path using search_induction (q := q) with
  | step active path hedge hnamed himport =>
    apply step active path _ himport
    intro next hsimple hnew hallowed
    cases next with
    | edge source label target =>
      obtain ⟨rfl, htarget⟩ := hallowed
      exact hedge label target _ htarget
        ((Path.join_path_eq_ok_iff hsimple).mpr ⟨rfl, hnew, rfl⟩)
    | named source label resolution target =>
      obtain ⟨rfl, -, -, -, htarget⟩ := hallowed
      exact hnamed label resolution target _ htarget
        ((Path.join_path_eq_ok_iff hsimple).mpr ⟨rfl, hnew, rfl⟩)

theorem Leads.accepts (h : q.Leads active path m steps) : Accepts m steps := by
  induction steps generalizing path m with
  | nil => exact ⟨m, rfl, h⟩
  | cons step steps ih =>
    obtain ⟨-, -, -, hlabel, hrest⟩ := h
    obtain ⟨m', hmatch, hacc⟩ := ih hrest
    exact ⟨m', Matcher.matchAll?_cons_eq_ok_iff.mpr ⟨hlabel, hmatch⟩, hacc⟩

/-- What a search finds below a path is reached by steps after the path. -/
theorem leads_of_mem_continuations (hsimple : path.Simple)
    (hr : r ∈ q.continuations active path m) :
    ∃ steps declaration, q.Leads active path m steps ∧
      declaration ∈ q.graph.declarationsOf (path.afterAll steps).target ∧
        q.fits path.start declaration = true ∧
          r = (path.afterAll steps).declaring declaration := by
  induction active, path using allowed_induction (q := q) generalizing m with
  | step active path hnext _ =>
    rcases (mem_continuations_iff.mp hr).2 with hend | ⟨⟨label, m'⟩, hbranch, hstep⟩
    · obtain ⟨hacc, declaration, hmem, hfits, rfl⟩ := (mem_endings_iff hsimple).mp hend
      exact ⟨[], declaration, hacc, hmem, hfits, rfl⟩
    · obtain ⟨-, step, rfl, hnew, hallowed, hfound, hr⟩ := (mem_stepping hsimple).mp hstep
      obtain ⟨hlabel, rfl⟩ := Matcher.mem_branches.mp hbranch
      obtain ⟨steps, declaration, hleads, hrest⟩ :=
        hnext step hsimple hnew hallowed (hsimple.after hnew) hr
      exact ⟨step :: steps, declaration, ⟨hnew, hallowed, hfound, hlabel, hleads⟩, hrest⟩

/-- What a search finds below a path is what it can reach by steps after the path. -/
theorem mem_continuations (hcompiled : q.automaton.Compiled) (hsimple : path.Simple) :
    r ∈ q.continuations active path m ↔
      ∃ steps declaration, q.Leads active path m steps ∧
        declaration ∈ q.graph.declarationsOf (path.afterAll steps).target ∧
          q.fits path.start declaration = true ∧
            r = (path.afterAll steps).declaring declaration := by
  constructor
  · exact leads_of_mem_continuations hsimple
  · rintro ⟨steps, declaration, hleads, hmem, hfits, rfl⟩
    -- the steps that remain are accepted, so no matcher on the way is stuck
    have hlive : m.stuck = false := by
      obtain ⟨m', hmatch, hacc⟩ := hleads.accepts
      exact hcompiled.not_stuck hmatch hacc
    induction steps generalizing path m with
    | nil =>
      apply mem_continuations_iff.mpr
      exact ⟨hlive, .inl ((mem_endings_iff hsimple).mpr ⟨hleads, declaration, hmem, hfits, rfl⟩)⟩
    | cons step steps ih =>
      obtain ⟨hnew, hallowed, hfound, hlabel, hrest⟩ := hleads
      have hlive' : (m.step step.label hlabel).stuck = false := by
        obtain ⟨m', hmatch, hacc⟩ := hrest.accepts
        exact hcompiled.not_stuck hmatch hacc
      have hr := ih (hsimple.after hnew) hrest hmem hfits hlive'
      apply mem_continuations_iff.mpr
      refine ⟨hlive, .inr ⟨_, Matcher.mem_branches.mpr ⟨hlabel, rfl⟩, ?_⟩⟩
      exact (mem_stepping hsimple).mpr ⟨hlive', step, rfl, hnew, hallowed, hfound, hr⟩

end Query

end NameResolution

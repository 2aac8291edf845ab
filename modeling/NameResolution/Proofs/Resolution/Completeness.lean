import NameResolution.Proofs.Path.Sameness
import NameResolution.Proofs.Resolution.Distinctness
import NameResolution.Proofs.Resolution.Noncircularity

namespace NameResolution

variable {L : Type} [DecidableEq L] [Label L]

theorem forall_split_cons {α : Type} {a : α} {l : List α} {P : List α → α → Prop} :
    (∀ before x rest, a :: l = before ++ x :: rest → P before x) ↔
      P [] a ∧ ∀ before x rest, l = before ++ x :: rest → P (a :: before) x := by
  constructor
  · intro h
    refine ⟨h [] a l rfl, ?_⟩
    rintro before x rest rfl
    exact h (a :: before) x rest rfl
  · rintro ⟨hhead, htail⟩ before x rest hsplit
    cases before with
    | nil =>
      cases hsplit
      exact hhead
    | cons b before =>
      cases hsplit
      exact htail before x rest rfl

namespace Query

variable {q : Query L} {active excluded : SortedSet Occurrence} {path : ReferencePath L}
  {m : Matcher q.automaton} {r : ResolutionPath L} {step : Step L} {steps : List (Step L)}

theorem accepts_cons :
    Accepts m (step :: steps) ↔
      ∃ h : step.label ∈ q.automaton.alphabet, Accepts (m.step step.label h) steps := by
  unfold Accepts
  simp only [List.map_cons, Matcher.matchAll?_cons_eq_ok_iff]
  constructor
  · rintro ⟨m', ⟨hlabel, hmatch⟩, hacc⟩
    exact ⟨hlabel, m', hmatch, hacc⟩
  · rintro ⟨hlabel, m', hmatch, hacc⟩
    exact ⟨m', ⟨hlabel, hmatch⟩, hacc⟩

/-- What is asked of the steps one after another is what the calculus asks of each of them. -/
theorem leads_iff :
    q.Leads active path m steps ↔
      (∀ step ∈ steps, step.target ∉ path.scopes) ∧ (steps.map Step.target).Nodup ∧
        Accepts m steps ∧ ∀ before step rest, steps = before ++ step :: rest →
          q.Allows active (path.afterAll before) step ∧
            q.Found active (path.afterAll before) step := by
  induction steps generalizing path m with
  | nil => simp [Leads, Accepts]
  | cons step steps ih =>
    -- to avoid the scopes of the longer path is to avoid those of the path and the step's own target
    have hfresh : (∀ next ∈ steps, next.target ∉ (path.after step).scopes) ↔
        (∀ next ∈ steps, next.target ∉ path.scopes) ∧ step.target ∉ steps.map Step.target := by
      simp only [Path.after, SortedSet.mem_insert, not_or, List.mem_map, not_exists, not_and]
      constructor
      · intro h
        exact ⟨fun next hnext => (h next hnext).2, fun next hnext => (h next hnext).1⟩
      · rintro ⟨hold, hnew⟩ next hnext
        exact ⟨hnew next hnext, hold next hnext⟩
    rw [forall_split_cons, accepts_cons]
    simp only [Leads, ih, hfresh, List.forall_mem_cons, List.map_cons, List.nodup_cons]
    constructor
    · rintro ⟨hnew, hallowed, hfound, hlabel, ⟨hold, hmem⟩, hnodup, haccepts, hrest⟩
      exact ⟨⟨hnew, hold⟩, ⟨hmem, hnodup⟩, ⟨hlabel, haccepts⟩, ⟨hallowed, hfound⟩, hrest⟩
    · rintro ⟨⟨hnew, hold⟩, ⟨hmem, hnodup⟩, ⟨hlabel, haccepts⟩, ⟨hallowed, hfound⟩, hrest⟩
      exact ⟨hnew, hallowed, hfound, hlabel, ⟨hold, hmem⟩, hnodup, haccepts, hrest⟩

section Excluded

variable {reference : Occurrence}

/-- A reference on the path is excluded in any case. -/
theorem allows_insert (h : reference ∈ path.references) :
    q.Allows (excluded.insert reference) path step ↔ q.Allows excluded path step := by
  cases step with
  | edge => rfl
  | named source label resolution target =>
    simp only [Allows, SortedSet.mem_insert, not_or]
    apply and_congr_right
    intro _
    apply and_congr_right
    intro _
    constructor
    · rintro ⟨⟨-, hexcluded⟩, hpath, htarget⟩
      exact ⟨hexcluded, hpath, htarget⟩
    · rintro ⟨hexcluded, hpath, htarget⟩
      exact ⟨⟨fun heq => hpath (heq ▸ h), hexcluded⟩, hpath, htarget⟩

theorem found_insert (h : reference ∈ path.references) :
    q.Found (excluded.insert reference) path step ↔ q.Found excluded path step := by
  have hunion : (excluded.insert reference).union path.references =
      excluded.union path.references := by
    apply SortedSet.ext
    intro o
    simp only [SortedSet.mem_union, SortedSet.mem_insert]
    constructor
    · rintro ((rfl | ho) | ho)
      · exact .inr h
      · exact .inl ho
      · exact .inr ho
    · rintro (ho | ho)
      · exact .inl (.inr ho)
      · exact .inr ho
  cases step with
  | edge => rfl
  | named => simp only [Found, hunion]

end Excluded

/-- The steps that a search takes from a reference are those that the calculus asks for, where the
imports are taken by resolutions that searches find. -/
theorem leads_ofReference_iff {reference : Occurrence} {scope : Scope} :
    q.Leads (excluded.insert reference) (.ofReference reference scope) m steps ↔
      (scope :: steps.map Step.target).Nodup ∧ Accepts m steps ∧
        ∀ before step rest, steps = before ++ step :: rest →
          q.Allows excluded ((Path.ofReference reference scope).afterAll before) step ∧
            q.Found excluded ((Path.ofReference reference scope).afterAll before) step := by
  have hstart : ∀ before : List (Step L),
      reference ∈ ((Path.ofReference reference scope).afterAll before).references := by
    intro before
    exact Path.references_subset_afterAll (by simp [Path.ofReference, Path.stay])
  have hscope : (∀ step ∈ steps, step.target ∉ (Path.ofReference (L := L) reference scope).scopes) ↔
      scope ∉ steps.map Step.target := by
    simp [Path.ofReference, Path.stay]
  rw [leads_iff, hscope, List.nodup_cons, and_assoc]
  simp only [allows_insert (hstart _), found_insert (hstart _)]

/-- Searches find only resolutions of the calculus; those of imports are part of them. -/
theorem resolves_of_mem_resolutions {excluded : SortedSet Occurrence} {reference : Occurrence}
    {r : ResolutionPath L} (hr : r ∈ q.resolutions excluded reference) :
    q.Resolves reference excluded r := by
  cases hscope : q.graph.scopeOf? reference with
  | none =>
    rw [resolutions_of_no_scope hscope] at hr
    cases hr
  | some scope =>
    rw [resolutions_of_scope hscope] at hr
    obtain ⟨steps, declaration, hleads, hmem, hfits, rfl⟩ :=
      leads_of_mem_continuations (Path.ofReference_simple reference scope) hr
    obtain ⟨hacyclic, haccepts, hsteps⟩ := leads_ofReference_iff.mp hleads
    apply Resolves.intro hscope hacyclic haccepts _ _ hmem hfits
    · intro before step rest hsplit
      exact (hsteps before step rest hsplit).1
    · intro before source label resolution target rest hsplit
      have hfound := (hsteps before _ rest hsplit).2
      -- the resolution is part of a step, so the recursion is on a smaller path
      have hlt : sizeOf resolution <
          sizeOf (((Path.ofReference reference scope).afterAll steps).declaring declaration) := by
        apply Path.sizeOf_lt_of_named_mem
        rw [Path.steps_declaring, Path.steps_afterAll, hsplit]
        exact List.mem_append_right _ (List.mem_append_right _ List.mem_cons_self)
      exact resolves_of_mem_resolutions hfound
termination_by sizeOf r

/-- Searches find every resolution of the calculus. -/
theorem mem_resolutions_of_resolves (hcompiled : q.automaton.Compiled) {reference : Occurrence}
    (h : q.Resolves reference excluded r) : r ∈ q.resolutions excluded reference := by
  induction h with
  | @intro reference excluded scope steps declaration home acyclic accepted allowed _ declared fits
      ih =>
    rw [resolutions_of_scope home]
    apply (mem_continuations hcompiled (Path.ofReference_simple reference scope)).mpr
    refine ⟨steps, declaration, leads_ofReference_iff.mpr ⟨acyclic, accepted, ?_⟩, declared, fits,
      rfl⟩
    -- what the calculus takes an import by is found by the induction hypothesis
    intro before step rest hsplit
    refine ⟨allowed before step rest hsplit, ?_⟩
    cases step with
    | edge => trivial
    | named source label resolution target =>
      exact ih before source label resolution target rest hsplit

theorem mem_resolutions_iff (hcompiled : q.automaton.Compiled) {reference : Occurrence} :
    r ∈ q.resolutions excluded reference ↔ q.Resolves reference excluded r :=
  ⟨resolves_of_mem_resolutions, mem_resolutions_of_resolves hcompiled⟩

/-- Resolutions of the calculus that are equal as paths are the same. -/
theorem Resolves.eq_of_beq {reference reference' : Occurrence}
    {excluded excluded' : SortedSet Occurrence} {r r' : ResolutionPath L}
    (h : q.Resolves reference excluded r) (h' : q.Resolves reference' excluded' r')
    (heq : (r == r') = true) : r = r' := by
  induction h generalizing reference' excluded' r' with
  | @intro reference excluded scope steps declaration _ _ _ _ _ _ _ ih =>
    cases h' with
    | @intro _ _ scope' steps' declaration' _ _ _ _ nested' _ _ =>
      -- all else in a resolution follows from its ends and its steps
      obtain ⟨hstart, hstop, hsource, hsame⟩ := ends_and_steps_of_beq heq
      have hreference : reference = reference' := by simpa using hstart
      have hdeclaration : declaration = declaration' := hstop
      have hscope : scope = scope' := by simpa using hsource
      have hsteps : steps = steps' := by
        have hsame : sameSteps steps steps' = true := by simpa using hsame
        apply eq_of_sameSteps hsame
        intro source label resolution target resolution' hmem hmem' hbeq
        rw [sameResolution_eq_beq] at hbeq
        obtain ⟨before, rest, hsplit⟩ := List.append_of_mem hmem
        obtain ⟨before', rest', hsplit'⟩ := List.append_of_mem hmem'
        exact ih before source label resolution target rest hsplit
          (nested' before' source label resolution' target rest' hsplit') hbeq
      rw [hreference, hdeclaration, hscope, hsteps]

/-- A reference of the graph is resolved: the search ends with exactly the resolutions of the
calculus, and no two of them are equal as paths. -/
theorem resolve_complete (hcompiled : q.automaton.Compiled) {reference : Occurrence} {scope : Scope}
    (hscope : q.graph.scopeOf? reference = some scope) :
    ∃ found, q.resolve? reference = .ok found ∧
      found.toList.Pairwise (fun r r' => (r == r') = false) ∧
        ∀ r, r ∈ found.toList ↔ q.Resolves reference .empty r := by
  have hfound := toList_resolveBy? trusts_get? hscope
  cases hresolve : q.resolve? reference with
  | error e =>
    rw [← resolve?, hresolve] at hfound
    cases hfound
  | ok found =>
    rw [← resolve?, hresolve] at hfound
    have htoList : found.toList = q.resolutions .empty reference := Except.ok.inj hfound
    refine ⟨found, rfl, ?_, ?_⟩
    · rw [htoList]
      apply nodup_resolutions.imp_of_mem
      intro r r' hr hr' hne
      by_contra hbeq
      apply hne
      exact (resolves_of_mem_resolutions hr).eq_of_beq (resolves_of_mem_resolutions hr')
        (by simpa using hbeq)
    · intro r
      rw [htoList]
      exact mem_resolutions_iff hcompiled

theorem compiled_chainedImports : chainedImports.automaton.Compiled := by
  have hover : (Regex.star (.symbol EdgeLabel.importing)).Over chainedImports.automaton.alphabet := by
    decide
  have hresiduals : (Regex.star (.symbol EdgeLabel.importing)).residuals _ hover =
      [.star (.symbol .importing)] := by cbv
  refine ⟨_, _, hover, ?_⟩
  rw [Regex.compile_eq_ofStates hresiduals (0 : Fin 1) rfl (by decide)]
  cbv

/-- The module with the declaration is imported by a name that another import makes visible. -/
theorem resolve_complete_chainedImports :
    chainedImports.automaton.Compiled ∧ chainedImports.graph.scopeOf? ⟨"x", 5⟩ = some ⟨0⟩ ∧
      ∃ found, chainedImports.resolve? ⟨"x", 5⟩ = .ok found ∧
        chainedImports.resolution ∈ found.toList ∧
          chainedImports.Resolves ⟨"x", 5⟩ .empty chainedImports.resolution ∧
            found.toList.Pairwise (fun r r' => (r == r') = false) ∧
              ∀ r, r ∈ found.toList ↔ chainedImports.Resolves ⟨"x", 5⟩ .empty r := by
  have hscope : chainedImports.graph.scopeOf? ⟨"x", 5⟩ = some ⟨0⟩ := by decide
  obtain ⟨found, hresolve, hdistinct, hall⟩ := resolve_complete compiled_chainedImports hscope
  obtain ⟨found', hresolve', hmem⟩ := exists_resolve?_of_mem chainedImports.mem_resolutions
  cases hresolve.symm.trans hresolve'
  exact ⟨compiled_chainedImports, hscope, found, hresolve, hmem, (hall _).mp hmem, hdistinct, hall⟩

end Query

end NameResolution

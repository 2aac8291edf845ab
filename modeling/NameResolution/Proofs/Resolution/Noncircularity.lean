import NameResolution.Proofs.Resolution.Membership
import NameResolution.Proofs.Resolution.Transparency

namespace NameResolution

variable {L B : Type}

mutual

/-- The references that a resolution is made of: its own, and for each import on its way those that
the resolution of the import is made of. -/
def resolutionLineage : ResolutionPath L → List Occurrence
  | ⟨start, _, _, _, steps, _, _, _, _, _, _, _⟩ => start :: stepsLineage steps

def Step.lineage : Step L → List Occurrence
  | .edge _ _ _ => []
  | .named _ _ resolution _ => resolutionLineage resolution

def stepsLineage : List (Step L) → List Occurrence
  | [] => []
  | step :: steps => step.lineage ++ stepsLineage steps

end

namespace Path

def lineage (p : Path (Step L) Occurrence B) : List Occurrence :=
  p.start :: p.steps.flatMap Step.lineage

structure Noncircular (p : Path (Step L) Occurrence B) : Prop where
  nodup : p.lineage.Nodup
  mem_lineage : ∀ o, o ∈ p.lineage ↔ o ∈ p.references

theorem stepsLineage_eq (steps : List (Step L)) :
    stepsLineage steps = steps.flatMap Step.lineage := by
  induction steps with
  | nil => rw [stepsLineage, List.flatMap_nil]
  | cons step steps ih => rw [stepsLineage, List.flatMap_cons, ih]

theorem lineage_edge {source target : Scope} {label : L} :
    (Step.edge source label target).lineage = [] := by
  rw [Step.lineage]

theorem lineage_named {source target : Scope} {label : L} {resolution : ResolutionPath L} :
    (Step.named source label resolution target).lineage = resolution.lineage := by
  rw [Step.lineage]
  cases resolution
  rw [resolutionLineage, stepsLineage_eq]
  rfl

section

variable {p : ReferencePath L} {step : Step L} {reference declaration : Occurrence} {scope : Scope}

theorem lineage_after : (p.after step).lineage = p.lineage ++ step.lineage := by
  simp [lineage, after]

theorem noncircular_ofReference :
    (ofReference reference scope : ReferencePath L).Noncircular := by
  constructor
  · exact List.nodup_singleton reference
  · intro o
    simp [lineage, ofReference, stay]

theorem Noncircular.declaring (h : p.Noncircular) : (p.declaring declaration).Noncircular :=
  ⟨h.nodup, h.mem_lineage⟩

/-- A step that brings references of its own, and these only once, makes no circle. -/
theorem Noncircular.after (h : p.Noncircular) (hnodup : step.lineage.Nodup)
    (hmem : ∀ o, o ∈ step.lineage ↔ o ∈ step.path.references)
    (hnew : ∀ o ∈ step.lineage, o ∉ p.references) : (p.after step).Noncircular := by
  constructor
  · rw [lineage_after]
    apply List.Nodup.append h.nodup hnodup
    intro o hpath hstep
    exact hnew o hstep ((h.mem_lineage o).mp hpath)
  · intro o
    have hafter : o ∈ (p.after step).references ↔ o ∈ p.references ∨ o ∈ step.path.references :=
      SortedSet.mem_union
    rw [lineage_after, List.mem_append, h.mem_lineage, hmem, hafter]

end

end Path

namespace Query

variable [DecidableEq L] [Label L] {q : Query L} {active : SortedSet Occurrence}
  {path : ReferencePath L} {m : Matcher q.automaton} {r : ResolutionPath L}

/-- A search adds no active reference to its path, since imports are resolved where the references of
the path are active too. -/
theorem noncircular_of_mem_continuations (hsimple : path.Simple) (hpath : path.Noncircular)
    (hr : r ∈ q.continuations active path m) :
    r.Noncircular ∧ ∀ o ∈ r.references, o ∈ active → o ∈ path.references := by
  induction active, path using allowed_induction (q := q) generalizing m r with
  | step active path hnext himport =>
    rcases (mem_continuations_iff.mp hr).2 with hend | ⟨⟨label, m'⟩, -, hstep⟩
    · obtain ⟨-, declaration, -, -, rfl⟩ := (mem_endings_iff hsimple).mp hend
      exact ⟨hpath.declaring, fun o ho _ => ho⟩
    obtain ⟨-, step, -, hnew, hallowed, hfound, hr⟩ := (mem_stepping hsimple).mp hstep
    have hfresh : step.lineage.Nodup ∧ (∀ o, o ∈ step.lineage ↔ o ∈ step.path.references) ∧
        ∀ o ∈ step.lineage, o ∉ path.references ∧ o ∉ active := by
      cases step with
      | edge source label target =>
        simp [Path.lineage_edge, Step.path, Path.edge, Path.single, SortedSet.not_mem_empty]
      | named source label resolution target =>
        obtain ⟨-, -, hactive, hreferences, -⟩ := hallowed
        obtain ⟨scope, hscope, hfound⟩ := mem_resolutions_iff_exists.mp hfound
        obtain ⟨hresolution, hnested⟩ := himport resolution.start scope hactive hscope
          (Path.ofReference_simple _ _) Path.noncircular_ofReference hfound
        rw [Path.lineage_named]
        refine ⟨hresolution.nodup, hresolution.mem_lineage, ?_⟩
        -- what is active in the search for the import is met at its start only
        intro o ho
        have hstart : o ∈ active ∨ o ∈ path.references → o = resolution.start := by
          intro hor
          have hmem := hnested o ((hresolution.mem_lineage o).mp ho) (by simp [hor])
          simpa [Path.ofReference, Path.stay] using hmem
        constructor
        · intro h
          exact hreferences (hstart (.inr h) ▸ h)
        · intro h
          exact hactive (hstart (.inl h) ▸ h)
    obtain ⟨hnodup, hmem, hfresh⟩ := hfresh
    have hafter := hpath.after hnodup hmem fun o ho => (hfresh o ho).1
    obtain ⟨hresult, hkept⟩ := hnext step hsimple hnew hallowed (hsimple.after hnew) hafter hr
    refine ⟨hresult, ?_⟩
    intro o ho hactive
    rcases SortedSet.mem_union.mp (hkept o ho hactive) with h | h
    · exact h
    · exact absurd hactive (hfresh o ((hmem o).mpr h)).2

theorem noncircular_of_mem_resolutions {excluded : SortedSet Occurrence} {reference : Occurrence}
    (hr : r ∈ q.resolutions excluded reference) : r.Noncircular := by
  obtain ⟨scope, -, hr⟩ := mem_resolutions_iff_exists.mp hr
  exact (noncircular_of_mem_continuations (Path.ofReference_simple _ _)
    Path.noncircular_ofReference hr).1

/-- A resolution that a query finds is made of the reference that is asked for, of the imports on its
way and of those that their resolutions go through, at any depth: no reference occurs twice among
them, and they are exactly the references of its path. -/
theorem resolve_noncircular (q : Query L) {reference : Occurrence}
    {found : Enumeration (Progress L) (ResolutionPath L)}
    (hresolve : q.resolve? reference = .ok found) :
    ∀ r ∈ found.toList, r.start = reference ∧ r.lineage.Nodup ∧
      ∀ o, o ∈ r.references ↔ o ∈ r.lineage := by
  intro r hr
  rw [toList_of_resolve? hresolve] at hr
  have hnoncircular := noncircular_of_mem_resolutions hr
  exact ⟨start_of_mem_resolutions hr, hnoncircular.nodup,
    fun o => (hnoncircular.mem_lineage o).symm⟩

/-- The scope of `x` imports `B`, which is declared in it, and `A`, which the import of `B` makes
visible. Only the module `A` declares an `x`. -/
def chainedImports : Query EdgeLabel where
  graph :=
    let graph := ((ScopeGraph.empty.declare ⟨0⟩ "B").2.associate ⟨"B", 0⟩ ⟨1⟩).declare ⟨1⟩ "A"
    let graph := (graph.2.associate ⟨"A", 1⟩ ⟨2⟩).declare ⟨2⟩ "x"
    let graph := (graph.2.importName ⟨0⟩ .importing "B").2.importName ⟨0⟩ .importing "A"
    (graph.2.refer ⟨0⟩ "x").2
  automaton := unknownImports.automaton
  start := unknownImports.start
  fits := Occurrence.sameName

namespace chainedImports

def resolutionB : ResolutionPath EdgeLabel := (Path.ofReference ⟨"B", 3⟩ ⟨0⟩).declaring ⟨"B", 0⟩

def resolutionA : ResolutionPath EdgeLabel :=
  ((Path.ofReference ⟨"A", 4⟩ ⟨0⟩).after (.named ⟨0⟩ .importing resolutionB ⟨1⟩)).declaring ⟨"A", 1⟩

def resolution : ResolutionPath EdgeLabel :=
  ((Path.ofReference ⟨"x", 5⟩ ⟨0⟩).after (.named ⟨0⟩ .importing resolutionA ⟨2⟩)).declaring ⟨"x", 2⟩

theorem mem_continuations_ending {active : SortedSet Occurrence} {path : ReferencePath EdgeLabel}
    (hsimple : path.Simple) {declaration : Occurrence}
    (hdeclared : declaration ∈ chainedImports.graph.declarationsOf path.target)
    (hfits : path.start.sameName declaration = true) :
    path.declaring declaration ∈ chainedImports.continuations active path chainedImports.start :=
  mem_continuations_iff.mpr
    ⟨rfl, .inl ((mem_endings_iff hsimple).mpr ⟨rfl, declaration, hdeclared, hfits, rfl⟩)⟩

/-- An import in the scope where a path ends leads on to the module that it resolves to. -/
theorem mem_continuations_named {active : SortedSet Occurrence} {path : ReferencePath EdgeLabel}
    (hsimple : path.Simple) {resolution r : ResolutionPath EdgeLabel} {target : Scope}
    (hnew : target ∉ path.scopes)
    (hallowed : chainedImports.Allows active path (.named path.target .importing resolution target))
    (hfound : resolution ∈
      chainedImports.resolutions (active.union path.references) resolution.start)
    (hr : r ∈ chainedImports.continuations active
      (path.after (.named path.target .importing resolution target)) chainedImports.start) :
    r ∈ chainedImports.continuations active path chainedImports.start := by
  apply mem_continuations_iff.mpr
  refine ⟨rfl, .inr ⟨(.importing, chainedImports.start), by decide +revert, ?_⟩⟩
  exact (mem_stepping hsimple).mpr
    ⟨rfl, .named path.target .importing resolution target, rfl, hnew, hallowed, hfound, hr⟩

theorem mem_resolutionsB (excluded : SortedSet Occurrence) :
    resolutionB ∈ chainedImports.resolutions excluded ⟨"B", 3⟩ := by
  have hscope : chainedImports.graph.scopeOf? ⟨"B", 3⟩ = some ⟨0⟩ := by decide
  rw [resolutions_of_scope hscope]
  exact mem_continuations_ending (Path.ofReference_simple _ _) (by decide) (by decide)

theorem mem_resolutionsA {excluded : SortedSet Occurrence} (h : ⟨"B", 3⟩ ∉ excluded) :
    resolutionA ∈ chainedImports.resolutions excluded ⟨"A", 4⟩ := by
  have hscope : chainedImports.graph.scopeOf? ⟨"A", 4⟩ = some ⟨0⟩ := by decide
  rw [resolutions_of_scope hscope]
  have hallowed : chainedImports.Allows (excluded.insert ⟨"A", 4⟩) (.ofReference ⟨"A", 4⟩ ⟨0⟩)
      (.named ⟨0⟩ .importing resolutionB ⟨1⟩) :=
    ⟨rfl, by decide, by simpa [resolutionB] using h, by decide, by decide⟩
  apply mem_continuations_named (Path.ofReference_simple _ _) (by decide) hallowed
    (mem_resolutionsB _)
  exact mem_continuations_ending ((Path.ofReference_simple _ _).after (by decide)) (by decide)
    (by decide)

theorem mem_resolutions : resolution ∈ chainedImports.resolutions .empty ⟨"x", 5⟩ := by
  have hscope : chainedImports.graph.scopeOf? ⟨"x", 5⟩ = some ⟨0⟩ := by decide
  rw [resolutions_of_scope hscope]
  have hallowed : chainedImports.Allows (.singleton ⟨"x", 5⟩) (.ofReference ⟨"x", 5⟩ ⟨0⟩)
      (.named ⟨0⟩ .importing resolutionA ⟨2⟩) :=
    ⟨rfl, by decide, by decide, by decide, by decide⟩
  apply mem_continuations_named (Path.ofReference_simple _ _) (by decide) hallowed
    (mem_resolutionsA (by decide))
  exact mem_continuations_ending ((Path.ofReference_simple _ _).after (by decide)) (by decide)
    (by decide)

end chainedImports

/-- An import that is resolved through another import. -/
theorem resolve_noncircular_chainedImports :
    ∃ found, chainedImports.resolve? ⟨"x", 5⟩ = .ok found ∧
      chainedImports.resolution ∈ found.toList ∧
        chainedImports.resolution.lineage = [⟨"x", 5⟩, ⟨"A", 4⟩, ⟨"B", 3⟩] ∧
          chainedImports.resolution.lineage.Nodup ∧
            ∀ o, o ∈ chainedImports.resolution.references ↔ o ∈ chainedImports.resolution.lineage := by
  obtain ⟨found, hresolve, hmem⟩ := exists_resolve?_of_mem chainedImports.mem_resolutions
  exact ⟨found, hresolve, hmem, by decide, (resolve_noncircular _ hresolve _ hmem).2⟩

end Query

end NameResolution

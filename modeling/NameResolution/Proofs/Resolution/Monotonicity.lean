import NameResolution.Proofs.Resolution.Noncircularity
import NameResolution.Proofs.ScopeGraph.Growth
import Mathlib.Data.List.Sort

namespace NameResolution

variable {L : Type} [DecidableEq L] [Label L]

theorem SortedSet.toList_sublist {α : Type} [Ord α] [Std.TransOrd α] [Std.LawfulEqOrd α]
    {s t : SortedSet α} (h : ∀ x ∈ s, x ∈ t) : s.toList.Sublist t.toList := by
  have hantisymm : Std.Antisymm fun x y : α => compare x y = .lt := by
    constructor
    intro x y hxy hyx
    have := Std.TransCmp.lt_trans hxy hyx
    simp at this
  exact List.sublist_of_subperm_of_pairwise (List.subperm_of_subset s.nodup_toList h) s.ascending
    t.ascending

theorem flatMap_sublist_flatMap {α β : Type} {l l' : List α} {f f' : α → List β}
    (h : l.Sublist l') (hf : ∀ x ∈ l, (f x).Sublist (f' x)) :
    (l.flatMap f).Sublist (l'.flatMap f') :=
  (List.Sublist.flatMap_right l hf).trans (h.flatMap f')

namespace Query

abbrev onGraph (q : Query L) (graph : ScopeGraph L) : Query L := { q with graph }

variable {q : Query L} {graph : ScopeGraph L} {active : SortedSet Occurrence}
  {path : ReferencePath L} {m : Matcher q.automaton}

theorem endings_sublist (h : q.graph.Contained graph) :
    (q.endings path m).Sublist ((q.onGraph graph).endings path m) := by
  unfold endings
  split
  · apply List.Sublist.filterMap
    exact SortedSet.toList_sublist (h.declarations path.target)
  · exact List.nil_sublist _

theorem along_sublist {step : ScopePath L}
    (h : ∀ path', path.join step = .ok path' →
      (q.continuations active path' m).Sublist ((q.onGraph graph).continuations active path' m)) :
    (q.along active path m step).Sublist ((q.onGraph graph).along active path m step) := by
  unfold along
  cases hjoin : path.join step with
  | error e => exact List.nil_sublist _
  | ok path' => exact h path' hjoin

theorem importing_sublist_onGraph {label : L} {reference : Occurrence}
    (h : q.graph.Contained graph)
    (hnext : ∀ resolution target path', target ∈ q.graph.associatedWith resolution.stop →
      path.join (.named path.target label resolution target) = .ok path' →
      (q.continuations active path' m).Sublist ((q.onGraph graph).continuations active path' m))
    (himport : ∀ scope, reference ∉ active → q.graph.scopeOf? reference = some scope →
      (q.continuations ((active.union path.references).insert reference)
        (.ofReference reference scope) q.start).Sublist
        ((q.onGraph graph).continuations ((active.union path.references).insert reference)
          (.ofReference reference scope) q.start)) :
    (q.importing active path label m reference).Sublist
      ((q.onGraph graph).importing active path label m reference) := by
  unfold importing
  split
  · exact List.nil_sublist _
  next hfree =>
  cases hscope : q.graph.scopeOf? reference with
  | none =>
    rw [resolutions_of_no_scope hscope]
    exact List.nil_sublist _
  | some scope =>
    -- the import is looked for in the same scope, and what it resolves to stands for no less
    have hscope' : (q.onGraph graph).graph.scopeOf? reference = some scope :=
      h.homes reference scope hscope
    rw [resolutions_of_scope hscope, resolutions_of_scope hscope']
    apply flatMap_sublist_flatMap (himport scope (fun ha => hfree (.inr ha)) hscope)
    intro resolution _
    apply flatMap_sublist_flatMap (SortedSet.toList_sublist (h.associations resolution.stop))
    intro target htarget
    exact along_sublist fun path' => hnext resolution target path' htarget

/-- A search finds no less in a graph that has more. -/
theorem continuations_sublist_onGraph (h : q.graph.Contained graph) :
    (q.continuations active path m).Sublist ((q.onGraph graph).continuations active path m) := by
  induction active, path using search_induction (q := q) generalizing m with
  | step active path hedge hnamed himport =>
    rw [continuations_eq, continuations_eq]
    split
    · exact List.nil_sublist _
    apply List.Sublist.append (endings_sublist h)
    apply List.Sublist.flatMap_right
    intro branch _
    unfold stepping
    split
    · exact List.nil_sublist _
    apply List.Sublist.append
    · apply flatMap_sublist_flatMap (SortedSet.toList_sublist (h.edges path.target branch.1))
      intro target htarget
      exact along_sublist fun path' hjoin => hedge branch.1 target path' htarget hjoin
    · apply flatMap_sublist_flatMap (SortedSet.toList_sublist (h.imports path.target branch.1))
      intro reference _
      apply importing_sublist_onGraph h
      · intro resolution target path' htarget hjoin
        exact hnamed branch.1 resolution target path' htarget hjoin
      · intro scope hactive hscope
        exact himport reference scope hactive hscope

/-- Additions to a graph lose no resolution of a reference, and leave those that it had in their
order. -/
theorem resolve_monotone (q : Query L) (hbuilt : ScopeGraph.Grows .empty q.graph)
    {graph : ScopeGraph L} (hgrows : ScopeGraph.Grows q.graph graph) {reference : Occurrence}
    {found : Enumeration (Progress L) (ResolutionPath L)}
    (hresolve : q.resolve? reference = .ok found) :
    ∃ found', (q.onGraph graph).resolve? reference = .ok found' ∧
      found.toList.Sublist found'.toList := by
  -- new occurrences have new positions, so the scopes of the old references stay
  have hcontained : q.graph.Contained graph :=
    hgrows.contained (hbuilt.numbered ScopeGraph.numbered_empty)
  obtain ⟨scope, hscope⟩ := exists_scope_of_resolve? hresolve
  have hscope' : (q.onGraph graph).graph.scopeOf? reference = some scope :=
    hcontained.homes reference scope hscope
  obtain ⟨found', hresolve', hfound'⟩ := exists_resolve? hscope'
  refine ⟨found', hresolve', ?_⟩
  rw [toList_of_resolve? hresolve, hfound', resolutions_of_scope hscope,
    resolutions_of_scope hscope']
  exact continuations_sublist_onGraph hcontained

/-- The scope of `x` with a declaration of its own, which is found before the imported one, and with
a further import. -/
def furtherImports : ScopeGraph EdgeLabel :=
  ((chainedImports.graph.declare ⟨0⟩ "x").2.importName ⟨0⟩ .importing "x").2

theorem resolve_monotone_furtherImports :
    ∃ found found', chainedImports.resolve? ⟨"x", 5⟩ = .ok found ∧
      chainedImports.resolution ∈ found.toList ∧
        (chainedImports.onGraph furtherImports).resolve? ⟨"x", 5⟩ = .ok found' ∧
          found.toList.Sublist found'.toList := by
  obtain ⟨found, hresolve, hmem⟩ := exists_resolve?_of_mem chainedImports.mem_resolutions
  have hbuilt : ScopeGraph.Grows .empty chainedImports.graph :=
    Relation.ReflTransGen.refl
      |>.tail (.declaration _ ⟨0⟩ "B") |>.tail (.association _ ⟨"B", 0⟩ ⟨1⟩)
      |>.tail (.declaration _ ⟨1⟩ "A") |>.tail (.association _ ⟨"A", 1⟩ ⟨2⟩)
      |>.tail (.declaration _ ⟨2⟩ "x") |>.tail (.importedName _ ⟨0⟩ EdgeLabel.importing "B")
      |>.tail (.importedName _ ⟨0⟩ EdgeLabel.importing "A") |>.tail (.reference _ ⟨0⟩ "x")
  have hgrows : ScopeGraph.Grows chainedImports.graph furtherImports :=
    Relation.ReflTransGen.refl
      |>.tail (.declaration _ ⟨0⟩ "x") |>.tail (.importedName _ ⟨0⟩ EdgeLabel.importing "x")
  obtain ⟨found', hresolve', hsublist⟩ := resolve_monotone chainedImports hbuilt hgrows hresolve
  exact ⟨found, found', hresolve, hmem, hresolve', hsublist⟩

end Query

end NameResolution

import NameResolution.Proofs.Resolution.Noncircularity

namespace NameResolution

variable {L : Type} [DecidableEq L] [Label L]

namespace Query

variable {q : Query L} {active excluded excluded' : SortedSet Occurrence} {path : ReferencePath L}
  {m : Matcher q.automaton} {r : ResolutionPath L} {reference : Occurrence}

/-- Where more is active, no more is found: what held up the search is active there as well. -/
theorem continuations_sublist {active' : SortedSet Occurrence} (h : ∀ o ∈ active, o ∈ active') :
    (q.continuations active' path m).Sublist (q.continuations active path m) := by
  have hexplores := explores_searchBy trusts_get? active path m .empty ImportTable.empty_sound
  apply hexplores.covers active'
  intro o _ hactive
  exact h o hactive

theorem resolutions_sublist (h : ∀ o ∈ excluded, o ∈ excluded') :
    (q.resolutions excluded' reference).Sublist (q.resolutions excluded reference) := by
  cases hscope : q.graph.scopeOf? reference with
  | none =>
    rw [resolutions_of_no_scope hscope]
    exact List.nil_sublist _
  | some scope =>
    rw [resolutions_of_scope hscope, resolutions_of_scope hscope]
    apply continuations_sublist
    intro o ho
    rcases SortedSet.mem_insert.mp ho with rfl | hexcluded
    · exact SortedSet.mem_insert.mpr (.inl rfl)
    · exact SortedSet.mem_insert.mpr (.inr (h o hexcluded))

/-- An import on the way of what is found below a path is on the path already, or it is taken by a
resolution that some search for it finds. -/
theorem mem_resolutions_of_named_mem (hsimple : path.Simple)
    (hr : r ∈ q.continuations active path m) {source target : Scope} {label : L}
    {resolution : ResolutionPath L} (hstep : .named source label resolution target ∈ r.steps) :
    .named source label resolution target ∈ path.steps ∨
      ∃ excluded, resolution ∈ q.resolutions excluded resolution.start := by
  induction active, path using allowed_induction (q := q) generalizing m with
  | step active path hnext _ =>
    rcases (mem_continuations_iff.mp hr).2 with hend | ⟨⟨_, m'⟩, -, hmem⟩
    · obtain ⟨-, declaration, -, -, rfl⟩ := (mem_endings_iff hsimple).mp hend
      exact .inl hstep
    obtain ⟨-, step, -, hnew, hallowed, hfound, hr⟩ := (mem_stepping hsimple).mp hmem
    rcases hnext step hsimple hnew hallowed (hsimple.after hnew) hr with hafter | hresolution
    · rcases List.mem_append.mp hafter with hpath | hlast
      · exact .inl hpath
      · -- the step itself: its resolution was found where the references of the path are excluded
        obtain rfl := List.mem_singleton.mp hlast
        exact .inr ⟨_, hfound⟩
    · exact .inr hresolution

/-- Where more references are excluded, the search for an import finds a part of what it finds
otherwise, in the same order and whatever the query has learned before. So whatever a query resolves,
each import on the way is taken by a resolution that a query for the import itself finds. -/
theorem excluding_finds_no_more (q : Query L) :
    (∀ reference scope excluded excluded' table table', q.graph.scopeOf? reference = some scope →
      (∀ o ∈ excluded, o ∈ excluded') → q.Reached table → q.Reached table' →
        (q.searchImport ImportTable.get? ⟨reference, excluded'⟩ scope table').toList.Sublist
          (q.searchImport ImportTable.get? ⟨reference, excluded⟩ scope table).toList) ∧
    ∀ reference found, q.resolve? reference = .ok found → ∀ r ∈ found.toList,
      ∀ source label resolution target, .named source label resolution target ∈ r.steps →
        ∃ found', q.resolve? resolution.start = .ok found' ∧ resolution ∈ found'.toList := by
  constructor
  · intro reference scope excluded excluded' table table' hscope hsubset htable htable'
    rw [toList_searchImport trusts_get? htable.sound hscope,
      toList_searchImport trusts_get? htable'.sound hscope]
    exact resolutions_sublist hsubset
  · intro reference found hresolve r hr source label resolution target hstep
    rw [toList_of_resolve? hresolve] at hr
    obtain ⟨scope, -, hr⟩ := mem_resolutions_iff_exists.mp hr
    rcases mem_resolutions_of_named_mem (Path.ofReference_simple _ _) hr hstep with
      hpath | ⟨excluded, hfound⟩
    · cases hpath
    · -- nothing is excluded where the import is asked for by itself
      have hsublist : (q.resolutions excluded resolution.start).Sublist
          (q.resolutions .empty resolution.start) := by
        apply resolutions_sublist
        intro o ho
        exact absurd ho SortedSet.not_mem_empty
      exact exists_resolve?_of_mem (hsublist.mem hfound)

/-- The import of `A` where `x` is resolved through it, and by itself. -/
theorem excluding_finds_no_more_chainedImports :
    chainedImports.resolutionA ∈ (chainedImports.searchImport ImportTable.get?
        ⟨⟨"A", 4⟩, .singleton ⟨"x", 5⟩⟩ ⟨0⟩ .empty).toList ∧
      (chainedImports.searchImport ImportTable.get?
        ⟨⟨"A", 4⟩, .singleton ⟨"x", 5⟩⟩ ⟨0⟩ .empty).toList.Sublist
          (chainedImports.searchImport ImportTable.get? ⟨⟨"A", 4⟩, .empty⟩ ⟨0⟩ .empty).toList ∧
      ∃ found, chainedImports.resolve? ⟨"x", 5⟩ = .ok found ∧
        chainedImports.resolution ∈ found.toList ∧
          ∃ found', chainedImports.resolve? ⟨"A", 4⟩ = .ok found' ∧
            chainedImports.resolutionA ∈ found'.toList := by
  have hscope : chainedImports.graph.scopeOf? ⟨"A", 4⟩ = some ⟨0⟩ := by decide
  obtain ⟨hfewer, hembedded⟩ := excluding_finds_no_more chainedImports
  obtain ⟨found, hresolve, hmem⟩ := exists_resolve?_of_mem chainedImports.mem_resolutions
  refine ⟨?_, ?_, found, hresolve, hmem, ?_⟩
  · rw [toList_searchImport trusts_get? ImportTable.empty_sound hscope]
    exact chainedImports.mem_resolutionsA (by decide)
  · exact hfewer _ _ _ _ _ _ hscope (fun o ho => absurd ho SortedSet.not_mem_empty) .empty .empty
  · exact hembedded _ found hresolve _ hmem ⟨0⟩ .importing _ ⟨2⟩ List.mem_cons_self

end Query

end NameResolution

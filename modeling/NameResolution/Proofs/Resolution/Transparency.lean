import NameResolution.Proofs.Resolution.Blocking

namespace NameResolution

variable {L : Type} [DecidableEq L] [Label L]

/-- To consult nothing: every import is searched for afresh. -/
def ImportTable.forget (_ : ImportTable L) (_ : ImportKey) : Option (ResolvedImport L) := none

theorem Enumeration.andThen_congr {σ α : Type} {e : Enumeration σ α}
    {next next' : σ → Enumeration σ α} (h : next e.final = next' e.final) :
    e.andThen next = e.andThen next' := by
  induction e with
  | done s => exact h
  | found a rest ih =>
    unfold andThen
    congr 1
    funext u
    exact ih u h

namespace Query

variable {q : Query L} {consult : ImportTable L → ImportKey → Option (ResolvedImport L)}

/-- The tables that searches fill, from an empty one on. -/
inductive Reached (q : Query L) : ImportTable L → Prop where
  | empty : q.Reached .empty
  | record {table : ImportTable L} {key : ImportKey} {scope : Scope} (h : q.Reached table)
      (hscope : q.graph.scopeOf? key.reference = some scope) :
      q.Reached (ImportTable.record key (q.searchImport ImportTable.get? key scope table)).2

theorem trusts_forget : q.Trusts ImportTable.forget := by
  intro table key resolved _ h
  cases h

theorem Reached.sound {table : ImportTable L} (h : q.Reached table) : table.Sound q := by
  induction h with
  | empty => exact ImportTable.empty_sound
  | record _ hscope ih =>
    -- the table after a search is sound, and its outcome is justified
    exact (justified_record hscope (explores_searchBy trusts_get? _ _ q.start ⟨_, .empty⟩ ih)).2

/-- A search for an import finds its resolutions, whatever justified outcomes it recalls. -/
theorem toList_searchImport {key : ImportKey} {scope : Scope} {table : ImportTable L}
    (hconsult : q.Trusts consult) (htable : table.Sound q)
    (hscope : q.graph.scopeOf? key.reference = some scope) :
    (q.searchImport consult key scope table).toList = q.resolutions key.excluded key.reference := by
  rw [resolutions_of_scope hscope]
  exact (explores_searchBy hconsult _ _ q.start ⟨table, .empty⟩ htable).toList_eq

theorem toList_resolveBy? (hconsult : q.Trusts consult) {reference : Occurrence} {scope : Scope}
    (hscope : q.graph.scopeOf? reference = some scope) :
    (q.resolveBy? consult reference).map Enumeration.toList =
      .ok (q.resolutions .empty reference) := by
  simp only [resolveBy?, hscope, Except.map]
  rw [resolutions_of_scope hscope]
  exact congrArg _ (explores_searchBy hconsult _ _ q.start .empty ImportTable.empty_sound).toList_eq

theorem exists_scope_of_resolve? {reference : Occurrence}
    {found : Enumeration (Progress L) (ResolutionPath L)} (h : q.resolve? reference = .ok found) :
    ∃ scope, q.graph.scopeOf? reference = some scope := by
  cases hscope : q.graph.scopeOf? reference with
  | none =>
    rw [resolve?, resolveBy?, hscope] at h
    cases h
  | some scope => exact ⟨scope, rfl⟩

theorem toList_of_resolve? {reference : Occurrence}
    {found : Enumeration (Progress L) (ResolutionPath L)} (h : q.resolve? reference = .ok found) :
    found.toList = q.resolutions .empty reference := by
  obtain ⟨scope, hscope⟩ := exists_scope_of_resolve? h
  have hfound := toList_resolveBy? trusts_get? hscope
  rw [← resolve?, h] at hfound
  exact Except.ok.inj hfound

/-- A reference of the graph is resolved. -/
theorem exists_resolve? {reference : Occurrence} {scope : Scope}
    (hscope : q.graph.scopeOf? reference = some scope) :
    ∃ found, q.resolve? reference = .ok found ∧ found.toList = q.resolutions .empty reference := by
  have hresolve : ∃ found, q.resolve? reference = .ok found := by
    rw [resolve?, resolveBy?, hscope]
    exact ⟨_, rfl⟩
  obtain ⟨found, hresolve⟩ := hresolve
  exact ⟨found, hresolve, toList_of_resolve? hresolve⟩

theorem exists_resolve?_of_mem {reference : Occurrence} {r : ResolutionPath L}
    (hr : r ∈ q.resolutions .empty reference) :
    ∃ found, q.resolve? reference = .ok found ∧ r ∈ found.toList := by
  cases hscope : q.graph.scopeOf? reference with
  | none =>
    rw [resolutions_of_no_scope hscope] at hr
    cases hr
  | some scope =>
    obtain ⟨found, hresolve, hfound⟩ := exists_resolve? hscope
    exact ⟨found, hresolve, hfound ▸ hr⟩

def Agree (q : Query L) (part part' : Progress L → Enumeration (Progress L) (ResolutionPath L)) :
    Prop :=
  ∀ progress, q.Reached progress.table →
    part progress = part' progress ∧ q.Reached (part' progress).final.table

namespace Agree

theorem ofList (l : List (ResolutionPath L)) : q.Agree (.ofList l) (.ofList l) := by
  intro progress h
  exact ⟨rfl, by simpa using h⟩

theorem done : q.Agree .done .done := ofList []

theorem andThen {first first' second second' : Progress L →
      Enumeration (Progress L) (ResolutionPath L)}
    (h : q.Agree first first') (h' : q.Agree second second') :
    q.Agree (fun progress => (first progress).andThen second)
      (fun progress => (first' progress).andThen second') := by
  intro progress hreached
  obtain ⟨heq, hfinal⟩ := h progress hreached
  obtain ⟨heq', hfinal'⟩ := h' (first' progress).final hfinal
  constructor
  · dsimp only
    rw [heq]
    exact Enumeration.andThen_congr heq'
  · simpa only [Enumeration.final_andThen] using hfinal'

theorem each {β : Type} {l : List β}
    {part part' : β → Progress L → Enumeration (Progress L) (ResolutionPath L)}
    (h : ∀ b ∈ l, q.Agree (part b) (part' b)) : q.Agree (.each l part) (.each l part') := by
  induction l with
  | nil => exact done
  | cons b bs ih =>
    exact andThen (h b List.mem_cons_self) (ih fun b' hb' => h b' (List.mem_cons_of_mem _ hb'))

end Agree

theorem agree_along {active : SortedSet Occurrence} {path : ReferencePath L}
    {m : Matcher q.automaton} {step : ScopePath L}
    (h : ∀ path', path.join step = .ok path' →
      q.Agree (q.searchBy consult active path' m) (q.searchBy ImportTable.get? active path' m)) :
    q.Agree (q.searchAlong consult active path m step)
      (q.searchAlong ImportTable.get? active path m step) := by
  intro progress hreached
  cases hjoin : path.join step with
  | error e =>
    simp only [searchAlong, hjoin, true_and]
    exact hreached
  | ok path' =>
    simp only [searchAlong, hjoin]
    exact h path' hjoin progress hreached

theorem agree_resolveImport (key : ImportKey) {scope : Scope} {table : ImportTable L}
    (hconsult : ∀ table, q.Reached table → consult table = table.get?) (hreached : q.Reached table)
    (hscope : q.graph.scopeOf? key.reference = some scope)
    (h : q.Agree
      (q.searchBy consult (key.excluded.insert key.reference) (.ofReference key.reference scope)
        q.start)
      (q.searchBy ImportTable.get? (key.excluded.insert key.reference)
        (.ofReference key.reference scope) q.start)) :
    q.resolveImport consult key scope table = q.resolveImport ImportTable.get? key scope table ∧
      q.Reached (q.resolveImport ImportTable.get? key scope table).2 := by
  unfold resolveImport
  rw [hconsult table hreached]
  cases table.get? key with
  | some resolved => exact ⟨rfl, hreached⟩
  | none =>
    -- the search starts from a reached table, and its outcome makes the next one
    have hsearch : q.searchImport consult key scope table =
        q.searchImport ImportTable.get? key scope table := (h ⟨table, .empty⟩ hreached).1
    dsimp only
    rw [hsearch]
    exact ⟨rfl, Reached.record hreached hscope⟩

theorem agree_importing {active : SortedSet Occurrence} {path : ReferencePath L} {label : L}
    {m : Matcher q.automaton} {reference : Occurrence}
    (hconsult : ∀ table, q.Reached table → consult table = table.get?)
    (hnext : ∀ resolution target path', target ∈ q.graph.associatedWith resolution.stop →
      path.join (.named path.target label resolution target) = .ok path' →
      q.Agree (q.searchBy consult active path' m) (q.searchBy ImportTable.get? active path' m))
    (himport : ∀ scope, reference ∉ active → q.graph.scopeOf? reference = some scope →
      q.Agree
        (q.searchBy consult ((active.union path.references).insert reference)
          (.ofReference reference scope) q.start)
        (q.searchBy ImportTable.get? ((active.union path.references).insert reference)
          (.ofReference reference scope) q.start)) :
    q.Agree (q.searchImporting consult active path label m reference)
      (q.searchImporting ImportTable.get? active path label m reference) := by
  intro progress hreached
  unfold searchImporting
  split
  · exact Agree.done progress hreached
  split
  · exact ⟨rfl, hreached⟩
  next hactive =>
  cases hscope : q.graph.scopeOf? reference with
  | none => exact Agree.done progress hreached
  | some scope =>
    obtain ⟨heq, hafter⟩ := agree_resolveImport ⟨reference, active.union path.references⟩
      hconsult hreached hscope (himport scope hactive hscope)
    dsimp only
    rw [heq]
    refine Agree.each (fun resolution _ => ?_) ⟨_, _⟩ hafter
    apply Agree.each
    intro target htarget
    exact agree_along fun path' => hnext resolution target path' htarget

/-- Only tables that are reached are consulted. -/
theorem agree_searchBy (hconsult : ∀ table, q.Reached table → consult table = table.get?)
    (active : SortedSet Occurrence) (path : ReferencePath L) (m : Matcher q.automaton) :
    q.Agree (q.searchBy consult active path m) (q.searchBy ImportTable.get? active path m) := by
  induction active, path using search_induction (q := q) generalizing m with
  | step active path hedge hnamed himport =>
    simp only [funext (q.searchBy_eq _ active path m)]
    split
    · exact Agree.done
    apply Agree.andThen (Agree.ofList _)
    apply Agree.each
    intro branch _ progress hreached
    unfold searchStepping
    split
    · exact Agree.done progress hreached
    refine Agree.andThen ?_ ?_ progress hreached
    · apply Agree.each
      intro target htarget
      exact agree_along fun path' h => hedge branch.1 target path' htarget h branch.2
    · apply Agree.each
      intro reference _
      apply agree_importing hconsult
      · intro resolution target path' htarget h
        exact hnamed branch.1 resolution target path' htarget h branch.2
      · intro scope h hscope
        exact himport reference scope h hscope q.start

/-- A query finds the same resolutions in the same order if every import is searched for afresh. It
consults the table only in reached states, and there a recalled import has exactly the resolutions
of a fresh search for it: none at all once the exclusions cover those of a fruitless search. -/
theorem importTable_transparent (q : Query L) (reference : Occurrence) :
    (q.resolve? reference).map Enumeration.toList =
        (q.resolveBy? ImportTable.forget reference).map Enumeration.toList ∧
      (∀ consult : ImportTable L → ImportKey → Option (ResolvedImport L),
        (∀ table, q.Reached table → consult table = table.get?) →
          q.resolveBy? consult reference = q.resolve? reference) ∧
      ∀ table key scope, q.Reached table → q.graph.scopeOf? key.reference = some scope →
        (∀ resolved, table.get? key = some resolved →
          resolved.resolutions = (q.searchImport ImportTable.forget key scope .empty).toList) ∧
        ∀ blocked, (key.reference, blocked) ∈ table.fruitless → blocked.isSubset key.excluded →
          (q.searchImport ImportTable.forget key scope .empty).toList = [] := by
  refine ⟨?_, ?_, ?_⟩
  · cases hscope : q.graph.scopeOf? reference with
    | none => simp only [resolve?, resolveBy?, hscope, Except.map]
    | some scope =>
      rw [toList_resolveBy? trusts_forget hscope]
      exact toList_resolveBy? trusts_get? hscope
  · intro consult hconsult
    unfold resolve? resolveBy?
    cases q.graph.scopeOf? reference with
    | none => rfl
    | some scope => exact congrArg _ (agree_searchBy hconsult _ _ q.start .empty .empty).1
  · intro table key scope hreached hscope
    rw [toList_searchImport trusts_forget ImportTable.empty_sound hscope]
    constructor
    · intro resolved hget
      exact (hreached.sound.justified hget).resolutions_eq
    · intro blocked hmem hsub
      exact hreached.sound.fruitless key.reference blocked hmem key.excluded
        (SortedSet.isSubset_iff.mp hsub)

/-- Two imports of unknown names in one scope, where every word of imports leads to declarations. -/
def unknownImports : Query EdgeLabel where
  graph :=
    let graph := (ScopeGraph.empty.addScope).2
    ((graph.importName ⟨0⟩ .importing "a").2.importName ⟨0⟩ .importing "b").2
  automaton := {
    regex := .star (.symbol .importing)
    alphabet := ⟨[.importing], by decide⟩
    size := 1
    states := #v[⟨.star (.symbol .importing), true, true, #v[0]⟩]
    initial := 0 }
  start := ⟨0⟩
  fits := Occurrence.sameName

theorem search_unknownImports (consult table) :
    unknownImports.searchImport consult ⟨⟨"b", 1⟩, .singleton ⟨"a", 0⟩⟩ ⟨0⟩ table =
      .done ⟨table, .singleton ⟨"a", 0⟩⟩ := by
  rw [searchImport, searchBy_eq]
  rfl

/-- A fruitless search that one import held up serves wherever that import is excluded. -/
theorem importTable_transparent_unknownImports :
    ∃ table, unknownImports.Reached table ∧
      (⟨"b", 1⟩, .singleton ⟨"a", 0⟩) ∈ table.fruitless ∧
      (unknownImports.searchImport ImportTable.forget
        ⟨⟨"b", 1⟩, (SortedSet.singleton ⟨"a", 0⟩).insert ⟨"c", 2⟩⟩ ⟨0⟩ .empty).toList = [] := by
  have hscope : unknownImports.graph.scopeOf? ⟨"b", 1⟩ = some ⟨0⟩ := by decide
  have hreached : unknownImports.Reached (ImportTable.record ⟨⟨"b", 1⟩, .singleton ⟨"a", 0⟩⟩ _).2 :=
    .record .empty hscope
  rw [search_unknownImports] at hreached
  have hmem : (⟨"b", 1⟩, .singleton ⟨"a", 0⟩) ∈ (ImportTable.record (L := EdgeLabel)
      ⟨⟨"b", 1⟩, .singleton ⟨"a", 0⟩⟩ (.done ⟨.empty, .singleton ⟨"a", 0⟩⟩)).2.fruitless := by
    decide
  exact ⟨_, hreached, hmem, ((importTable_transparent unknownImports ⟨"b", 1⟩).2.2 _ _ _ hreached
    hscope).2 _ hmem (by decide)⟩

end Query

end NameResolution

import Mathlib.Data.List.Flatten
import NameResolution.Proofs.Resolution.Continuations
import NameResolution.Proofs.Resolution.Stepwise

namespace NameResolution

variable {L : Type} [DecidableEq L] [Label L]

/-- What is kept for an import is what its search finds, and wherever the references that held up
that search are excluded, no more is found. -/
structure Query.Justified (q : Query L) (key : ImportKey) (resolved : ResolvedImport L) : Prop where
  resolutions_eq : resolved.resolutions = q.resolutions key.excluded key.reference
  blocked_subset : ∀ o ∈ resolved.blocked, o ∈ key.excluded
  covers : ∀ excluded, (∀ o ∈ resolved.blocked, o ∈ excluded) →
    (q.resolutions excluded key.reference).Sublist resolved.resolutions

structure ImportTable.Sound (q : Query L) (table : ImportTable L) : Prop where
  resolved : ∀ key resolved, table.resolved[key]? = some resolved → q.Justified key resolved
  fruitless : ∀ reference blocked, (reference, blocked) ∈ table.fruitless →
    ∀ excluded, (∀ o ∈ blocked, o ∈ excluded) → q.resolutions excluded reference = []

namespace ImportTable

variable {q : Query L} {table : ImportTable L} {key : ImportKey} {resolved : ResolvedImport L}

theorem empty_sound : (empty : ImportTable L).Sound q where
  resolved key resolved h := by simp [empty] at h
  fruitless reference blocked h := by simp [empty] at h

theorem Sound.justified (h : table.Sound q) (hget : table.get? key = some resolved) :
    q.Justified key resolved := by
  unfold get? at hget
  split at hget
  · next kept hkept =>
    cases hget
    exact h.resolved key resolved hkept
  · obtain ⟨⟨reference, blocked⟩, hfind, rfl⟩ := Option.map_eq_some_iff.mp hget
    have hmem := List.mem_of_find?_eq_some hfind
    have hfits := List.find?_some hfind
    simp only [Bool.and_eq_true, decide_eq_true_eq, SortedSet.isSubset_iff] at hfits
    obtain ⟨rfl, hsub⟩ := hfits
    have hnone := h.fruitless key.reference blocked hmem
    refine ⟨(hnone key.excluded hsub).symm, hsub, ?_⟩
    intro excluded hexcluded
    show (q.resolutions excluded key.reference).Sublist []
    exact hnone excluded hexcluded ▸ List.Sublist.refl []

theorem Sound.insert (h : table.Sound q) (hj : q.Justified key resolved) :
    (table.insert key resolved).Sound q where
  resolved key' resolved' hget := by
    simp only [ImportTable.insert, Std.TreeMap.getElem?_insert] at hget
    split at hget
    · next heq =>
      obtain rfl := Std.LawfulEqOrd.eq_of_compare heq
      cases hget
      exact hj
    · exact h.resolved key' resolved' hget
  fruitless reference blocked hmem excluded hexcluded := by
    simp only [ImportTable.insert] at hmem
    split at hmem
    · next hempty =>
      rcases List.mem_append.mp hmem with hmem | hmem
      · exact h.fruitless reference blocked hmem excluded hexcluded
      · obtain ⟨rfl, rfl⟩ := Prod.mk.inj (List.mem_singleton.mp hmem)
        have hsub := hj.covers excluded hexcluded
        rw [List.isEmpty_iff.mp hempty] at hsub
        exact List.sublist_nil.mp hsub
    · exact h.fruitless reference blocked hmem excluded hexcluded

end ImportTable

namespace Query

variable {q : Query L} {active : SortedSet Occurrence} {progress : Progress L}

/-- An enumeration finds `found active`, and passes on a sound table and the active references that
held it up: where they are active as well, no more would be found. -/
structure Finds (q : Query L) (active : SortedSet Occurrence)
    (found : SortedSet Occurrence → List (ResolutionPath L)) (progress : Progress L)
    (e : Enumeration (Progress L) (ResolutionPath L)) : Prop where
  toList_eq : e.toList = found active
  sound : e.final.table.Sound q
  blocked : ∀ o ∈ progress.blocked, o ∈ e.final.blocked
  covers : ∀ other, (∀ o ∈ e.final.blocked, o ∈ active → o ∈ other) →
    (found other).Sublist (found active)

/-- A part of a search finds `found active`, whatever sound table it starts from. -/
def Explores (q : Query L) (active : SortedSet Occurrence)
    (found : SortedSet Occurrence → List (ResolutionPath L))
    (part : Progress L → Enumeration (Progress L) (ResolutionPath L)) : Prop :=
  ∀ progress, progress.table.Sound q → q.Finds active found progress (part progress)

namespace Explores

theorem ofList (l : List (ResolutionPath L)) :
    q.Explores active (fun _ => l) (.ofList l) := by
  intro progress h
  refine ⟨by simp, by simpa using h, by simp, ?_⟩
  intro other _
  exact List.Sublist.refl l

theorem done : q.Explores active (fun _ => []) .done := ofList []

theorem andThen {found found' : SortedSet Occurrence → List (ResolutionPath L)}
    {part part' : Progress L → Enumeration (Progress L) (ResolutionPath L)}
    (h : q.Explores active found part) (h' : q.Explores active found' part') :
    q.Explores active (fun a => found a ++ found' a) fun progress =>
      (part progress).andThen part' := by
  intro progress hsound
  have first := h progress hsound
  have second := h' (part progress).final first.sound
  refine ⟨?_, ?_, ?_, ?_⟩
  · simp only [Enumeration.toList_andThen, first.toList_eq, second.toList_eq]
  · simpa only [Enumeration.final_andThen] using second.sound
  · intro o ho
    rw [Enumeration.final_andThen]
    exact second.blocked o (first.blocked o ho)
  · intro other hother
    rw [Enumeration.final_andThen] at hother
    apply List.Sublist.append
    · exact first.covers other fun o ho => hother o (second.blocked o ho)
    · exact second.covers other hother

theorem each {β : Type} {l : List β} {found : β → SortedSet Occurrence → List (ResolutionPath L)}
    {part : β → Progress L → Enumeration (Progress L) (ResolutionPath L)}
    (h : ∀ b ∈ l, q.Explores active (found b) (part b)) :
    q.Explores active (fun a => l.flatMap fun b => found b a) (.each l part) := by
  induction l with
  | nil => exact done
  | cons b bs ih =>
    simp only [List.flatMap_cons]
    exact andThen (h b List.mem_cons_self) (ih fun b' hb' => h b' (List.mem_cons_of_mem _ hb'))

end Explores

variable {consult : ImportTable L → ImportKey → Option (ResolvedImport L)}

def Trusts (q : Query L) (consult : ImportTable L → ImportKey → Option (ResolvedImport L)) : Prop :=
  ∀ table key resolved, table.Sound q → consult table key = some resolved → q.Justified key resolved

theorem trusts_get? : q.Trusts ImportTable.get? := fun _ _ _ => ImportTable.Sound.justified

theorem explores_along {path : ReferencePath L} {m : Matcher q.automaton} {step : ScopePath L}
    (h : ∀ path', path.join step = .ok path' → q.Explores active
      (fun a => q.continuations a path' m) (q.searchBy consult active path' m)) :
    q.Explores active (fun a => q.along a path m step)
      (q.searchAlong consult active path m step) := by
  intro progress hsound
  cases hjoin : path.join step with
  | error e =>
    simp only [along, searchAlong, hjoin]
    exact Explores.done progress hsound
  | ok path' =>
    simp only [along, searchAlong, hjoin]
    exact h path' hjoin progress hsound

/-- A finished search for an import justifies its outcome: what held it up is excluded or is the
imported reference, which is active whenever it is searched for. -/
theorem justified_record {key : ImportKey} {scope : Scope}
    {search : Enumeration (Progress L) (ResolutionPath L)}
    (hscope : q.graph.scopeOf? key.reference = some scope)
    (h : q.Finds (key.excluded.insert key.reference)
      (fun a => q.continuations a (.ofReference key.reference scope) q.start) progress search) :
    q.Justified key (ImportTable.record key search).1 ∧
      (ImportTable.record key search).2.Sound q := by
  have justified : q.Justified key (ImportTable.record key search).1 := by
    have hfound : search.toList = q.resolutions key.excluded key.reference :=
      h.toList_eq.trans (resolutions_of_scope hscope).symm
    refine ⟨hfound, ?_, ?_⟩
    · intro o ho
      simpa using (SortedSet.mem_filter.mp ho).2
    · intro excluded hexcluded
      rw [resolutions_of_scope hscope]
      apply (h.covers (excluded.insert key.reference) ?_).trans
      · rw [← h.toList_eq]
        exact List.Sublist.refl _
      · -- the reference itself is active in both searches, so only excluded ones are asked for
        intro o ho hactive
        rcases SortedSet.mem_insert.mp hactive with rfl | hkey
        · simp
        · have := hexcluded o (SortedSet.mem_filter.mpr ⟨ho, by simpa using hkey⟩)
          exact SortedSet.mem_insert.mpr (.inr this)
  exact ⟨justified, h.sound.insert justified⟩

theorem justified_resolveImport (key : ImportKey) {scope : Scope} {table : ImportTable L}
    (hconsult : q.Trusts consult) (hscope : q.graph.scopeOf? key.reference = some scope)
    (htable : table.Sound q)
    (h : q.Explores (key.excluded.insert key.reference)
      (fun a => q.continuations a (.ofReference key.reference scope) q.start)
      (q.searchBy consult (key.excluded.insert key.reference) (.ofReference key.reference scope)
        q.start)) :
    q.Justified key (q.resolveImport consult key scope table).1 ∧
      (q.resolveImport consult key scope table).2.Sound q := by
  unfold resolveImport
  cases hget : consult table key with
  | some resolved => exact ⟨hconsult table key resolved htable hget, htable⟩
  | none => exact justified_record hscope (h ⟨table, .empty⟩ htable)

/-- Where the active references that held up the search for an import are active as well, no more is
found through it: the others that it must not go through are on the path in any case. -/
theorem importing_sublist {other : SortedSet Occurrence} {path : ReferencePath L} {label : L}
    {m : Matcher q.automaton} {reference : Occurrence} {resolved : ResolvedImport L}
    (justified : q.Justified ⟨reference, active.union path.references⟩ resolved)
    (hother : ∀ o ∈ resolved.blocked, o ∈ active → o ∈ other) :
    (q.importing other path label m reference).Sublist
      (resolved.resolutions.flatMap (q.through other path label m)) := by
  unfold importing
  split
  · exact List.nil_sublist _
  · apply List.Sublist.flatMap
    apply justified.covers
    intro o ho
    rcases SortedSet.mem_union.mp (justified.blocked_subset o ho) with hactive | hpath
    · exact SortedSet.mem_union.mpr (.inl (hother o ho hactive))
    · exact SortedSet.mem_union.mpr (.inr hpath)

theorem explores_importing {path : ReferencePath L} {label : L} {m : Matcher q.automaton}
    {reference : Occurrence} (hconsult : q.Trusts consult)
    (hnext : ∀ resolution target path', target ∈ q.graph.associatedWith resolution.stop →
      path.join (.named path.target label resolution target) = .ok path' → q.Explores active
        (fun a => q.continuations a path' m) (q.searchBy consult active path' m))
    (himport : ∀ scope, reference ∉ active → q.graph.scopeOf? reference = some scope →
      q.Explores ((active.union path.references).insert reference)
        (fun a => q.continuations a (.ofReference reference scope) q.start)
        (q.searchBy consult ((active.union path.references).insert reference)
          (.ofReference reference scope) q.start)) :
    q.Explores active (fun a => q.importing a path label m reference)
      (q.searchImporting consult active path label m reference) := by
  intro progress hsound
  by_cases hpath : reference ∈ path.references
  · simp only [importing, searchImporting, hpath, true_or, if_true]
    exact Explores.done progress hsound
  by_cases hactive : reference ∈ active
  · -- this is where an active reference holds up the search, and it is noted
    simp only [searchImporting, hpath, hactive, if_false, if_true]
    refine ⟨by simp [importing, hactive], hsound, ?_, ?_⟩
    · intro o ho
      exact SortedSet.mem_insert.mpr (.inr ho)
    · intro other hother
      have := hother reference (SortedSet.mem_insert.mpr (.inl rfl)) hactive
      simp [importing, this]
  cases hscope : q.graph.scopeOf? reference with
  | none =>
    simp only [searchImporting, hpath, hactive, if_false, hscope]
    simp only [importing, resolutions_of_no_scope hscope, List.flatMap_nil, ite_self]
    exact Explores.done progress hsound
  | some scope =>
    simp only [searchImporting, hpath, hactive, if_false, hscope]
    -- from here on it does not matter whether the outcome was recalled or searched for
    obtain ⟨justified, sound⟩ := justified_resolveImport ⟨reference, active.union path.references⟩
      hconsult hscope hsound (himport scope hactive hscope)
    generalize q.resolveImport consult ⟨reference, active.union path.references⟩ scope
      progress.table = outcome at justified sound ⊢
    have rest : q.Explores active
        (fun a => outcome.1.resolutions.flatMap (q.through a path label m))
        (.each outcome.1.resolutions (q.searchThrough consult active path label m)) := by
      apply Explores.each
      intro resolution _
      apply Explores.each
      intro target htarget
      exact explores_along fun path' => hnext resolution target path' htarget
    have rest := rest ⟨outcome.2, progress.blocked.union outcome.1.blocked⟩ sound
    have hfound : q.importing active path label m reference =
        outcome.1.resolutions.flatMap (q.through active path label m) := by
      simp only [importing, hpath, hactive, or_self, if_false, justified.resolutions_eq]
    refine ⟨rest.toList_eq.trans hfound.symm, rest.sound, ?_, ?_⟩
    · intro o ho
      exact rest.blocked o (SortedSet.mem_union.mpr (.inl ho))
    · intro other hother
      rw [hfound]
      apply List.Sublist.trans _ (rest.covers other hother)
      apply importing_sublist justified
      intro o ho
      exact hother o (rest.blocked o (SortedSet.mem_union.mpr (.inr ho)))

/-- A search finds the continuations of its path if what it recalls is justified. -/
theorem explores_searchBy (hconsult : q.Trusts consult) (active : SortedSet Occurrence)
    (path : ReferencePath L) (m : Matcher q.automaton) :
    q.Explores active (fun a => q.continuations a path m) (q.searchBy consult active path m) := by
  -- along the search itself: over edges, over imports, and into the searches for them
  induction active, path using search_induction (q := q) generalizing m with
  | step active path hedge hnamed himport =>
    simp only [continuations_eq, funext (q.searchBy_eq consult active path m)]
    split
    · exact Explores.done
    · apply Explores.andThen (Explores.ofList _)
      apply Explores.each
      intro branch _ progress hsound
      unfold stepping searchStepping
      split
      · exact Explores.done progress hsound
      · refine Explores.andThen ?_ ?_ progress hsound
        · apply Explores.each
          intro target htarget
          exact explores_along fun path' h => hedge branch.1 target path' htarget h branch.2
        · apply Explores.each
          intro reference _
          apply explores_importing hconsult
          · intro resolution target path' htarget h
            exact hnamed branch.1 resolution target path' htarget h branch.2
          · intro scope h hscope
            exact himport reference scope h hscope q.start

end Query

end NameResolution

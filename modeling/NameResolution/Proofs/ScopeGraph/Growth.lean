import Mathlib.Logic.Relation
import NameResolution.Multimap.Lemmas
import NameResolution.ScopeGraph

namespace NameResolution.ScopeGraph

variable {L : Type} [DecidableEq L] [Label L] {graph graph' graph'' : ScopeGraph L}

inductive Addition : ScopeGraph L → ScopeGraph L → Prop
  | scope (graph : ScopeGraph L) : Addition graph graph.addScope.2
  | declaration (graph : ScopeGraph L) (scope : Scope) (name : String) :
    Addition graph (graph.declare scope name).2
  | reference (graph : ScopeGraph L) (scope : Scope) (name : String) :
    Addition graph (graph.refer scope name).2
  | edge (graph : ScopeGraph L) (source : Scope) (label : L) (target : Scope) :
    Addition graph (graph.connect source label target)
  | importedName (graph : ScopeGraph L) (scope : Scope) (label : L) (name : String) :
    Addition graph (graph.importName scope label name).2
  | association (graph : ScopeGraph L) (declaration : Occurrence) (scope : Scope) :
    Addition graph (graph.associate declaration scope)

def Grows : ScopeGraph L → ScopeGraph L → Prop := Relation.ReflTransGen Addition

/-- The next position is after those of all references. -/
def Numbered (graph : ScopeGraph L) : Prop :=
  ∀ reference scope, graph.scopeOf? reference = some scope →
    reference.position < graph.occurrenceCount

/-- What one graph has, another has as well, and each reference is in the same scope. -/
structure Contained (graph graph' : ScopeGraph L) : Prop where
  declarations : ∀ scope, ∀ d ∈ graph.declarationsOf scope, d ∈ graph'.declarationsOf scope
  edges : ∀ source label, ∀ s ∈ graph.edgesFrom source label, s ∈ graph'.edgesFrom source label
  imports : ∀ source label, ∀ r ∈ graph.importsFrom source label, r ∈ graph'.importsFrom source label
  associations : ∀ d, ∀ s ∈ graph.associatedWith d, s ∈ graph'.associatedWith d
  homes : ∀ r s, graph.scopeOf? r = some s → graph'.scopeOf? r = some s

namespace Contained

theorem refl (graph : ScopeGraph L) : Contained graph graph :=
  ⟨fun _ _ h => h, fun _ _ _ h => h, fun _ _ _ h => h, fun _ _ h => h, fun _ _ h => h⟩

theorem trans (h : Contained graph graph') (h' : Contained graph' graph'') :
    Contained graph graph'' where
  declarations scope d hd := h'.declarations scope d (h.declarations scope d hd)
  edges source label s hs := h'.edges source label s (h.edges source label s hs)
  imports source label r hr := h'.imports source label r (h.imports source label r hr)
  associations d s hs := h'.associations d s (h.associations d s hs)
  homes r s hs := h'.homes r s (h.homes r s hs)

end Contained

section References

variable (scope : Scope) (name : String)

theorem scopeOf?_refer {reference : Occurrence} :
    (graph.refer scope name).2.scopeOf? reference =
      if reference = ⟨name, graph.occurrenceCount⟩ then some scope
      else graph.scopeOf? reference :=
  lookup_cons

theorem Numbered.refer (h : graph.Numbered) : (graph.refer scope name).2.Numbered := by
  intro reference scope' hscope
  show reference.position < graph.occurrenceCount + 1
  rw [scopeOf?_refer] at hscope
  split at hscope
  · next heq =>
    rw [heq]
    exact Nat.lt_succ_self _
  · exact Nat.lt_succ_of_lt (h reference scope' hscope)

/-- The position of a new reference is the next one, so an old reference is looked up as before. -/
theorem Numbered.contained_refer (h : graph.Numbered) :
    Contained graph (graph.refer scope name).2 := by
  refine { Contained.refl graph with homes := ?_ }
  intro reference scope' hscope
  have hposition := h reference scope' hscope
  have hne : reference ≠ ⟨name, graph.occurrenceCount⟩ := by
    rintro rfl
    exact Nat.lt_irrefl _ hposition
  rw [scopeOf?_refer, if_neg hne]
  exact hscope

end References

theorem Addition.numbered (h : Addition graph graph') (hnumbered : graph.Numbered) :
    graph'.Numbered := by
  cases h with
  | scope => exact hnumbered
  | declaration scope name =>
    intro reference scope' hscope
    exact Nat.lt_succ_of_lt (hnumbered reference scope' hscope)
  | reference scope name => exact hnumbered.refer scope name
  | edge source label target => exact hnumbered
  | importedName scope label name => exact hnumbered.refer scope name
  | association declaration scope => exact hnumbered

theorem Addition.contained (h : Addition graph graph') (hnumbered : graph.Numbered) :
    Contained graph graph' := by
  cases h with
  | scope => exact { Contained.refl graph with }
  | declaration scope name =>
    refine { Contained.refl graph with declarations := ?_ }
    intro scope' d hd
    exact Multimap.mem_get_insert.mpr (.inr hd)
  | reference scope name => exact hnumbered.contained_refer scope name
  | edge source label target =>
    refine { Contained.refl graph with edges := ?_ }
    intro source' label' s hs
    exact Multimap.mem_get_insert.mpr (.inr hs)
  | importedName scope label name =>
    refine { hnumbered.contained_refer scope name with imports := ?_ }
    intro source' label' r hr
    exact Multimap.mem_get_insert.mpr (.inr hr)
  | association declaration scope =>
    refine { Contained.refl graph with associations := ?_ }
    intro d s hs
    exact Multimap.mem_get_insert.mpr (.inr hs)

theorem numbered_empty : (empty : ScopeGraph L).Numbered := by
  intro reference scope hscope
  cases hscope

theorem Grows.numbered (h : Grows graph graph') (hnumbered : graph.Numbered) : graph'.Numbered := by
  induction h with
  | refl => exact hnumbered
  | tail _ hlast ih => exact hlast.numbered ih

theorem Grows.contained (h : Grows graph graph') (hnumbered : graph.Numbered) :
    Contained graph graph' := by
  induction h with
  | refl => exact Contained.refl graph
  | tail hgrows hlast ih => exact ih.trans (hlast.contained (Grows.numbered hgrows hnumbered))

end NameResolution.ScopeGraph

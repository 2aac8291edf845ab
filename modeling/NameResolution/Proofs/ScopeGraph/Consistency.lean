import NameResolution.Proofs.Multimap.Relation
import NameResolution.Proofs.ScopeGraph.Growth

namespace NameResolution.ScopeGraph

variable {L : Type} [DecidableEq L] [Label L] {graph : ScopeGraph L}

/-- The tables of a graph agree, and all occurrences in them have positions below the next one. -/
structure Consistent (graph : ScopeGraph L) : Prop where
  declaration_lt : ∀ {scope declaration}, declaration ∈ graph.declarationsOf scope →
    declaration.position < graph.occurrenceCount
  reference_lt : ∀ {scope reference}, reference ∈ graph.referencesOf scope →
    reference.position < graph.occurrenceCount
  /-- No occurrence is both a declaration and a reference. -/
  not_reference : ∀ {scope scope' occurrence}, occurrence ∈ graph.declarationsOf scope →
    occurrence ∉ graph.referencesOf scope'
  scopeOf?_iff : ∀ {scope reference},
    graph.scopeOf? reference = some scope ↔ reference ∈ graph.referencesOf scope
  /-- Imports are references of the scope that they leave. -/
  import_reference : ∀ {scope label reference}, reference ∈ graph.importsFrom scope label →
    reference ∈ graph.referencesOf scope
  /-- An import leaves one scope, by one label. -/
  import_once : ∀ {scope scope' label label' reference},
    reference ∈ graph.importsFrom scope label → reference ∈ graph.importsFrom scope' label' →
      scope = scope' ∧ label = label'

theorem mem_referencesOf_refer {scope scope' : Scope} {name : String} {reference : Occurrence} :
    reference ∈ (graph.refer scope name).2.referencesOf scope' ↔
      (scope' = scope ∧ reference = ⟨name, graph.occurrenceCount⟩) ∨
        reference ∈ graph.referencesOf scope' :=
  Multimap.mem_get_insert

theorem mem_importsFrom_importName {scope scope' : Scope} {label label' : L} {name : String}
    {reference : Occurrence} :
    reference ∈ (graph.importName scope label name).2.importsFrom scope' label' ↔
      ((scope' = scope ∧ label' = label) ∧ reference = ⟨name, graph.occurrenceCount⟩) ∨
        reference ∈ graph.importsFrom scope' label' := by
  rw [← Exit.mk.injEq]
  exact Multimap.mem_get_insert

namespace Consistent

theorem empty : (empty : ScopeGraph L).Consistent where
  declaration_lt h := absurd h SortedSet.not_mem_empty
  reference_lt h := absurd h SortedSet.not_mem_empty
  not_reference h := absurd h SortedSet.not_mem_empty
  scopeOf?_iff := ⟨nofun, fun h => absurd h SortedSet.not_mem_empty⟩
  import_reference h := absurd h SortedSet.not_mem_empty
  import_once h := absurd h SortedSet.not_mem_empty

variable (h : graph.Consistent)
include h

theorem next_not_reference {scope : Scope} {name : String} :
    (⟨name, graph.occurrenceCount⟩ : Occurrence) ∉ graph.referencesOf scope :=
  fun hmem => Nat.lt_irrefl _ (h.reference_lt hmem)

theorem next_not_import {scope : Scope} {label : L} {name : String} :
    (⟨name, graph.occurrenceCount⟩ : Occurrence) ∉ graph.importsFrom scope label :=
  fun hmem => h.next_not_reference (h.import_reference hmem)

theorem declare (scope : Scope) (name : String) : (graph.declare scope name).2.Consistent := by
  refine { h with declaration_lt := ?_, reference_lt := ?_, not_reference := ?_ }
  · intro scope' declaration hmem
    show declaration.position < graph.occurrenceCount + 1
    rcases Multimap.mem_get_insert.mp hmem with ⟨-, rfl⟩ | hold
    · exact Nat.lt_succ_self _
    · exact Nat.lt_succ_of_lt (h.declaration_lt hold)
  · intro scope' reference hmem
    exact Nat.lt_succ_of_lt (h.reference_lt hmem)
  · intro scope' scope'' occurrence hmem
    rcases Multimap.mem_get_insert.mp hmem with ⟨-, rfl⟩ | hold
    · exact h.next_not_reference
    · exact h.not_reference hold

theorem refer (scope : Scope) (name : String) : (graph.refer scope name).2.Consistent := by
  refine
    { h with
      declaration_lt := ?_
      reference_lt := ?_
      not_reference := ?_
      scopeOf?_iff := ?_
      import_reference := ?_ }
  · intro scope' declaration hmem
    exact Nat.lt_succ_of_lt (h.declaration_lt hmem)
  · intro scope' reference hmem
    show reference.position < graph.occurrenceCount + 1
    rcases mem_referencesOf_refer.mp hmem with ⟨-, rfl⟩ | hold
    · exact Nat.lt_succ_self _
    · exact Nat.lt_succ_of_lt (h.reference_lt hold)
  · intro scope' scope'' occurrence hmem hreference
    rcases mem_referencesOf_refer.mp hreference with ⟨-, rfl⟩ | hold
    · exact Nat.lt_irrefl _ (h.declaration_lt hmem)
    · exact h.not_reference hmem hold
  · intro scope' reference
    rw [scopeOf?_refer, mem_referencesOf_refer]
    -- no scope has had the next position yet
    by_cases hnew : reference = ⟨name, graph.occurrenceCount⟩
    · subst hnew
      simp [h.next_not_reference, eq_comm]
    · simp [hnew, h.scopeOf?_iff]
  · intro scope' label reference hmem
    exact mem_referencesOf_refer.mpr (.inr (h.import_reference hmem))

theorem importName (scope : Scope) (label : L) (name : String) :
    (graph.importName scope label name).2.Consistent := by
  refine { h.refer scope name with import_reference := ?_, import_once := ?_ }
  · intro scope' label' reference hmem
    rcases mem_importsFrom_importName.mp hmem with ⟨⟨rfl, -⟩, rfl⟩ | hold
    · exact mem_referencesOf_refer.mpr (.inl ⟨rfl, rfl⟩)
    · exact mem_referencesOf_refer.mpr (.inr (h.import_reference hold))
  · intro scope' scope'' label' label'' reference hmem hmem'
    rcases mem_importsFrom_importName.mp hmem with ⟨⟨rfl, rfl⟩, rfl⟩ | hold
    · rcases mem_importsFrom_importName.mp hmem' with ⟨⟨rfl, rfl⟩, -⟩ | hold'
      · exact ⟨rfl, rfl⟩
      · exact absurd hold' h.next_not_import
    · rcases mem_importsFrom_importName.mp hmem' with ⟨-, rfl⟩ | hold'
      · exact absurd hold h.next_not_import
      · exact h.import_once hold hold'

end Consistent

inductive Operation (L : Type) where
  | addScope
  | declare (scope : Scope) (name : String)
  | refer (scope : Scope) (name : String)
  | connect (source : Scope) (label : L) (target : Scope)
  | importName (scope : Scope) (label : L) (name : String)
  | associate (declaration : Occurrence) (scope : Scope)

namespace Operation

def perform (graph : ScopeGraph L) : Operation L → Option Occurrence × ScopeGraph L
  | .addScope => (none, graph.addScope.2)
  | .declare scope name => (graph.declare scope name).map some id
  | .refer scope name => (graph.refer scope name).map some id
  | .connect source label target => (none, graph.connect source label target)
  | .importName scope label name => (graph.importName scope label name).map some id
  | .associate declaration scope => (none, graph.associate declaration scope)

def edge? : Operation L → Option (Exit L × Scope)
  | connect source label target => some (⟨source, label⟩, target)
  | _ => none

def isImport : Operation L → Bool
  | importName _ _ _ => true
  | _ => false

end Operation

/-- A step keeps the tables in agreement. -/
theorem Consistent.perform (h : graph.Consistent) (operation : Operation L) :
    (operation.perform graph).2.Consistent := by
  cases operation with
  | addScope => exact { h with }
  | declare scope name => exact h.declare scope name
  | refer scope name => exact h.refer scope name
  | connect source label target => exact { h with }
  | importName scope label name => exact h.importName scope label name
  | associate declaration scope => exact { h with }

/-- A graph, the operations that made it and the occurrences that they returned. -/
structure Trace (L : Type) [DecidableEq L] [Label L] where
  graph : ScopeGraph L
  operations : List (Operation L)
  occurrences : List Occurrence

namespace Trace

def empty : Trace L := ⟨.empty, [], []⟩

def perform (trace : Trace L) (operation : Operation L) : Trace L where
  graph := (operation.perform trace.graph).2
  operations := trace.operations ++ [operation]
  occurrences := trace.occurrences ++ (operation.perform trace.graph).1.toList

/-- The occurrences are numbered and the edges counted as the operations say. -/
structure Accurate (trace : Trace L) : Prop where
  consistent : trace.graph.Consistent
  positions :
    trace.occurrences.map Occurrence.position = List.range trace.graph.occurrenceCount
  edges : trace.graph.edges.Represents (trace.operations.filterMap Operation.edge?).toFinset
  imports : trace.graph.imports.size = trace.operations.countP Operation.isImport

theorem accurate_empty : (empty : Trace L).Accurate where
  consistent := .empty
  positions := rfl
  edges := Multimap.represents_empty
  imports := rfl

section Step

variable {trace : Trace L}

theorem positions_perform (h : trace.Accurate) (operation : Operation L) :
    (trace.perform operation).occurrences.map Occurrence.position =
      List.range (trace.perform operation).graph.occurrenceCount := by
  have hkept : (trace.occurrences ++ []).map Occurrence.position =
      List.range trace.graph.occurrenceCount := by
    rw [List.append_nil]
    exact h.positions
  have hnext (name : String) :
      (trace.occurrences ++ [Occurrence.mk name trace.graph.occurrenceCount]).map
          Occurrence.position = List.range (trace.graph.occurrenceCount + 1) := by
    rw [List.map_append, h.positions, List.range_succ]
    rfl
  cases operation with
  | addScope => exact hkept
  | declare scope name => exact hnext name
  | refer scope name => exact hnext name
  | connect source label target => exact hkept
  | importName scope label name => exact hnext name
  | associate declaration scope => exact hkept

theorem edges_perform (h : trace.Accurate) (operation : Operation L) :
    (trace.perform operation).graph.edges.Represents
      ((trace.perform operation).operations.filterMap Operation.edge?).toFinset := by
  show (operation.perform trace.graph).2.edges.Represents
    ((trace.operations ++ [operation]).filterMap Operation.edge?).toFinset
  have hkept : trace.graph.edges.Represents
      (trace.operations.filterMap Operation.edge? ++ []).toFinset := by
    rw [List.append_nil]
    exact h.edges
  rw [List.filterMap_append]
  cases operation with
  | connect source label target => exact h.edges.insertPair (⟨source, label⟩, target)
  | addScope => exact hkept
  | declare scope name => exact hkept
  | refer scope name => exact hkept
  | importName scope label name => exact hkept
  | associate declaration scope => exact hkept

/-- The reference of an import is new, so the table of imports has one more pair. -/
theorem imports_perform (h : trace.Accurate) (operation : Operation L) :
    (trace.perform operation).graph.imports.size =
      (trace.perform operation).operations.countP Operation.isImport := by
  show (operation.perform trace.graph).2.imports.size =
    (trace.operations ++ [operation]).countP Operation.isImport
  rw [List.countP_append, ← h.imports]
  cases operation with
  | importName scope label name =>
    exact Multimap.size_insert_of_not_mem h.consistent.next_not_import
  | addScope => rfl
  | declare scope name => rfl
  | refer scope name => rfl
  | connect source label target => rfl
  | associate declaration scope => rfl

theorem Accurate.perform (h : trace.Accurate) (operation : Operation L) :
    (trace.perform operation).Accurate where
  consistent := h.consistent.perform operation
  positions := positions_perform h operation
  edges := edges_perform h operation
  imports := imports_perform h operation

/-- All occurrences that were returned are different. -/
theorem Accurate.nodup_occurrences (h : trace.Accurate) : trace.occurrences.Nodup := by
  apply List.Nodup.of_map Occurrence.position
  rw [h.positions]
  exact List.nodup_range

/-- Direct edges count once, however often they were added; imports count each time. -/
theorem Accurate.edgeCount_eq (h : trace.Accurate) :
    trace.graph.edgeCount =
      (trace.operations.filterMap Operation.edge?).toFinset.card +
        trace.operations.countP Operation.isImport := by
  rw [edgeCount, h.edges.size, h.imports]

end Step

end Trace

end NameResolution.ScopeGraph

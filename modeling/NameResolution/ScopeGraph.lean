import NameResolution.Label
import NameResolution.Multimap.Basic
import NameResolution.Scope

namespace NameResolution

structure Exit (L : Type) where
  scope : Scope
  label : L
  deriving DecidableEq

namespace Exit

variable {L : Type} [DecidableEq L] [Label L]

/-- By scope, then by the position of the label among all. -/
instance : Ord (Exit L) := ⟨compareLex (compareOn scope) (compareOn fun e => Label.index e.label)⟩

instance : Std.TransOrd (Exit L) :=
  inferInstanceAs (Std.TransCmp
    (compareLex (compareOn scope) (compareOn fun e : Exit L => Label.index e.label)))

instance : Std.LawfulEqOrd (Exit L) where
  eq_of_compare {e f} h := by
    have ⟨hs, hl⟩ := Ordering.then_eq_eq.mp h
    have hs := Std.LawfulEqOrd.eq_of_compare (α := Scope) hs
    have hl := Std.LawfulEqOrd.eq_of_compare (α := Nat) hl
    have hl := Alphabet.position_inj (Label.mem_all e.label) (Label.mem_all f.label) hl
    cases e
    cases f
    simp_all

end Exit

variable {L : Type} [DecidableEq L] [Label L]

structure ScopeGraph (L : Type) [DecidableEq L] [Label L] where
  /-- The number of scopes, which is also the next one. -/
  scopeCount : Nat
  /-- The number of occurrences, which is also the next position. -/
  occurrenceCount : Nat
  declarations : Multimap Scope Occurrence
  references : Multimap Scope Occurrence
  /-- The scope of each reference. -/
  homes : List (Occurrence × Scope)
  edges : Multimap (Exit L) Scope
  /-- The references that named edges go through. -/
  imports : Multimap (Exit L) Occurrence
  /-- The scopes that a declaration stands for, such as the body of a module. -/
  associations : Multimap Occurrence Scope

namespace ScopeGraph

def empty : ScopeGraph L := ⟨0, 0, .empty, .empty, [], .empty, .empty, .empty⟩

variable (graph : ScopeGraph L)

def addScope : Scope × ScopeGraph L :=
  (⟨graph.scopeCount⟩, { graph with scopeCount := graph.scopeCount + 1 })

def declare (scope : Scope) (name : String) : Occurrence × ScopeGraph L :=
  let declaration : Occurrence := ⟨name, graph.occurrenceCount⟩
  (declaration,
    { graph with
      occurrenceCount := graph.occurrenceCount + 1
      declarations := graph.declarations.insert scope declaration })

def refer (scope : Scope) (name : String) : Occurrence × ScopeGraph L :=
  let reference : Occurrence := ⟨name, graph.occurrenceCount⟩
  (reference,
    { graph with
      occurrenceCount := graph.occurrenceCount + 1
      references := graph.references.insert scope reference
      homes := (reference, scope) :: graph.homes })

def connect (source : Scope) (label : L) (target : Scope) : ScopeGraph L :=
  { graph with edges := graph.edges.insert ⟨source, label⟩ target }

/-- A new reference to a name, and an edge through it to whatever the name stands for. -/
def importName (scope : Scope) (label : L) (name : String) : Occurrence × ScopeGraph L :=
  let (reference, graph) := graph.refer scope name
  (reference, { graph with imports := graph.imports.insert ⟨scope, label⟩ reference })

def associate (declaration : Occurrence) (scope : Scope) : ScopeGraph L :=
  { graph with associations := graph.associations.insert declaration scope }

def scopes : List Scope := (List.range graph.scopeCount).map .mk

def declarationsOf (scope : Scope) : SortedSet Occurrence := graph.declarations.get scope

def referencesOf (scope : Scope) : SortedSet Occurrence := graph.references.get scope

def edgesFrom (scope : Scope) (label : L) : SortedSet Scope := graph.edges.get ⟨scope, label⟩

def importsFrom (scope : Scope) (label : L) : SortedSet Occurrence :=
  graph.imports.get ⟨scope, label⟩

def associatedWith (declaration : Occurrence) : SortedSet Scope :=
  graph.associations.get declaration

/-- The scope of a reference; a declaration has none. -/
def scopeOf? (reference : Occurrence) : Option Scope := graph.homes.lookup reference

def edgeCount : Nat := graph.edges.size + graph.imports.size

end ScopeGraph

end NameResolution

import NameResolution.Scope
import NameResolution.SortedSet

namespace NameResolution

/-- A path with steps `σ` from a start `A` to a stop `B`; an end that is a bare scope is `Unit`. -/
structure Path (σ A B : Type) where
  start : A
  stop : B
  source : Scope
  target : Scope
  steps : List σ
  /-- The number of joins that the path was built by. -/
  joins : Nat
  /-- The number of scope positions along the path. -/
  visits : Nat
  /-- The scopes along the path; there are fewer than visits if one occurs twice. -/
  scopes : SortedSet Scope
  /-- The references that the path resolves through, its start included. -/
  references : SortedSet Occurrence
  source_mem : source ∈ scopes
  target_mem : target ∈ scopes
  scopes_le_visits : scopes.size ≤ visits

/-- A step by a label: along an edge, or into what an imported name resolves to. -/
inductive Step (L : Type) where
  | edge (source : Scope) (label : L) (target : Scope)
  | named (source : Scope) (label : L) (resolution : Path (Step L) Occurrence Occurrence)
      (target : Scope)

namespace Step

variable {L : Type}

def source : Step L → Scope
  | edge s _ _ => s
  | named s _ _ _ => s

def label : Step L → L
  | edge _ l _ => l
  | named _ l _ _ => l

def target : Step L → Scope
  | edge _ _ t => t
  | named _ _ _ t => t

end Step

abbrev ScopePath (L : Type) := Path (Step L) Unit Unit

abbrev DeclarationPath (L : Type) := Path (Step L) Unit Occurrence

abbrev ReferencePath (L : Type) := Path (Step L) Occurrence Unit

abbrev ResolutionPath (L : Type) := Path (Step L) Occurrence Occurrence

namespace Path

variable {σ L A B : Type}

def stay (start : A) (scope : Scope) (references : SortedSet Occurrence) (stop : B) :
    Path σ A B where
  start := start
  stop := stop
  source := scope
  target := scope
  steps := []
  joins := 0
  visits := 1
  scopes := .singleton scope
  references := references
  source_mem := by simp
  target_mem := by simp
  scopes_le_visits := SortedSet.size_insert_le

def single (source : Scope) (step : σ) (references : SortedSet Occurrence) (target : Scope) :
    Path σ Unit Unit where
  start := ()
  stop := ()
  source := source
  target := target
  steps := [step]
  joins := 0
  visits := 2
  scopes := (SortedSet.singleton source).insert target
  references := references
  source_mem := by simp
  target_mem := by simp
  scopes_le_visits :=
    Nat.le_trans SortedSet.size_insert_le (Nat.succ_le_succ SortedSet.size_insert_le)

def empty (scope : Scope) : ScopePath L := stay () scope .empty ()

def ofReference (reference : Occurrence) (scope : Scope) : ReferencePath L :=
  stay reference scope (.singleton reference) ()

def ofDeclaration (scope : Scope) (declaration : Occurrence) : DeclarationPath L :=
  stay () scope .empty declaration

def edge (source : Scope) (label : L) (target : Scope) : ScopePath L :=
  single source (.edge source label target) .empty target

/-- A named edge, taken by a resolution of its name. -/
def named (source : Scope) (label : L) (resolution : ResolutionPath L) (target : Scope) :
    ScopePath L :=
  single source (.named source label resolution target) resolution.references target

end Path

end NameResolution

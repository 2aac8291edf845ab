import NameResolution.Path.Basic
import Std.Data.TreeMap

namespace NameResolution

/-- An import and the references that its resolutions must not go through. -/
structure ImportKey where
  reference : Occurrence
  excluded : SortedSet Occurrence

namespace ImportKey

/-- By reference, then by the excluded references. -/
instance : Ord ImportKey :=
  ⟨compareLex (compareOn reference) (compareOn fun key => key.excluded.toList)⟩

instance : Std.TransOrd ImportKey :=
  inferInstanceAs (Std.TransCmp (compareLex (compareOn reference)
    (compareOn fun key : ImportKey => key.excluded.toList)))

instance : Std.LawfulEqOrd ImportKey where
  eq_of_compare {k k'} h := by
    have ⟨hr, he⟩ := Ordering.then_eq_eq.mp h
    have hr := Std.LawfulEqOrd.eq_of_compare (α := Occurrence) hr
    have he := Std.LawfulEqOrd.eq_of_compare (α := List Occurrence) he
    obtain ⟨r, l, _⟩ := k
    obtain ⟨r', l', _⟩ := k'
    cases hr
    cases he
    rfl

end ImportKey

structure ResolvedImport (L : Type) where
  resolutions : List (ResolutionPath L)
  /-- The excluded references that held up the search. -/
  blocked : SortedSet Occurrence

structure ImportTable (L : Type) where
  resolved : Std.TreeMap ImportKey (ResolvedImport L)
  /-- The imports without resolutions, each with what held up its search. -/
  fruitless : List (Occurrence × SortedSet Occurrence)

namespace ImportTable

variable {L : Type}

def empty : ImportTable L := ⟨∅, []⟩

/-- The outcome under the same exclusions, or else the absence of resolutions that follows from an
earlier search. -/
def get? (table : ImportTable L) (key : ImportKey) : Option (ResolvedImport L) :=
  match table.resolved[key]? with
  | some resolved => some resolved
  | none =>
    (table.fruitless.find? fun (reference, blocked) =>
      reference = key.reference && blocked.isSubset key.excluded).map fun (_, blocked) => ⟨[], blocked⟩

def insert (table : ImportTable L) (key : ImportKey) (resolved : ResolvedImport L) :
    ImportTable L where
  resolved := table.resolved.insert key resolved
  fruitless :=
    if resolved.resolutions.isEmpty then table.fruitless ++ [(key.reference, resolved.blocked)]
    else table.fruitless

end ImportTable

end NameResolution

namespace NameResolution

structure Scope where
  id : Nat
  deriving DecidableEq

/-- A named declaration or reference. The position tells occurrences of one name apart. -/
structure Occurrence where
  name : String
  position : Nat
  deriving DecidableEq

namespace Scope

def render (s : Scope) : String := "#" ++ toString s.id

instance : Ord Scope := ⟨compareOn id⟩

instance : Std.TransOrd Scope := inferInstanceAs (Std.TransCmp (compareOn id))

instance : Std.LawfulEqOrd Scope where
  eq_of_compare {s t} h := by
    have := Std.LawfulEqOrd.eq_of_compare (α := Nat) h
    cases s
    cases t
    exact congrArg mk this

end Scope

namespace Occurrence

def render (o : Occurrence) : String := o.name ++ "@" ++ toString o.position

/-- By name, then by position. -/
instance : Ord Occurrence := ⟨compareLex (compareOn name) (compareOn position)⟩

instance : Std.TransOrd Occurrence :=
  inferInstanceAs (Std.TransCmp (compareLex (compareOn name) (compareOn position)))

instance : Std.LawfulEqOrd Occurrence where
  eq_of_compare {o p} h := by
    have ⟨hn, hp⟩ := Ordering.then_eq_eq.mp h
    have hn := Std.LawfulEqOrd.eq_of_compare (α := String) hn
    have hp := Std.LawfulEqOrd.eq_of_compare (α := Nat) hp
    cases o
    cases p
    simp_all

end Occurrence

end NameResolution

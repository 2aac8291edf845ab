import NameResolution.Unifier.Basic

namespace NameResolution

structure Solution (C : Type) where
  unifier : Unifier
  constraints : List C

namespace Solution

variable {C D : Type}

def ofUnifier (u : Unifier) : Solution C := ⟨u, []⟩

def complete (s : Solution C) : Bool := s.constraints.isEmpty

def map (f : C → D) (s : Solution C) : Solution D := ⟨s.unifier, s.constraints.map f⟩

instance [DecidableEq C] : BEq (Solution C) where
  beq s t := s.unifier == t.unifier && s.constraints = t.constraints

end Solution

end NameResolution

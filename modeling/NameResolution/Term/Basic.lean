namespace NameResolution

/-- A logic variable. The resource keeps variables of separate units apart. -/
structure Variable where
  resource : Option String
  name : String
  deriving DecidableEq

namespace Variable

/-- By resource, none first, then by name. -/
instance : Ord Variable := ⟨compareLex (compareOn resource) (compareOn name)⟩

instance : Std.TransOrd Variable :=
  inferInstanceAs (Std.TransCmp (compareLex (compareOn resource) (compareOn name)))

instance : Std.LawfulEqOrd Variable where
  eq_of_compare {x y} h := by
    have ⟨hr, hn⟩ := Ordering.then_eq_eq.mp h
    have hr := Std.LawfulEqOrd.eq_of_compare (α := Option String) hr
    have hn := Std.LawfulEqOrd.eq_of_compare (α := String) hn
    cases x
    cases y
    simp_all

end Variable

/-- An integer, a real given by its bits, or a string. Reals are equal if their bits are. -/
inductive Primitive where
  | int (value : Int64)
  | real (bits : UInt64)
  | string (text : String)
  deriving DecidableEq

inductive Term where
  | var (v : Variable)
  | primitive (p : Primitive)
  | application (name : String) (args : List Term)
  | tuple (args : List Term)
  | cons (head tail : Term)
  | nil
  | operator (name : String) (args : List Term)

namespace Term

def listWithTail (elements : List Term) (tail : Term) : Term := elements.foldr cons tail

def list (elements : List Term) : Term := listWithTail elements nil

def children : Term → List Term
  | application _ args | tuple args | operator _ args => args
  | cons head tail => [head, tail]
  | var _ | primitive _ | nil => []

def withChildren : Term → List Term → Term
  | application name _, args => application name args
  | tuple _, args => tuple args
  | operator name _, args => operator name args
  | cons _ _, [head, tail] => cons head tail
  | t, _ => t

theorem children_withChildren {t : Term} {args : List Term}
    (h : args.length = t.children.length) : (t.withChildren args).children = args := by
  cases t with
  | application | tuple | operator => rfl
  | var | primitive | nil => exact (List.eq_nil_of_length_eq_zero h).symm
  | cons =>
    match args, h with
    | [_, _], _ => rfl

theorem withChildren_children (t : Term) : t.withChildren t.children = t := by
  cases t <;> rfl

def kind : Term → String
  | var _ => "variable"
  | primitive _ => "primitive"
  | application _ _ => "application"
  | tuple _ => "tuple"
  | cons _ _ => "cons"
  | nil => "nil"
  | operator _ _ => "operator"

mutual

def ground : Term → Bool
  | var _ | operator _ _ => false
  | primitive _ | nil => true
  | application _ args | tuple args => allGround args
  | cons head tail => head.ground && tail.ground

def allGround : List Term → Bool
  | [] => true
  | t :: ts => t.ground && allGround ts

end

mutual

def same : Term → Term → Bool
  | var x, var y => x = y
  | primitive p, primitive q => p = q
  | application f ss, application g ts => f = g && allSame ss ts
  | tuple ss, tuple ts => allSame ss ts
  | cons s ss, cons t ts => s.same t && ss.same ts
  | nil, nil => true
  | operator f ss, operator g ts => f = g && allSame ss ts
  | _, _ => false

def allSame : List Term → List Term → Bool
  | [], [] => true
  | s :: ss, t :: ts => s.same t && allSame ss ts
  | _, _ => false

end

mutual

theorem same_iff : ∀ s t : Term, s.same t = true ↔ s = t
  | var x, t => by cases t <;> simp [same]
  | primitive p, t => by cases t <;> simp [same]
  | application f ss, t => by cases t <;> simp [same, allSame_iff ss]
  | tuple ss, t => by cases t <;> simp [same, allSame_iff ss]
  | cons s ss, t => by cases t <;> simp [same, same_iff s, same_iff ss]
  | nil, t => by cases t <;> simp [same]
  | operator f ss, t => by cases t <;> simp [same, allSame_iff ss]

theorem allSame_iff : ∀ ss ts : List Term, allSame ss ts = true ↔ ss = ts
  | [], ts => by cases ts <;> simp [allSame]
  | s :: ss, ts => by cases ts <;> simp [allSame, same_iff s, allSame_iff ss]

end

instance : DecidableEq Term := fun s t => decidable_of_iff _ (same_iff s t)

theorem sizeOf_lt_of_mem_children {s t : Term} (h : s ∈ t.children) : sizeOf s < sizeOf t := by
  cases t with
  | var | primitive | nil => cases h
  | cons head tail =>
    have h : s = head ∨ s = tail := by simpa [children] using h
    rw [cons.sizeOf_spec]
    rcases h with rfl | rfl <;> omega
  | application name args | tuple args | operator name args =>
    have := List.sizeOf_lt_of_mem (show s ∈ args from h)
    simp
    omega

end Term

end NameResolution

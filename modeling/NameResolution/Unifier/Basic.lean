import NameResolution.Lookup
import NameResolution.Term.Text

namespace NameResolution

inductive Key where
  | var (v : Variable)
  | operator (name : String) (args : List Term)
  deriving DecidableEq

def Key.term : Key → Term
  | var v => .var v
  | operator name args => .operator name args

def Term.key? : Term → Option Key
  | var v => some (.var v)
  | operator name args => some (.operator name args)
  | _ => none

theorem Term.key?_eq_some_iff {t : Term} {key : Key} : t.key? = some key ↔ t = key.term := by
  cases t <;> cases key <;> simp [key?, Key.term]

abbrev Bindings := List (Key × Term)

namespace Bindings

def next? (bindings : Bindings) (t : Term) : Option Term := t.key?.bind (List.lookup · bindings)

/-- One step down: from a bound term to its binding, from any other to a subterm. -/
inductive Below (bindings : Bindings) : Term → Term → Prop where
  | bound {s t : Term} : bindings.next? t = some s → Below bindings s t
  | child {s t : Term} : bindings.next? t = none → s ∈ t.children → Below bindings s t

theorem below_empty {s t : Term} (h : Below [] s t) : sizeOf s < sizeOf t := by
  cases h with
  | bound h => cases hk : t.key? <;> simp [next?, hk] at h
  | child _ h => exact Term.sizeOf_lt_of_mem_children h

end Bindings

structure Unifier where
  bindings : Bindings
  nodup : (bindings.map (·.1)).Nodup
  acyclic : WellFounded bindings.Below

namespace Unifier

def empty : Unifier where
  bindings := []
  nodup := .nil
  acyclic := Subrelation.wf Bindings.below_empty (measure sizeOf).wf

def isEmpty (u : Unifier) : Bool := u.bindings.isEmpty

def lookup (u : Unifier) (key : Key) : Option Term := u.bindings.lookup key

def next? (u : Unifier) (t : Term) : Option Term := u.bindings.next? t

@[simp] theorem next?_term {u : Unifier} {key : Key} : u.next? key.term = u.lookup key := by
  simp [next?, Bindings.next?, Term.key?_eq_some_iff.mpr rfl, lookup]

@[simp] theorem next?_empty (t : Term) : Unifier.empty.next? t = none := by
  cases t <;> rfl

/-- The bound variables and operator terms, in the order in which they were bound. -/
def keys (u : Unifier) : List Key := u.bindings.map (·.1)

def boundVariables (u : Unifier) : List Variable :=
  let vars := u.keys.filterMap fun
    | .var v => some v
    | .operator _ _ => none
  vars.mergeSort fun x y => (compare x y).isLE

def boundOperators (u : Unifier) : List Term :=
  u.keys.filterMap fun
    | .var _ => none
    | .operator name args => some (.operator name args)

/-- Unifiers are equal if they bind the same keys to the same terms. -/
instance : BEq Unifier where
  beq u v :=
    u.keys.all (fun key => u.lookup key = v.lookup key) &&
      v.keys.all fun key => u.lookup key = v.lookup key

/-- What holds of a bound term whenever it holds of its binding, and of an unbound term whenever it
holds of all its subterms, holds of every term. -/
@[elab_as_elim]
theorem induction (u : Unifier) {motive : Term → Prop}
    (bound : ∀ t s, u.next? t = some s → motive s → motive t)
    (unbound : ∀ t, u.next? t = none → (∀ c ∈ t.children, motive c) → motive t) (t : Term) :
    motive t := by
  induction t using u.acyclic.induction with
  | _ t ih =>
  cases ht : u.next? t with
  | some s => exact bound t s ht (ih s (.bound ht))
  | none => exact unbound t ht fun c hc => ih c (.child ht hc)

/-- The representative of a term: where its bindings end. -/
def walk (u : Unifier) (t : Term) : Term :=
  match _ : u.next? t with
  | some s => u.walk s
  | none => t
termination_by u.acyclic.wrap t
decreasing_by exact .bound ‹_›

theorem walk_of_bound {u : Unifier} {s t : Term} (h : u.next? t = some s) :
    u.walk t = u.walk s := by
  rw [walk]
  split
  · next r hr => rw [h, Option.some.injEq] at hr; rw [hr]
  · next hr => rw [h] at hr; cases hr

theorem walk_of_unbound {u : Unifier} {t : Term} (h : u.next? t = none) : u.walk t = t := by
  rw [walk]
  split
  · next r hr => rw [h] at hr; cases hr
  · rfl

end Unifier

end NameResolution

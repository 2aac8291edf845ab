import NameResolution.ExternalTerm.Basic
import NameResolution.Unifier.Compression

namespace NameResolution

open ExternalTerm

abbrev Exported := Except ExternalTerm.Unsupported

namespace Term

/-- The external form of a term whose subterms are written by `term`, and by `elements` where they
are the rest of a list. -/
def exportWith (t : Term) (term : (s : Term) → s ∈ t.children → Exported ExternalTerm)
    (elements : (s : Term) → s ∈ t.children → Exported (List ExternalTerm)) :
    Exported ExternalTerm :=
  match t with
  | .var v => return .ofVariable v
  | .primitive p => return .ofPrimitive p
  | .application name args | .operator name args =>
    return .apply name (← args.attach.mapM fun s => term s.1 s.2)
  | .tuple args => return .tuple (← args.attach.mapM fun s => term s.1 s.2)
  | .cons head tail => do
    let first ← term head (.head _)
    let others ← elements tail (.tail _ (.head _))
    return .list (first :: others)
  | .nil => return .list []

end Term

namespace Unifier

mutual

def exportTerm (u : Unifier) (t : Term) : Exported ExternalTerm :=
  match _ : u.next? t with
  | some s => u.exportTerm s
  | none => t.exportWith (fun s _ => u.exportTerm s) (fun s _ => u.exportElements s)
termination_by u.acyclic.wrap t
decreasing_by
  · exact .bound ‹_›
  · exact .child ‹_› ‹_›
  · exact .child ‹_› ‹_›

def exportElements (u : Unifier) (t : Term) : Exported (List ExternalTerm) :=
  match _ : u.next? t with
  | some s => u.exportElements s
  | none =>
    match t with
    | .nil => return []
    | .cons head tail => do
      let first ← u.exportTerm head
      let others ← u.exportElements tail
      return first :: others
    | .var v => return [.openTail (.ofVariable v)]
    | .operator name args => do
      return [.openTail (.apply name (← args.attach.mapM fun s => u.exportTerm s.1))]
    | .primitive _ | .application _ _ | .tuple _ => .error (.listPosition t)
termination_by u.acyclic.wrap t
decreasing_by
  · exact .bound ‹_›
  · exact .child ‹_› (.head _)
  · exact .child ‹_› (.tail _ (.head _))
  · exact .child ‹_› s.2

end

section Equations

variable {u : Unifier} {s t : Term}

theorem exportTerm_of_bound (h : u.next? t = some s) : u.exportTerm t = u.exportTerm s := by
  rw [exportTerm]
  split
  · next r hr => rw [h, Option.some.injEq] at hr; rw [hr]
  · next hr => rw [h] at hr; cases hr

theorem exportElements_of_bound (h : u.next? t = some s) :
    u.exportElements t = u.exportElements s := by
  rw [exportElements]
  split
  · next r hr => rw [h, Option.some.injEq] at hr; rw [hr]
  · next hr => rw [h] at hr; cases hr

theorem exportElements_of_unbound : u.next? t = none → u.exportElements t = match t with
    | .nil => pure []
    | .cons head tail => do
      let first ← u.exportTerm head
      let others ← u.exportElements tail
      return first :: others
    | .var v => pure [.openTail (.ofVariable v)]
    | .operator name args => do
      let es ← args.mapM u.exportTerm
      return [.openTail (.apply name es)]
    | .primitive _ | .application _ _ | .tuple _ => .error (.listPosition t) := by
  intro h
  rw [exportElements]
  split
  · next r hr => cases h.symm.trans hr
  · cases t <;> simp

theorem exportTerm_of_unbound : u.next? t = none → u.exportTerm t = match t with
    | .var v => pure (.ofVariable v)
    | .primitive p => pure (.ofPrimitive p)
    | .application name args | .operator name args => do
      let es ← args.mapM u.exportTerm
      return .apply name es
    | .tuple args => do
      let es ← args.mapM u.exportTerm
      return .tuple es
    | .cons _ _ | .nil => do
      let es ← u.exportElements t
      return .list es := by
  intro h
  rw [exportTerm]
  split
  · next r hr => cases h.symm.trans hr
  · cases t with
    | cons | nil => simp [Term.exportWith, exportElements_of_unbound h]
    | var | primitive | application | tuple | operator => simp [Term.exportWith]

end Equations

end Unifier

/-- Writes terms under a unifier in which all keys are bound to their representatives. -/
structure Exporter where
  unifier : Unifier

namespace Exporter

def ofUnifier (u : Unifier) : Exporter := ⟨u.findAll⟩

def term (e : Exporter) (t : Term) : Exported ExternalTerm := e.unifier.exportTerm t

def list (e : Exporter) (t : Term) : Exported ExternalTerm := .list <$> e.unifier.exportElements t

/-- A term as it stands, with only its subterms under the bindings. -/
def node (e : Exporter) (t : Term) : Exported ExternalTerm :=
  t.exportWith (fun s _ => e.unifier.exportTerm s) fun s _ => e.unifier.exportElements s

def substitution (e : Exporter) : Exported (List ExternalTerm) :=
  e.unifier.boundVariables.mapM fun v => do
    return .tuple [.ofVariable v, ← e.term (.var v)]

end Exporter

end NameResolution

import NameResolution.Unifier.Basic

namespace NameResolution.Unifier

/-- The representative of a term, rebuilt from the images of its subterms. -/
def image (u : Unifier) (t : Term) : Term :=
  match _ : u.next? t with
  | some s => u.image s
  | none => t.withChildren (t.children.attach.map fun s => u.image s.1)
termination_by u.acyclic.wrap t
decreasing_by
  · exact .bound ‹_›
  · exact .child ‹_› s.2

theorem image_of_bound {u : Unifier} {s t : Term} (h : u.next? t = some s) :
    u.image t = u.image s := by
  rw [image]
  split
  · next r hr => rw [h, Option.some.injEq] at hr; rw [hr]
  · next hr => rw [h] at hr; cases hr

theorem image_of_unbound {u : Unifier} {t : Term} (h : u.next? t = none) :
    u.image t = t.withChildren (t.children.map u.image) := by
  rw [image]
  split
  · next r hr => rw [h] at hr; cases hr
  · rw [List.attach_map_val]

/-- What is left to do: a term to visit, or one to rebuild once its subterms are finished. -/
inductive Task where
  | visit (t : Term)
  | rebuild (t : Term)

/-- The sum of some numbers. -/
def total (l : List Nat) : Nat := l.foldr (· + ·) 0

@[simp] theorem total_cons (n : Nat) (l : List Nat) : total (n :: l) = n + total l := rfl

@[simp] theorem total_append (l l' : List Nat) : total (l ++ l') = total l + total l' := by
  induction l with
  | nil => exact (Nat.zero_add _).symm
  | cons n l ih => rw [List.cons_append, total_cons, total_cons, ih, Nat.add_assoc]

/-- The number of tasks that a visit gives rise to, itself included. -/
def steps (u : Unifier) (t : Term) : Nat :=
  match _ : u.next? t with
  | some s => u.steps s + 1
  | none => total (t.children.attach.map fun s => u.steps s.1) + 2
termination_by u.acyclic.wrap t
decreasing_by
  · exact .bound ‹_›
  · exact .child ‹_› s.2

theorem steps_of_bound {u : Unifier} {s t : Term} (h : u.next? t = some s) :
    u.steps t = u.steps s + 1 := by
  rw [steps]
  split
  · next r hr => rw [h, Option.some.injEq] at hr; rw [hr]
  · next hr => rw [h] at hr; cases hr

theorem steps_of_unbound {u : Unifier} {t : Term} (h : u.next? t = none) :
    u.steps t = total (t.children.map fun s => u.steps s) + 2 := by
  rw [steps]
  split
  · next r hr => rw [h] at hr; cases hr
  · rw [List.attach_map_val]

def Task.steps (u : Unifier) : Task → Nat
  | visit t => u.steps t
  | rebuild _ => 1

/-- Does all tasks in order; finished terms are stacked, the newest first. -/
def run (u : Unifier) : List Task → List Term → List Term
  | [], finished => finished
  | .visit t :: tasks, finished =>
    match _ : u.next? t with
    | some s => u.run (.visit s :: tasks) finished
    | none => u.run (t.children.map .visit ++ .rebuild t :: tasks) finished
  | .rebuild t :: tasks, finished =>
    let arity := t.children.length
    u.run tasks (t.withChildren (finished.take arity).reverse :: finished.drop arity)
termination_by tasks => total (tasks.map (Task.steps u))
decreasing_by
  · simp [Task.steps, steps_of_bound ‹_›]
  · simp [Task.steps, steps_of_unbound ‹_›, Function.comp_def]
    omega
  · simp [Task.steps]

/-- The term with every part replaced by its representative. -/
def substitute (u : Unifier) (t : Term) : Term := (u.run [.visit t] []).headD t

end NameResolution.Unifier

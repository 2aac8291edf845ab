import NameResolution.Proofs.ExternalTerm.Exported
import NameResolution.Proofs.Unifier.Loops

namespace NameResolution

open ExternalTerm

namespace Exported

variable {α β γ : Type}

def proceed (e : Exported α) (next : α → Part (Exported β)) : Part (Exported β) :=
  match e with
  | .ok a => next a
  | .error x => Part.some (.error x)

theorem proceed_pure (a : α) (next : α → Part (Exported β)) :
    proceed (pure a) next = next a := rfl

theorem proceed_bind (e : Exported α) (f : α → Exported γ) (next : γ → Part (Exported β)) :
    proceed (e >>= f) next = proceed e fun a => proceed (f a) next := by
  cases e <;> rfl

theorem proceed_congr {e : Exported α} {next next' : α → Part (Exported β)}
    (h : ∀ a, e = .ok a → next a = next' a) : proceed e next = proceed e next' := by
  cases e with
  | ok a => exact h a rfl
  | error x => rfl

end Exported

namespace Bindings

/-- What is left to write: a term, the rest of a list of which some elements are finished, or an
external term made from the newest finished ones. -/
inductive Writing where
  | term (t : Term)
  | rest (t : Term) (count : Nat)
  | close (make : List ExternalTerm → ExternalTerm) (count : Nat)

def writeTerm (t : Term) (tasks : List Writing) (finished : List ExternalTerm) :
    List Writing × List ExternalTerm :=
  match t with
  | .var v => (tasks, .ofVariable v :: finished)
  | .primitive p => (tasks, .ofPrimitive p :: finished)
  | .application name args | .operator name args =>
    (args.map .term ++ .close (.apply name) args.length :: tasks, finished)
  | .tuple args => (args.map .term ++ .close .tuple args.length :: tasks, finished)
  | .cons _ _ | .nil => (.rest t 0 :: tasks, finished)

/-- What an unbound term leads to as the rest of a list: the list is finished or goes on. -/
def writeRest (t : Term) (count : Nat) (tasks : List Writing) (finished : List ExternalTerm) :
    Exported (List Writing × List ExternalTerm) :=
  match t with
  | .nil => .ok (.close .list count :: tasks, finished)
  | .cons head tail => .ok (.term head :: .rest tail (count + 1) :: tasks, finished)
  | .var v => .ok (.close .list (count + 1) :: tasks, .openTail (.ofVariable v) :: finished)
  | .operator name args =>
    .ok (args.map .term ++ .close (.apply name) args.length :: .close (.apply openTailName) 1 ::
      .close .list (count + 1) :: tasks, finished)
  | .primitive _ | .application _ _ | .tuple _ => .error (.listPosition t)

def writeRound (b : Bindings) : List Writing × List ExternalTerm →
    Exported (List ExternalTerm) ⊕ (List Writing × List ExternalTerm)
  | ([], finished) => .inl (.ok finished)
  | (.term t :: tasks, finished) =>
    match b.next? t with
    | some s => .inr (.term s :: tasks, finished)
    | none => .inr (writeTerm t tasks finished)
  | (.rest t count :: tasks, finished) =>
    match b.next? t with
    | some s => .inr (.rest s count :: tasks, finished)
    | none =>
      match writeRest t count tasks finished with
      | .ok state => .inr state
      | .error x => .inl (.error x)
  | (.close make count :: tasks, finished) =>
    .inr (tasks, make (finished.take count).reverse :: finished.drop count)

def write (b : Bindings) : List Writing × List ExternalTerm →. Exported (List ExternalTerm) :=
  loop b.writeRound

section Write

variable {b : Bindings} {s t : Term} {count : Nat} {tasks : List Writing}
  {finished : List ExternalTerm}

theorem write_nil : b.write ([], finished) = Part.some (.ok finished) := loop_of_done rfl

theorem write_term_of_bound (h : b.next? t = some s) :
    b.write (.term t :: tasks, finished) = b.write (.term s :: tasks, finished) :=
  loop_of_again (by simp only [writeRound, h])

theorem write_term_of_unbound (h : b.next? t = none) :
    b.write (.term t :: tasks, finished) = b.write (writeTerm t tasks finished) :=
  loop_of_again (by simp only [writeRound, h])

theorem write_rest_of_bound (h : b.next? t = some s) :
    b.write (.rest t count :: tasks, finished) = b.write (.rest s count :: tasks, finished) :=
  loop_of_again (by simp only [writeRound, h])

theorem write_rest_of_unbound (h : b.next? t = none) :
    b.write (.rest t count :: tasks, finished) =
      (Exported.proceed (writeRest t count tasks finished) b.write) := by
  cases hrest : writeRest t count tasks finished with
  | ok state => exact loop_of_again (by simp only [writeRound, h, hrest])
  | error x => exact loop_of_done (by simp only [writeRound, h, hrest])

theorem write_close {make : List ExternalTerm → ExternalTerm} {parts : List ExternalTerm}
    (h : parts.length = count) :
    b.write (.close make count :: tasks, parts.reverse ++ finished) =
      b.write (tasks, make parts :: finished) := by
  have hlength : parts.reverse.length = count := parts.length_reverse.trans h
  have hround : b.writeRound (.close make count :: tasks, parts.reverse ++ finished) =
      .inr (tasks, make parts :: finished) := by
    simp only [writeRound, List.take_left' hlength, List.drop_left' hlength, List.reverse_reverse]
  exact loop_of_again hround

end Write

end Bindings

namespace Unifier

open Bindings Exported

variable {u : Unifier} {s t : Term}

/-- Writing a term leaves what is exported on the stack of finished external terms. -/
def Writes (u : Unifier) (t : Term) : Prop :=
  ∀ tasks finished, u.bindings.write (.term t :: tasks, finished) =
    proceed (u.exportTerm t) fun e => u.bindings.write (tasks, e :: finished)

def WritesRest (u : Unifier) (t : Term) : Prop :=
  ∀ count tasks finished, u.bindings.write (.rest t count :: tasks, finished) =
    proceed (u.exportElements t) fun es =>
      u.bindings.write (.close .list (count + es.length) :: tasks, es.reverse ++ finished)

theorem write_terms {l : List Term} (hl : ∀ c ∈ l, u.Writes c) (tasks : List Writing)
    (finished : List ExternalTerm) :
    u.bindings.write (l.map .term ++ tasks, finished) =
      proceed (l.mapM u.exportTerm) fun es => u.bindings.write (tasks, es.reverse ++ finished) := by
  induction l generalizing finished with
  | nil => rfl
  | cons c l ih =>
    obtain ⟨hc, hl⟩ := List.forall_mem_cons.mp hl
    rw [List.map_cons, List.cons_append, hc, List.mapM_cons, proceed_bind]
    refine proceed_congr fun e _ => ?_
    rw [ih hl, proceed_bind]
    refine proceed_congr fun es _ => ?_
    rw [proceed_pure, List.reverse_cons, List.append_assoc]
    rfl

/-- Arguments are written before they are put together. -/
theorem write_arguments {l : List Term} (hl : ∀ c ∈ l, u.Writes c)
    (make : List ExternalTerm → ExternalTerm) (tasks : List Writing)
    (finished : List ExternalTerm) :
    u.bindings.write (l.map .term ++ .close make l.length :: tasks, finished) =
      proceed (l.mapM u.exportTerm) fun es => u.bindings.write (tasks, make es :: finished) := by
  rw [write_terms hl]
  exact proceed_congr fun es hes => write_close (mapM_eq_ok_iff.mp hes).length_eq.symm

theorem writesRest_of_unbound (ht : u.next? t = none) (hchildren : ∀ c ∈ t.children, u.Writes c)
    (htails : ∀ c ∈ t.children, u.WritesRest c) : u.WritesRest t := by
  intro count tasks finished
  rw [write_rest_of_unbound ht, exportElements_of_unbound ht]
  cases t with
  | nil => rfl
  | cons head tail =>
    -- the head is written first, and then counts as one more finished element
    have hhead : u.Writes head := hchildren head (.head _)
    have htail : u.WritesRest tail := htails tail (.tail _ (.head _))
    change u.bindings.write (.term head :: .rest tail (count + 1) :: tasks, finished) = _
    rw [hhead, proceed_bind]
    refine proceed_congr fun e _ => ?_
    rw [htail, proceed_bind]
    refine proceed_congr fun es _ => ?_
    rw [proceed_pure, List.reverse_cons, List.append_assoc, List.length_cons,
      Nat.add_right_comm, Nat.add_assoc]
    rfl
  | var v => rfl
  | operator name args =>
    have hargs : ∀ c ∈ args, u.Writes c := hchildren
    change u.bindings.write (args.map .term ++ .close (.apply name) args.length ::
      .close (.apply openTailName) 1 :: .close .list (count + 1) :: tasks, finished) = _
    rw [write_arguments hargs, proceed_bind]
    refine proceed_congr fun es _ => ?_
    have hone : [apply name es].length = 1 := rfl
    exact write_close hone
  | primitive | application | tuple => rfl

theorem writes_of_unbound (ht : u.next? t = none) (hchildren : ∀ c ∈ t.children, u.Writes c)
    (hrest : u.WritesRest t) : u.Writes t := by
  intro tasks finished
  rw [write_term_of_unbound ht, exportTerm_of_unbound ht]
  have hlist : u.bindings.write (.rest t 0 :: tasks, finished) =
      proceed (u.exportElements t >>= fun es => pure (.list es)) fun e =>
        u.bindings.write (tasks, e :: finished) := by
    rw [hrest, proceed_bind]
    refine proceed_congr fun es _ => ?_
    rw [Nat.zero_add]
    exact write_close rfl
  cases t with
  | var | primitive => rfl
  | application name args | tuple args | operator name args =>
    have hargs : ∀ c ∈ args, u.Writes c := hchildren
    dsimp only [writeTerm]
    rw [write_arguments hargs, proceed_bind]
    rfl
  | cons head tail => exact hlist
  | nil => exact hlist

/-- The loop writes what the recursion along the bindings exports. -/
theorem writes_and_writesRest (u : Unifier) (t : Term) : u.Writes t ∧ u.WritesRest t := by
  induction t using u.induction with
  | bound t s ht ih =>
    obtain ⟨hterm, hrest⟩ := ih
    constructor
    · intro tasks finished
      rw [write_term_of_bound ht, exportTerm_of_bound ht]
      exact hterm tasks finished
    · intro count tasks finished
      rw [write_rest_of_bound ht, exportElements_of_bound ht]
      exact hrest count tasks finished
  | unbound t ht ih =>
    have hchildren : ∀ c ∈ t.children, u.Writes c := fun c hc => (ih c hc).1
    have htails : ∀ c ∈ t.children, u.WritesRest c := fun c hc => (ih c hc).2
    have hrest : u.WritesRest t := writesRest_of_unbound ht hchildren htails
    exact ⟨writes_of_unbound ht hchildren hrest, hrest⟩

theorem write_term (u : Unifier) (t : Term) :
    u.bindings.write ([.term t], []) = Part.some ((u.exportTerm t).map ([·])) := by
  rw [(u.writes_and_writesRest t).1]
  cases u.exportTerm t with
  | ok e => exact write_nil
  | error x => rfl

theorem write_list (u : Unifier) (t : Term) :
    u.bindings.write ([.rest t 0], []) =
      Part.some ((u.exportElements t).map fun es => [.list es]) := by
  rw [(u.writes_and_writesRest t).2]
  cases u.exportElements t with
  | ok es => exact (write_close (Nat.zero_add _).symm).trans write_nil
  | error x => rfl

end Unifier

end NameResolution

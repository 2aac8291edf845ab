import NameResolution.Proofs.Unifier.Agreement

namespace NameResolution.Unifier

variable {u v : Unifier}

/-- What is done with a unifier: a key is bound, or a term or all keys are looked up and the
compressed unifier is used from then on. All keys looked up in another order are that many lookups of
one term. -/
inductive Operation where
  | bind (key : Key) (t : Term)
  | find (t : Term)
  | findAll

def Operation.isBind : Operation → Bool
  | bind _ _ => true
  | find _ | findAll => false

/-- The unifier after an operation. A binding that is refused leaves it as it is. -/
def perform (u : Unifier) : Operation → Unifier
  | .bind key t => (u.bind key t).toOption.getD u
  | .find t => (u.find t).unifier
  | .findAll => u.findAll

def answer? (u : Unifier) : Operation → Option (Except BindError Unit)
  | .bind key t => some ((u.bind key t).map fun _ => ())
  | .find _ | .findAll => none

def performAll (u : Unifier) (operations : List Operation) : Unifier := operations.foldl perform u

def answers (u : Unifier) : List Operation → List (Except BindError Unit)
  | [] => []
  | operation :: operations =>
    (u.answer? operation).toList ++ (u.perform operation).answers operations

/-- A lookup changes nothing that its unifier agrees on. -/
theorem Agree.perform_of_lookup {operation : Operation} (h : Agree u v)
    (hlookup : operation.isBind = false) : Agree (u.perform operation) v := by
  cases operation with
  | bind => cases hlookup
  | find t => exact (u.agree_find t).trans h
  | findAll => exact u.agree_findAll.trans h

theorem Agree.perform_bind (h : Agree u v) (key : Key) (t : Term) :
    u.answer? (.bind key t) = v.answer? (.bind key t) ∧
      Agree (u.perform (.bind key t)) (v.perform (.bind key t)) := by
  rcases h.bind key t with ⟨x, hu, hv⟩ | ⟨u', v', hu, hv, hagree⟩
  · refine ⟨by simp only [answer?, hu, hv], ?_⟩
    simp only [perform, hu, hv]
    exact h
  · refine ⟨by simp only [answer?, hu, hv]; rfl, ?_⟩
    simp only [perform, hu, hv]
    exact hagree

/-- Lookups between bindings change neither the answers nor what the unifiers agree on. -/
theorem Agree.performAll (h : Agree u v) (operations : List Operation) :
    u.answers operations = v.answers (operations.filter (·.isBind)) ∧
      Agree (u.performAll operations) (v.performAll (operations.filter (·.isBind))) := by
  induction operations generalizing u v with
  | nil => exact ⟨rfl, h⟩
  | cons operation operations ih =>
    cases hbind : operation.isBind with
    | false =>
      rw [List.filter_cons_of_neg (by simp [hbind])]
      have hnone : u.answer? operation = none := by
        cases operation with
        | bind => cases hbind
        | find | findAll => rfl
      rw [answers, hnone]
      exact ih (h.perform_of_lookup hbind)
    | true =>
      rw [List.filter_cons_of_pos hbind]
      cases operation with
      | find | findAll => cases hbind
      | bind key t =>
        obtain ⟨hanswer, hagree⟩ := h.perform_bind key t
        obtain ⟨hanswers, hagree'⟩ := ih hagree
        rw [answers, answers, hanswer, hanswers]
        exact ⟨rfl, hagree'⟩

/-- Looking terms up between bindings, and going on with the compressed unifiers, changes no answer
of a binding. After every operation the unifier has the same bound keys, representatives and
substituted terms as the one to which only the bindings have been added. -/
theorem compression_unobservable (u : Unifier) (operations : List Operation) :
    u.answers operations = u.answers (operations.filter (·.isBind)) ∧
      ∀ n,
        let compressed := u.performAll (operations.take n)
        let plain := u.performAll ((operations.take n).filter (·.isBind))
        (∀ key, (compressed.lookup key).isSome = (plain.lookup key).isSome) ∧
          ∀ t, compressed.walk t = plain.walk t ∧ compressed.substitute t = plain.substitute t := by
  refine ⟨((Agree.refl u).performAll operations).1, fun n => ?_⟩
  have hagree := ((Agree.refl u).performAll (operations.take n)).2
  refine ⟨fun key => ?_, fun t => ⟨hagree.walk_eq t, hagree.substitute_eq t⟩⟩
  rw [Bool.eq_iff_iff, ← Option.ne_none_iff_isSome, ← Option.ne_none_iff_isSome, ne_eq, ne_eq,
    hagree.lookup_eq_none_iff]

end NameResolution.Unifier

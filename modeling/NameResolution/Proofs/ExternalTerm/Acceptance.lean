import NameResolution.Proofs.ExternalTerm.Parts
import NameResolution.Proofs.ExternalTerm.Rejection

namespace NameResolution

/-- An open tail is written like the term that its external form is read as. -/
theorem Unifier.exportTerm_asTail (t : Term) :
    Unifier.empty.exportTerm t.asTail = Unifier.empty.exportTerm t := by
  rw [exportTerm_of_unbound (next?_empty _), exportTerm_of_unbound (next?_empty _)]
  cases t <;> rfl

theorem Term.writable_asTail {t : Term} : t.asTail.Writable ↔ t.Writable := by
  rw [writable_iff, writable_iff]
  cases t <;> rfl

namespace ExternalTerm

/-- As the open tail of a list the external term is a variable or an operator, or it is a list that
goes on to such a tail or has none. -/
inductive EndsList : ExternalTerm → Prop
  | application (name : String) (arity : Nat) (args : List ExternalTerm) :
    EndsList (application name arity args)
  | closed {es : List ExternalTerm} (h : (list es).listTail? = none) : EndsList (list es)
  | tail {es : List ExternalTerm} {tail : ExternalTerm} (h : (list es).listTail? = some tail)
    (htail : EndsList tail) : EndsList (list es)

/-- A list that goes on, after an element, to an open tail that is neither a list nor open. -/
def Improper (e : ExternalTerm) : Prop :=
  ¬e.BareTail ∧ ∃ tail, e.listTail? = some tail ∧ ¬tail.EndsList

def Proper (e : ExternalTerm) : Prop := ∀ c : ExternalTerm, c.Within e → ¬c.Improper

variable {e tail : ExternalTerm} {es args : List ExternalTerm} {t : Term} {ts : List Term}

theorem endsList_list_iff :
    (list es).EndsList ↔ ∀ tail, (list es).listTail? = some tail → tail.EndsList := by
  constructor
  · intro h tail htail
    cases h with
    | closed hnone => cases hnone.symm.trans htail
    | tail hsome hends =>
      cases hsome.symm.trans htail
      exact hends
  · intro h
    cases htail : (list es).listTail? with
    | none => exact .closed htail
    | some tail => exact .tail htail (h tail htail)

theorem ReadsList.endsList_iff (h : ReadsList es t)
    (htail : ∀ tail s, (list es).listTail? = some tail → tail.toTerm? = .ok s →
      (s.asTail.EndsList ↔ tail.EndsList)) :
    t.EndsList ↔ (list es).EndsList := by
  induction h with
  | nil => exact iff_of_true trivial (.closed rfl)
  | cons hopen _ _ ih =>
    rw [endsList_list_iff, listTail?_cons hopen, ← endsList_list_iff]
    rw [listTail?_cons hopen] at htail
    exact ih htail
  | bare hopen hread =>
    rw [htail _ _ hopen hread, endsList_list_iff]
    constructor
    · intro hends tail heq
      cases hopen.symm.trans heq
      exact hends
    · exact fun hends => hends _ hopen

/-- What an external term stands for as an open tail can end a list exactly if the external term
can. -/
theorem endsList_asTail_iff (h : e.toTerm? = .ok t) : t.asTail.EndsList ↔ e.EndsList := by
  induction e using wellFounded_partOf.transGen.induction generalizing t with
  | _ e ih =>
  cases e with
  | int | real | string =>
    cases h
    refine iff_of_false id fun hends => ?_
    cases hends
  | tuple args =>
    obtain ⟨ts, -, rfl⟩ := exists_of_toTerm?_tuple h
    refine iff_of_false id fun hends => ?_
    cases hends
  | placeholder => cases h
  | application name arity args =>
    refine iff_of_true ?_ (.application name arity args)
    obtain ⟨-, v, -, rfl⟩ | ⟨-, ts, -, rfl⟩ := toTerm?_application_cases h
    · trivial
    · trivial
  | list es =>
    rw [asTail_of_list h]
    exact (toTerm?_list_iff.mp h).endsList_iff fun tail s htail =>
      ih tail (part_of_listTail? htail)

theorem proper_iff : e.Proper ↔ ¬e.Improper ∧ ∀ c ∈ e.children, c.Proper := forall_within_iff

theorem not_improper (h : ∀ es, e ≠ list es) : ¬e.Improper := by
  rintro ⟨-, tail, htail, -⟩
  cases (listTail?_of_not_list h).symm.trans htail

theorem proper_application {name : String} {arity : Nat} :
    (application name arity args).Proper ↔ ∀ c ∈ args, c.Proper :=
  proper_iff.trans (and_iff_right (not_improper nofun))

theorem proper_tuple : (tuple args).Proper ↔ ∀ c ∈ args, c.Proper :=
  proper_iff.trans (and_iff_right (not_improper nofun))

theorem proper_ofPrimitive (p : Primitive) : (ofPrimitive p).Proper := by
  cases p <;> exact proper_iff.mpr ⟨not_improper nofun, nofun⟩

def ReadWritable (e : ExternalTerm) : Prop :=
  ∀ t, e.toTerm? = .ok t → (t.Writable ↔ e.Proper)

theorem ReadsList.writable_iff (h : ReadsList es t) (hes : ∀ c ∈ es, c.ReadWritable)
    (htail : ∀ tail, (list es).listTail? = some tail → tail.ReadWritable) :
    t.Writable ↔ (list es).Proper := by
  rw [proper_iff]
  induction h with
  | nil =>
    refine iff_of_true (Term.writable_iff.mpr ⟨trivial, List.forall_mem_nil _⟩) ⟨?_, nofun⟩
    rintro ⟨-, tail, htail, -⟩
    cases htail
  | @cons e es head tail hopen hhead hrest ih =>
    obtain ⟨he, hes⟩ := List.forall_mem_cons.mp hes
    rw [listTail?_cons hopen] at htail
    have hends : (Term.cons head tail).EndsList ↔ (list es).EndsList :=
      hrest.endsList_iff fun tail s _ => endsList_asTail_iff
    -- the list can be written if its rest can end it, and such a rest is not improper itself
    have himproper : ¬(list (e :: es)).Improper ↔ (list es).EndsList := by
      rw [Improper, and_iff_right (not_bareTail_cons hopen), listTail?_cons hopen, endsList_list_iff]
      push Not
      rfl
    have hproper : (list es).EndsList → ¬(list es).Improper :=
      fun h ⟨_, tail, htail, hnot⟩ => hnot (endsList_list_iff.mp h tail htail)
    rw [Term.writable_iff, himproper, ← hends]
    change _ ∧ (∀ c ∈ [head, tail], c.Writable) ↔ _ ∧ ∀ c ∈ e :: es, c.Proper
    rw [List.forall_mem_cons, List.forall_mem_singleton, List.forall_mem_cons, he head hhead,
      ih hes htail]
    exact and_congr_right fun h => and_congr_right fun _ => and_iff_right (hproper (hends.mp h))
  | @bare element tail s hopen hread =>
    have helement : element.Proper ↔ tail.Proper := by
      obtain ⟨arity, rfl⟩ := openTail?_eq_some_iff.mp hopen
      exact proper_application.trans List.forall_mem_singleton
    rw [Term.writable_asTail, htail tail hopen s hread, ← helement,
      and_iff_right fun h => h.1 ⟨element, tail, rfl, hopen⟩]
    exact List.forall_mem_singleton.symm

theorem forall_writable_iff (hread : toTerms? args = .ok ts) (hargs : ∀ c ∈ args, c.ReadWritable) :
    (∀ t ∈ ts, t.Writable) ↔ ∀ c ∈ args, c.Proper := by
  have hread := toTerms?_eq_ok_iff.mp hread
  clear * - hread hargs
  induction hread with
  | nil => simp
  | cons ht _ ih =>
    obtain ⟨hc, hargs⟩ := List.forall_mem_cons.mp hargs
    rw [List.forall_mem_cons, List.forall_mem_cons]
    exact and_congr (hc _ ht) (ih hargs)

theorem readWritable_ofPrimitive (p : Primitive) : (ofPrimitive p).ReadWritable := by
  intro t h
  cases (toTerm?_ofPrimitive p).symm.trans h
  exact iff_of_true (Term.writable_iff.mpr ⟨trivial, List.forall_mem_nil _⟩) (proper_ofPrimitive p)

theorem readWritable (e : ExternalTerm) : e.ReadWritable := by
  induction e using wellFounded_partOf.transGen.induction with
  | _ e ih =>
  have hchildren : ∀ c ∈ e.children, c.ReadWritable := fun c hc => ih c (.single hc)
  intro t h
  cases e with
  | int value => exact readWritable_ofPrimitive (.int value) t h
  | real bits => exact readWritable_ofPrimitive (.real bits) t h
  | string text => exact readWritable_ofPrimitive (.string text) t h
  | placeholder => cases h
  | tuple args =>
    obtain ⟨ts, hts, rfl⟩ := exists_of_toTerm?_tuple h
    rw [Term.writable_iff, proper_tuple]
    exact (and_iff_right trivial).trans (forall_writable_iff hts hchildren)
  | application name arity args =>
    obtain ⟨-, v, rfl, rfl⟩ | ⟨-, ts, hts, rfl⟩ := toTerm?_application_cases h
    · have hwritable : (Term.var v).Writable :=
        Term.writable_iff.mpr ⟨trivial, List.forall_mem_nil _⟩
      refine iff_of_true hwritable (proper_application.mpr ?_)
      exact List.forall_mem_cons.mpr ⟨proper_ofPrimitive (.string _),
        List.forall_mem_singleton.mpr (proper_ofPrimitive (.string _))⟩
    · rw [Term.writable_iff, proper_application]
      exact (and_iff_right trivial).trans (forall_writable_iff hts hchildren)
  | list es =>
    exact (toTerm?_list_iff.mp h).writable_iff hchildren fun tail htail =>
      ih tail (part_of_listTail? htail)

end ExternalTerm

end NameResolution

import NameResolution.Proofs.ExternalTerm.Reading

namespace NameResolution

open ExternalTerm Exported

namespace Term

mutual

/-- A term with its operators as applications. Only an operator that is the tail of a list stays
one. -/
def eraseIn (isTail : Bool) : Term → Term
  | var v => var v
  | primitive p => primitive p
  | application name args => application name (eraseAll args)
  | tuple args => tuple (eraseAll args)
  | cons head tail => cons (head.eraseIn false) (tail.eraseIn true)
  | nil => nil
  | operator name args =>
    if isTail then operator name (eraseAll args) else application name (eraseAll args)

def eraseAll : List Term → List Term
  | [] => []
  | t :: ts => t.eraseIn false :: eraseAll ts

end

def erase (t : Term) : Term := t.eraseIn false

theorem eraseAll_eq_map (ts : List Term) : eraseAll ts = ts.map erase := by
  induction ts with
  | nil => rfl
  | cons t ts ih => rw [eraseAll, ih, List.map_cons, erase]

/-- The external form of the term itself cannot be mistaken for a variable or an open tail, and a
variable has no empty resource. -/
def Legible : Term → Prop
  | var v => v.resource ≠ some ""
  | application name _ | operator name _ => name ≠ variableName ∧ name ≠ openTailName
  | primitive _ | tuple _ | cons _ _ | nil => True

/-- The external form of a legible term stands for no tail. -/
theorem openTail?_eq_none_of_exportTerm {t : Term} {e : ExternalTerm} (ht : t.Legible)
    (h : Unifier.empty.exportTerm t = .ok e) : e.openTail? = none := by
  rw [Unifier.exportTerm_of_unbound (Unifier.next?_empty t)] at h
  cases t with
  | application name args | operator name args =>
    obtain ⟨es, -, hes⟩ := bind_eq_ok_iff.mp h
    cases hes
    rw [← Option.not_isSome_iff_eq_none, Option.isSome_iff_exists]
    rintro ⟨tail, htail⟩
    obtain ⟨arity, heq⟩ := openTail?_eq_some_iff.mp htail
    exact ht.2 (ExternalTerm.application.inj heq).1
  | tuple =>
    obtain ⟨es, -, hes⟩ := bind_eq_ok_iff.mp h
    cases hes
    rfl
  | cons | nil =>
    obtain ⟨es, -, hes⟩ := bind_eq_ok_iff.mp h
    cases hes
    rfl
  | var =>
    cases h
    rfl
  | primitive p =>
    cases h
    cases p <;> rfl

def ReadBack (t : Term) : Prop :=
  ∀ e, Unifier.empty.exportTerm t = .ok e → e.toTerm? = .ok t.erase

/-- The elements of a list without bindings are read as the list, or as its tail if there are
none. -/
def ListReadBack (t : Term) : Prop :=
  ∀ es, Unifier.empty.exportElements t = .ok es →
    (ExternalTerm.list es).toTerm? = .ok (t.eraseIn true)

theorem toTerms?_of_exported {args : List Term} {es : List ExternalTerm}
    (hargs : ∀ c ∈ args, c.ReadBack) (h : args.mapM Unifier.empty.exportTerm = .ok es) :
    toTerms? es = .ok (eraseAll args) := by
  rw [toTerms?_eq_ok_iff, eraseAll_eq_map, List.forall₂_map_right_iff]
  have hboth := (List.forall₂_and_left args es).mpr ⟨hargs, mapM_eq_ok_iff.mp h⟩
  exact (hboth.imp fun c e hce => hce.1 e hce.2).flip

theorem listReadBack_of_children {t : Term} (ht : t.Legible) (hparts : ∀ c ∈ t.children, c.Legible)
    (hterms : ∀ c ∈ t.children, c.ReadBack) (hlists : ∀ c ∈ t.children, c.ListReadBack) :
    t.ListReadBack := by
  intro es h
  rw [Unifier.exportElements_of_unbound (Unifier.next?_empty t)] at h
  cases t with
  | nil =>
    cases h
    exact toTerm?_list_nil
  | cons head tail =>
    obtain ⟨first, hfirst, h⟩ := bind_eq_ok_iff.mp h
    obtain ⟨others, hothers, h⟩ := bind_eq_ok_iff.mp h
    cases h
    have hhead : first.toTerm? = .ok head.erase := hterms head (.head _) first hfirst
    have htail : (ExternalTerm.list others).toTerm? = .ok (tail.eraseIn true) :=
      hlists tail (.tail _ (.head _)) others hothers
    have hclosed : first.openTail? = none :=
      openTail?_eq_none_of_exportTerm (hparts head (.head _)) hfirst
    exact (toTerm?_list_cons fun _ => hclosed).mpr ⟨_, _, hhead, htail, rfl⟩
  | var v =>
    cases h
    have hv := ofArguments?_eq_ok_iff.mpr ⟨rfl, ht⟩
    rw [openTail, ofVariable, apply, apply, toTerm?_list_openTail, if_pos rfl, hv]
    rfl
  | operator name args =>
    obtain ⟨es', hes, h⟩ := bind_eq_ok_iff.mp h
    cases h
    rw [openTail, apply, apply, toTerm?_list_openTail, if_neg ht.1,
      toTerms?_of_exported hterms hes]
    rfl
  | primitive | application | tuple => cases h

theorem readBack_of_children {t : Term} (ht : t.Legible) (hterms : ∀ c ∈ t.children, c.ReadBack)
    (hlist : t.ListReadBack) : t.ReadBack := by
  intro e h
  rw [Unifier.exportTerm_of_unbound (Unifier.next?_empty t)] at h
  cases t with
  | var v =>
    cases h
    have hv := ofArguments?_eq_ok_iff.mpr ⟨rfl, ht⟩
    rw [ofVariable, apply, toTerm?_application, if_pos rfl, hv]
    rfl
  | primitive p =>
    cases h
    cases p <;> rfl
  | application name args | operator name args =>
    obtain ⟨es, hes, h⟩ := bind_eq_ok_iff.mp h
    cases h
    rw [apply, toTerm?_application, if_neg ht.1, toTerms?_of_exported hterms hes]
    rfl
  | tuple args =>
    obtain ⟨es, hes, h⟩ := bind_eq_ok_iff.mp h
    cases h
    rw [toTerm?, toTerms?_of_exported hterms hes]
    rfl
  | cons | nil =>
    obtain ⟨es, hes, h⟩ := bind_eq_ok_iff.mp h
    cases h
    exact hlist es hes

theorem readBack_and_listReadBack (t : Term) (ht : ∀ s : Term, s.Within t → s.Legible) :
    t.ReadBack ∧ t.ListReadBack := by
  induction t using Unifier.empty.induction with
  | bound t s hn => cases (Unifier.next?_empty t).symm.trans hn
  | unbound t _ ih =>
    obtain ⟨hself, hparts⟩ := forall_within_iff.mp ht
    have hterms : ∀ c ∈ t.children, c.ReadBack := fun c hc => (ih c hc (hparts c hc)).1
    have hlists : ∀ c ∈ t.children, c.ListReadBack := fun c hc => (ih c hc (hparts c hc)).2
    have hlist : t.ListReadBack :=
      listReadBack_of_children hself (fun c hc => hparts c hc c .refl) hterms hlists
    exact ⟨readBack_of_children hself hterms hlist, hlist⟩

end Term

namespace Exporter

variable {u : Unifier} {t : Term} {e : ExternalTerm}

/-- A term is written as the substituted term is written without bindings. -/
theorem term_ofUnifier_eq_ok_iff :
    (Exporter.ofUnifier u).term t = .ok e ↔
      Unifier.empty.exportTerm (u.substitute t) = .ok e := by
  rw [term_ofUnifier, (u.export_substitute t).1, mapError_eq_ok_iff]

/-- The external form of a term under bindings is read as the substituted term, with its operators
as applications except at the ends of lists. -/
theorem toTerm?_of_term (h : (Exporter.ofUnifier u).term t = .ok e)
    (hlegible : ∀ s : Term, s.Within (u.substitute t) → s.Legible) :
    e.toTerm? = .ok (u.substitute t).erase :=
  (Term.readBack_and_listReadBack _ hlegible).1 e (term_ofUnifier_eq_ok_iff.mp h)

/-- A list that ends in an operator, beside the same operator in another place, where the argument
of both is bound. -/
theorem toTerm?_of_term_operators :
    let x : Variable := ⟨none, "x"⟩
    let one : Term := .primitive (.int 1)
    let t : Term := .tuple [.cons one (.operator "f" [.var x]), .operator "f" [.var x]]
    let s : Term := .tuple [.cons one (.operator "f" [one]), .operator "f" [one]]
    let f : ExternalTerm := .apply "f" [.int 1]
    let e : ExternalTerm := .tuple [.list [.int 1, .openTail f], f]
    ∃ u, Unifier.empty.bind (.var x) one = .ok u ∧ u.substitute t = s ∧
      (Exporter.ofUnifier u).term t = .ok e ∧
      (∀ r : Term, r.Within (u.substitute t) → r.Legible) ∧
      e.toTerm? = .ok (.tuple [.cons one (.operator "f" [one]), .application "f" [one]]) := by
  intro x one t s f e
  obtain ⟨u, hu, hbindings⟩ : ∃ u, Unifier.empty.bind (.var x) one = .ok u ∧
      u.bindings = [(.var x, one)] := Unifier.bind_of_childless rfl rfl (by decide) rfl
  have hnext (t : Term) : u.next? t = Bindings.next? [(.var x, one)] t :=
    congrArg (Bindings.next? · t) hbindings
  have hone : u.substitute one = one := Unifier.substitute_of_unbound ((hnext _).trans rfl)
  have hx : u.substitute (.var x) = one :=
    (Unifier.substitute_of_bound ((hnext _).trans rfl)).trans hone
  have hfx : u.substitute (.operator "f" [.var x]) = .operator "f" [one] := by
    rw [Unifier.substitute_of_unbound ((hnext _).trans rfl), Term.children, List.map_singleton, hx]
    rfl
  have hs : u.substitute t = s := by
    rw [Unifier.substitute_of_unbound ((hnext _).trans rfl)]
    simp only [t, Term.children, List.map_cons, hfx]
    rw [Unifier.substitute_of_unbound ((hnext _).trans rfl)]
    simp only [Term.children, List.map_cons, hfx, hone]
    rfl
  have hterm : (Exporter.ofUnifier u).term t = .ok e := by
    rw [term_ofUnifier_eq_ok_iff, hs]
    simp [Unifier.exportTerm_of_unbound, Unifier.exportElements_of_unbound, s, one]
    rfl
  have hlegible : ∀ r : Term, r.Within (u.substitute t) → r.Legible := by
    have hone : ∀ r : Term, r.Within one → r.Legible :=
      Term.forall_within_iff.mpr ⟨trivial, List.forall_mem_nil _⟩
    have hf : ∀ r : Term, r.Within (.operator "f" [one]) → r.Legible :=
      Term.forall_within_iff.mpr
        ⟨⟨by decide, by decide⟩, List.forall_mem_singleton.mpr hone⟩
    have hlist : ∀ r : Term, r.Within (.cons one (.operator "f" [one])) → r.Legible :=
      Term.forall_within_iff.mpr
        ⟨trivial, List.forall_mem_cons.mpr ⟨hone, List.forall_mem_singleton.mpr hf⟩⟩
    rw [hs]
    exact Term.forall_within_iff.mpr
      ⟨trivial, List.forall_mem_cons.mpr ⟨hlist, List.forall_mem_singleton.mpr hf⟩⟩
  have hread := toTerm?_of_term hterm hlegible
  rw [hs] at hread
  exact ⟨u, hu, hs, hterm, hlegible, hread⟩

end Exporter

end NameResolution

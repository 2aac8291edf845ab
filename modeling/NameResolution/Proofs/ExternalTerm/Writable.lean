import NameResolution.ExternalTerm.Export
import NameResolution.Proofs.Outcome
import NameResolution.Proofs.Unifier.Parts

namespace NameResolution

namespace Term

/-- What is left of a list when its elements are taken away; any other term as it is. -/
def spineEnd : Term → Term
  | cons _ tail => tail.spineEnd
  | t => t

/-- A list can end with the term, or goes on to a term that it can end with. -/
def EndsList (t : Term) : Prop :=
  match t.spineEnd with
  | nil | var _ | operator _ _ => True
  | primitive _ | application _ _ | tuple _ | cons _ _ => False

theorem endsList_iff {t : Term} :
    t.EndsList ↔ t.spineEnd = nil ∨ (∃ x, t.spineEnd = var x) ∨
      ∃ name args, t.spineEnd = operator name args := by
  unfold EndsList
  cases t.spineEnd <;> simp

def Ended : Term → Prop
  | cons head tail => (cons head tail).EndsList
  | var _ | primitive _ | application _ _ | tuple _ | nil | operator _ _ => True

def Writable (t : Term) : Prop := ∀ s : Term, s.Within t → s.Ended

theorem writable_iff {t : Term} : t.Writable ↔ t.Ended ∧ ∀ c ∈ t.children, c.Writable :=
  forall_within_iff

end Term

namespace Unifier

variable {t : Term}

theorem exists_exportElements_of_parts
    (hterms : ∀ c ∈ t.children, (∃ e, empty.exportTerm c = .ok e) ↔ c.Writable)
    (hlists : ∀ c ∈ t.children,
      (∃ es, empty.exportElements c = .ok es) ↔ c.EndsList ∧ c.Writable) :
    (∃ es, empty.exportElements t = .ok es) ↔ t.EndsList ∧ t.Writable := by
  rw [exportElements_of_unbound (next?_empty t), Term.writable_iff]
  cases t with
  | nil | var => exact iff_of_true ⟨_, rfl⟩ ⟨trivial, trivial, List.forall_mem_nil _⟩
  | primitive | application | tuple => exact iff_of_false (fun ⟨_, h⟩ => nomatch h) And.left
  | operator name args =>
    have hargs : (∃ es, args.mapM empty.exportTerm = .ok es) ↔ ∀ c ∈ args, c.Writable :=
      exists_mapM_eq_ok_iff.trans (forall₂_congr hterms)
    rw [exists_bind_pure_eq_ok_iff, hargs]
    exact ⟨fun h => ⟨trivial, trivial, h⟩, fun h => h.2.2⟩
  | cons head tail =>
    have hhead := hterms head (.head _)
    have htail := hlists tail (.tail _ (.head _))
    constructor
    · rintro ⟨es, h⟩
      obtain ⟨first, hfirst, h⟩ := bind_eq_ok_iff.mp h
      obtain ⟨others, hothers, -⟩ := bind_eq_ok_iff.mp h
      obtain ⟨hends, hwritable⟩ := htail.mp ⟨others, hothers⟩
      exact ⟨hends, hends, List.forall_mem_cons.mpr
        ⟨hhead.mp ⟨first, hfirst⟩, List.forall_mem_singleton.mpr hwritable⟩⟩
    · rintro ⟨hends, -, hparts⟩
      obtain ⟨first, hfirst⟩ := hhead.mpr (hparts head (.head _))
      obtain ⟨others, hothers⟩ := htail.mpr ⟨hends, hparts tail (.tail _ (.head _))⟩
      exact ⟨first :: others,
        bind_eq_ok_iff.mpr ⟨first, hfirst, bind_eq_ok_iff.mpr ⟨others, hothers, rfl⟩⟩⟩

theorem exists_exportTerm_of_parts
    (hterms : ∀ c ∈ t.children, (∃ e, empty.exportTerm c = .ok e) ↔ c.Writable)
    (hlist : (∃ es, empty.exportElements t = .ok es) ↔ t.EndsList ∧ t.Writable) :
    (∃ e, empty.exportTerm t = .ok e) ↔ t.Writable := by
  rw [exportTerm_of_unbound (next?_empty t)]
  cases t with
  | var | primitive =>
    exact iff_of_true ⟨_, rfl⟩ (Term.writable_iff.mpr ⟨trivial, List.forall_mem_nil _⟩)
  | application name args | tuple args | operator name args =>
    have hargs : (∃ es, args.mapM empty.exportTerm = .ok es) ↔ ∀ c ∈ args, c.Writable :=
      exists_mapM_eq_ok_iff.trans (forall₂_congr hterms)
    rw [exists_bind_pure_eq_ok_iff, hargs, Term.writable_iff]
    exact ⟨fun h => ⟨trivial, h⟩, fun h => h.2⟩
  | cons =>
    rw [exists_bind_pure_eq_ok_iff, hlist]
    exact ⟨fun h => h.2, fun h => ⟨(Term.writable_iff.mp h).1, h⟩⟩
  | nil =>
    rw [exists_bind_pure_eq_ok_iff, hlist]
    exact ⟨fun h => h.2, fun h => ⟨trivial, h⟩⟩

/-- Without bindings, a term can be written exactly if its lists have ends, and written as a list
exactly if it is the end of one as well. -/
theorem exists_export_iff (t : Term) :
    ((∃ e, empty.exportTerm t = .ok e) ↔ t.Writable) ∧
      ((∃ es, empty.exportElements t = .ok es) ↔ t.EndsList ∧ t.Writable) := by
  induction t using empty.induction with
  | bound t s hn => cases (next?_empty t).symm.trans hn
  | unbound t _ ih =>
    have hterms := fun c hc => (ih c hc).1
    have hlist := exists_exportElements_of_parts hterms fun c hc => (ih c hc).2
    exact ⟨exists_exportTerm_of_parts hterms hlist, hlist⟩

end Unifier

end NameResolution

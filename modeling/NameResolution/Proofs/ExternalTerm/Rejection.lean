import NameResolution.Proofs.ExternalTerm.Substitution
import NameResolution.Proofs.ExternalTerm.Writable

namespace NameResolution

open ExternalTerm

namespace Term

/-- As the rest of a list, the term ends it with a primitive, an application or a tuple. -/
def Improper (t : Term) : Prop :=
  (∃ p, t.spineEnd = primitive p) ∨ (∃ name args, t.spineEnd = application name args) ∨
    ∃ args, t.spineEnd = tuple args

theorem spineEnd_ne_cons (t head tail : Term) : t.spineEnd ≠ cons head tail := by
  fun_induction spineEnd t with
  | case1 _ _ ih => exact ih
  | case2 t h => exact h head tail

theorem improper_iff_not_endsList {t : Term} : t.Improper ↔ ¬t.EndsList := by
  unfold Improper EndsList
  cases h : t.spineEnd with
  | cons head tail => exact absurd h (t.spineEnd_ne_cons head tail)
  | var | nil | operator => simp
  | primitive | application | tuple => simp

theorem not_writable_iff {t : Term} :
    ¬t.Writable ↔ ∃ head tail : Term, (cons head tail).Within t ∧ tail.Improper := by
  constructor
  · intro h
    obtain ⟨s, hs⟩ := not_forall.mp h
    obtain ⟨hwithin, hended⟩ := Classical.not_imp.mp hs
    cases s with
    | cons head tail => exact ⟨head, tail, hwithin, improper_iff_not_endsList.mpr hended⟩
    | var | primitive | application | tuple | nil | operator => exact absurd trivial hended
  · rintro ⟨head, tail, hwithin, himproper⟩ h
    exact improper_iff_not_endsList.mp himproper (h _ hwithin)

end Term

namespace Unifier

variable {u : Unifier} {s t : Term}

theorem kind_substitute (h : u.next? s = none) : (u.substitute s).kind = s.kind := by
  rw [substitute_of_unbound h]
  cases s <;> rfl

def FaultsListPosition (u : Unifier) (x : Unsupported) : Prop :=
  ∃ s, x = .listPosition s ∧ u.next? s = none

/-- The message tells only the kind of the term. -/
theorem message_listPosition (h : s.kind = t.kind) :
    (Unsupported.listPosition s).message = (Unsupported.listPosition t).message :=
  congrArg (fun kind => "unsupported term kind: " ++ kind ++ " in list position") h

theorem message_substitute {x : Unsupported} (h : u.FaultsListPosition x) :
    (x.substitute u).message = x.message := by
  obtain ⟨s, rfl, hs⟩ := h
  exact message_listPosition (kind_substitute hs)

theorem faults_of_children (ht : u.next? t = none)
    (hterms : ∀ c ∈ t.children, ∀ x, u.exportTerm c = .error x → u.FaultsListPosition x)
    (hlists : ∀ c ∈ t.children, ∀ x, u.exportElements c = .error x → u.FaultsListPosition x) :
    (∀ x, u.exportTerm t = .error x → u.FaultsListPosition x) ∧
      ∀ x, u.exportElements t = .error x → u.FaultsListPosition x := by
  have hargs : ∀ x, t.children.mapM u.exportTerm = .error x → u.FaultsListPosition x := by
    intro x h
    obtain ⟨c, hc, h⟩ := exists_mem_of_mapM_eq_error h
    exact hterms c hc x h
  have helements : ∀ x, u.exportElements t = .error x → u.FaultsListPosition x := by
    intro x h
    rw [exportElements_of_unbound ht] at h
    cases t with
    | nil | var => cases h
    -- the only error that is not passed on from a part
    | primitive | application | tuple =>
      cases h
      exact ⟨_, rfl, ht⟩
    | cons head tail =>
      rcases bind_eq_error_iff.mp h with h | ⟨first, -, h⟩
      · exact hterms head (.head _) x h
      · exact hlists tail (.tail _ (.head _)) x (bind_pure_eq_error_iff.mp h)
    | operator name args => exact hargs x (bind_pure_eq_error_iff.mp h)
  refine ⟨fun x h => ?_, helements⟩
  rw [exportTerm_of_unbound ht] at h
  cases t with
  | var | primitive => cases h
  | application | operator | tuple => exact hargs x (bind_pure_eq_error_iff.mp h)
  | cons | nil => exact helements x (bind_pure_eq_error_iff.mp h)

theorem faults_of_export (u : Unifier) (t : Term) :
    (∀ x, u.exportTerm t = .error x → u.FaultsListPosition x) ∧
      ∀ x, u.exportElements t = .error x → u.FaultsListPosition x := by
  induction t using u.induction with
  | bound t s ht ih =>
    rw [exportTerm_of_bound ht, exportElements_of_bound ht]
    exact ih
  | unbound t ht ih =>
    exact faults_of_children ht (fun c hc => (ih c hc).1) fun c hc => (ih c hc).2

end Unifier

namespace Exporter

/-- To write a term under bindings is to write the substituted term without any: either both have the
same external form, or both fail with the same message. The only error is that of a list that goes on
with a term of another kind, and it is made exactly if the substituted term has a list that ends in a
primitive, an application or a tuple. -/
theorem term_eq_term_substitute (u : Unifier) (t : Term) :
    ((Exporter.ofUnifier u).term t).mapError Unsupported.message =
        ((Exporter.ofUnifier Unifier.empty).term (u.substitute t)).mapError Unsupported.message ∧
      (∀ x, (Exporter.ofUnifier u).term t = .error x → ∃ s, x = .listPosition s) ∧
      ((∃ x, (Exporter.ofUnifier u).term t = .error x) ↔
        ∃ head tail : Term, (Term.cons head tail).Within (u.substitute t) ∧ tail.Improper) := by
  have hfaults := (u.faults_of_export t).1
  have hexport := (u.export_substitute t).1
  rw [term_ofUnifier, term_ofUnifier]
  refine ⟨?_, fun x hx => ?_, ?_⟩
  · rw [hexport, mapError_mapError]
    exact mapError_congr fun x hx => (Unifier.message_substitute (hfaults x hx)).symm
  · obtain ⟨s, hs, -⟩ := hfaults x hx
    exact ⟨s, hs⟩
  · have hok : (∃ e, u.exportTerm t = .ok e) ↔ (u.substitute t).Writable := by
      rw [← (Unifier.exists_export_iff (u.substitute t)).1, hexport]
      simp only [mapError_eq_ok_iff]
    rw [exists_error_iff, hok, Term.not_writable_iff]

end Exporter

end NameResolution

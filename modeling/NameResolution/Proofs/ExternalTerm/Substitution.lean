import NameResolution.Proofs.ExternalTerm.Exported
import NameResolution.Proofs.Unifier.Agreement
import NameResolution.Proofs.Unifier.Idempotence

namespace NameResolution

open ExternalTerm

def ExternalTerm.Unsupported.substitute (u : Unifier) : Unsupported → Unsupported
  | listPosition t => listPosition (u.substitute t)
  | x => x

namespace Unifier

open Exported

variable {u v : Unifier} {t : Term}

theorem Agree.export_eq (h : Agree u v) (t : Term) :
    u.exportTerm t = v.exportTerm t ∧ u.exportElements t = v.exportElements t := by
  -- in one induction: elements are made of heads, and heads that are lists of elements
  have hpair : (u.exportTerm t, u.exportElements t) = (v.exportTerm t, v.exportElements t) := by
    refine h.apply_eq (f := fun t => (u.exportTerm t, u.exportElements t))
      (g := fun t => (v.exportTerm t, v.exportElements t)) ?_ ?_ ?_ t
    · exact fun t s ht => Prod.ext (exportTerm_of_bound ht) (exportElements_of_bound ht)
    · exact fun t s ht => Prod.ext (exportTerm_of_bound ht) (exportElements_of_bound ht)
    intro t hu hv ih
    have hterms : ∀ c ∈ t.children, u.exportTerm c = v.exportTerm c :=
      fun c hc => (Prod.mk.inj (ih c hc)).1
    have helements : u.exportElements t = v.exportElements t := by
      rw [exportElements_of_unbound hu, exportElements_of_unbound hv]
      cases t with
      | cons head tail =>
        have htail : u.exportElements tail = v.exportElements tail :=
          (Prod.mk.inj (ih tail (.tail _ (.head _)))).2
        simp only [hterms head (.head _), htail]
      | operator name args => simp only [mapM_congr (l := args) hterms]
      | var | primitive | application | tuple | nil => rfl
    have hterm : u.exportTerm t = v.exportTerm t := by
      rw [exportTerm_of_unbound hu, exportTerm_of_unbound hv]
      cases t with
      | application name args | operator name args | tuple args =>
        simp only [mapM_congr (l := args) hterms]
      | cons | nil => simp only [helements]
      | var | primitive => rfl
    exact Prod.ext hterm helements
  exact Prod.mk.inj hpair

/-- Writing a term under bindings is writing the substituted term without any; an error then names
the substituted term. -/
theorem export_substitute (u : Unifier) (t : Term) :
    Unifier.empty.exportTerm (u.substitute t) = (u.exportTerm t).mapError (·.substitute u) ∧
      Unifier.empty.exportElements (u.substitute t) =
        (u.exportElements t).mapError (·.substitute u) := by
  induction t using u.induction with
  | bound t s ht ih =>
    rw [substitute_of_bound ht, exportTerm_of_bound ht, exportElements_of_bound ht]
    exact ih
  | unbound t ht ih =>
    have hterms : ∀ c ∈ t.children, Unifier.empty.exportTerm (u.substitute c) =
        (u.exportTerm c).mapError (·.substitute u) := fun c hc => (ih c hc).1
    have harguments : ∀ l ⊆ t.children, (l.map u.substitute).mapM Unifier.empty.exportTerm =
        (l.mapM u.exportTerm).mapError (·.substitute u) := by
      intro l hl
      rw [List.mapM_map, mapError_mapM]
      exact mapM_congr fun c hc => hterms c (hl hc)
    -- elements come first, since a list is written by its elements
    have helements : Unifier.empty.exportElements (u.substitute t) =
        (u.exportElements t).mapError (·.substitute u) := by
      rw [exportElements_of_unbound ht]
      cases t with
      | cons head tail =>
        have hsubstitute : u.substitute (.cons head tail) =
            .cons (u.substitute head) (u.substitute tail) := substitute_of_unbound ht
        rw [hsubstitute, exportElements_of_unbound (next?_empty _)]
        simp only [hterms head (.head _), (ih tail (.tail _ (.head _))).2, mapError_bind]
        rfl
      | operator name args =>
        have hsubstitute : u.substitute (.operator name args) =
            .operator name (args.map u.substitute) := substitute_of_unbound ht
        rw [hsubstitute, exportElements_of_unbound (next?_empty _)]
        simp only [harguments args (List.Subset.refl _), mapError_bind]
        rfl
      | var | nil =>
        rw [substitute_of_unbound ht, exportElements_of_unbound (next?_empty _)]
        rfl
      -- the error shows the term, so the bindings are applied in it as well
      | primitive | application | tuple =>
        simp only [Except.mapError, Unsupported.substitute]
        rw [substitute_of_unbound ht, exportElements_of_unbound (next?_empty _)]
        rfl
    have hterm : Unifier.empty.exportTerm (u.substitute t) =
        (u.exportTerm t).mapError (·.substitute u) := by
      rw [exportTerm_of_unbound ht]
      cases t with
      | application name args | operator name args | tuple args =>
        rw [substitute_of_unbound ht, exportTerm_of_unbound (next?_empty _)]
        simp only [Term.children, Term.withChildren, harguments args (List.Subset.refl _),
          mapError_bind]
        rfl
      | cons | nil =>
        simp only [mapError_bind, ← helements]
        rw [substitute_of_unbound ht, exportTerm_of_unbound (next?_empty _)]
        rfl
      | var | primitive =>
        rw [substitute_of_unbound ht, exportTerm_of_unbound (next?_empty _)]
        rfl
    exact ⟨hterm, helements⟩

end Unifier

/-- To bind all keys to their representatives first does not change what is written. -/
theorem Exporter.term_ofUnifier (u : Unifier) (t : Term) :
    (Exporter.ofUnifier u).term t = u.exportTerm t := (u.agree_findAll.export_eq t).1

end NameResolution

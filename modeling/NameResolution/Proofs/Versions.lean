import Mathlib.Data.List.Forall2

namespace NameResolution

universe u v w

/-- What is done to the versions of a value. -/
inductive Revision (ω : Type u)
  /-- A version is changed in place. -/
  | change (version : Nat) (operation : ω)
  /-- A copy of a version, changed by some operations, is one more version. -/
  | copy (version : Nat) (operations : List ω)
  /-- The start value, changed by some operations, is one more version. -/
  | fresh (operations : List ω)

namespace Revision

variable {ω : Type u} {α : Type v} {β : Type w}

def changed? : Revision ω → Option Nat
  | change version _ => some version
  | copy _ _ => none
  | fresh _ => none

section Run

variable (operate : α → ω → α) (start : α)

def perform (versions : List α) : Revision ω → List α
  | change version operation => versions.modify version (operate · operation)
  | copy version operations =>
    versions ++ (versions[version]?.map fun a => operations.foldl operate a).toList
  | fresh operations => versions ++ [operations.foldl operate start]

def performAll (revisions : List (Revision ω)) : List α :=
  revisions.foldl (perform operate start) []

/-- For each version, the operations along its own history. -/
def histories (revisions : List (Revision ω)) : List (List ω) :=
  performAll (fun history operation => history ++ [operation]) [] revisions

variable {operate start} {versions : List α} {revision : Revision ω} {version : Nat}

theorem getElem?_perform_of_ne (hversion : version < versions.length)
    (h : revision.changed? ≠ some version) :
    (revision.perform operate start versions)[version]? = versions[version]? := by
  cases revision with
  | change version' operation =>
    have hne : version' ≠ version := fun e => h (congrArg some e)
    simp [perform, hne]
  | copy version' operations => exact List.getElem?_append_left hversion
  | fresh operations => exact List.getElem?_append_left hversion

end Run

section Related

variable {R : α → β → Prop} {operate : α → ω → α} {operate' : β → ω → β} {start : α} {start' : β}

theorem forall₂_modify {f : α → α} {g : β → β} (hR : ∀ a b, R a b → R (f a) (g b)) {l : List α}
    {l' : List β} (h : List.Forall₂ R l l') (i : Nat) :
    List.Forall₂ R (l.modify i f) (l'.modify i g) := by
  induction h generalizing i with
  | nil => simp
  | cons hhead htail ih =>
    cases i with
    | zero => exact .cons (hR _ _ hhead) htail
    | succ i => exact .cons hhead (ih i)

theorem related_perform
    (hR : ∀ a b operation, R a b → R (operate a operation) (operate' b operation))
    (hstart : R start start') {versions : List α} {versions' : List β}
    (h : List.Forall₂ R versions versions') (revision : Revision ω) :
    List.Forall₂ R (revision.perform operate start versions)
      (revision.perform operate' start' versions') := by
  have hall (operations : List ω) (a : α) (b : β) (hab : R a b) :
      R (operations.foldl operate a) (operations.foldl operate' b) :=
    List.foldl_rel hab fun operation _ a b => hR a b operation
  cases revision with
  | change version operation => exact forall₂_modify (fun a b => hR a b operation) h version
  | copy version operations =>
    refine List.rel_append h ?_
    rcases List.forall₂_iff_get.mp h with ⟨hlength, hget⟩
    by_cases hversion : version < versions.length
    · have hversion' : version < versions'.length := hlength ▸ hversion
      rw [List.getElem?_eq_getElem hversion, List.getElem?_eq_getElem hversion']
      exact .cons (hall operations _ _ (hget version hversion hversion')) .nil
    · have hversion' : ¬version < versions'.length := hlength ▸ hversion
      rw [List.getElem?_eq_none (Nat.not_lt.mp hversion),
        List.getElem?_eq_none (Nat.not_lt.mp hversion')]
      exact .nil
  | fresh operations => exact List.rel_append h (.cons (hall operations _ _ hstart) .nil)

theorem related_performAll
    (hR : ∀ a b operation, R a b → R (operate a operation) (operate' b operation))
    (hstart : R start start') (revisions : List (Revision ω)) :
    List.Forall₂ R (performAll operate start revisions) (performAll operate' start' revisions) :=
  List.foldl_rel .nil fun revision _ _ _ h => related_perform hR hstart h revision

end Related

section Run

variable {operate : α → ω → α} {operate' : β → ω → β} {start : α} {start' : β}

/-- A view of the values that follows the operations is a view of the versions. -/
theorem map_performAll (view : α → β)
    (h : ∀ a operation, view (operate a operation) = operate' (view a) operation)
    (hstart : view start = start') (revisions : List (Revision ω)) :
    (performAll operate start revisions).map view = performAll operate' start' revisions := by
  have hrelated : List.Forall₂ (fun a b => view a = b) (performAll operate start revisions)
      (performAll operate' start' revisions) :=
    related_performAll (R := fun a b => view a = b)
      (fun a _ operation hab => hab ▸ h a operation) hstart revisions
  rwa [← List.forall₂_map_left_iff, List.forall₂_eq_eq_eq] at hrelated

/-- What every operation preserves holds of all versions. -/
theorem invariant_performAll {P : α → Prop} (h : ∀ a operation, P a → P (operate a operation))
    (hstart : P start) (revisions : List (Revision ω)) :
    ∀ a ∈ performAll operate start revisions, P a := by
  have hrelated : List.Forall₂ (fun a b => P a ∧ a = b) (performAll operate start revisions)
      (performAll operate start revisions) :=
    related_performAll (fun a b operation hab => ⟨h a operation hab.1, hab.2 ▸ rfl⟩)
      ⟨hstart, rfl⟩ revisions
  exact ((List.forall₂_and_left _ _).mp hrelated).1

end Run

end Revision

end NameResolution

import Mathlib.Data.List.Nodup
import NameResolution.Proofs.Unifier.Acceptance
import NameResolution.Proofs.Unifier.OccursCheck

namespace NameResolution.Unifier

variable {u v w : Unifier} {s t : Term} {x : Variable} {pairs : List (Variable × Term)}

/-- No operator term is bound. -/
def BindsVariables (u : Unifier) : Prop := ∀ key ∈ u.keys, ∃ x, key = .var x

def solution (u : Unifier) : List (Variable × Term) :=
  u.boundVariables.map fun x => (x, u.substitute (.var x))

theorem mem_keys_iff {key : Key} : key ∈ u.keys ↔ (u.lookup key).isSome := by
  refine ⟨fun h => ?_, mem_keys_of_bound⟩
  obtain ⟨p, hp, rfl⟩ := List.mem_map.mp h
  rw [lookup, (lookup_eq_some_iff_mem u.nodup).mpr hp]
  rfl

theorem BindsVariables.eq_var_of_bound (hu : u.BindsVariables) (ht : u.next? t = some s) :
    ∃ x, t = .var x := by
  obtain ⟨key, rfl, hkey⟩ := key?_of_bound ht
  have hbound : (u.lookup key).isSome := by rw [hkey]; rfl
  obtain ⟨x, rfl⟩ := hu key (mem_keys_of_bound hbound)
  exact ⟨x, rfl⟩

/-- Nothing in a substituted term is bound. -/
theorem BindsVariables.resolved (hu : u.BindsVariables) (t : Term)
    (hs : s.Within (u.substitute t)) : u.next? s = none := by
  cases hnext : u.next? s with
  | none => rfl
  | some r =>
    obtain ⟨x, rfl⟩ := hu.eq_var_of_bound hnext
    exact hnext.symm.trans ((u.substitute_resolved_iff t).1 x hs)

theorem substitute_eq_self (h : ∀ s, s.Within t → u.next? s = none) : u.substitute t = t := by
  rw [substitute_eq_image]
  exact image_eq_self h

/-- A variable that is not part of a term in which nothing is bound can be bound to the term. -/
theorem bind_of_not_within (hx : u.lookup (.var x) = none)
    (hresolved : ∀ s, s.Within t → u.next? s = none) (hnot : ¬(Term.var x).Within t) :
    ∃ v, u.bind (.var x) t = .ok v ∧ v.bindings = u.bindings ++ [(.var x, t)] := by
  apply bind_of_not_occurs hx
  · rw [walk_of_unbound (hresolved t .refl)]
    rintro rfl
    exact hnot .refl
  · rw [← Bool.not_eq_true, occurs_iff_meets hx]
    intro hmeets
    have hnext : u.next? (.var x) = none := next?_term.trans hx
    have hwithin := (within_substitute_var_iff hnext).mpr hmeets
    rw [substitute_eq_self hresolved, substitute_of_unbound hnext] at hwithin
    exact hnot hwithin

/-- Values without bound variables are bound one after another, whatever their order. -/
theorem bindEach_of_resolved (hnodup : (pairs.map (·.1)).Nodup)
    (hfree : ∀ p ∈ pairs, u.lookup (.var p.1) = none)
    (hresolved : ∀ p ∈ pairs, ∀ s, s.Within p.2 → u.next? s = none)
    (hnot : ∀ p ∈ pairs, ∀ p' ∈ pairs, ¬(Term.var p.1).Within p'.2) :
    ∃ v, u.bindEach pairs = .ok v ∧
      v.bindings = u.bindings ++ pairs.map fun p => (.var p.1, p.2) := by
  induction pairs generalizing u with
  | nil => exact ⟨u, rfl, by simp⟩
  | cons p pairs ih =>
    obtain ⟨x, t⟩ := p
    obtain ⟨hx, hnodup⟩ := List.nodup_cons.mp hnodup
    obtain ⟨hxu, hfree⟩ := List.forall_mem_cons.mp hfree
    obtain ⟨ht, hresolved⟩ := List.forall_mem_cons.mp hresolved
    obtain ⟨v, hv, hbindings⟩ := bind_of_not_within hxu ht (hnot _ (.head _) _ (.head _))
    have hfree' : ∀ p ∈ pairs, v.lookup (.var p.1) = none := by
      intro p hp
      have hne : Key.var p.1 ≠ .var x :=
        fun heq => hx (List.mem_map.mpr ⟨p, hp, Key.var.inj heq⟩)
      rw [lookup, hbindings, lookup_append_single_of_ne hne]
      exact hfree p hp
    -- the variable that is bound now is in none of the values
    have hresolved' : ∀ p ∈ pairs, ∀ s, s.Within p.2 → v.next? s = none := by
      intro p hp s hs
      rw [next?_append_eq_none_iff hxu hbindings]
      refine ⟨?_, hresolved p hp s hs⟩
      rintro rfl
      exact hnot _ (.head _) p (.tail _ hp) hs
    obtain ⟨w, hw, hrest⟩ := ih hnodup hfree' hresolved' fun p hp p' hp' =>
      hnot p (.tail _ hp) p' (.tail _ hp')
    refine ⟨w, ?_, ?_⟩
    · rw [bindEach_cons, hv]
      exact hw
    · rw [hrest, hbindings, List.append_assoc]
      rfl

/-- To bind each variable directly to its value changes no substitution. -/
theorem substitute_eq_of_values (hu : u.BindsVariables) (hv : v.BindsVariables)
    (hvalues : ∀ x, v.lookup (.var x) = (u.lookup (.var x)).map fun _ => u.substitute (.var x))
    (t : Term) : v.substitute t = u.substitute t := by
  have hunbound {s : Term} (hs : u.next? s = none) : v.next? s = none := by
    cases hnext : v.next? s with
    | none => rfl
    | some r =>
      obtain ⟨x, rfl⟩ := hv.eq_var_of_bound hnext
      have hx : u.lookup (.var x) = none := next?_term.symm.trans hs
      rw [← Key.term, next?_term, hvalues, hx] at hnext
      cases hnext
  induction t using u.induction with
  | bound t s ht _ =>
    obtain ⟨x, rfl⟩ := hu.eq_var_of_bound ht
    have hx : v.next? (.var x) = some (u.substitute (.var x)) := by
      have hlookup : u.lookup (.var x) = some s := next?_term.symm.trans ht
      rw [← Key.term, next?_term, hvalues, hlookup]
      rfl
    rw [substitute_of_bound hx]
    exact substitute_eq_self fun s hs => hunbound (hu.resolved _ hs)
  | unbound t ht ih =>
    rw [substitute_of_unbound ht, substitute_of_unbound (hunbound ht), List.map_congr_left ih]

section Rebuild

theorem boundVariables_perm (hu : u.BindsVariables) :
    (u.boundVariables.map Key.var).Perm u.keys := by
  have hkeys (f : Key → Option Variable) (hf : ∀ x, f (.var x) = some x) (keys : List Key)
      (h : ∀ key ∈ keys, ∃ x, key = .var x) : (keys.filterMap f).map Key.var = keys := by
    induction keys with
    | nil => rfl
    | cons key keys ih =>
      obtain ⟨⟨x, rfl⟩, hkeys⟩ := List.forall_mem_cons.mp h
      rw [List.filterMap_cons_some (hf x), List.map_cons, ih hkeys]
  refine ((List.mergeSort_perm _ _).map Key.var).trans ?_
  exact List.Perm.of_eq (hkeys _ (fun _ => rfl) u.keys hu)

theorem mem_boundVariables_iff (hu : u.BindsVariables) :
    x ∈ u.boundVariables ↔ (u.lookup (.var x)).isSome := by
  rw [← mem_keys_iff, ← (boundVariables_perm hu).mem_iff]
  simp

theorem nodup_boundVariables (hu : u.BindsVariables) : u.boundVariables.Nodup :=
  List.Nodup.of_map Key.var ((boundVariables_perm hu).nodup_iff.mpr u.nodup)

/-- The values of the bound variables, bound in any order, make up a unifier that binds the same
variables and has the same substitutions. -/
theorem bindEach_solution (hu : u.BindsVariables) (hperm : pairs.Perm u.solution) :
    ∃ v, Unifier.empty.bindEach pairs = .ok v ∧ v.keys.Perm u.keys ∧
      ∀ t, v.substitute t = u.substitute t := by
  have hvariables : (pairs.map (·.1)).Perm u.boundVariables := by
    have hmap := hperm.map (·.1)
    rwa [solution, List.map_map, Function.comp_def, List.map_id'] at hmap
  have hvalue : ∀ p, p ∈ pairs ↔ (u.lookup (.var p.1)).isSome ∧ p.2 = u.substitute (.var p.1) := by
    intro p
    rw [hperm.mem_iff, solution, List.mem_map, ← mem_boundVariables_iff hu]
    constructor
    · rintro ⟨x, hx, rfl⟩
      exact ⟨hx, rfl⟩
    · rintro ⟨hx, hvalue⟩
      exact ⟨p.1, hx, Prod.ext rfl hvalue.symm⟩
  -- the values are substituted, so no bound variable is left in them
  have hnot : ∀ p ∈ pairs, ∀ p' ∈ pairs, ¬(Term.var p.1).Within p'.2 := by
    intro p hp p' hp' hwithin
    rw [((hvalue p').mp hp').2] at hwithin
    have hunbound : u.lookup (.var p.1) = none := next?_term.symm.trans (hu.resolved _ hwithin)
    have hbound := ((hvalue p).mp hp).1
    rw [hunbound] at hbound
    cases hbound
  obtain ⟨v, hv, hbindings⟩ := bindEach_of_resolved (u := Unifier.empty)
    (hvariables.nodup_iff.mpr (nodup_boundVariables hu)) (fun _ _ => rfl)
    (fun _ _ s _ => next?_empty s) hnot
  rw [show Unifier.empty.bindings = [] from rfl, List.nil_append] at hbindings
  have hkeys : v.keys.Perm u.keys := by
    have heq : v.keys = (pairs.map (·.1)).map Key.var := by
      rw [keys, hbindings, List.map_map, List.map_map]
      rfl
    rw [heq]
    exact (hvariables.map Key.var).trans (boundVariables_perm hu)
  have hvar : v.BindsVariables := fun key hkey => hu key (hkeys.mem_iff.mp hkey)
  refine ⟨v, hv, hkeys, substitute_eq_of_values hu hvar fun x => ?_⟩
  cases hx : u.lookup (.var x) with
  | none =>
    rw [Option.map_none, ← Option.not_isSome_iff_eq_none, ← mem_keys_iff, hkeys.mem_iff,
      mem_keys_iff, hx]
    simp
  | some s =>
    have hmem : (x, u.substitute (.var x)) ∈ pairs := (hvalue _).mpr ⟨by rw [hx]; rfl, rfl⟩
    have hbound : (Key.var x, u.substitute (.var x)) ∈ v.bindings := by
      rw [hbindings]
      exact List.mem_map_of_mem hmem
    exact (lookup_eq_some_iff_mem v.nodup).mpr hbound

end Rebuild

end NameResolution.Unifier

import NameResolution.Proofs.ExternalTerm.RoundTrip
import NameResolution.Proofs.ExternalTerm.Writable
import NameResolution.Proofs.Unifier.Solution

namespace NameResolution

open ExternalTerm Exported

namespace Term

def Plain (t : Term) : Prop := t.Legible ∧ ∀ name args, t ≠ .operator name args

/-- Without operators nothing is erased. -/
theorem eraseIn_eq_self {t : Term}
    (h : ∀ s : Term, s.Within t → ∀ name args, s ≠ .operator name args) (isTail : Bool) :
    t.eraseIn isTail = t := by
  induction t using Unifier.empty.induction generalizing isTail with
  | bound t s hn => cases (Unifier.next?_empty t).symm.trans hn
  | unbound t _ ih =>
    obtain ⟨hself, hparts⟩ := forall_within_iff.mp h
    have hchildren : ∀ c ∈ t.children, ∀ b, c.eraseIn b = c := fun c hc => ih c hc (hparts c hc)
    have hall : eraseAll t.children = t.children := by
      rw [eraseAll_eq_map]
      exact (List.map_congr_left fun c hc => hchildren c hc false).trans (List.map_id' _)
    cases t with
    | var | primitive | nil => rfl
    | application name args => exact congrArg (application name) hall
    | tuple args => exact congrArg tuple hall
    | cons head tail =>
      rw [eraseIn, hchildren head (.head _), hchildren tail (.tail _ (.head _))]
    | operator name args => exact absurd rfl (hself name args)

end Term

namespace Unifier

variable {u : Unifier} {s t : Term} {x : Variable}

/-- Only variables are bound, and terms without operators; no variable has the empty resource, and
no application the name of a variable or of an open tail. Under the bindings, lists end in nil or in
a variable. -/
structure Portable (u : Unifier) : Prop where
  keys : ∀ key ∈ u.keys, ∃ x, key = .var x ∧ x.resource ≠ some ""
  terms : ∀ p ∈ u.bindings, ∀ s : Term, s.Within p.2 → s.Plain
  lists : ∀ p ∈ u.bindings, ∀ head tail : Term, (Term.cons head tail).Within (u.substitute p.2) →
    tail.spineEnd = .nil ∨ ∃ x, tail.spineEnd = .var x

/-- A term keeps its kind and name when its parts are substituted. -/
theorem plain_substitute (hs : u.next? s = none) (h : s.Plain) : (u.substitute s).Plain := by
  rw [substitute_of_unbound hs]
  obtain ⟨hlegible, hoperator⟩ := h
  cases s with
  | var | primitive | nil => exact ⟨hlegible, hoperator⟩
  | application => exact ⟨hlegible, nofun⟩
  | tuple | cons => exact ⟨trivial, nofun⟩
  | operator name args => exact absurd rfl (hoperator name args)

namespace Portable

theorem bindsVariables (h : u.Portable) : u.BindsVariables := by
  intro key hkey
  obtain ⟨x, hx, -⟩ := h.keys key hkey
  exact ⟨x, hx⟩

theorem exists_binding (hx : x ∈ u.boundVariables) (h : u.Portable) :
    ∃ t, (Key.var x, t) ∈ u.bindings ∧ u.substitute (.var x) = u.substitute t := by
  obtain ⟨t, ht⟩ := Option.isSome_iff_exists.mp ((mem_boundVariables_iff h.bindsVariables).mp hx)
  exact ⟨t, (lookup_eq_some_iff_mem u.nodup).mp ht, substitute_of_bound (next?_term.trans ht)⟩

/-- Bindings lead from plain terms to plain terms. -/
theorem plain_of_meets (h : u.Portable) (ht : ∀ s : Term, s.Within t → s.Plain)
    (hmeets : u.Meets s t) : ∀ r : Term, r.Within s → r.Plain := by
  induction hmeets using Relation.ReflTransGen.head_induction_on with
  | refl => exact ht
  | @head s c hbelow _ ih =>
    cases hbelow with
    | bound hnext =>
      obtain ⟨key, -, hkey⟩ := key?_of_bound hnext
      exact h.terms _ ((lookup_eq_some_iff_mem u.nodup).mp hkey)
    | child _ hs => exact fun r hr => ih r (hr.tail hs)

theorem plain_value (h : u.Portable) (hx : x ∈ u.boundVariables)
    (hs : s.Within (u.substitute (.var x))) : s.Plain := by
  obtain ⟨t, ht, heq⟩ := h.exists_binding hx
  rw [heq] at hs
  obtain ⟨r, hmeets, hr, rfl⟩ := within_substitute_iff.mp hs
  exact plain_substitute hr (h.plain_of_meets (h.terms _ ht) hmeets r .refl)

theorem writable_value (h : u.Portable) (hx : x ∈ u.boundVariables) :
    (u.substitute (.var x)).Writable := by
  obtain ⟨t, ht, heq⟩ := h.exists_binding hx
  rw [heq]
  intro s hs
  cases s with
  | cons head tail => exact Term.endsList_iff.mpr ((h.lists _ ht head tail hs).imp_right .inl)
  | var | primitive | application | tuple | nil | operator => trivial

/-- The value of a bound variable is written, and read as it is. -/
theorem exists_written_value (h : u.Portable) (hx : x ∈ u.boundVariables) :
    ∃ e, (Exporter.ofUnifier u).term (.var x) = .ok e ∧
      e.toTerm? = .ok (u.substitute (.var x)) := by
  obtain ⟨e, he⟩ := (exists_export_iff _).1.mpr (h.writable_value hx)
  have hterm := Exporter.term_ofUnifier_eq_ok_iff.mpr he
  have hread := Exporter.toTerm?_of_term hterm fun s hs => (h.plain_value hx hs).1
  rw [Term.erase, Term.eraseIn_eq_self fun s hs => (h.plain_value hx hs).2] at hread
  exact ⟨e, hterm, hread⟩

/-- The name of a bound variable is read as the variable. -/
theorem toTerm?_ofVariable (h : u.Portable) (hx : x ∈ u.boundVariables) :
    (ofVariable x).toTerm? = .ok (.var x) := by
  have hkey : Key.var x ∈ u.keys :=
    mem_keys_iff.mpr ((mem_boundVariables_iff h.bindsVariables).mp hx)
  obtain ⟨y, hy, hresource⟩ := h.keys _ hkey
  cases hy
  rw [ofVariable, apply, toTerm?_application, if_pos rfl,
    ofArguments?_eq_ok_iff.mpr ⟨rfl, hresource⟩]
  rfl

end Portable

end Unifier

namespace Exporter

variable {u : Unifier}

theorem substitution_ofUnifier (u : Unifier) :
    (Exporter.ofUnifier u).substitution = u.boundVariables.mapM fun x => do
      return .tuple [.ofVariable x, ← (Exporter.ofUnifier u).term (.var x)] := by
  have hvariables : u.findAll.boundVariables = u.boundVariables := by
    rw [Unifier.boundVariables, Unifier.boundVariables, u.keys_findAll]
  rw [substitution, ofUnifier, hvariables]

/-- The written substitution determines the unifier. Each of its pairs is read as a bound variable
and its value, and whatever the order in which these are bound to nothing but themselves, the result
binds the same variables and has the same substitutions. -/
theorem substitution_determines (hu : u.Portable) :
    ∃ (exported : List ExternalTerm) (pairs : List (Variable × Term)),
      (Exporter.ofUnifier u).substitution = .ok exported ∧
        List.Forall₂ (fun e p => ∃ name value, e = .tuple [name, value] ∧
          name.toTerm? = .ok (.var p.1) ∧ value.toTerm? = .ok p.2) exported pairs ∧
        ∀ pairs' : List (Variable × Term), pairs'.Perm pairs →
          ∃ v, Unifier.empty.bindEach pairs' = .ok v ∧ v.keys.Perm u.keys ∧
            ∀ t, v.substitute t = u.substitute t := by
  have hwritten : ∀ x ∈ u.boundVariables, ∃ e,
      (do return .tuple [.ofVariable x, ← (Exporter.ofUnifier u).term (.var x)] :
        Exported ExternalTerm) = .ok e := by
    intro x hx
    obtain ⟨value, hvalue, -⟩ := hu.exists_written_value hx
    exact ⟨_, bind_eq_ok_iff.mpr ⟨value, hvalue, rfl⟩⟩
  obtain ⟨exported, hexported⟩ := exists_mapM_eq_ok_iff.mpr hwritten
  refine ⟨exported, u.solution, (substitution_ofUnifier u).trans hexported, ?_, fun pairs' hperm =>
    Unifier.bindEach_solution hu.bindsVariables hperm⟩
  rw [Unifier.solution, List.forall₂_map_right_iff]
  have hboth := (List.forall₂_and_left u.boundVariables exported).mpr
    ⟨fun x hx => hx, mapM_eq_ok_iff.mp hexported⟩
  refine (hboth.imp fun x e hxe => ?_).flip
  obtain ⟨hx, he⟩ := hxe
  obtain ⟨value, hvalue, heq⟩ := bind_eq_ok_iff.mp he
  obtain ⟨value', hvalue', hread⟩ := hu.exists_written_value hx
  obtain rfl : value = value' := Except.ok.inj (hvalue.symm.trans hvalue')
  exact ⟨_, value, (Except.ok.inj heq).symm, hu.toTerm?_ofVariable hx, hread⟩

/-- A variable that is bound to another one, which is bound to a list with an open end. -/
theorem substitution_determines_openList :
    let x : Variable := ⟨none, "x"⟩
    let y : Variable := ⟨none, "y"⟩
    let list : Term := .cons (.primitive (.int 1)) (.var ⟨some "unit", "z"⟩)
    ∃ u : Unifier, u.bindings = [(.var x, .var y), (.var y, list)] ∧ u.Portable ∧
      ∃ (exported : List ExternalTerm) (pairs : List (Variable × Term)),
        (Exporter.ofUnifier u).substitution = .ok exported ∧
          List.Forall₂ (fun e p => ∃ name value, e = .tuple [name, value] ∧
            name.toTerm? = .ok (.var p.1) ∧ value.toTerm? = .ok p.2) exported pairs ∧
          ∀ pairs' : List (Variable × Term), pairs'.Perm pairs →
            ∃ v, Unifier.empty.bindEach pairs' = .ok v ∧ v.keys.Perm u.keys ∧
              ∀ t, v.substitute t = u.substitute t := by
  intro x y list
  -- what holds of the list, its element and its tail holds of all parts
  have hlist (p : Term → Prop) (hp : p list) (hone : p (.primitive (.int 1)))
      (hz : p (.var ⟨some "unit", "z"⟩)) : ∀ s : Term, s.Within list → p s :=
    Term.forall_within_iff.mpr ⟨hp, List.forall_mem_cons.mpr
      ⟨Term.forall_within_iff.mpr ⟨hone, List.forall_mem_nil _⟩,
        List.forall_mem_singleton.mpr
          (Term.forall_within_iff.mpr ⟨hz, List.forall_mem_nil _⟩)⟩⟩
  obtain ⟨u, -, hu⟩ : ∃ u, Unifier.empty.bind (.var x) (.var y) = .ok u ∧
      u.bindings = [(.var x, .var y)] := Unifier.bind_of_childless rfl rfl (by decide) rfl
  have hnext (t : Term) : u.next? t = Bindings.next? [(.var x, .var y)] t :=
    congrArg (Bindings.next? · t) hu
  obtain ⟨v, -, hv⟩ : ∃ v, u.bind (.var y) list = .ok v ∧
      v.bindings = u.bindings ++ [(.var y, list)] := by
    apply Unifier.bind_of_not_within (Unifier.next?_term.symm.trans ((hnext (.var y)).trans rfl))
    · exact hlist _ (hnext _) (hnext _) (hnext _)
    · intro hwithin
      exact hlist (· ≠ .var y) (by simp [list]) (by simp) (by simp [y]) _ hwithin rfl
  rw [hu] at hv
  have hnext' (t : Term) : v.next? t = Bindings.next? [(.var x, .var y), (.var y, list)] t :=
    congrArg (Bindings.next? · t) hv
  have hvalue : v.substitute list = list :=
    Unifier.substitute_eq_self (hlist _ (hnext' _) (hnext' _) (hnext' _))
  have hy : v.substitute (.var y) = list :=
    (Unifier.substitute_of_bound ((hnext' _).trans rfl)).trans hvalue
  have hlists : ∀ s : Term, s.Within list → ∀ head tail, s = .cons head tail →
      tail.spineEnd = .nil ∨ ∃ x, tail.spineEnd = .var x := by
    refine hlist _ ?_ (by simp) (by simp)
    intro head tail h
    obtain ⟨-, rfl⟩ := Term.cons.inj h
    exact .inr ⟨_, rfl⟩
  have hportable : v.Portable := by
    constructor
    · rw [Unifier.keys, hv]
      simp [x, y]
    · rw [hv]
      refine List.forall_mem_cons.mpr ⟨?_, List.forall_mem_singleton.mpr ?_⟩
      · exact Term.forall_within_iff.mpr
          ⟨by simp [Term.Plain, Term.Legible, y], List.forall_mem_nil _⟩
      · exact hlist _ (by simp [Term.Plain, Term.Legible, list])
          (by simp [Term.Plain, Term.Legible]) (by simp [Term.Plain, Term.Legible])
    · rw [hv]
      refine List.forall_mem_cons.mpr ⟨?_, List.forall_mem_singleton.mpr ?_⟩
      · exact fun head tail h => hlists _ (hy ▸ h) head tail rfl
      · exact fun head tail h => hlists _ (hvalue ▸ h) head tail rfl
  exact ⟨v, hv, hportable, substitution_determines hportable⟩

end Exporter

end NameResolution

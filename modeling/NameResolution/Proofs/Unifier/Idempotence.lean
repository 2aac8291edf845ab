import NameResolution.Proofs.Unifier.Parts

namespace NameResolution.Unifier

variable {u : Unifier} {s t : Term}

theorem within_substitute_iff :
    s.Within (u.substitute t) ↔ ∃ r, u.Meets r t ∧ u.next? r = none ∧ u.substitute r = s := by
  simp only [substitute_eq_image]
  exact within_image_iff

theorem substitute_of_bound {r : Term} (h : u.next? t = some r) :
    u.substitute t = u.substitute r := by
  rw [substitute_eq_image, substitute_eq_image, image_of_bound h]

theorem substitute_of_unbound (h : u.next? t = none) :
    u.substitute t = t.withChildren (t.children.map u.substitute) := by
  rw [funext u.substitute_eq_image]
  exact image_of_unbound h

/-- Of all terms that are not bound, only an operator term can become a bound one. -/
theorem next?_substitute_eq_none (h : u.next? s = none)
    (hoperator : ∀ name args, s = .operator name args →
      u.next? (.operator name (args.map u.substitute)) = none) :
    u.next? (u.substitute s) = none := by
  rw [substitute_of_unbound h]
  cases s with
  | var x => exact h
  | operator name args => exact hoperator name args rfl
  | primitive | application | tuple | cons | nil => rfl

/-- No bound variable is left after substitution. Bound operator terms are left exactly where the
arguments of an operator term that is not bound become those of a bound one; if there are none, a
second substitution changes nothing. -/
theorem substitute_resolved_iff (u : Unifier) (t : Term) :
    (∀ x, (Term.var x).Within (u.substitute t) → u.next? (.var x) = none) ∧
      ((∀ s, s.Within (u.substitute t) → u.next? s = none) ↔
        ∀ name args, u.Meets (.operator name args) t → u.next? (.operator name args) = none →
          u.next? (.operator name (args.map u.substitute)) = none) ∧
      ((∀ s, s.Within (u.substitute t) → u.next? s = none) →
        u.substitute (u.substitute t) = u.substitute t) := by
  refine ⟨?_, ⟨?_, ?_⟩, ?_⟩
  · intro x hx
    obtain ⟨s, -, hs, hsx⟩ := within_substitute_iff.mp hx
    rw [← hsx]
    apply next?_substitute_eq_none hs
    rintro name args rfl
    rw [substitute_of_unbound hs] at hsx
    cases hsx
  · intro hresolved name args hmeets hn
    apply hresolved
    exact within_substitute_iff.mpr ⟨_, hmeets, hn, substitute_of_unbound hn⟩
  · intro hoperators s hs
    obtain ⟨r, hmeets, hr, rfl⟩ := within_substitute_iff.mp hs
    apply next?_substitute_eq_none hr
    rintro name args rfl
    exact hoperators name args hmeets hr
  · intro hresolved
    rw [u.substitute_eq_image (u.substitute t)]
    exact image_eq_self hresolved

/-- An operator term whose argument is bound, where the operator term with the value of the argument
is bound as well: its image is that bound term, and has another image. -/
theorem substitute_not_idempotent :
    let a : Term := .application "a" []
    let b : Term := .application "b" []
    let x : Variable := ⟨none, "x"⟩
    ∃ u v : Unifier, Unifier.empty.bind (.operator "f" [a]) b = .ok u ∧ u.bind (.var x) a = .ok v ∧
      v.substitute (.operator "f" [.var x]) = .operator "f" [a] ∧
      v.next? (.operator "f" [a]) = some b ∧
      v.substitute (v.substitute (.operator "f" [.var x])) = b := by
  intro a b x
  obtain ⟨u, hu, hbindings⟩ : ∃ u, Unifier.empty.bind (.operator "f" [a]) b = .ok u ∧
      u.bindings = [(.operator "f" [a], b)] := bind_of_childless rfl rfl (by decide) rfl
  have hlookup : u.lookup (.var x) = none := by
    rw [lookup, hbindings]
    rfl
  obtain ⟨v, hv, hbindings'⟩ : ∃ v, u.bind (.var x) a = .ok v ∧
      v.bindings = u.bindings ++ [(.var x, a)] := bind_of_childless hlookup rfl (by decide) rfl
  rw [hbindings] at hbindings'
  have hnext (t : Term) : v.next? t = Bindings.next? [(.operator "f" [a], b), (.var x, a)] t :=
    congrArg (Bindings.next? · t) hbindings'
  have hx : v.substitute (.var x) = a := by
    rw [substitute_of_bound ((hnext _).trans rfl), substitute_of_unbound rfl]
    rfl
  have hfx : v.substitute (.operator "f" [.var x]) = .operator "f" [a] := by
    rw [substitute_of_unbound ((hnext _).trans rfl), Term.children, List.map_singleton, hx]
    rfl
  have hfa : v.substitute (.operator "f" [a]) = b := by
    rw [substitute_of_bound ((hnext _).trans rfl), substitute_of_unbound rfl]
    rfl
  exact ⟨u, v, hu, hv, hfx, (hnext _).trans rfl, hfx ▸ hfa⟩

end NameResolution.Unifier

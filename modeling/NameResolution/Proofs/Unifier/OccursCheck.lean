import NameResolution.Proofs.Unifier.Idempotence

namespace NameResolution.Unifier

variable {u : Unifier} {key : Key} {t : Term}

theorem eq_of_substitute_eq_var {s : Term} {x : Variable} (hs : u.next? s = none)
    (h : u.substitute s = .var x) : s = .var x := by
  rw [substitute_of_unbound hs] at h
  cases s with
  | var y => exact h
  | primitive | application | tuple | cons | nil | operator => cases h

theorem bind_eq_cyclic_iff_meets (hkey : u.lookup key = none) (hrep : u.walk t ≠ key.term) :
    u.bind key t = .error (.cyclic key) ↔ u.Meets key.term t := by
  rw [← occurs_iff_meets hkey]
  refine ⟨fun herror => ?_, bind_of_occurs hkey hrep⟩
  rw [← Bool.not_eq_false]
  intro hoccurs
  obtain ⟨v, hok, -⟩ := bind_of_not_occurs hkey hrep hoccurs
  cases herror.symm.trans hok

/-- A term that is met and has the image of a variable is that variable. -/
theorem within_substitute_var_iff {x : Variable} (hx : u.next? (.var x) = none) :
    (u.substitute (.var x)).Within (u.substitute t) ↔ u.Meets (.var x) t := by
  have himage : u.substitute (.var x) = .var x := substitute_of_unbound hx
  rw [within_substitute_iff]
  constructor
  · rintro ⟨s, hmeets, hs, hsx⟩
    rwa [← eq_of_substitute_eq_var hs (hsx.trans himage)]
  · intro hmeets
    exact ⟨_, hmeets, hx, rfl⟩

/-- A binding of an unbound key to a term that it does not represent is rejected exactly if the key
is met in the term, and made otherwise. The substituted term contains the substituted key exactly if
the key or another term with its image is met; for a variable there is no other. -/
theorem bind_cyclic_iff (hkey : u.lookup key = none) (hrep : u.walk t ≠ key.term) :
    (u.bind key t = .error (.cyclic key) ↔ u.Meets key.term t) ∧
      (u.bind key t ≠ .error (.cyclic key) →
        ∃ v, u.bind key t = .ok v ∧ v.bindings = u.bindings ++ [(key, t)]) ∧
      ((u.substitute key.term).Within (u.substitute t) ↔
        ∃ s, u.Meets s t ∧ u.next? s = none ∧ u.substitute s = u.substitute key.term) ∧
      ∀ x, key = .var x →
        (u.bind key t = .error (.cyclic key) ↔ (u.substitute key.term).Within (u.substitute t)) := by
  refine ⟨bind_eq_cyclic_iff_meets hkey hrep, ?_, within_substitute_iff, ?_⟩
  · intro hne
    apply bind_of_not_occurs hkey hrep
    rw [← Bool.not_eq_true]
    exact fun hoccurs => hne (bind_of_occurs hkey hrep hoccurs)
  · rintro x rfl
    have hx : u.next? (.var x) = none := next?_term.trans hkey
    exact (bind_eq_cyclic_iff_meets hkey hrep).trans (within_substitute_var_iff hx).symm

/-- An operator term with a bound argument, met over the binding of a variable. -/
theorem bind_cyclic_iff_boundArgument :
    let x : Variable := ⟨none, "x"⟩
    let y : Variable := ⟨none, "y"⟩
    let z : Variable := ⟨none, "z"⟩
    let key : Key := .operator "f" [.var y]
    let t : Term := .application "g" [.var z]
    ∃ u v : Unifier, Unifier.empty.bind (.var y) (.var x) = .ok u ∧ u.bind (.var z) key.term = .ok v ∧
      v.lookup key = none ∧ v.walk t ≠ key.term ∧ v.bind key t = .error (.cyclic key) := by
  intro x y z key t
  obtain ⟨u, hu, hbindings⟩ : ∃ u, Unifier.empty.bind (.var y) (.var x) = .ok u ∧
      u.bindings = [(.var y, .var x)] := bind_of_childless rfl rfl (by decide) rfl
  have hnext (t : Term) : u.next? t = Bindings.next? [(.var y, .var x)] t :=
    congrArg (Bindings.next? · t) hbindings
  have hy : u.next? (.var y) = some (.var x) := (hnext _).trans rfl
  have hfy : u.next? key.term = none := (hnext _).trans rfl
  have hfree : ¬u.Meets (.var z) key.term := by
    have hargument : ¬u.Meets (.var z) (.var y) := by
      rw [meets_of_bound hy, meets_of_unbound ((hnext _).trans rfl)]
      simp [Term.children, x, y, z]
    rw [meets_of_unbound hfy]
    simp [key, Key.term, Term.children, hargument]
  have hz : u.lookup (.var z) = none := next?_term.symm.trans ((hnext _).trans rfl)
  obtain ⟨v, hv, hbindings'⟩ := bind_of_not_occurs (t := key.term) hz
    (by rw [walk_of_unbound hfy]; decide) (by rwa [← Bool.not_eq_true, occurs_iff_meets hz])
  rw [hbindings] at hbindings'
  have hkey : v.lookup key = none := (congrArg (List.lookup key) hbindings').trans rfl
  have hnextz : v.next? (.var z) = some key.term :=
    (congrArg (Bindings.next? · _) hbindings').trans rfl
  have hrep : v.walk t ≠ key.term := by
    rw [walk_of_unbound rfl]
    decide
  have hmeets : v.Meets key.term t := .tail (.single (.bound hnextz)) (.child rfl (.head _))
  exact ⟨u, v, hu, hv, hkey, hrep, (bind_cyclic_iff hkey hrep).1.mpr hmeets⟩

/-- An operator term that is bound to a term with another one in it, where only a binding of the
argument makes the two equal. -/
theorem bind_ok_of_boundArgument :
    let x : Variable := ⟨none, "x"⟩
    let y : Variable := ⟨none, "y"⟩
    let key : Key := .operator "f" [.var x]
    let t : Term := .application "g" [.operator "f" [.var y]]
    ∃ u v : Unifier, Unifier.empty.bind (.var y) (.var x) = .ok u ∧ u.lookup key = none ∧
      u.walk t ≠ key.term ∧ (u.substitute key.term).Within (u.substitute t) ∧
      u.bind key t = .ok v := by
  intro x y key t
  obtain ⟨u, hu, hbindings⟩ : ∃ u, Unifier.empty.bind (.var y) (.var x) = .ok u ∧
      u.bindings = [(.var y, .var x)] := bind_of_childless rfl rfl (by decide) rfl
  have hnext (t : Term) : u.next? t = Bindings.next? [(.var y, .var x)] t :=
    congrArg (Bindings.next? · t) hbindings
  have hy : u.next? (.var y) = some (.var x) := (hnext _).trans rfl
  have hx : u.next? (.var x) = none := (hnext _).trans rfl
  have hfx : u.next? (.operator "f" [.var x]) = none := (hnext _).trans rfl
  have hfy : u.next? (.operator "f" [.var y]) = none := (hnext _).trans rfl
  have hkey : u.lookup key = none := next?_term.symm.trans hfx
  have hrep : u.walk t ≠ key.term := by
    rw [walk_of_unbound rfl]
    decide
  have himage : u.substitute (.operator "f" [.var y]) = u.substitute (.operator "f" [.var x]) := by
    rw [substitute_of_unbound hfy, substitute_of_unbound hfx]
    simp [Term.children, Term.withChildren, substitute_of_bound hy]
  have hwithin : (u.substitute key.term).Within (u.substitute t) :=
    within_substitute_iff.mpr ⟨_, .single (.child rfl (.head _)), hfy, himage⟩
  -- the check goes on from the other operator term to its argument, and finds only `x` there
  have hoccurs : u.occurs key t = false := by
    have hnotx : ¬u.occurs key (.var x) = true := by
      rw [occurs_of_unbound hx]
      simp [key, Key.term, Term.children]
    have hnoty : ¬u.occurs key (.var y) = true := by rwa [occurs_of_bound hy]
    have hnotfy : ¬u.occurs key (.operator "f" [.var y]) = true := by
      rw [occurs_of_unbound hfy]
      simp [key, Key.term, Term.children, hnoty, x, y]
    rw [← Bool.not_eq_true, occurs_of_unbound rfl]
    simp [key, Key.term, Term.children, hnotfy, t]
  obtain ⟨v, hv, -⟩ := bind_of_not_occurs hkey hrep hoccurs
  exact ⟨u, v, hu, hkey, hrep, hwithin, hv⟩

end NameResolution.Unifier

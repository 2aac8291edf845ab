import NameResolution.Proofs.Unifier.Composition

namespace NameResolution.Unifier

variable {u v : Unifier} {s t : Term} {key : Key} {x : Variable}

/-- A key is not met in another term that is not bound and has the same image: the image would be a
part of itself. -/
theorem not_meets_of_substitute_eq (hkey : u.lookup key = none) (hs : u.next? s = none)
    (hne : s ≠ key.term) (h : u.substitute s = u.substitute key.term) : ¬u.Meets key.term s := by
  intro hmeets
  obtain ⟨c, hc, hmeets⟩ := ((meets_of_unbound hs).mp hmeets).resolve_left hne
  have hwithin : (u.substitute key.term).Within (u.substitute c) :=
    within_substitute_iff.mpr ⟨_, hmeets, next?_term.trans hkey, rfl⟩
  have hpart : u.substitute c ∈ (u.substitute s).children := by
    rw [substitute_of_unbound hs, Term.children_withChildren (List.length_map _)]
    exact List.mem_map_of_mem hc
  have hlt : sizeOf (u.substitute key.term) < sizeOf (u.substitute s) :=
    (Term.sizeOf_le_of_within hwithin).trans_lt (Term.sizeOf_lt_of_mem_children hpart)
  rw [h] at hlt
  exact hlt.false

/-- A binding that is added keeps all equalities exactly if it changes no image or no other term that
is not bound has the image of the key. -/
theorem append_keeps_iff (hkey : u.lookup key = none) (hnot : ¬u.Meets key.term t)
    (hv : v.bindings = u.bindings ++ [(key, t)]) :
    (∀ a b, u.substitute a = u.substitute b → v.substitute a = v.substitute b) ↔
      u.substitute t = u.substitute key.term ∨
        ∀ s, u.next? s = none → u.substitute s = u.substitute key.term → s = key.term := by
  constructor
  · intro hkeeps
    rw [or_iff_not_imp_left]
    intro hchange s hs heq
    by_contra hne
    have hbehind : v.substitute s = u.substitute s :=
      substitute_append_of_not_meets hv (not_meets_of_substitute_eq hkey hs hne heq)
    have hmoved : v.substitute key.term = u.substitute t := substitute_append_self hkey hv hnot
    apply hchange
    rw [← hmoved, ← hkeeps s key.term heq, hbehind, heq]
  · rintro (hsame | hunique) a b heq
    · rw [substitute_append_of_substitute_eq hkey hv hnot hsame,
        substitute_append_of_substitute_eq hkey hv hnot hsame, heq]
    · rw [substitute_append hkey hv hnot hunique, substitute_append hkey hv hnot hunique, heq]

/-- A binding that is made keeps all equalities between substituted terms exactly if the term has the
image of the key already or no other term that is not bound has it. So a binding of a variable keeps
them all. -/
theorem bind_keeps_equalities_iff (hbind : u.bind key t = .ok v) :
    ((∀ a b, u.substitute a = u.substitute b → v.substitute a = v.substitute b) ↔
        u.substitute t = u.substitute key.term ∨
          ∀ s, u.next? s = none → u.substitute s = u.substitute key.term → s = key.term) ∧
      ∀ x, key = .var x →
        ∀ a b, u.substitute a = u.substitute b → v.substitute a = v.substitute b := by
  obtain ⟨hkey, hcases⟩ := bind_eq_ok hbind
  have hiff : (∀ a b, u.substitute a = u.substitute b → v.substitute a = v.substitute b) ↔
      u.substitute t = u.substitute key.term ∨
        ∀ s, u.next? s = none → u.substitute s = u.substitute key.term → s = key.term := by
    rcases hcases with ⟨ht, rfl⟩ | ⟨hnot, hv⟩
    · have hsame : v.substitute t = v.substitute key.term := by rw [← ht, substitute_walk]
      exact iff_of_true (fun _ _ => id) (.inl hsame)
    · exact append_keeps_iff hkey hnot hv
  refine ⟨hiff, ?_⟩
  rintro x rfl
  exact hiff.mpr (.inr fun s => eq_var_of_substitute_eq hkey)

/-- An operator term without arguments, beside a variable that is bound to another one. -/
theorem bind_keeps_equalities_iff_noArguments :
    let x : Variable := ⟨none, "x"⟩
    let y : Variable := ⟨none, "y"⟩
    ∃ u v : Unifier, Unifier.empty.bind (.var y) (.var x) = .ok u ∧
      u.bind (.operator "g" []) (.application "a" []) = .ok v ∧
      ∀ s t, u.substitute s = u.substitute t → v.substitute s = v.substitute t := by
  intro x y
  obtain ⟨u, hu, hbindings⟩ : ∃ u, Unifier.empty.bind (.var y) (.var x) = .ok u ∧
      u.bindings = [(.var y, .var x)] := bind_of_childless rfl rfl (by decide) rfl
  have hg : u.lookup (.operator "g" []) = none := by
    rw [lookup, hbindings]
    rfl
  obtain ⟨v, hv, -⟩ : ∃ v, u.bind (.operator "g" []) (.application "a" []) = .ok v ∧
      v.bindings = u.bindings ++ [(.operator "g" [], .application "a" [])] :=
    bind_of_childless hg rfl (by decide) rfl
  refine ⟨u, v, hu, hv, (bind_keeps_equalities_iff hv).1.mpr (.inr fun s hs heq => ?_)⟩
  have hg' : u.next? (.operator "g" []) = none := next?_term.trans hg
  rw [Key.term, substitute_of_unbound hs, substitute_of_unbound hg'] at heq
  cases s with
  | operator name args =>
    obtain ⟨rfl, hargs⟩ := Term.operator.inj heq
    obtain rfl : args = [] := List.map_eq_nil_iff.mp hargs
    rfl
  | var | primitive | application | tuple | cons | nil => cases heq

/-- Two operator terms whose arguments are equal since one is bound to the other. When one of the
terms is bound, the image of the other one is the bound term and not its value. -/
theorem bind_separates_equal :
    let x : Variable := ⟨none, "x"⟩
    let y : Variable := ⟨none, "y"⟩
    let a : Term := .application "a" []
    ∃ u v : Unifier, Unifier.empty.bind (.var y) (.var x) = .ok u ∧
      u.bind (.operator "f" [.var x]) a = .ok v ∧
      u.substitute (.operator "f" [.var y]) = u.substitute (.operator "f" [.var x]) ∧
      v.substitute (.operator "f" [.var y]) = .operator "f" [.var x] ∧
      v.substitute (.operator "f" [.var x]) = a := by
  intro x y a
  obtain ⟨u, hu, hbindings⟩ : ∃ u, Unifier.empty.bind (.var y) (.var x) = .ok u ∧
      u.bindings = [(.var y, .var x)] := bind_of_childless rfl rfl (by decide) rfl
  have hfx : u.lookup (.operator "f" [.var x]) = none := by
    rw [lookup, hbindings]
    rfl
  obtain ⟨v, hv, hbindings'⟩ : ∃ v, u.bind (.operator "f" [.var x]) a = .ok v ∧
      v.bindings = u.bindings ++ [(.operator "f" [.var x], a)] :=
    bind_of_childless hfx rfl (by decide) rfl
  rw [hbindings] at hbindings'
  have hnext (t : Term) : u.next? t = Bindings.next? [(.var y, .var x)] t :=
    congrArg (Bindings.next? · t) hbindings
  have hnext' (t : Term) :
      v.next? t = Bindings.next? [(.var y, .var x), (.operator "f" [.var x], a)] t :=
    congrArg (Bindings.next? · t) hbindings'
  have hy : u.substitute (.var y) = u.substitute (.var x) :=
    substitute_of_bound ((hnext _).trans rfl)
  have hequal : u.substitute (.operator "f" [.var y]) = u.substitute (.operator "f" [.var x]) := by
    rw [substitute_of_unbound ((hnext _).trans rfl), substitute_of_unbound ((hnext _).trans rfl),
      Term.children, Term.children, List.map_singleton, List.map_singleton, hy]
    rfl
  have hy' : v.substitute (.var y) = .var x := by
    rw [substitute_of_bound ((hnext' _).trans rfl), substitute_of_unbound ((hnext' _).trans rfl)]
    rfl
  have hbehind : v.substitute (.operator "f" [.var y]) = .operator "f" [.var x] := by
    rw [substitute_of_unbound ((hnext' _).trans rfl), Term.children, List.map_singleton, hy']
    rfl
  have hmoved : v.substitute (.operator "f" [.var x]) = a := by
    rw [substitute_of_bound ((hnext' _).trans rfl), substitute_of_unbound rfl]
    rfl
  exact ⟨u, v, hu, hv, hequal, hbehind, hmoved⟩

end NameResolution.Unifier

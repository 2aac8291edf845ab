import NameResolution.Proofs.Unifier.Agreement
import NameResolution.Proofs.Unifier.OccursCheck

namespace NameResolution

section Replace

/-- The term with `new` in the place of every part that is `old`. What is put in stays as it is. -/
def Term.replace (t old new : Term) : Term :=
  if t = old then new else t.withChildren (t.children.attach.map fun s => s.1.replace old new)
termination_by sizeOf t
decreasing_by exact Term.sizeOf_lt_of_mem_children s.2

namespace Term

variable {s t old new : Term}

@[simp] theorem replace_self : old.replace old new = new := by
  rw [replace, if_pos rfl]

theorem replace_of_ne (h : t ≠ old) :
    t.replace old new = t.withChildren (t.children.map (·.replace old new)) := by
  rw [replace, if_neg h]
  exact congrArg t.withChildren (List.attach_map_val (f := fun s : Term => s.replace old new))

theorem replace_old (t old : Term) : t.replace old old = t := by
  induction ht : sizeOf t using Nat.strong_induction_on generalizing t with
  | _ n ih =>
  by_cases hold : t = old
  · rw [hold, replace_self]
  · have hchild : ∀ c ∈ t.children, c.replace old old = c :=
      fun c hc => ih _ (ht ▸ sizeOf_lt_of_mem_children hc) c rfl
    rw [replace_of_ne hold, List.map_congr_left hchild, List.map_id', withChildren_children]

theorem withChildren_withChildren {ss ts : List Term} (hss : ss.length = t.children.length)
    (hts : ts.length = t.children.length) :
    (t.withChildren ss).withChildren ts = t.withChildren ts := by
  cases t with
  | var | primitive | nil | application | tuple | operator => rfl
  | cons =>
    match ss, hss, ts, hts with
    | [_, _], _, [_, _], _ => rfl

theorem sizeOf_le_of_within (h : s.Within t) : sizeOf s ≤ sizeOf t := by
  induction h with
  | refl => exact Nat.le_refl _
  | tail _ hc ih => exact ih.trans (sizeOf_lt_of_mem_children hc).le

end Term

end Replace

namespace Unifier

variable {u v : Unifier} {s t : Term} {key : Key} {x : Variable}

theorem substitute_walk (u : Unifier) (t : Term) : u.substitute (u.walk t) = u.substitute t :=
  apply_walk (fun _ _ => substitute_of_bound) t

/-- A binding that is made either closes a circle and changes nothing or is added; then the key is
not met in the term. -/
theorem bind_eq_ok (hbind : u.bind key t = .ok v) :
    u.lookup key = none ∧
      (u.walk t = key.term ∧ v = u ∨
        ¬u.Meets key.term t ∧ v.bindings = u.bindings ++ [(key, t)]) := by
  have hkey : u.lookup key = none := by
    rw [← Option.not_isSome_iff_eq_none]
    intro hbound
    rw [bind_of_bound hbound] at hbind
    cases hbind
  refine ⟨hkey, ?_⟩
  by_cases ht : u.walk t = key.term
  · rw [bind_of_represented hkey ht] at hbind
    cases hbind
    exact .inl ⟨ht, rfl⟩
  · right
    cases hoccurs : u.occurs key t with
    | true =>
      rw [bind_of_occurs hkey ht hoccurs] at hbind
      cases hbind
    | false =>
      obtain ⟨v', hv', hbindings⟩ := bind_of_not_occurs hkey ht hoccurs
      cases hbind.symm.trans hv'
      rw [← occurs_iff_meets hkey, hoccurs]
      exact ⟨Bool.false_ne_true, hbindings⟩

section Append

variable (hkey : u.lookup key = none) (hv : v.bindings = u.bindings ++ [(key, t)])

include hv

/-- Where the key is not met, a binding changes nothing. -/
theorem substitute_append_of_not_meets (h : ¬u.Meets key.term s) :
    v.substitute s = u.substitute s := by
  induction s using u.induction with
  | bound s r hs ih =>
    have hne : s ≠ key.term := ne_of_not_meets h
    rw [substitute_of_bound hs, substitute_of_bound ((next?_of_append hv hne).trans hs)]
    exact ih fun hr => h ((meets_of_bound hs).mpr (.inr hr))
  | unbound s hs ih =>
    have hne : s ≠ key.term := ne_of_not_meets h
    have hchild : ∀ c ∈ s.children, v.substitute c = u.substitute c :=
      fun c hc => ih c hc fun hc' => h ((meets_of_unbound hs).mpr (.inr ⟨c, hc, hc'⟩))
    rw [substitute_of_unbound hs, substitute_of_unbound ((next?_of_append hv hne).trans hs),
      List.map_congr_left hchild]

include hkey

theorem substitute_append_self (hnot : ¬u.Meets key.term t) :
    v.substitute key.term = u.substitute t := by
  rw [substitute_of_bound (next?_self_of_append hkey hv), substitute_append_of_not_meets hv hnot]

/-- A binding to a term that has the image of the key already changes no image. -/
theorem substitute_append_of_substitute_eq (hnot : ¬u.Meets key.term t)
    (ht : u.substitute t = u.substitute key.term) (s : Term) :
    v.substitute s = u.substitute s := by
  induction s using u.induction with
  | bound s r hs ih =>
    have hne : s ≠ key.term := ne_term_of_bound hkey hs
    rw [substitute_of_bound hs, substitute_of_bound ((next?_of_append hv hne).trans hs), ih]
  | unbound s hs ih =>
    by_cases hs' : s = key.term
    · rw [hs', substitute_append_self hkey hv hnot, ht]
    · rw [substitute_of_unbound hs, substitute_of_unbound ((next?_of_append hv hs').trans hs),
        List.map_congr_left ih]

/-- Where only the key has its image, a binding replaces that image everywhere. -/
theorem substitute_append (hnot : ¬u.Meets key.term t)
    (hunique : ∀ s, u.next? s = none → u.substitute s = u.substitute key.term → s = key.term)
    (s : Term) :
    v.substitute s = (u.substitute s).replace (u.substitute key.term) (u.substitute t) := by
  induction s using u.induction with
  | bound s r hs ih =>
    have hne : s ≠ key.term := ne_term_of_bound hkey hs
    rw [substitute_of_bound hs, substitute_of_bound ((next?_of_append hv hne).trans hs), ih]
  | unbound s hs ih =>
    by_cases hs' : s = key.term
    · rw [hs', substitute_append_self hkey hv hnot, Term.replace_self]
    · -- only the key has its image, so this term is not replaced as a whole
      have hne : s.withChildren (s.children.map u.substitute) ≠ u.substitute key.term := by
        rw [← substitute_of_unbound hs]
        exact fun heq => hs' (hunique s hs heq)
      have hlength : (s.children.map u.substitute).length = s.children.length := List.length_map _
      rw [substitute_of_unbound hs, substitute_of_unbound ((next?_of_append hv hs').trans hs),
        Term.replace_of_ne hne, Term.children_withChildren hlength,
        Term.withChildren_withChildren hlength (by rw [List.length_map, hlength]), List.map_map,
        List.map_congr_left ih]
      rfl

end Append

/-- No other term that is not bound has the image of a variable. -/
theorem eq_var_of_substitute_eq (hx : u.lookup (.var x) = none) (hs : u.next? s = none)
    (h : u.substitute s = u.substitute (.var x)) : s = .var x :=
  eq_of_substitute_eq_var hs (h.trans (substitute_of_unbound (next?_term.trans hx)))

/-- After a variable is bound, every term has the image that it had before, with the image of the
bound term in the place of the variable. -/
theorem bind_composes (hbind : u.bind (.var x) t = .ok v) :
    (∀ s, v.substitute s = (u.substitute s).replace (.var x) (u.substitute t)) ∧
      v.substitute (.var x) = v.substitute t := by
  obtain ⟨hx, hcases⟩ := bind_eq_ok hbind
  have himage : u.substitute (.var x) = .var x := substitute_of_unbound (next?_term.trans hx)
  rcases hcases with ⟨ht, rfl⟩ | ⟨hnot, hv⟩
  · have htx : v.substitute t = .var x := by rw [← substitute_walk, ht, Key.term, himage]
    rw [htx]
    exact ⟨fun s => (Term.replace_old _ _).symm, himage⟩
  · refine ⟨fun s => ?_, ?_⟩
    · have hcompose := substitute_append hx hv hnot (fun s => eq_var_of_substitute_eq hx) s
      rwa [Key.term, himage] at hcompose
    · rw [substitute_append_of_not_meets hv hnot]
      exact substitute_append_self hx hv hnot

/-- A variable that is an argument of a bound operator term, an argument of another one and the tail
of a list. -/
theorem bind_composes_operatorArgument :
    let x : Variable := ⟨none, "x"⟩
    let y : Variable := ⟨none, "y"⟩
    let a : Term := .application "a" []
    ∃ u v : Unifier, Unifier.empty.bind (.operator "f" [.var x]) (.var y) = .ok u ∧
      u.bind (.var x) a = .ok v ∧
      v.substitute (.tuple [.operator "f" [.var x], .operator "g" [.var x], .cons .nil (.var x)]) =
        .tuple [.var y, .operator "g" [a], .cons .nil a] := by
  intro x y a
  obtain ⟨u, hu, hbindings⟩ : ∃ u, Unifier.empty.bind (.operator "f" [.var x]) (.var y) = .ok u ∧
      u.bindings = [(.operator "f" [.var x], .var y)] := bind_of_childless rfl rfl (by decide) rfl
  have hnext (t : Term) : u.next? t = Bindings.next? [(.operator "f" [.var x], .var y)] t :=
    congrArg (Bindings.next? · t) hbindings
  have hx : u.next? (.var x) = none := (hnext _).trans rfl
  obtain ⟨v, hv, -⟩ : ∃ v, u.bind (.var x) a = .ok v ∧ v.bindings = u.bindings ++ [(.var x, a)] :=
    bind_of_childless (next?_term.symm.trans hx) rfl (by decide) rfl
  have hvalue : u.substitute a = a := substitute_of_unbound rfl
  have hfx : u.substitute (.operator "f" [.var x]) = .var y := by
    rw [substitute_of_bound ((hnext _).trans rfl), substitute_of_unbound ((hnext _).trans rfl)]
    rfl
  have hgx : u.substitute (.operator "g" [.var x]) = .operator "g" [.var x] := by
    rw [substitute_of_unbound ((hnext _).trans rfl), Term.children, List.map_singleton,
      substitute_of_unbound hx]
    rfl
  have htail : u.substitute (.cons .nil (.var x)) = .cons .nil (.var x) := by
    rw [substitute_of_unbound rfl, Term.children, List.map_cons, List.map_singleton,
      substitute_of_unbound hx, substitute_of_unbound rfl]
    rfl
  refine ⟨u, v, hu, hv, ?_⟩
  rw [(bind_composes hv).1, substitute_of_unbound rfl, hvalue]
  simp [Term.children, Term.withChildren, Term.replace_of_ne, hfx, hgx, htail, x, y, a]

end Unifier

end NameResolution

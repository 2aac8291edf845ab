import NameResolution.Proofs.Unifier.Agreement

namespace NameResolution.Unifier

variable {u v : Unifier} {s t r : Term} {x : Variable} {pairs pairs' : List (Variable × Term)}

def bindEach (u : Unifier) (pairs : List (Variable × Term)) : Except BindError Unifier :=
  pairs.foldlM (fun v p => v.bind (.var p.1) p.2) u

theorem bindEach_cons (u : Unifier) (x : Variable) (t : Term) (pairs : List (Variable × Term)) :
    u.bindEach ((x, t) :: pairs) = (u.bind (.var x) t).bind (·.bindEach pairs) := rfl

/-- One step down, where variables lead to the terms that they are to be bound to. -/
inductive BelowWith (u : Unifier) (pairs : List (Variable × Term)) : Term → Term → Prop
  | below {s t : Term} (h : u.bindings.Below s t) : BelowWith u pairs s t
  | added {x : Variable} {s : Term} (h : (x, s) ∈ pairs) : BelowWith u pairs s (.var x)

/-- With the variables bound to these terms, no term is met in one of its parts. -/
def Compatible (u : Unifier) (pairs : List (Variable × Term)) : Prop :=
  ∀ s t, u.next? t = none → s ∈ t.children → ¬Relation.ReflTransGen (u.BelowWith pairs) t s

theorem BelowWith.mono (h : pairs ⊆ pairs') (hst : u.BelowWith pairs s t) :
    u.BelowWith pairs' s t := by
  cases hst with
  | below hst => exact .below hst
  | added hmem => exact .added (h hmem)

theorem Compatible.mono (h : pairs ⊆ pairs') (hpairs : u.Compatible pairs') :
    u.Compatible pairs := by
  intro s t ht hs hmeets
  have hlift : u.BelowWith pairs ≤ u.BelowWith pairs' := fun _ _ => BelowWith.mono h
  exact hpairs s t ht hs (Relation.ReflTransGen.mono hlift _ _ hmeets)

theorem compatible_nil (u : Unifier) : u.Compatible [] := by
  intro s t ht hs hmeets
  have hbelow : u.BelowWith [] ≤ u.bindings.Below := by
    intro a b hab
    cases hab with
    | below hab => exact hab
    | added hmem => cases hmem
  have hcircle : Relation.TransGen u.bindings.Below t t :=
    .tail' (Relation.ReflTransGen.mono hbelow _ _ hmeets) (.child ht hs)
  exact u.acyclic.transGen.irrefl.irrefl t hcircle

/-- A variable that is met in a term is the representative of the term or met in a part of that. -/
theorem not_compatible_of_occurs (hx : u.lookup (.var x) = none) (ht : u.walk t ≠ .var x)
    (hoccurs : u.occurs (.var x) t = true) : ¬u.Compatible ((x, t) :: pairs) := by
  intro hcompatible
  have hwalk : u.occurs (.var x) (u.walk t) = true :=
    (apply_walk (fun _ _ => occurs_of_bound) t).trans hoccurs
  have hmeets : u.Meets (.var x) (u.walk t) := (occurs_iff_meets hx).mp hwalk
  obtain ⟨c, hc, hxc⟩ : ∃ c ∈ (u.walk t).children, u.Meets (.var x) c :=
    ((meets_of_unbound (u.walk_unbound t)).mp hmeets).resolve_left ht
  have hlift : u.Meets ≤ Relation.ReflTransGen (u.BelowWith ((x, t) :: pairs)) :=
    Relation.ReflTransGen.mono fun _ _ => BelowWith.below
  have hcircle : Relation.ReflTransGen (u.BelowWith ((x, t) :: pairs)) (u.walk t) c :=
    ((hlift _ _ (u.meets_walk t)).tail (.added (.head _))).trans (hlift _ _ hxc)
  exact hcompatible c (u.walk t) (u.walk_unbound t) hc hcircle

/-- A binding that is left out would only close a circle of variables and bound terms: whatever `x`
represents leads to nothing else. -/
theorem compatible_of_represented (hfree : ∀ p ∈ pairs, u.lookup (.var p.1) = none)
    (hx : ∀ p ∈ pairs, p.1 ≠ x) (ht : u.walk t = .var x) (h : u.Compatible pairs) :
    u.Compatible ((x, t) :: pairs) := by
  have hstep : ∀ a b, u.BelowWith ((x, t) :: pairs) a b →
      u.walk b = .var x → u.walk a = .var x := by
    intro a b hab hb
    cases hab with
    | below hab =>
      cases hnext : u.next? b with
      | some r =>
        rw [(below_iff_of_bound hnext).mp hab, ← walk_of_bound hnext, hb]
      | none =>
        rw [walk_of_unbound hnext] at hb
        rw [hb] at hab hnext
        cases (below_iff_of_unbound hnext).mp hab
    | @added y _ hmem =>
      rcases List.mem_cons.mp hmem with heq | hmem
      · rw [(Prod.mk.inj heq).2, ht]
      · have hy : u.next? (.var y) = none := next?_term.trans (hfree _ hmem)
        rw [walk_of_unbound hy, Term.var.injEq] at hb
        exact absurd hb (hx _ hmem)
  have hpath : ∀ a b, Relation.ReflTransGen (u.BelowWith ((x, t) :: pairs)) a b →
      u.walk b = .var x → u.walk a = .var x := by
    intro a b hab
    induction hab with
    | refl => exact id
    | tail _ hbc ih => exact fun hc => ih (hstep _ _ hbc hc)
  intro s r hr hs hmeets
  have hne : u.walk r ≠ .var x := by
    rw [walk_of_unbound hr]
    rintro rfl
    cases hs
  refine h s r hr hs ?_
  -- on the way from the part to the term no step leaves a variable that `x` represents
  clear hs
  induction hmeets with
  | refl => exact .refl
  | @tail b c hb hbc ih =>
    refine ih.tail ?_
    cases hbc with
    | below hbc => exact .below hbc
    | @added y _ hmem =>
      rcases List.mem_cons.mp hmem with heq | hmem
      · rw [(Prod.mk.inj heq).2] at hb
        exact absurd (hpath _ _ hb ht) hne
      · exact .added hmem

/-- With a new binding, one step down is a step as before or along the new binding. -/
theorem below_append_iff (hxu : u.lookup (.var x) = none)
    (hv : v.bindings = u.bindings ++ [(.var x, t)]) :
    v.bindings.Below s r ↔ u.bindings.Below s r ∨ r = .var x ∧ s = t := by
  by_cases hr : r = .var x
  · have hself : v.next? (.var x) = some t := next?_self_of_append hxu hv
    have hnone : u.next? (.var x) = none := next?_term.trans hxu
    rw [hr, below_iff_of_bound hself, below_iff_of_unbound hnone]
    simp [Term.children]
  · have hsame : v.next? r = u.next? r := next?_of_append hv hr
    simp only [hr, false_and, or_false]
    cases hnext : u.next? r with
    | some r' => rw [below_iff_of_bound (hsame.trans hnext), below_iff_of_bound hnext]
    | none => rw [below_iff_of_unbound (hsame.trans hnext), below_iff_of_unbound hnext]

theorem compatible_append_iff (hxu : u.lookup (.var x) = none)
    (hv : v.bindings = u.bindings ++ [(.var x, t)]) :
    v.Compatible pairs ↔ u.Compatible ((x, t) :: pairs) := by
  have hbelow : v.BelowWith pairs = u.BelowWith ((x, t) :: pairs) := by
    funext a b
    apply propext
    constructor
    · rintro (hab | hmem)
      · rcases (below_append_iff hxu hv).mp hab with hab | ⟨rfl, rfl⟩
        · exact .below hab
        · exact .added (.head _)
      · exact .added (.tail _ hmem)
    · rintro (hab | hmem)
      · exact .below ((below_append_iff hxu hv).mpr (.inl hab))
      · rcases List.mem_cons.mp hmem with heq | hmem
        · obtain ⟨rfl, rfl⟩ := Prod.mk.inj heq
          exact .below ((below_append_iff hxu hv).mpr (.inr ⟨rfl, rfl⟩))
        · exact .added hmem
  unfold Compatible
  rw [hbelow]
  refine forall₂_congr fun s r => ?_
  rw [next?_append_eq_none_iff hxu hv]
  refine ⟨fun h hr hs => h ⟨?_, hr⟩ hs, fun h hr => h hr.2⟩
  rintro rfl
  cases hs

/-- Bindings of different variables are accepted one after another exactly if none of the variables
is bound and the bindings are compatible. -/
theorem bindEach_ok_iff (hnodup : (pairs.map (·.1)).Nodup) :
    (∃ v, u.bindEach pairs = .ok v) ↔
      (∀ p ∈ pairs, u.lookup (.var p.1) = none) ∧ u.Compatible pairs := by
  induction pairs generalizing u with
  | nil => exact iff_of_true ⟨u, rfl⟩ ⟨by simp, u.compatible_nil⟩
  | cons p pairs ih =>
    obtain ⟨x, t⟩ := p
    obtain ⟨hx, hnodup⟩ := List.nodup_cons.mp hnodup
    have hne : ∀ p ∈ pairs, p.1 ≠ x := fun p hp heq => hx (List.mem_map.mpr ⟨p, hp, heq⟩)
    rw [bindEach_cons, List.forall_mem_cons]
    cases hxu : u.lookup (.var x) with
    | some s =>
      have hbound : (u.lookup (.var x)).isSome := by rw [hxu]; rfl
      rw [bind_of_bound hbound]
      exact iff_of_false nofun fun h => nomatch h.1.1
    | none =>
      -- the binding closes a circle of variables, is refused, or is added
      by_cases ht : u.walk t = .var x
      · rw [bind_of_represented hxu ht]
        refine (ih hnodup).trans ⟨fun ⟨hfree, h⟩ => ?_, fun ⟨⟨_, hfree⟩, h⟩ => ?_⟩
        · exact ⟨⟨rfl, hfree⟩, compatible_of_represented hfree hne ht h⟩
        · exact ⟨hfree, h.mono (List.subset_cons_self _ _)⟩
      cases hoccurs : u.occurs (.var x) t with
      | true =>
        rw [bind_of_occurs hxu ht hoccurs]
        exact iff_of_false nofun fun h => not_compatible_of_occurs hxu ht hoccurs h.2
      | false =>
        obtain ⟨v, hv, hbindings⟩ := bind_of_not_occurs hxu ht hoccurs
        rw [hv]
        refine (ih hnodup).trans (and_congr ?_ (compatible_append_iff hxu hbindings))
        have hfree : ∀ p ∈ pairs, v.lookup (.var p.1) = u.lookup (.var p.1) := by
          intro p hp
          rw [lookup, hbindings]
          exact lookup_append_single_of_ne fun heq => hne p hp (Key.var.inj heq)
        simp +contextual [hfree]

/-- Bindings of different variables that are accepted one after another are accepted in every
order. -/
theorem bindEach_ok_of_perm (hnodup : (pairs.map (·.1)).Nodup) (hperm : pairs.Perm pairs')
    (h : ∃ v, u.bindEach pairs = .ok v) : ∃ v, u.bindEach pairs' = .ok v := by
  obtain ⟨hfree, hcompatible⟩ := (bindEach_ok_iff hnodup).mp h
  have hnodup' : (pairs'.map (·.1)).Nodup := (hperm.map _).nodup_iff.mp hnodup
  refine (bindEach_ok_iff hnodup').mpr ⟨fun p hp => ?_, ?_⟩
  · exact hfree p (hperm.mem_iff.mpr hp)
  · exact hcompatible.mono hperm.symm.subset

/-- Two variables bound to each other, of which either binding may come first, and a third variable
bound to a term with one of them. -/
theorem bindEach_ok_of_perm_circle :
    let x : Variable := ⟨none, "x"⟩
    let y : Variable := ⟨none, "y"⟩
    let z : Variable := ⟨none, "z"⟩
    let pairs : List (Variable × Term) :=
      [(x, .var y), (y, .var x), (z, .application "g" [.var x])]
    (pairs.map (·.1)).Nodup ∧ pairs.Perm pairs.reverse ∧
      (∃ v, Unifier.empty.bindEach pairs = .ok v) ∧
      ∃ v, Unifier.empty.bindEach pairs.reverse = .ok v := by
  intro x y z pairs
  have hnodup : (pairs.map (·.1)).Nodup := by decide
  have hperm : pairs.Perm pairs.reverse := pairs.reverse_perm.symm
  obtain ⟨u, hu, hbindings⟩ : ∃ u, Unifier.empty.bind (.var x) (.var y) = .ok u ∧
      u.bindings = [(.var x, .var y)] := bind_of_childless rfl rfl (by decide) rfl
  have hnext (t : Term) : u.next? t = Bindings.next? [(.var x, .var y)] t :=
    congrArg (Bindings.next? · t) hbindings
  have hx : u.next? (.var x) = some (.var y) := (hnext _).trans rfl
  have hy : u.next? (.var y) = none := (hnext _).trans rfl
  have hz : u.next? (.var z) = none := (hnext _).trans rfl
  have hyu : u.bind (.var y) (.var x) = .ok u := by
    apply bind_of_represented (next?_term.symm.trans hy)
    rw [walk_of_bound hx, walk_of_unbound hy]
    rfl
  have hnotin : u.occurs (.var z) (.application "g" [.var x]) = false := by
    have hnoty : ¬u.occurs (.var z) (.var y) = true := by
      rw [occurs_of_unbound hy]
      simp [Key.term, Term.children, y, z]
    have hnotx : ¬u.occurs (.var z) (.var x) = true := by rwa [occurs_of_bound hx]
    rw [← Bool.not_eq_true, occurs_of_unbound rfl]
    simp [Key.term, Term.children, hnotx]
  have hwalk : u.walk (.application "g" [.var x]) ≠ .var z := by
    rw [walk_of_unbound rfl]
    rintro ⟨⟩
  obtain ⟨v, hv, -⟩ := bind_of_not_occurs (next?_term.symm.trans hz) hwalk hnotin
  have hok : ∃ v, Unifier.empty.bindEach pairs = .ok v := by
    refine ⟨v, ?_⟩
    rw [bindEach_cons, hu, Except.bind, bindEach_cons, hyu, Except.bind, bindEach_cons, hv]
    rfl
  exact ⟨hnodup, hperm, hok, bindEach_ok_of_perm hnodup hperm hok⟩

end NameResolution.Unifier

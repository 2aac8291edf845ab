import NameResolution.Unifier.Basic

namespace NameResolution.Unifier

/-- Whether `key`, which is not bound, is part of `t` under the bindings. -/
def occurs (u : Unifier) (key : Key) (t : Term) : Bool :=
  match _ : u.next? t with
  | some s => u.occurs key s
  | none => t = key.term || t.children.attach.any fun s => u.occurs key s.1
termination_by u.acyclic.wrap t
decreasing_by
  · exact .bound ‹_›
  · exact .child ‹_› s.2

inductive BindError where
  | alreadyBound (key : Key)
  | cyclic (key : Key)

def BindError.message : BindError → String
  | alreadyBound key => key.term.render ++ " is already bound"
  | cyclic key => "binding " ++ key.term.render ++ " would make it part of its own representative"

theorem occurs_of_bound {u : Unifier} {key : Key} {s t : Term} (h : u.next? t = some s) :
    u.occurs key t = u.occurs key s := by
  rw [occurs]
  split
  · next r hr => rw [h, Option.some.injEq] at hr; rw [hr]
  · next hr => rw [h] at hr; cases hr

theorem occurs_of_unbound {u : Unifier} {key : Key} {t : Term} (h : u.next? t = none) :
    u.occurs key t = true ↔ t = key.term ∨ ∃ s ∈ t.children, u.occurs key s = true := by
  rw [occurs]
  split
  · next r hr => rw [h] at hr; cases hr
  · simp

theorem next?_append {bindings : Bindings} {key : Key} {t s : Term} (h : s ≠ key.term) :
    Bindings.next? (bindings ++ [(key, t)]) s = bindings.next? s := by
  unfold Bindings.next?
  cases hk : s.key? with
  | none => rfl
  | some key' =>
    refine lookup_append_single_of_ne fun e => h ?_
    rw [Term.key?_eq_some_iff.mp hk, e]

theorem next?_append_self {bindings : Bindings} {key : Key} {t : Term}
    (h : bindings.lookup key = none) :
    Bindings.next? (bindings ++ [(key, t)]) key.term = some t := by
  simp [Bindings.next?, Term.key?_eq_some_iff.mpr rfl, List.lookup_append, h]

/-- What is below a term in which the key does not occur stays the same with the new binding. -/
theorem acc_of_not_occurs {u : Unifier} {key : Key} {t : Term} (hkey : u.lookup key = none)
    (s : Term) (h : ¬u.occurs key s = true) :
    Acc (Bindings.Below (u.bindings ++ [(key, t)])) s := by
  induction s using u.acyclic.induction with
  | _ s ih =>
  have hne : s ≠ key.term := by
    rintro rfl
    exact h ((occurs_of_unbound (by rwa [next?_term])).mpr (.inl rfl))
  refine ⟨_, fun r hr => ?_⟩
  cases hr with
  | bound hr =>
    rw [next?_append hne] at hr
    exact ih r (.bound hr) (by rwa [occurs_of_bound (u := u) hr] at h)
  | child hn hr =>
    rw [next?_append hne] at hn
    exact ih r (.child hn hr) fun ho => h ((occurs_of_unbound hn).mpr (.inr ⟨r, hr, ho⟩))

theorem acyclic_append {u : Unifier} {key : Key} {t : Term} (hkey : u.lookup key = none)
    (h : ¬u.occurs key t = true) : WellFounded (Bindings.Below (u.bindings ++ [(key, t)])) := by
  refine ⟨fun s => ?_⟩
  induction s using u.acyclic.induction with
  | _ s ih =>
  refine ⟨_, fun r hr => ?_⟩
  by_cases hs : s = key.term
  · subst hs
    have hn := next?_append_self (t := t) hkey
    cases hr with
    | bound hr =>
      rw [hn, Option.some.injEq] at hr
      exact hr ▸ acc_of_not_occurs hkey t h
    | child hr _ => rw [hn] at hr; cases hr
  · cases hr with
    | bound hr => exact ih r (.bound (next?_append hs ▸ hr))
    | child hn hr => exact ih r (.child (next?_append hs ▸ hn) hr)

/-- The unifier that also binds `key` to `t`. It is the same unifier if `key` represents `t`. -/
def bind (u : Unifier) (key : Key) (t : Term) : Except BindError Unifier :=
  if hkey : (u.lookup key).isSome then .error (.alreadyBound key)
  else if u.walk t = key.term then .ok u
  else if h : u.occurs key t then .error (.cyclic key)
  else
    have hkey : u.lookup key = none := by simpa using hkey
    .ok {
      bindings := u.bindings ++ [(key, t)]
      nodup := by
        rw [List.map_append, List.nodup_append]
        refine ⟨u.nodup, by simp, fun a ha b hb => ?_⟩
        obtain ⟨e, he, rfl⟩ := List.mem_map.mp ha
        rw [List.mem_map] at hb
        obtain ⟨f, hf, rfl⟩ := hb
        rw [List.mem_singleton.mp hf]
        intro hek
        have := List.lookup_eq_none_iff.mp hkey e he
        simp [hek] at this
      acyclic := acyclic_append hkey h }

section Bind

variable {u : Unifier} {key : Key} {t : Term}

theorem bind_of_bound (hkey : (u.lookup key).isSome) :
    u.bind key t = .error (.alreadyBound key) := dif_pos hkey

theorem bind_of_represented (hkey : u.lookup key = none) (ht : u.walk t = key.term) :
    u.bind key t = .ok u := by
  simp [bind, hkey, ht]

theorem bind_of_occurs (hkey : u.lookup key = none) (ht : u.walk t ≠ key.term)
    (h : u.occurs key t = true) : u.bind key t = .error (.cyclic key) := by
  simp [bind, hkey, ht, h]

theorem bind_of_not_occurs (hkey : u.lookup key = none) (ht : u.walk t ≠ key.term)
    (h : u.occurs key t = false) :
    ∃ v, u.bind key t = .ok v ∧ v.bindings = u.bindings ++ [(key, t)] := by
  simp [bind, hkey, ht, h]

/-- A term that is neither bound nor has parts can be bound to any key but itself. -/
theorem bind_of_childless (hkey : u.lookup key = none) (ht : u.next? t = none) (hne : t ≠ key.term)
    (hchildren : t.children = []) :
    ∃ v, u.bind key t = .ok v ∧ v.bindings = u.bindings ++ [(key, t)] := by
  apply bind_of_not_occurs hkey
  · rwa [walk_of_unbound ht]
  · rw [← Bool.not_eq_true, occurs_of_unbound ht, hchildren]
    simp [hne]

end Bind

end NameResolution.Unifier

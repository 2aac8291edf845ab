import NameResolution.Proofs.Unifier.Compression
import NameResolution.Proofs.Unifier.Parts

namespace NameResolution.Unifier

variable {u v w : Unifier} {s t : Term} {key : Key}

/-- The same keys are bound, and every term has the same representative. -/
structure Agree (u v : Unifier) : Prop where
  unbound_iff : ∀ t, u.next? t = none ↔ v.next? t = none
  walk_eq : ∀ t, u.walk t = v.walk t

theorem Agree.refl (u : Unifier) : Agree u u := ⟨fun _ => .rfl, fun _ => rfl⟩

theorem Agree.trans (h : Agree u v) (h' : Agree v w) : Agree u w :=
  ⟨fun t => (h.unbound_iff t).trans (h'.unbound_iff t),
    fun t => (h.walk_eq t).trans (h'.walk_eq t)⟩

theorem Agree.lookup_eq_none_iff (h : Agree u v) (key : Key) :
    u.lookup key = none ↔ v.lookup key = none := by
  have hkey := h.unbound_iff key.term
  rwa [next?_term, next?_term] at hkey

section Follows

variable {α : Type} {f g : Term → α}

/-- What is the same for a bound term and its binding is the same for the representative. -/
theorem apply_walk (hf : ∀ t s, u.next? t = some s → f t = f s) (t : Term) :
    f (u.walk t) = f t := by
  induction t using u.induction with
  | bound t s ht ih => rw [walk_of_bound ht, ih, hf t s ht]
  | unbound t ht => rw [walk_of_unbound ht]

/-- Functions that follow bindings and treat unbound terms alike are the same for unifiers that
agree. -/
theorem Agree.apply_eq (h : Agree u v) (hf : ∀ t s, u.next? t = some s → f t = f s)
    (hg : ∀ t s, v.next? t = some s → g t = g s)
    (hunbound : ∀ t, u.next? t = none → v.next? t = none →
      (∀ c ∈ t.children, f c = g c) → f t = g t) (t : Term) : f t = g t := by
  induction t using u.induction with
  | bound t s ht ih =>
    have hwalk : v.walk s = v.walk t := by rw [← h.walk_eq, ← h.walk_eq, walk_of_bound ht]
    calc f t = f s := hf t s ht
      _ = g s := ih
      _ = g (v.walk s) := (apply_walk hg s).symm
      _ = g (v.walk t) := by rw [hwalk]
      _ = g t := apply_walk hg t
  | unbound t ht ih => exact hunbound t ht ((h.unbound_iff t).mp ht) ih

end Follows

theorem Agree.occurs_eq (h : Agree u v) (key : Key) (t : Term) :
    u.occurs key t = v.occurs key t := by
  refine h.apply_eq (fun _ _ => occurs_of_bound) (fun _ _ => occurs_of_bound) ?_ t
  intro t hu hv hchildren
  have hparts : (∃ c ∈ t.children, u.occurs key c = true) ↔
      ∃ c ∈ t.children, v.occurs key c = true :=
    exists_congr fun c => and_congr_right fun hc => by rw [hchildren c hc]
  rw [Bool.eq_iff_iff, occurs_of_unbound hu, occurs_of_unbound hv, hparts]

theorem Agree.substitute_eq (h : Agree u v) (t : Term) : u.substitute t = v.substitute t := by
  rw [substitute_eq_image, substitute_eq_image]
  refine h.apply_eq (fun _ _ => image_of_bound) (fun _ _ => image_of_bound) ?_ t
  intro t hu hv hchildren
  rw [image_of_unbound hu, image_of_unbound hv, List.map_congr_left hchildren]

section Bind

theorem next?_self_of_append (hkey : u.lookup key = none)
    (hv : v.bindings = u.bindings ++ [(key, t)]) : v.next? key.term = some t := by
  rw [next?, hv]
  exact next?_append_self hkey

theorem next?_of_append (hv : v.bindings = u.bindings ++ [(key, t)]) (hs : s ≠ key.term) :
    v.next? s = u.next? s := by
  rw [next?, hv]
  exact next?_append hs

theorem next?_append_eq_none_iff (hkey : u.lookup key = none)
    (hv : v.bindings = u.bindings ++ [(key, t)]) (s : Term) :
    v.next? s = none ↔ s ≠ key.term ∧ u.next? s = none := by
  by_cases hs : s = key.term
  · rw [hs, next?_self_of_append hkey hv]
    simp
  · rw [next?_of_append hv hs]
    exact ⟨fun h => ⟨hs, h⟩, fun h => h.2⟩

/-- A binding moves the terms that the key represents to the representative of the term it is bound
to. -/
theorem walk_append (hkey : u.lookup key = none) (ht : u.walk t ≠ key.term)
    (hv : v.bindings = u.bindings ++ [(key, t)]) (s : Term) :
    v.walk s = if u.walk s = key.term then u.walk t else u.walk s := by
  -- old bindings are still followed, so only what becomes of old representatives is in question
  have hfollow : ∀ s, v.walk (u.walk s) = v.walk s := by
    refine apply_walk fun s r hs => walk_of_bound ?_
    exact (next?_of_append hv (ne_term_of_bound hkey hs)).trans hs
  have haway : ∀ s, u.walk s ≠ key.term → v.walk s = u.walk s := by
    intro s hs
    have hend : v.next? (u.walk s) = none := (next?_of_append hv hs).trans (u.walk_unbound s)
    rw [← hfollow, walk_of_unbound hend]
  by_cases hs : u.walk s = key.term
  · rw [if_pos hs, ← hfollow, hs, walk_of_bound (next?_self_of_append hkey hv), haway t ht]
  · rw [if_neg hs, haway s hs]

/-- A binding has the same outcome for unifiers that agree, and they still agree after it. -/
theorem Agree.bind (h : Agree u v) (key : Key) (t : Term) :
    (∃ x, u.bind key t = .error x ∧ v.bind key t = .error x) ∨
      ∃ u' v', u.bind key t = .ok u' ∧ v.bind key t = .ok v' ∧ Agree u' v' := by
  cases hkey : u.lookup key with
  | some s =>
    have hu : (u.lookup key).isSome := by rw [hkey]; rfl
    have hv : (v.lookup key).isSome := by
      rw [← Option.ne_none_iff_isSome, ne_eq, ← h.lookup_eq_none_iff, hkey]
      simp
    exact .inl ⟨_, bind_of_bound hu, bind_of_bound hv⟩
  | none =>
    have hkey' : v.lookup key = none := (h.lookup_eq_none_iff key).mp hkey
    by_cases ht : u.walk t = key.term
    · have ht' : v.walk t = key.term := (h.walk_eq t).symm.trans ht
      exact .inr ⟨u, v, bind_of_represented hkey ht, bind_of_represented hkey' ht', h⟩
    have ht' : v.walk t ≠ key.term := by rwa [← h.walk_eq]
    have hoccurs := h.occurs_eq key t
    cases ho : u.occurs key t with
    | true =>
      have ho' : v.occurs key t = true := hoccurs.symm.trans ho
      exact .inl ⟨_, bind_of_occurs hkey ht ho, bind_of_occurs hkey' ht' ho'⟩
    | false =>
      have ho' : v.occurs key t = false := hoccurs.symm.trans ho
      obtain ⟨u', hu', hub⟩ := bind_of_not_occurs hkey ht ho
      obtain ⟨v', hv', hvb⟩ := bind_of_not_occurs hkey' ht' ho'
      refine .inr ⟨u', v', hu', hv', fun s => ?_, fun s => ?_⟩
      · rw [next?_append_eq_none_iff hkey hub, next?_append_eq_none_iff hkey' hvb, h.unbound_iff]
      · rw [walk_append hkey ht hub, walk_append hkey' ht' hvb, h.walk_eq, h.walk_eq]

end Bind

section Compress

theorem agree_shorten (u : Unifier) (key : Key) : Agree (u.shorten key) u := by
  refine ⟨fun t => ?_, u.walk_shorten key⟩
  cases ht : u.next? t with
  | none => exact iff_of_true (next?_shorten_of_unbound ht) rfl
  | some s =>
    refine iff_of_false ?_ nofun
    by_cases hkey : t = key.term
    · rw [hkey] at ht ⊢
      rw [next?_shorten_self ht]
      nofun
    · rw [next?_shorten_of_ne hkey, ht]
      nofun

theorem agree_foldl {α : Type} {f : Unifier → α → Unifier} (hf : ∀ v a, Agree (f v a) v)
    (l : List α) (u : Unifier) : Agree (l.foldl f u) u := by
  induction l generalizing u with
  | nil => exact .refl u
  | cons a l ih => exact (ih (f u a)).trans (hf u a)

theorem agree_find (u : Unifier) (t : Term) : Agree (u.find t).unifier u :=
  agree_foldl agree_shorten _ u

theorem agree_findEach (u : Unifier) (keys : List Key) : Agree (u.findEach keys) u := by
  unfold findEach
  exact agree_foldl (fun v key => v.agree_find key.term) keys u

theorem agree_findAll (u : Unifier) : Agree u.findAll u := u.agree_findEach u.keys

end Compress

end NameResolution.Unifier

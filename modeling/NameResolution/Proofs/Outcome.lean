import Mathlib.Data.List.Forall2

namespace NameResolution

variable {ε α β : Type}

theorem bind_eq_ok_iff {e : Except ε α} {f : α → Except ε β} {b : β} :
    e >>= f = .ok b ↔ ∃ a, e = .ok a ∧ f a = .ok b := by
  cases e with
  | ok a => exact ⟨fun h => ⟨a, rfl, h⟩, fun ⟨_, ha, h⟩ => Except.ok.inj ha ▸ h⟩
  | error x => exact iff_of_false nofun fun ⟨_, ha, _⟩ => nomatch ha

theorem bind_eq_error_iff {e : Except ε α} {f : α → Except ε β} {x : ε} :
    e >>= f = .error x ↔ e = .error x ∨ ∃ a, e = .ok a ∧ f a = .error x := by
  cases e with
  | ok a =>
    constructor
    · exact fun h => .inr ⟨a, rfl, h⟩
    · rintro (h | ⟨b, hb, h⟩)
      · cases h
      · cases hb
        exact h
  | error y =>
    constructor
    · exact fun h => .inl (congrArg Except.error (Except.error.inj h))
    · rintro (h | ⟨b, hb, h⟩)
      · cases h
        rfl
      · cases hb

theorem bind_pure_eq_error_iff {e : Except ε α} {f : α → β} {x : ε} :
    (e >>= fun a => pure (f a)) = .error x ↔ e = .error x := by
  rw [bind_eq_error_iff]
  exact or_iff_left fun ⟨_, _, h⟩ => nomatch h

theorem exists_error_iff {e : Except ε α} : (∃ x, e = .error x) ↔ ¬∃ a, e = .ok a := by
  cases e with
  | ok a => exact iff_of_false nofun (not_not_intro ⟨a, rfl⟩)
  | error x => exact iff_of_true ⟨x, rfl⟩ nofun

/-- A result is made from exactly one value by an injective function. -/
theorem bind_pure_eq_ok_iff {e : Except ε α} {f : α → β} (hf : Function.Injective f) {a : α} :
    (e >>= fun a => pure (f a)) = .ok (f a) ↔ e = .ok a := by
  rw [bind_eq_ok_iff]
  constructor
  · rintro ⟨b, he, hb⟩
    rw [he, hf (Except.ok.inj hb)]
  · exact fun he => ⟨a, he, rfl⟩

theorem mapM_eq_ok_iff {f : α → Except ε β} {l : List α} {bs : List β} :
    l.mapM f = .ok bs ↔ List.Forall₂ (fun a b => f a = .ok b) l bs := by
  induction l generalizing bs with
  | nil =>
    rw [List.forall₂_nil_left_iff]
    exact ⟨fun h => (Except.ok.inj h).symm, fun h => h ▸ rfl⟩
  | cons a l ih =>
    rw [List.mapM_cons, bind_eq_ok_iff, List.forall₂_cons_left_iff]
    refine exists_congr fun b => ?_
    rw [bind_eq_ok_iff]
    constructor
    · rintro ⟨hb, bs', hbs, heq⟩
      exact ⟨bs', hb, ih.mp hbs, (Except.ok.inj heq).symm⟩
    · rintro ⟨bs', hb, hbs, rfl⟩
      exact ⟨hb, bs', ih.mpr hbs, rfl⟩

theorem exists_bind_pure_eq_ok_iff {e : Except ε α} {f : α → β} :
    (∃ b, (e >>= fun a => pure (f a)) = .ok b) ↔ ∃ a, e = .ok a := by
  constructor
  · rintro ⟨b, h⟩
    obtain ⟨a, ha, -⟩ := bind_eq_ok_iff.mp h
    exact ⟨a, ha⟩
  · rintro ⟨a, rfl⟩
    exact ⟨f a, rfl⟩

theorem exists_mapM_eq_ok_iff {f : α → Except ε β} {l : List α} :
    (∃ bs, l.mapM f = .ok bs) ↔ ∀ a ∈ l, ∃ b, f a = .ok b := by
  induction l with
  | nil => exact iff_of_true ⟨[], rfl⟩ (List.forall_mem_nil _)
  | cons a l ih =>
    rw [List.forall_mem_cons, ← ih]
    constructor
    · rintro ⟨bs, h⟩
      obtain ⟨b, bs', hb, hbs, -⟩ := List.forall₂_cons_left_iff.mp (mapM_eq_ok_iff.mp h)
      exact ⟨⟨b, hb⟩, bs', mapM_eq_ok_iff.mpr hbs⟩
    · rintro ⟨⟨b, hb⟩, bs, hbs⟩
      exact ⟨b :: bs, mapM_eq_ok_iff.mpr (.cons hb (mapM_eq_ok_iff.mp hbs))⟩

/-- The error of a sequence is the error of one of its computations. -/
theorem exists_mem_of_mapM_eq_error {f : α → Except ε β} {l : List α} {x : ε}
    (h : l.mapM f = .error x) : ∃ a ∈ l, f a = .error x := by
  induction l with
  | nil => cases h
  | cons a l ih =>
    rw [List.mapM_cons, bind_eq_error_iff] at h
    rcases h with ha | ⟨b, -, hl⟩
    · exact ⟨a, .head _, ha⟩
    · obtain ⟨a', ha', h⟩ := ih (bind_pure_eq_error_iff.mp hl)
      exact ⟨a', .tail _ ha', h⟩

theorem mapM_congr {f g : α → Except ε β} {l : List α} (h : ∀ a ∈ l, f a = g a) :
    l.mapM f = l.mapM g := by
  induction l with
  | nil => rfl
  | cons a l ih =>
    obtain ⟨ha, hl⟩ := List.forall_mem_cons.mp h
    rw [List.mapM_cons, List.mapM_cons, ha, ih hl]

theorem mapError_mapError {ε' ε'' : Type} (rename : ε → ε') (rename' : ε' → ε'')
    (e : Except ε α) :
    (e.mapError rename).mapError rename' = e.mapError fun x => rename' (rename x) := by
  cases e <;> rfl

theorem mapError_congr {ε' : Type} {rename rename' : ε → ε'} {e : Except ε α}
    (h : ∀ x, e = .error x → rename x = rename' x) : e.mapError rename = e.mapError rename' := by
  cases e with
  | ok a => rfl
  | error x => exact congrArg Except.error (h x rfl)

theorem mapError_eq_ok_iff {ε' : Type} {rename : ε → ε'} {e : Except ε α} {a : α} :
    e.mapError rename = .ok a ↔ e = .ok a := by
  cases e with
  | ok b => simp [Except.mapError]
  | error x => exact iff_of_false nofun nofun

end NameResolution

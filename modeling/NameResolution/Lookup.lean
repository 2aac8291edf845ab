namespace NameResolution

universe u v
variable {α : Type u} {β : Type v} [DecidableEq α]

theorem lookup_cons {key : α} {e : α × β} {l : List (α × β)} :
    (e :: l).lookup key = if key = e.1 then some e.2 else l.lookup key := by
  obtain ⟨k, v⟩ := e
  rw [List.lookup_cons]
  by_cases h : key = k
  · simp [h]
  · simp [h, beq_eq_false_iff_ne.mpr h]

theorem lookup_cons_self {e : α × β} {l : List (α × β)} : (e :: l).lookup e.1 = some e.2 := by
  simp [lookup_cons]

theorem lookup_cons_of_ne {key : α} {e : α × β} {l : List (α × β)} (h : key ≠ e.1) :
    (e :: l).lookup key = l.lookup key := by
  simp [lookup_cons, h]

theorem lookup_append_single_of_ne {key key' : α} {value : β} {l : List (α × β)}
    (h : key' ≠ key) : (l ++ [(key, value)]).lookup key' = l.lookup key' := by
  simp [List.lookup_append, lookup_cons, h]

/-- A key that is listed once has the one value that it is listed with. -/
theorem lookup_eq_some_iff_mem {key : α} {value : β} {l : List (α × β)} (h : (l.map (·.1)).Nodup) :
    l.lookup key = some value ↔ (key, value) ∈ l := by
  induction l with
  | nil => simp
  | cons e es ih =>
    obtain ⟨he, hes⟩ := List.nodup_cons.mp h
    by_cases hkey : key = e.1
    · subst hkey
      rw [lookup_cons_self, Option.some.injEq, List.mem_cons]
      refine ⟨fun hv => .inl (by rw [← hv]), fun hv => ?_⟩
      rcases hv with hv | hv
      · rw [← hv]
      · exact absurd (List.mem_map_of_mem hv) he
    · rw [lookup_cons_of_ne hkey, ih hes, List.mem_cons]
      refine ⟨.inr, fun hv => hv.resolve_left fun heq => ?_⟩
      exact hkey (congrArg (·.1) heq)

def replaceValue (l : List (α × β)) (key : α) (value : β) : List (α × β) :=
  l.map fun e => if e.1 = key then (e.1, value) else e

theorem lookup_replaceValue_of_ne {key key' : α} {value : β} {l : List (α × β)} (h : key' ≠ key) :
    (replaceValue l key value).lookup key' = l.lookup key' := by
  induction l with
  | nil => rfl
  | cons e es ih =>
    have hfst : (if e.1 = key then (e.1, value) else e).1 = e.1 := by split <;> rfl
    by_cases he : key' = e.1
    · subst he
      simp [replaceValue, h, lookup_cons]
    · rw [lookup_cons_of_ne he, ← ih]
      exact lookup_cons_of_ne (hfst ▸ he)

theorem lookup_replaceValue_self {key : α} {value old : β} {l : List (α × β)}
    (h : l.lookup key = some old) : (replaceValue l key value).lookup key = some value := by
  induction l with
  | nil => cases h
  | cons e es ih =>
    by_cases he : key = e.1
    · subst he
      simp [replaceValue]
    · rw [lookup_cons_of_ne he] at h
      rw [← ih h]
      have hne : ¬e.1 = key := fun e' => he e'.symm
      simp only [replaceValue, List.map_cons, hne, if_false]
      exact lookup_cons_of_ne he

theorem lookup_replaceValue_eq_none {key key' : α} {value : β} {l : List (α × β)}
    (h : l.lookup key' = none) : (replaceValue l key value).lookup key' = none := by
  rw [List.lookup_eq_none_iff] at h ⊢
  intro p hp
  obtain ⟨e, he, rfl⟩ := List.mem_map.mp hp
  have := h e he
  split <;> exact this

theorem keys_replaceValue {key : α} {value : β} {l : List (α × β)} :
    (replaceValue l key value).map (·.1) = l.map (·.1) := by
  rw [replaceValue, List.map_map]
  refine List.map_congr_left fun e _ => ?_
  simp only [Function.comp]
  split <;> rfl

end NameResolution

import NameResolution.Lookup
import NameResolution.Multimap.Basic

namespace NameResolution.Multimap

universe u v
variable {κ : Type u} {ν : Type v} [Ord κ] [Ord ν] [DecidableEq κ]

omit [DecidableEq κ] in
theorem nodup_keys [Std.OrientedOrd κ] (m : Multimap κ ν) : m.keys.Nodup := by
  refine List.pairwise_map.mpr (m.ascending.imp fun h => ?_)
  exact ne_of_compare h (by simp)

theorem get_eq_of_mem [Std.OrientedOrd κ] {m : Multimap κ ν} {e : κ × SortedSet ν}
    (h : e ∈ m.entries) : m.get e.1 = e.2 := by
  rw [get, (lookup_eq_some_iff_mem m.nodup_keys).mpr h]
  rfl

theorem entry_of_mem_get [Std.OrientedOrd κ] {m : Multimap κ ν} {key : κ} {value : ν}
    (h : value ∈ m.get key) : (key, m.get key) ∈ m.entries := by
  unfold get at *
  cases hl : m.entries.lookup key with
  | none => exact absurd (hl ▸ h) SortedSet.not_mem_empty
  | some values => exact (lookup_eq_some_iff_mem m.nodup_keys).mp hl

theorem mem_keys [Std.OrientedOrd κ] {m : Multimap κ ν} {key : κ} :
    key ∈ m.keys ↔ ∃ value, value ∈ m.get key := by
  constructor
  · intro h
    obtain ⟨e, he, rfl⟩ := List.mem_map.mp h
    rw [get_eq_of_mem he]
    exact m.inhabited e he
  · rintro ⟨value, h⟩
    exact List.mem_map.mpr ⟨_, entry_of_mem_get h, rfl⟩

theorem mem_pairs [Std.OrientedOrd κ] {m : Multimap κ ν} {key : κ} {value : ν} :
    (key, value) ∈ m.pairs ↔ value ∈ m.get key := by
  simp only [pairs, listPairs, List.mem_flatMap, List.mem_map, Prod.mk.injEq]
  constructor
  · rintro ⟨e, he, x, hx, rfl, rfl⟩
    rw [get_eq_of_mem he]
    exact hx
  · exact fun h => ⟨_, entry_of_mem_get h, value, h, rfl, rfl⟩

theorem get_empty {key : κ} : (empty : Multimap κ ν).get key = .empty := rfl

variable [Std.TransOrd κ] [Std.LawfulEqOrd κ] [Std.TransOrd ν] [Std.LawfulEqOrd ν]

theorem lookup_place {key key' : κ} {value : ν} {l : List (κ × SortedSet ν)}
    (h : l.Pairwise fun e f => compare e.1 f.1 = .lt) :
    (place key value l).lookup key' =
      if key' = key then some (((l.lookup key).getD .empty).insert value) else l.lookup key' := by
  induction l with
  | nil =>
    split
    · next hk => simp [place, hk, SortedSet.singleton]
    · next hk => exact lookup_cons_of_ne hk
  | cons e es ih =>
    have he := List.pairwise_cons.mp h
    unfold place
    split
    · next hlt =>
      have hnone : (e :: es).lookup key = none := lookup_eq_none_of_lt (lt_of_lt_head h hlt)
      rw [hnone]
      split
      · next hk => simp [hk, SortedSet.singleton]
      · next hk => exact lookup_cons_of_ne hk
    · next heq =>
      have hkey := Std.LawfulEqOrd.eq_of_compare heq
      subst hkey
      split
      · next hk => simp [hk, lookup_cons]
      · next hk => rw [lookup_cons_of_ne (e := (e.1, e.2.insert value)) hk, lookup_cons_of_ne hk]
    · next hgt =>
      have hne : key ≠ e.1 := ne_of_compare hgt (by simp)
      by_cases hk : key' = e.1
      · subst hk
        rw [if_neg (Ne.symm hne)]
        simp [lookup_cons]
      · rw [lookup_cons_of_ne hk, ih he.2, lookup_cons_of_ne hk, lookup_cons_of_ne hne]

section Insertion

variable [DecidableEq ν]

theorem get_insert {m : Multimap κ ν} {key key' : κ} {value : ν} :
    (m.insert key value).get key' =
      if key' = key then (m.get key).insert value else m.get key' := by
  unfold get insert insertNew
  rw [lookup_place m.ascending]
  split <;> simp

theorem mem_get_insert {m : Multimap κ ν} {key key' : κ} {value value' : ν} :
    value' ∈ (m.insert key value).get key' ↔
      (key' = key ∧ value' = value) ∨ value' ∈ m.get key' := by
  rw [get_insert]
  by_cases h : key' = key <;> simp [h]

end Insertion

omit [DecidableEq κ] [Std.LawfulEqOrd κ] [Std.TransOrd ν] [Std.LawfulEqOrd ν] in
theorem entries_eq_of_mem_iff {m n : Multimap κ ν}
    (h : ∀ e, e ∈ m.entries ↔ e ∈ n.entries) : m = n := by
  have nodup (m : Multimap κ ν) : m.entries.Nodup := by
    refine m.ascending.imp @fun e f hef he => ?_
    exact ne_of_compare hef (by simp) (congrArg (·.1) he)
  have perm := (List.perm_ext_iff_of_nodup (nodup m) (nodup n)).mpr h
  have key : m.entries = n.entries := by
    refine perm.eq_of_pairwise (fun e f _ _ hef hfe => ?_) m.ascending n.ascending
    have := Std.TransCmp.lt_trans hef hfe
    simp at this
  have count : m.count = n.count := by rw [m.count_eq, n.count_eq, key]
  cases m
  cases n
  cases key
  cases count
  rfl

omit [Std.LawfulEqOrd κ] in
/-- Maps with the same values are equal. -/
theorem ext {m n : Multimap κ ν} (h : ∀ key value, value ∈ m.get key ↔ value ∈ n.get key) :
    m = n := by
  have half {m n : Multimap κ ν} (h : ∀ key value, value ∈ m.get key ↔ value ∈ n.get key)
      (e : κ × SortedSet ν) (he : e ∈ m.entries) : e ∈ n.entries := by
    obtain ⟨value, hv⟩ := m.inhabited e he
    have hget : m.get e.1 = n.get e.1 := SortedSet.ext (h e.1)
    have hm := get_eq_of_mem he
    have hmem : value ∈ n.get e.1 := by
      rw [← hget, hm]
      exact hv
    have hn := entry_of_mem_get hmem
    rwa [← hget, hm] at hn
  exact entries_eq_of_mem_iff fun e => ⟨half h e, half (fun k v => (h k v).symm) e⟩

end NameResolution.Multimap

namespace NameResolution

universe u

structure SortedSet (α : Type u) [Ord α] where
  toList : List α
  ascending : toList.Pairwise fun x y => compare x y = .lt

namespace SortedSet

variable {α : Type u} [Ord α]

instance [DecidableEq α] : DecidableEq (SortedSet α) := fun s t =>
  decidable_of_iff (s.toList = t.toList) (by cases s; cases t; simp)

instance : Membership α (SortedSet α) := ⟨fun s x => x ∈ s.toList⟩

instance [DecidableEq α] (x : α) (s : SortedSet α) : Decidable (x ∈ s) :=
  inferInstanceAs (Decidable (x ∈ s.toList))

theorem mem_toList {s : SortedSet α} {x : α} : x ∈ s.toList ↔ x ∈ s := Iff.rfl

def empty : SortedSet α := ⟨[], .nil⟩

def size (s : SortedSet α) : Nat := s.toList.length

def isEmpty (s : SortedSet α) : Bool := s.toList.isEmpty

theorem not_mem_empty {x : α} : ¬x ∈ (empty : SortedSet α) := List.not_mem_nil

def place (x : α) : List α → List α
  | [] => [x]
  | y :: ys =>
    match compare x y with
    | .lt => x :: y :: ys
    | .eq => y :: ys
    | .gt => y :: place x ys

variable [Std.TransOrd α] [Std.LawfulEqOrd α]

omit [Std.TransOrd α] in
theorem mem_place {x y : α} {l : List α} : y ∈ place x l ↔ y = x ∨ y ∈ l := by
  induction l with
  | nil => simp [place]
  | cons z zs ih =>
    unfold place
    split
    · simp
    · next h =>
      have := Std.LawfulEqOrd.eq_of_compare h
      simp [this]
    · simp [ih, or_left_comm]

theorem ascending_place {x : α} {l : List α} (h : l.Pairwise fun x y => compare x y = .lt) :
    (place x l).Pairwise fun x y => compare x y = .lt := by
  induction l with
  | nil => simp [place]
  | cons z zs ih =>
    have hz := List.pairwise_cons.mp h
    unfold place
    split
    · next hlt =>
      refine List.pairwise_cons.mpr ⟨fun y hy => ?_, h⟩
      rcases List.mem_cons.mp hy with rfl | hy
      · exact hlt
      · exact Std.TransCmp.lt_trans hlt (hz.1 y hy)
    · exact h
    · next hgt =>
      refine List.pairwise_cons.mpr ⟨fun y hy => ?_, ih hz.2⟩
      rcases mem_place.mp hy with rfl | hy
      · exact Std.OrientedCmp.lt_of_gt hgt
      · exact hz.1 y hy

def insert (s : SortedSet α) (x : α) : SortedSet α := ⟨place x s.toList, ascending_place s.ascending⟩

def ofList (l : List α) : SortedSet α := l.foldl insert empty

def singleton (x : α) : SortedSet α := empty.insert x

def union (s t : SortedSet α) : SortedSet α := t.toList.foldl insert s

def filter (p : α → Bool) (s : SortedSet α) : SortedSet α :=
  ⟨s.toList.filter p, s.ascending.filter p⟩

def isSubset [DecidableEq α] (s t : SortedSet α) : Bool := s.toList.all (· ∈ t)

@[simp] theorem mem_insert {s : SortedSet α} {x y : α} : y ∈ s.insert x ↔ y = x ∨ y ∈ s := mem_place

theorem mem_foldl_insert {l : List α} {s : SortedSet α} {x : α} :
    x ∈ l.foldl insert s ↔ x ∈ s ∨ x ∈ l := by
  induction l generalizing s with
  | nil => simp
  | cons y ys ih => simp [ih, or_assoc, or_left_comm]

@[simp] theorem mem_union {s t : SortedSet α} {x : α} : x ∈ s.union t ↔ x ∈ s ∨ x ∈ t :=
  mem_foldl_insert

@[simp] theorem mem_ofList {l : List α} {x : α} : x ∈ ofList l ↔ x ∈ l := by
  simp [ofList, mem_foldl_insert, not_mem_empty]

@[simp] theorem mem_singleton {x y : α} : y ∈ singleton x ↔ y = x := by
  simp [singleton, not_mem_empty]

omit [Std.TransOrd α] [Std.LawfulEqOrd α] in
@[simp] theorem mem_filter {s : SortedSet α} {p : α → Bool} {x : α} :
    x ∈ s.filter p ↔ x ∈ s ∧ p x := List.mem_filter

omit [Std.TransOrd α] [Std.LawfulEqOrd α] in
theorem isSubset_iff [DecidableEq α] {s t : SortedSet α} :
    s.isSubset t = true ↔ ∀ x ∈ s, x ∈ t := by
  simp [isSubset, mem_toList]

omit [Std.TransOrd α] in
theorem nodup_toList [Std.OrientedOrd α] (s : SortedSet α) : s.toList.Nodup := by
  refine s.ascending.imp @fun x y h e => ?_
  subst e
  simp at h

/-- Sets with the same members are equal. -/
theorem ext {s t : SortedSet α} (h : ∀ x, x ∈ s ↔ x ∈ t) : s = t := by
  have perm := (List.perm_ext_iff_of_nodup s.nodup_toList t.nodup_toList).mpr h
  have key : s.toList = t.toList := by
    refine perm.eq_of_pairwise (fun x y _ _ hxy hyx => ?_) s.ascending t.ascending
    have := Std.TransCmp.lt_trans hxy hyx
    simp at this
  cases s
  cases t
  cases key
  rfl

theorem size_le_of_subset {s t : SortedSet α} (h : ∀ x ∈ s, x ∈ t) : s.size ≤ t.size :=
  s.nodup_toList.length_le_of_subset h

theorem size_insert_le {s : SortedSet α} {x : α} : (s.insert x).size ≤ s.size + 1 := by
  have hle : (s.insert x).toList.length ≤ (x :: s.toList).length :=
    (s.insert x).nodup_toList.length_le_of_subset fun y hy => by
      simpa [mem_toList] using mem_insert.mp hy
  exact hle

theorem size_insert_of_not_mem {s : SortedSet α} {x : α} (h : x ∉ s) :
    (s.insert x).size = s.size + 1 := by
  apply Nat.le_antisymm size_insert_le
  have hnodup : (x :: s.toList).Nodup := List.nodup_cons.mpr ⟨h, s.nodup_toList⟩
  apply hnodup.length_le_of_subset
  intro y hy
  exact mem_insert.mpr (List.mem_cons.mp hy)

theorem size_singleton {x : α} : (singleton x).size = 1 := rfl

theorem insert_of_mem {s : SortedSet α} {x : α} (h : x ∈ s) : s.insert x = s := by
  apply ext
  intro y
  simp only [mem_insert, or_iff_right_iff_imp]
  rintro rfl
  exact h

/-- A shared member is counted once. -/
theorem size_union_lt [DecidableEq α] {s t : SortedSet α} {x : α} (hs : x ∈ s) (ht : x ∈ t) :
    (s.union t).size < s.size + t.size := by
  have hle : (s.union t).toList.length ≤ (s.toList ++ t.toList.erase x).length :=
    (s.union t).nodup_toList.length_le_of_subset fun y hy => by
      rcases mem_union.mp hy with h | h
      · exact List.mem_append_left _ h
      · by_cases e : y = x
        · exact List.mem_append_left _ (e ▸ hs)
        · exact List.mem_append_right _ ((List.mem_erase_of_ne e).mpr h)
  have hpos : 0 < t.toList.length := List.length_pos_of_mem ht
  rw [List.length_append, List.length_erase_of_mem ht] at hle
  unfold size
  omega

end SortedSet

end NameResolution

import NameResolution.Lookup
import NameResolution.SortedSet
import NameResolution.Text.Quoted

namespace NameResolution

universe u v

def listPairs {κ : Type u} {ν : Type v} [Ord ν] (entries : List (κ × SortedSet ν)) : List (κ × ν) :=
  entries.flatMap fun e => e.2.toList.map (e.1, ·)

/--
Each key with its values, keys ascending; a key without values is not listed. The number of pairs is
kept beside the entries.
-/
structure Multimap (κ : Type u) (ν : Type v) [Ord κ] [Ord ν] where
  entries : List (κ × SortedSet ν)
  count : Nat
  ascending : entries.Pairwise fun e f => compare e.1 f.1 = .lt
  inhabited : ∀ e ∈ entries, ∃ x, x ∈ e.2
  count_eq : count = (listPairs entries).length

namespace Multimap

variable {κ : Type u} {ν : Type v} [Ord κ] [Ord ν]

instance [DecidableEq κ] [DecidableEq ν] : DecidableEq (Multimap κ ν) := fun m n =>
  decidable_of_iff (m.count = n.count ∧ m.entries = n.entries)
    (by cases m; cases n; simp [and_comm])

def empty : Multimap κ ν := ⟨[], 0, .nil, by simp, rfl⟩

def get [DecidableEq κ] (m : Multimap κ ν) (key : κ) : SortedSet ν :=
  (m.entries.lookup key).getD .empty

def contains [DecidableEq κ] [DecidableEq ν] (m : Multimap κ ν) (key : κ) (value : ν) : Bool :=
  decide (value ∈ m.get key)

def keys (m : Multimap κ ν) : List κ := m.entries.map (·.1)

def pairs (m : Multimap κ ν) : List (κ × ν) := listPairs m.entries

def size (m : Multimap κ ν) : Nat := m.count

def isEmpty (m : Multimap κ ν) : Bool := m.size == 0

omit [Ord ν] in
theorem ne_of_compare [Std.OrientedOrd κ] {x y : κ} {o : Ordering} (h : compare x y = o)
    (ho : o ≠ .eq) : x ≠ y := by
  rintro rfl
  exact ho (h.symm.trans Std.ReflCmp.compare_self)

theorem lookup_eq_none_of_lt [DecidableEq κ] [Std.OrientedOrd κ] {key : κ}
    {l : List (κ × SortedSet ν)} (h : ∀ e ∈ l, compare key e.1 = .lt) : l.lookup key = none := by
  induction l with
  | nil => rfl
  | cons e es ih =>
    rw [lookup_cons_of_ne (ne_of_compare (h e (.head _)) (by simp))]
    exact ih fun f hf => h f (.tail _ hf)

theorem lt_of_lt_head [Std.TransOrd κ] {key : κ} {e : κ × SortedSet ν}
    {es : List (κ × SortedSet ν)} (h : (e :: es).Pairwise fun e f => compare e.1 f.1 = .lt)
    (hkey : compare key e.1 = .lt) : ∀ f ∈ e :: es, compare key f.1 = .lt := by
  intro f hf
  rcases List.mem_cons.mp hf with rfl | hf
  · exact hkey
  · exact Std.TransCmp.lt_trans hkey ((List.pairwise_cons.mp h).1 f hf)

variable [Std.TransOrd ν] [Std.LawfulEqOrd ν]

def place (key : κ) (value : ν) : List (κ × SortedSet ν) → List (κ × SortedSet ν)
  | [] => [(key, .singleton value)]
  | e :: es =>
    match compare key e.1 with
    | .lt => (key, .singleton value) :: e :: es
    | .eq => (e.1, e.2.insert value) :: es
    | .gt => e :: place key value es

theorem key_of_mem_place [Std.LawfulEqOrd κ] {key : κ} {value : ν} {e : κ × SortedSet ν}
    {l : List (κ × SortedSet ν)} (h : e ∈ place key value l) : e.1 = key ∨ ∃ f ∈ l, f.1 = e.1 := by
  induction l with
  | nil =>
    simp only [place, List.mem_singleton] at h
    exact .inl (by rw [h])
  | cons f fs ih =>
    unfold place at h
    split at h
    · rcases List.mem_cons.mp h with rfl | h
      · exact .inl rfl
      · exact .inr ⟨e, h, rfl⟩
    · rcases List.mem_cons.mp h with rfl | h
      · exact .inr ⟨f, .head _, rfl⟩
      · exact .inr ⟨e, .tail _ h, rfl⟩
    · rcases List.mem_cons.mp h with rfl | h
      · exact .inr ⟨e, .head _, rfl⟩
      · rcases ih h with h | ⟨g, hg, hge⟩
        · exact .inl h
        · exact .inr ⟨g, .tail _ hg, hge⟩

theorem inhabited_place {key : κ} {value : ν} {l : List (κ × SortedSet ν)}
    (h : ∀ e ∈ l, ∃ x, x ∈ e.2) : ∀ e ∈ place key value l, ∃ x, x ∈ e.2 := by
  induction l with
  | nil =>
    intro e he
    simp only [place, List.mem_singleton] at he
    exact ⟨value, by simp [he]⟩
  | cons f fs ih =>
    intro e he
    unfold place at he
    split at he
    · rcases List.mem_cons.mp he with rfl | he
      · exact ⟨value, by simp⟩
      · exact h e he
    · rcases List.mem_cons.mp he with rfl | he
      · exact ⟨value, by simp⟩
      · exact h e (.tail _ he)
    · rcases List.mem_cons.mp he with rfl | he
      · exact h e (.head _)
      · exact ih (fun e he => h e (.tail _ he)) e he

variable [Std.TransOrd κ] [Std.LawfulEqOrd κ]

theorem ascending_place {key : κ} {value : ν} {l : List (κ × SortedSet ν)}
    (h : l.Pairwise fun e f => compare e.1 f.1 = .lt) :
    (place key value l).Pairwise fun e f => compare e.1 f.1 = .lt := by
  induction l with
  | nil => simp [place]
  | cons f fs ih =>
    have hf := List.pairwise_cons.mp h
    unfold place
    split
    · next hlt =>
      refine List.pairwise_cons.mpr ⟨fun e he => ?_, h⟩
      rcases List.mem_cons.mp he with rfl | he
      · exact hlt
      · exact Std.TransCmp.lt_trans hlt (hf.1 e he)
    · exact List.pairwise_cons.mpr ⟨hf.1, hf.2⟩
    · next hgt =>
      refine List.pairwise_cons.mpr ⟨fun e he => ?_, ih hf.2⟩
      rcases key_of_mem_place he with hk | ⟨g, hg, hge⟩
      · rw [hk]
        exact Std.OrientedCmp.lt_of_gt hgt
      · rw [← hge]
        exact hf.1 g hg

/-- A new value makes its set one larger, and the other sets stay as they are. -/
theorem length_listPairs_place [DecidableEq κ] [DecidableEq ν] {key : κ} {value : ν}
    {l : List (κ × SortedSet ν)} (h : l.Pairwise fun e f => compare e.1 f.1 = .lt) :
    (listPairs (place key value l)).length =
      (listPairs l).length + if value ∈ (l.lookup key).getD .empty then 0 else 1 := by
  have length_cons (e : κ × SortedSet ν) (es : List (κ × SortedSet ν)) :
      (listPairs (e :: es)).length = e.2.size + (listPairs es).length := by
    simp [listPairs, SortedSet.size]
  -- `place` goes past the smaller keys, and changes the values of one entry or adds an entry
  induction l with
  | nil =>
    simp [place, length_cons, SortedSet.size_singleton, SortedSet.not_mem_empty, Nat.add_comm]
  | cons e es ih =>
    have he := List.pairwise_cons.mp h
    unfold place
    split
    · next hlt =>
      have hnone : (e :: es).lookup key = none := lookup_eq_none_of_lt (lt_of_lt_head h hlt)
      rw [hnone, length_cons]
      simp [SortedSet.size_singleton, SortedSet.not_mem_empty, Nat.add_comm]
    · next heq =>
      have hkey := Std.LawfulEqOrd.eq_of_compare heq
      rw [hkey, lookup_cons_self, length_cons, length_cons, Option.getD_some]
      by_cases hv : value ∈ e.2
      · rw [SortedSet.insert_of_mem hv, if_pos hv, Nat.add_zero]
      · rw [SortedSet.size_insert_of_not_mem hv, if_neg hv]
        omega
    · next hgt =>
      rw [lookup_cons_of_ne (ne_of_compare hgt (by simp)), length_cons, length_cons, ih he.2]
      omega

variable [DecidableEq κ] [DecidableEq ν]

/-- The map with the pair, and whether the pair is new. -/
def insertNew (m : Multimap κ ν) (key : κ) (value : ν) : Multimap κ ν × Bool :=
  let added := !m.contains key value
  ({ entries := place key value m.entries
     count := if added then m.count + 1 else m.count
     ascending := ascending_place m.ascending
     inhabited := inhabited_place m.inhabited
     count_eq := by
      rw [length_listPairs_place m.ascending, ← m.count_eq]
      by_cases h : value ∈ (m.entries.lookup key).getD .empty <;> simp [added, contains, get, h] },
    added)

def insert (m : Multimap κ ν) (key : κ) (value : ν) : Multimap κ ν := (m.insertNew key value).1

def ofList (pairs : List (κ × ν)) : Multimap κ ν :=
  pairs.foldl (fun m p => m.insert p.1 p.2) empty

end Multimap

def Multimap.render (m : Multimap String String) : String :=
  braces (m.entries.map fun e =>
    Text.quoted e.1 ++ ": " ++ braces (e.2.toList.map Text.quoted))
where
  braces (parts : List String) : String := "\x7b" ++ ", ".intercalate parts ++ "\x7d"

end NameResolution

import Mathlib.Data.Finset.Card
import Mathlib.Data.Finset.Dedup
import NameResolution.Multimap.Lemmas
import NameResolution.Proofs.Versions

namespace NameResolution.Multimap

universe u v
variable {κ : Type u} {ν : Type v} [Ord κ] [Ord ν]

theorem nodup_pairs [Std.OrientedOrd κ] [Std.OrientedOrd ν] [Std.LawfulEqOrd ν]
    (m : Multimap κ ν) : m.pairs.Nodup := by
  refine List.pairwise_flatMap.mpr ⟨fun e _ => ?_, m.ascending.imp @fun e f h p hp q hq => ?_⟩
  · exact List.Nodup.map (fun x y h => congrArg (·.2) h) e.2.nodup_toList
  · obtain ⟨x, -, rfl⟩ := List.mem_map.mp hp
    obtain ⟨y, -, rfl⟩ := List.mem_map.mp hq
    intro heq
    exact ne_of_compare h (by simp) (congrArg (·.1) heq)

variable [Std.TransOrd κ] [Std.LawfulEqOrd κ] [Std.TransOrd ν] [Std.LawfulEqOrd ν]
  [DecidableEq κ] [DecidableEq ν]

theorem size_insert_of_not_mem {m : Multimap κ ν} {key : κ} {value : ν} (h : value ∉ m.get key) :
    (m.insert key value).size = m.size + 1 := by
  simp [size, insert, Multimap.insertNew, Multimap.contains, h]

/-- What the map answers is told by a finite relation. -/
structure Represents (m : Multimap κ ν) (relation : Finset (κ × ν)) : Prop where
  mem_get : ∀ key value, value ∈ m.get key ↔ (key, value) ∈ relation
  contains : ∀ key value, m.contains key value = true ↔ (key, value) ∈ relation
  nodup_pairs : m.pairs.Nodup
  mem_pairs : ∀ pair, pair ∈ m.pairs ↔ pair ∈ relation
  nodup_keys : m.keys.Nodup
  mem_keys : ∀ key, key ∈ m.keys ↔ ∃ value, (key, value) ∈ relation
  size : m.size = relation.card
  isEmpty : m.isEmpty = true ↔ relation = ∅
  insertNew : ∀ key value, (m.insertNew key value).2 = true ↔ (key, value) ∉ relation

theorem represents_of_mem_get {m : Multimap κ ν} {relation : Finset (κ × ν)}
    (h : ∀ key value, value ∈ m.get key ↔ (key, value) ∈ relation) : m.Represents relation := by
  have hpairs (pair : κ × ν) : pair ∈ m.pairs ↔ pair ∈ relation := Multimap.mem_pairs.trans (h _ _)
  have hsize : m.size = relation.card := by
    have hfinset : m.pairs.toFinset = relation := by
      ext pair
      rw [List.mem_toFinset]
      exact hpairs pair
    rw [show m.size = m.pairs.length from m.count_eq,
      ← List.toFinset_card_of_nodup m.nodup_pairs, hfinset]
  have hcontains (key : κ) (value : ν) : m.contains key value = true ↔ (key, value) ∈ relation := by
    rw [Multimap.contains, decide_eq_true_iff]
    exact h key value
  exact
    { mem_get := h
      contains := hcontains
      nodup_pairs := m.nodup_pairs
      mem_pairs := hpairs
      nodup_keys := m.nodup_keys
      mem_keys := fun key => by simp [Multimap.mem_keys, h]
      size := hsize
      isEmpty := by rw [Multimap.isEmpty, beq_iff_eq, hsize, Finset.card_eq_zero]
      insertNew := fun key value => by simp [Multimap.insertNew, ← hcontains] }

theorem represents_empty : (empty : Multimap κ ν).Represents ∅ :=
  represents_of_mem_get fun key value => by simp [get_empty, SortedSet.not_mem_empty]

/-- Two maps are equal exactly if their relations are. -/
theorem Represents.eq_iff {m n : Multimap κ ν} {relation relation' : Finset (κ × ν)}
    (hm : m.Represents relation) (hn : n.Represents relation') : m = n ↔ relation = relation' := by
  constructor
  · rintro rfl
    ext pair
    rw [← hm.mem_pairs, hn.mem_pairs]
  · rintro rfl
    apply Multimap.ext
    intro key value
    rw [hm.mem_get, hn.mem_get]

/-- The insertion of a pair, as an operation: a `Revision.change` by it is an insertion in place, a
`Revision.copy` by one pair leaves the old map as it is, and a `Revision.fresh` is `ofList`. -/
def insertPair (m : Multimap κ ν) (pair : κ × ν) : Multimap κ ν := (m.insertNew pair.1 pair.2).1

/-- An insertion adds its pair to the relation. -/
theorem Represents.insertPair {m : Multimap κ ν} {history : List (κ × ν)}
    (h : m.Represents history.toFinset) (pair : κ × ν) :
    (m.insertPair pair).Represents (history ++ [pair]).toFinset := by
  apply represents_of_mem_get
  intro key value
  rw [List.mem_toFinset, List.mem_append, List.mem_singleton, ← List.mem_toFinset, ← h.mem_get,
    Prod.ext_iff]
  exact mem_get_insert.trans or_comm

theorem represents_histories (revisions : List (Revision (κ × ν))) :
    List.Forall₂ (fun m history => m.Represents history.toFinset)
      (Revision.performAll insertPair (empty : Multimap κ ν) revisions)
      (Revision.histories revisions) :=
  Revision.related_performAll
    (R := fun (m : Multimap κ ν) (history : List (κ × ν)) => m.Represents history.toFinset)
    (fun _ _ pair h => h.insertPair pair) represents_empty revisions

/-- Each version is the set of pairs that were added along its own history: it answers as that set
does, it is equal to another version exactly if their sets are equal, and a revision of one version
leaves the others as they are. -/
theorem versions_represent (revisions : List (Revision (κ × ν))) :
    let versions := Revision.performAll insertPair (empty : Multimap κ ν) revisions
    let histories := Revision.histories revisions
    List.Forall₂ (fun m history => m.Represents history.toFinset) versions histories ∧
      (∀ v ∈ versions.zip histories, ∀ w ∈ versions.zip histories,
        v.1 = w.1 ↔ v.2.toFinset = w.2.toFinset) ∧
      ∀ (revision : Revision (κ × ν)) (version : Nat), version < versions.length →
        revision.changed? ≠ some version →
          (revision.perform insertPair empty versions)[version]? = versions[version]? := by
  have hrepresents := represents_histories revisions
  refine ⟨hrepresents, fun v hv w hw => ?_, fun revision version hversion hchanged => ?_⟩
  · exact (List.forall₂_zip hrepresents hv).eq_iff (List.forall₂_zip hrepresents hw)
  · exact Revision.getElem?_perform_of_ne hversion hchanged

/-- A map, a copy of it with a pair added twice, and a later insertion into the first. -/
theorem versions_represent_copy :
    let versions := Revision.performAll insertPair (empty : Multimap String String)
      [.fresh [("a", "x")], .copy 0 [("a", "y"), ("a", "y")], .change 0 ("b", "x")]
    versions.map size = [2, 2] ∧
      List.Forall₂ (fun m history => m.Represents history.toFinset) versions
        [[("a", "x"), ("b", "x")], [("a", "x"), ("a", "y"), ("a", "y")]] :=
  ⟨by decide +kernel, (versions_represent _).1⟩

end NameResolution.Multimap

import Mathlib.Order.WellFounded
import NameResolution.Unifier.Compression

namespace NameResolution.Unifier

variable {u : Unifier} {s t : Term} {key : Key}

theorem walk_unbound (u : Unifier) (t : Term) : u.next? (u.walk t) = none := by
  induction t using u.induction with
  | bound t s ht ih => rwa [walk_of_bound ht]
  | unbound t ht => rwa [walk_of_unbound ht]

theorem key?_of_bound (h : u.next? t = some s) : ∃ key, t = key.term ∧ u.lookup key = some s := by
  obtain ⟨key, hkey, hlookup⟩ := Option.bind_eq_some_iff.mp h
  exact ⟨key, Term.key?_eq_some_iff.mp hkey, hlookup⟩

theorem chain_cons (h : u.lookup key = some s) : u.chain key.term = key :: u.chain s := by
  rw [chain_of_bound (next?_term.trans h), Term.key?_eq_some_iff.mpr rfl]
  rfl

/-- Every key on the way from a term is bound, and has the representative of the term. -/
theorem of_mem_chain (h : key ∈ u.chain t) :
    (u.lookup key).isSome ∧ u.walk key.term = u.walk t := by
  induction t using u.induction with
  | bound t s ht ih =>
    obtain ⟨first, rfl, hfirst⟩ := key?_of_bound ht
    rw [chain_cons hfirst, List.mem_cons] at h
    rcases h with rfl | h
    · rw [hfirst]
      exact ⟨rfl, rfl⟩
    · rw [walk_of_bound ht]
      exact ih h
  | unbound t ht =>
    rw [chain_of_unbound ht] at h
    cases h

/-- A key on the way from a term lies below everything that the term is below. -/
theorem below_of_mem_chain (h : key ∈ u.chain s) (ht : u.next? t = some s) :
    Relation.TransGen u.bindings.Below key.term t := by
  induction s using u.induction generalizing t with
  | bound s r hs ih =>
    obtain ⟨first, rfl, hfirst⟩ := key?_of_bound hs
    rw [chain_cons hfirst, List.mem_cons] at h
    rcases h with rfl | h
    · exact .single (.bound ht)
    · exact (ih h hs).tail (.bound ht)
  | unbound s hs =>
    rw [chain_of_unbound hs] at h
    cases h

theorem nodup_chain (u : Unifier) (t : Term) : (u.chain t).Nodup := by
  induction t using u.induction with
  | bound t s ht ih =>
    obtain ⟨first, rfl, hfirst⟩ := key?_of_bound ht
    rw [chain_cons hfirst]
    refine List.nodup_cons.mpr ⟨fun hmem => ?_, ih⟩
    exact u.acyclic.transGen.irrefl.irrefl _ (below_of_mem_chain hmem ht)
  | unbound t ht =>
    rw [chain_of_unbound ht]
    exact .nil

theorem mem_keys_of_bound (h : (u.lookup key).isSome) : key ∈ u.keys := by
  by_contra hmem
  have hnone : u.lookup key = none := by
    refine List.lookup_eq_none_iff.mpr fun e he => ?_
    have hne : key ≠ e.1 := fun heq => hmem (heq ▸ List.mem_map_of_mem he)
    simpa using hne
  rw [hnone] at h
  cases h

theorem length_chain_le (u : Unifier) (t : Term) : (u.chain t).length ≤ u.bindings.length := by
  have hsubset : u.chain t ⊆ u.keys := fun key hkey => mem_keys_of_bound (of_mem_chain hkey).1
  have hle := (u.nodup_chain t).length_le_of_subset hsubset
  rwa [keys, List.length_map] at hle

theorem next?_shorten_of_ne (h : t ≠ key.term) : (u.shorten key).next? t = u.next? t :=
  next?_replaceValue_of_ne h

theorem next?_shorten_of_unbound (h : u.next? t = none) : (u.shorten key).next? t = none := by
  by_cases ht : t = key.term
  · subst ht
    rw [next?_term] at h ⊢
    exact lookup_replaceValue_eq_none h
  · rwa [next?_shorten_of_ne ht]

theorem next?_shorten_self (h : u.next? key.term = some s) :
    (u.shorten key).next? key.term = some (u.walk key.term) := by
  rw [next?_term] at h ⊢
  exact lookup_replaceValue_self h

theorem walk_shorten (u : Unifier) (key : Key) (t : Term) :
    (u.shorten key).walk t = u.walk t := by
  induction t using u.induction with
  | bound t s ht ih =>
    by_cases hkey : t = key.term
    · subst hkey
      rw [walk_of_bound (next?_shorten_self ht)]
      exact walk_of_unbound (next?_shorten_of_unbound (u.walk_unbound _))
    · have hs : (u.shorten key).next? t = some s := (next?_shorten_of_ne hkey).trans ht
      rw [walk_of_bound hs, walk_of_bound ht, ih]
  | unbound t ht => rw [walk_of_unbound ht, walk_of_unbound (next?_shorten_of_unbound ht)]

theorem keys_foldl {α : Type} {f : Unifier → α → Unifier} (hf : ∀ v a, (f v a).keys = v.keys)
    (l : List α) (u : Unifier) : (l.foldl f u).keys = u.keys := by
  induction l generalizing u with
  | nil => rfl
  | cons a l ih => exact (ih (f u a)).trans (hf u a)

theorem keys_shorten (u : Unifier) (key : Key) : (u.shorten key).keys = u.keys := keys_replaceValue

theorem keys_find (u : Unifier) (t : Term) : (u.find t).unifier.keys = u.keys :=
  keys_foldl keys_shorten _ u

def findEach (u : Unifier) (keys : List Key) : Unifier :=
  keys.foldl (fun v key => (v.find key.term).unifier) u

/-- The same keys are bound, in the same order. -/
theorem keys_findEach (u : Unifier) (keys : List Key) : (u.findEach keys).keys = u.keys := by
  unfold findEach
  exact keys_foldl (fun v key => v.keys_find key.term) keys u

theorem keys_findAll (u : Unifier) : u.findAll.keys = u.keys := u.keys_findEach u.keys

/-- Keys with one representative may be bound to it in any order. -/
theorem bindings_foldl_shorten {representative : Term} {keys : List Key}
    (h : ∀ key ∈ keys, u.walk key.term = representative) :
    (keys.foldl shorten u).bindings =
      keys.foldl (fun b key => replaceValue b key representative) u.bindings := by
  induction keys generalizing u with
  | nil => rfl
  | cons key keys ih =>
    obtain ⟨hkey, hkeys⟩ := List.forall_mem_cons.mp h
    have hnext : ∀ key' ∈ keys, (u.shorten key).walk key'.term = representative := by
      intro key' hkey'
      rw [walk_shorten]
      exact hkeys key' hkey'
    have hbindings : (u.shorten key).bindings = replaceValue u.bindings key representative :=
      congrArg (replaceValue u.bindings key) hkey
    rw [List.foldl_cons, List.foldl_cons, ih hnext, hbindings]

end NameResolution.Unifier

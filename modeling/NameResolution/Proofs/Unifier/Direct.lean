import NameResolution.Proofs.Unifier.Find
import NameResolution.Proofs.Unifier.History

namespace NameResolution.Unifier

variable {u v : Unifier} {key : Key} {keys : List Key}

theorem eq_of_bindings_eq (h : u.bindings = v.bindings) : u = v := by
  cases u
  cases v
  cases h
  rfl

def BindsDirectly (u : Unifier) (key : Key) : Prop :=
  ∀ s, u.lookup key = some s → s = u.walk key.term

section Lookups

/-- A key on the way of a term that is looked up is bound anew, and directly. -/
theorem bindsDirectly_find_of_mem_chain {t : Term} (h : key ∈ u.chain t) :
    (u.find t).unifier.BindsDirectly key := by
  intro s hs
  rw [lookup_find, if_pos h, Option.some.injEq] at hs
  rw [← hs, (u.agree_find t).walk_eq, (of_mem_chain h).2]

theorem BindsDirectly.find (h : u.BindsDirectly key) (t : Term) :
    (u.find t).unifier.BindsDirectly key := by
  by_cases hmem : key ∈ u.chain t
  · exact bindsDirectly_find_of_mem_chain hmem
  · intro s hs
    rw [lookup_find, if_neg hmem] at hs
    rw [(u.agree_find t).walk_eq]
    exact h s hs

theorem bindsDirectly_find_self (u : Unifier) (key : Key) :
    (u.find key.term).unifier.BindsDirectly key := by
  cases hkey : u.lookup key with
  | none =>
    have hdirect : u.BindsDirectly key := fun s hs => nomatch hkey.symm.trans hs
    exact hdirect.find key.term
  | some s => exact bindsDirectly_find_of_mem_chain (mem_chain_self hkey)

theorem bindsDirectly_findEach (h : key ∈ keys ∨ u.BindsDirectly key) :
    (u.findEach keys).BindsDirectly key := by
  induction keys generalizing u with
  | nil => exact h.resolve_left List.not_mem_nil
  | cons first keys ih =>
    apply ih (u := (u.find first.term).unifier)
    rcases h with h | h
    · rcases List.mem_cons.mp h with rfl | h
      · exact .inr (u.bindsDirectly_find_self key)
      · exact .inl h
    · exact .inr (h.find first.term)

end Lookups

section Direct

/-- All keys are bound directly to their representatives. -/
def Direct (u : Unifier) : Prop := ∀ key, u.BindsDirectly key

theorem direct_findEach (h : u.keys ⊆ keys) : (u.findEach keys).Direct := by
  intro key s hs
  have hmem : key ∈ u.keys := by
    rw [← u.keys_findEach keys]
    exact mem_keys_of_bound (Option.isSome_iff_exists.mpr ⟨s, hs⟩)
  exact bindsDirectly_findEach (.inl (h hmem)) s hs

/-- Where all keys are bound directly, the keys and representatives tell the bindings. -/
theorem Direct.bindings_eq (h : u.Direct) :
    u.bindings = u.keys.map fun key => (key, u.walk key.term) := by
  have hbinding : ∀ e ∈ u.bindings, (e.1, u.walk e.1.term) = e := by
    intro e he
    have hlookup : u.lookup e.1 = some e.2 := (lookup_eq_some_iff_mem u.nodup).mpr he
    rw [← h e.1 e.2 hlookup]
  rw [keys, List.map_map]
  exact ((List.map_congr_left hbinding).trans (List.map_id' _)).symm

theorem Direct.stale_eq_nil (h : u.Direct) (t : Term) : u.stale t = [] := by
  apply List.eq_nil_iff_forall_not_mem.mpr
  intro key hkey
  obtain ⟨hchain, hne⟩ := mem_stale_iff.mp hkey
  obtain ⟨hbound, hwalk⟩ := of_mem_chain hchain
  obtain ⟨s, hs⟩ := Option.isSome_iff_exists.mp hbound
  rw [hs, h key s hs, hwalk] at hne
  exact hne rfl

theorem Direct.find_eq_self (h : u.Direct) (t : Term) : (u.find t).unifier = u :=
  unifier_find_of_stale_eq_nil (h.stale_eq_nil t)

theorem Direct.findEach_eq_self (h : u.Direct) (keys : List Key) : u.findEach keys = u := by
  induction keys with
  | nil => rfl
  | cons key keys ih =>
    have hfirst : u.findEach (key :: keys) = (u.find key.term).unifier.findEach keys := rfl
    rw [hfirst, h.find_eq_self, ih]

end Direct

/-- The bindings after all keys have been looked up, in any order. -/
theorem bindings_findEach (h : u.keys ⊆ keys) :
    (u.findEach keys).bindings = u.keys.map fun key => (key, u.walk key.term) := by
  rw [(direct_findEach h).bindings_eq, keys_findEach]
  exact List.map_congr_left fun key _ => by rw [(u.agree_findEach keys).walk_eq]

/-- To look all keys up, in whatever order, binds the same keys, each directly to its
representative. So all orders lead to one unifier, in which no lookup changes a binding and which
stays the same when all keys are looked up again. -/
theorem findEach_normalForm (h : keys.Perm u.keys) :
    let v := u.findEach keys
    v.keys = u.keys ∧ (∀ key ∈ u.keys, v.lookup key = some (u.walk key.term)) ∧
      u.findAll = v ∧ (∀ keys' : List Key, keys'.Perm u.keys → u.findEach keys' = v) ∧
      (∀ t, (v.find t).compressed = 0 ∧ (v.find t).unifier = v) ∧
      v.findAll = v ∧ ∀ keys' : List Key, keys'.Perm v.keys → v.findEach keys' = v := by
  intro v
  have hbindings : v.bindings = u.keys.map fun key => (key, u.walk key.term) :=
    bindings_findEach h.symm.subset
  have hdirect : v.Direct := direct_findEach h.symm.subset
  have horder : ∀ keys' : List Key, keys'.Perm u.keys → u.findEach keys' = v := by
    intro keys' h'
    exact eq_of_bindings_eq ((bindings_findEach h'.symm.subset).trans hbindings.symm)
  refine ⟨u.keys_findEach keys, fun key hkey => ?_, horder u.keys (.refl _), horder, fun t => ?_,
    hdirect.findEach_eq_self v.keys, fun keys' _ => hdirect.findEach_eq_self keys'⟩
  · apply (lookup_eq_some_iff_mem v.nodup).mpr
    rw [hbindings]
    exact List.mem_map_of_mem hkey
  · exact ⟨congrArg List.length (hdirect.stale_eq_nil t), hdirect.find_eq_self t⟩

/-- An operator term, its argument and another variable that are bound one to the next, looked up
from the middle of the chain. -/
theorem findEach_normalForm_chain :
    let x : Variable := ⟨none, "x"⟩
    let y : Variable := ⟨none, "y"⟩
    let a : Term := .application "a" []
    let keys : List Key := [.var x, .operator "f" [.var x], .var y]
    ∃ u : Unifier,
      u.bindings = [(.operator "f" [.var x], .var x), (.var x, .var y), (.var y, a)] ∧
        u.bindings.Reached ∧ keys.Perm u.keys ∧
        (∀ key ∈ u.keys, (u.findEach keys).lookup key = some a) ∧ u.findAll = u.findEach keys ∧
        ∀ t, ((u.findEach keys).find t).compressed = 0 := by
  intro x y a keys
  obtain ⟨u, hu⟩ := reached_chained.exists_unifier
  have hnext (t : Term) : u.next? t = chained.next? t := congrArg (Bindings.next? · t) hu
  have hy : u.walk (.var y) = a := by
    rw [walk_of_bound ((hnext _).trans rfl), walk_of_unbound ((hnext _).trans rfl)]
  have hx : u.walk (.var x) = a := (walk_of_bound ((hnext _).trans rfl)).trans hy
  have hfx : u.walk (.operator "f" [.var x]) = a := (walk_of_bound ((hnext _).trans rfl)).trans hx
  have hkeys : u.keys = [.operator "f" [.var x], .var x, .var y] := by
    rw [Unifier.keys, hu]
    rfl
  have hperm : keys.Perm u.keys := hkeys ▸ .swap _ _ _
  obtain ⟨-, hlookup, hall, -, hfind, -⟩ := findEach_normalForm hperm
  refine ⟨u, hu, hu ▸ reached_chained, hperm, fun key hkey => ?_, hall, fun t => (hfind t).1⟩
  rw [hlookup key hkey]
  rw [hkeys] at hkey
  simp only [List.mem_cons, List.not_mem_nil, or_false] at hkey
  rcases hkey with rfl | rfl | rfl
  · exact congrArg some hfx
  · exact congrArg some hx
  · exact congrArg some hy

end NameResolution.Unifier

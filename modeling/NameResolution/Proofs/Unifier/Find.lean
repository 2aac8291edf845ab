import Mathlib.Data.List.Nodup
import NameResolution.Proofs.Unifier.Idempotence
import NameResolution.Proofs.Unifier.Agreement
import NameResolution.Proofs.Unifier.History

namespace NameResolution.Unifier

variable {u v : Unifier} {s t : Term} {key : Key}

section Lookup

/-- The keys on the way of a term are the bound keys that its bindings lead to. -/
theorem mem_chain_iff : key ∈ u.chain t ↔
    (u.lookup key).isSome ∧ Relation.ReflTransGen (fun s r => u.next? s = some r) t key.term := by
  induction t using u.induction with
  | bound t s ht ih =>
    obtain ⟨first, rfl, hfirst⟩ := key?_of_bound ht
    rw [chain_cons hfirst, List.mem_cons, ih]
    constructor
    · rintro (rfl | ⟨hbound, hleads⟩)
      · exact ⟨by rw [hfirst]; rfl, .refl⟩
      · exact ⟨hbound, hleads.head ht⟩
    · rintro ⟨hbound, hleads⟩
      rcases hleads.cases_head with heq | ⟨r, hr, hrest⟩
      · have hkey : key.term.key? = some first := heq ▸ Term.key?_eq_some_iff.mpr rfl
        exact .inl (Option.some.inj ((Term.key?_eq_some_iff.mpr rfl).symm.trans hkey))
      · cases ht.symm.trans hr
        exact .inr ⟨hbound, hrest⟩
  | unbound t ht =>
    rw [chain_of_unbound ht]
    refine iff_of_false List.not_mem_nil ?_
    rintro ⟨hbound, hleads⟩
    rcases hleads.cases_head with rfl | ⟨r, hr, -⟩
    · rw [← next?_term, ht] at hbound
      cases hbound
    · cases ht.symm.trans hr

theorem lookup_shorten (u : Unifier) (key key' : Key) :
    (u.shorten key).lookup key' =
      if key' = key ∧ (u.lookup key).isSome then some (u.walk key.term) else u.lookup key' := by
  by_cases hkey : key' = key
  · subst hkey
    rw [← next?_term (u := u.shorten key')]
    cases hlookup : u.lookup key' with
    | none => simpa using next?_shorten_of_unbound (next?_term.trans hlookup)
    | some s => simpa using next?_shorten_self (next?_term.trans hlookup)
  · rw [if_neg fun h => hkey h.1]
    exact lookup_replaceValue_of_ne hkey

/-- Keys with one representative are all bound to it, and no other key is bound anew. -/
theorem lookup_foldl_shorten {representative : Term} {keys : List Key}
    (h : ∀ key ∈ keys, (u.lookup key).isSome ∧ u.walk key.term = representative) (key' : Key) :
    (keys.foldl shorten u).lookup key' =
      if key' ∈ keys then some representative else u.lookup key' := by
  induction keys generalizing u with
  | nil => rfl
  | cons key keys ih =>
    obtain ⟨⟨hbound, hwalk⟩, hkeys⟩ := List.forall_mem_cons.mp h
    have hkeys' : ∀ key' ∈ keys, ((u.shorten key).lookup key').isSome ∧
        (u.shorten key).walk key'.term = representative := by
      intro key' hkey'
      rw [lookup_shorten, walk_shorten]
      refine ⟨?_, (hkeys key' hkey').2⟩
      split
      · rfl
      · exact (hkeys key' hkey').1
    rw [List.foldl_cons, ih hkeys', lookup_shorten, hwalk]
    by_cases hmem : key' ∈ keys <;> by_cases heq : key' = key <;> simp [hmem, heq, hbound]

def stale (u : Unifier) (t : Term) : List Key :=
  (u.chain t).filter fun key => u.lookup key ≠ some (u.walk t)

theorem mem_stale_iff : key ∈ u.stale t ↔ key ∈ u.chain t ∧ u.lookup key ≠ some (u.walk t) := by
  simp [stale]

theorem mem_keys_of_stale (h : key ∈ u.stale t) : key ∈ u.keys :=
  mem_keys_of_bound (of_mem_chain (mem_stale_iff.mp h).1).1

/-- After a lookup the keys on the way are bound to the representative, and all others as before. -/
theorem lookup_find (u : Unifier) (t : Term) (key : Key) :
    (u.find t).unifier.lookup key =
      if key ∈ u.chain t then some (u.walk t) else u.lookup key := by
  have hstale : ∀ key ∈ u.stale t, (u.lookup key).isSome ∧ u.walk key.term = u.walk t :=
    fun key hkey => of_mem_chain (mem_stale_iff.mp hkey).1
  have hfind : (u.find t).unifier.lookup key =
      if key ∈ u.stale t then some (u.walk t) else u.lookup key := lookup_foldl_shorten hstale key
  rw [hfind]
  by_cases hchain : key ∈ u.chain t <;> by_cases hlookup : u.lookup key = some (u.walk t) <;>
    simp [mem_stale_iff, hchain, hlookup]

end Lookup

section Count

theorem lookup_find_ne_iff :
    (u.find t).unifier.lookup key ≠ u.lookup key ↔ key ∈ u.stale t := by
  rw [lookup_find, mem_stale_iff]
  by_cases hchain : key ∈ u.chain t
  · simp [hchain, eq_comm]
  · simp [hchain]

/-- The stale keys are the keys whose bindings a lookup changes. -/
theorem stale_perm (u : Unifier) (t : Term) :
    (u.stale t).Perm
      (u.keys.filter fun key => (u.find t).unifier.lookup key ≠ u.lookup key) := by
  have hkeys : u.keys.Nodup := u.nodup
  apply (List.perm_ext_iff_of_nodup ((u.nodup_chain t).filter _) (hkeys.filter _)).mpr
  intro key
  change key ∈ u.stale t ↔ _
  rw [List.mem_filter, decide_eq_true_iff, lookup_find_ne_iff]
  exact ⟨fun hkey => ⟨mem_keys_of_stale hkey, hkey⟩, fun h => h.2⟩

theorem compressed_find (u : Unifier) (t : Term) :
    (u.find t).compressed =
      (u.keys.filter fun key => (u.find t).unifier.lookup key ≠ u.lookup key).length :=
  (u.stale_perm t).length_eq

theorem unifier_find_of_stale_eq_nil (h : u.stale t = []) : (u.find t).unifier = u :=
  congrArg (List.foldl shorten u) h

theorem beq_iff : (v == u) = true ↔ ∀ key, v.lookup key = u.lookup key := by
  have hunfold : (v == u) = true ↔
      (∀ key ∈ v.keys, v.lookup key = u.lookup key) ∧
        ∀ key ∈ u.keys, v.lookup key = u.lookup key := by
    simp [BEq.beq]
  rw [hunfold]
  refine ⟨fun ⟨hv, hu⟩ key => ?_, fun h => ⟨fun key _ => h key, fun key _ => h key⟩⟩
  by_cases hkey : (v.lookup key).isSome
  · exact hv key (mem_keys_of_bound hkey)
  by_cases hkey' : (u.lookup key).isSome
  · exact hu key (mem_keys_of_bound hkey')
  · rw [Option.not_isSome_iff_eq_none.mp hkey, Option.not_isSome_iff_eq_none.mp hkey']

theorem compressed_find_eq_zero_iff :
    (u.find t).compressed = 0 ↔ ((u.find t).unifier == u) = true := by
  rw [compressed_find, beq_iff, List.length_eq_zero_iff, List.filter_eq_nil_iff]
  simp only [decide_eq_true_iff, not_not]
  refine ⟨fun h key => ?_, fun h key _ => h key⟩
  by_contra hne
  exact hne (h key (mem_keys_of_stale (lookup_find_ne_iff.mp hne)))

end Count

section Again

theorem mem_chain_self (h : u.lookup key = some s) : key ∈ u.chain key.term := by
  rw [chain_cons h]
  exact .head _

/-- After a lookup only the key of the term itself is on the way. -/
theorem chain_find (h : u.lookup key = some s) :
    (u.find key.term).unifier.chain key.term = [key] := by
  have hlookup : (u.find key.term).unifier.lookup key = some (u.walk key.term) := by
    rw [lookup_find, if_pos (mem_chain_self h)]
  have hend : (u.find key.term).unifier.next? (u.walk key.term) = none :=
    ((u.agree_find _).unbound_iff _).mpr (u.walk_unbound _)
  rw [chain_cons hlookup, chain_of_unbound hend]

theorem stale_find (u : Unifier) (t : Term) : (u.find t).unifier.stale t = [] := by
  rw [stale, (u.agree_find t).walk_eq]
  cases ht : u.next? t with
  | none =>
    rw [chain_of_unbound (((u.agree_find t).unbound_iff t).mpr ht)]
    rfl
  | some s =>
    obtain ⟨key, rfl, hkey⟩ := key?_of_bound ht
    rw [chain_find hkey]
    simp [lookup_find, mem_chain_self hkey]

end Again

theorem leads_walk (u : Unifier) (t : Term) :
    Relation.ReflTransGen (fun s r => u.next? s = some r) t (u.walk t) := by
  induction t using u.induction with
  | bound t s ht ih =>
    rw [walk_of_bound ht]
    exact ih.head ht
  | unbound t ht => rw [walk_of_unbound ht]

/-- A lookup finds the end of the bindings of the term. The unifier that it returns binds the same
keys and has the same representatives and substituted terms: the keys that the bindings of the term
lead over are bound to its representative there, and the others as before. The keys whose bindings
differ are counted, and so there are none exactly if the unifiers are equal. To look the term up again
finds the same and changes nothing. -/
theorem find_compresses (u : Unifier) (t : Term) :
    let found := u.find t
    Relation.ReflTransGen (fun s r => u.next? s = some r) t found.representative ∧
      u.next? found.representative = none ∧
      found.unifier.keys = u.keys ∧
      (∀ s, found.unifier.walk s = u.walk s ∧ found.unifier.substitute s = u.substitute s) ∧
      (∀ key, key ∈ u.chain t ↔ (u.lookup key).isSome ∧
        Relation.ReflTransGen (fun s r => u.next? s = some r) t key.term) ∧
      (∀ key ∈ u.chain t, found.unifier.lookup key = some found.representative) ∧
      (∀ key ∉ u.chain t, found.unifier.lookup key = u.lookup key) ∧
      found.compressed =
        (u.keys.filter fun key => found.unifier.lookup key ≠ u.lookup key).length ∧
      (found.compressed = 0 ↔ (found.unifier == u) = true) ∧
      let again := found.unifier.find t
      again.representative = found.representative ∧ again.compressed = 0 ∧
        again.unifier = found.unifier := by
  intro found
  have hagree : Agree found.unifier u := u.agree_find t
  refine ⟨u.leads_walk t, u.walk_unbound t, u.keys_find t, fun s => ?_, fun key => mem_chain_iff,
    fun key hkey => ?_, fun key hkey => ?_, u.compressed_find t, compressed_find_eq_zero_iff, ?_⟩
  · exact ⟨hagree.walk_eq s, hagree.substitute_eq s⟩
  · exact (u.lookup_find t key).trans (if_pos hkey)
  · exact (u.lookup_find t key).trans (if_neg hkey)
  · refine ⟨hagree.walk_eq t, ?_, unifier_find_of_stale_eq_nil (u.stale_find t)⟩
    exact congrArg List.length (u.stale_find t)

/-- An operator term, its argument and another variable, each bound to the next one, and the last to
an application. -/
def chained : Bindings :=
  [(.operator "f" [.var ⟨none, "x"⟩], .var ⟨none, "x"⟩), (.var ⟨none, "x"⟩, .var ⟨none, "y"⟩),
    (.var ⟨none, "y"⟩, .application "a" [])]

theorem reached_chained : chained.Reached := by
  have hfirst : Bindings.Reached (chained.take 1) :=
    Bindings.Reached.empty.append (.operator "f" [.var ⟨none, "x"⟩]) rfl rfl (by decide) rfl
  have hsecond : Bindings.Reached (chained.take 2) :=
    hfirst.append (.var ⟨none, "x"⟩) (t := .var ⟨none, "y"⟩) rfl rfl (by decide) rfl
  exact hsecond.append (.var ⟨none, "y"⟩) (t := .application "a" []) rfl rfl (by decide) rfl

/-- A lookup from the first of three keys, two of which are bound anew. -/
theorem find_compresses_chained :
    let x : Key := .var ⟨none, "x"⟩
    let y : Key := .var ⟨none, "y"⟩
    let f : Key := .operator "f" [x.term]
    let a : Term := .application "a" []
    ∃ u : Unifier, u.bindings = chained ∧ u.chain f.term = [f, x, y] ∧
      (u.find f.term).representative = a ∧
        (∀ key ∈ [f, x, y], (u.find f.term).unifier.lookup key = some a) ∧
          (u.find f.term).compressed = 2 := by
  intro x y f a
  obtain ⟨u, hu⟩ := reached_chained.exists_unifier
  have hlookup (key : Key) : u.lookup key = chained.lookup key := congrArg (List.lookup key) hu
  have hf : u.lookup f = some x.term := (hlookup f).trans rfl
  have hx : u.lookup x = some y.term := (hlookup x).trans rfl
  have hy : u.lookup y = some a := (hlookup y).trans rfl
  have ha : u.next? a = none := rfl
  have hchain : u.chain f.term = [f, x, y] := by
    rw [chain_cons hf, chain_cons hx, chain_cons hy, chain_of_unbound ha]
  have hwalk : u.walk f.term = a := by
    rw [walk_of_bound (next?_term.trans hf), walk_of_bound (next?_term.trans hx),
      walk_of_bound (next?_term.trans hy), walk_of_unbound ha]
  obtain ⟨-, -, -, -, -, hbound, -, hcount, -⟩ := find_compresses u f.term
  rw [hchain] at hbound
  have hlookups : ∀ key ∈ [f, x, y], (u.find f.term).unifier.lookup key = some a :=
    fun key hkey => (hbound key hkey).trans (congrArg some hwalk)
  have hkeys : u.keys = [f, x, y] := by
    rw [keys, hu]
    rfl
  refine ⟨u, hu, hchain, hwalk, hlookups, ?_⟩
  -- the last of the three keys is bound to the representative already
  rw [hcount, hkeys]
  have hchanged : ∀ key ∈ [f, x, y], decide ((u.find f.term).unifier.lookup key ≠ u.lookup key) =
      decide (some a ≠ chained.lookup key) := by
    intro key hkey
    rw [hlookups key hkey, hlookup key]
  rw [List.filter_congr hchanged]
  decide

end NameResolution.Unifier

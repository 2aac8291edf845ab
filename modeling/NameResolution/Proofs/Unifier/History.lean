import NameResolution.Proofs.ExternalTerm.Writing
import NameResolution.Proofs.Unifier.Compression
import NameResolution.Proofs.Unifier.Parts

namespace NameResolution

namespace Bindings

/-- Binds a key to a term, unless the loops over the bindings find a reason not to. -/
def extend (b : Bindings) (key : Key) (t : Term) : Part (Except Unifier.BindError Bindings) :=
  if (b.lookup key).isSome then Part.some (.error (.alreadyBound key)) else
  (b.follow t).bind fun representative =>
    if representative = key.term then Part.some (.ok b) else
    (b.search key [t]).map fun found =>
      if found then .error (.cyclic key) else .ok (b ++ [(key, t)])

def compress (b : Bindings) (t : Term) : Part Bindings :=
  (b.trace ([], t)).map fun (chain, representative) =>
    (chain.filter fun key => b.lookup key ≠ some representative).foldl
      (fun c key => replaceValue c key representative) b

def compressEach (b : Bindings) : List Key → Part Bindings
  | [] => Part.some b
  | key :: keys => (b.compress key.term).bind fun c => c.compressEach keys

/-- The bindings that come about from none by binding keys and by looking up single terms or, in any
order, all keys. -/
inductive Reached : Bindings → Prop
  | empty : Reached []
  | extend {b c : Bindings} {key : Key} {t : Term} (h : Reached b) (hc : .ok c ∈ b.extend key t) :
    Reached c
  | compress {b c : Bindings} {t : Term} (h : Reached b) (hc : c ∈ b.compress t) : Reached c
  | compressAll {b c : Bindings} {keys : List Key} (h : Reached b)
    (hkeys : keys.Perm (b.map (·.1))) (hc : c ∈ b.compressEach keys) : Reached c

end Bindings

namespace Unifier

theorem extend_eq (u : Unifier) (key : Key) (t : Term) :
    u.bindings.extend key t = Part.some ((u.bind key t).map (·.bindings)) := by
  unfold Bindings.extend
  by_cases hbound : (u.bindings.lookup key).isSome
  · rw [if_pos hbound, bind_of_bound hbound]
    rfl
  · have hkey : u.lookup key = none := Option.not_isSome_iff_eq_none.mp hbound
    rw [if_neg hbound, follow_eq, Part.bind_some]
    by_cases ht : u.walk t = key.term
    · rw [if_pos ht, bind_of_represented hkey ht]
      rfl
    · rw [if_neg ht, search_singleton, Part.map_some]
      cases hoccurs : u.occurs key t with
      | true =>
        rw [bind_of_occurs hkey ht hoccurs]
        rfl
      | false =>
        obtain ⟨v, hv, hbindings⟩ := bind_of_not_occurs hkey ht hoccurs
        rw [hv, ← hbindings]
        rfl

theorem compress_eq (u : Unifier) (t : Term) :
    u.bindings.compress t = Part.some (u.find t).unifier.bindings := by
  have hrepresentative : ∀ key ∈ (u.chain t).filter fun key => u.lookup key ≠ some (u.walk t),
      u.walk key.term = u.walk t :=
    fun key hkey => (of_mem_chain (List.mem_filter.mp hkey).1).2
  unfold Bindings.compress
  rw [trace_eq, Part.map_some]
  exact congrArg Part.some (bindings_foldl_shorten hrepresentative).symm

theorem compressEach_eq (u : Unifier) (keys : List Key) :
    u.bindings.compressEach keys = Part.some (u.findEach keys).bindings := by
  induction keys generalizing u with
  | nil => rfl
  | cons key keys ih =>
    rw [Bindings.compressEach, compress_eq, Part.bind_some, ih]
    rfl

theorem reached_bind {u v : Unifier} {key : Key} {t : Term} (h : u.bindings.Reached)
    (hbind : u.bind key t = .ok v) : v.bindings.Reached := by
  apply h.extend
  rw [extend_eq, hbind]
  exact Part.mem_some _

theorem reached_find {u : Unifier} (h : u.bindings.Reached) (t : Term) :
    (u.find t).unifier.bindings.Reached := by
  apply h.compress
  rw [compress_eq]
  exact Part.mem_some _

theorem reached_findAll {u : Unifier} (h : u.bindings.Reached) : u.findAll.bindings.Reached := by
  apply h.compressAll (.refl u.keys)
  rw [compressEach_eq]
  exact Part.mem_some _

end Unifier

namespace Bindings

/-- Every step leads from the bindings of a unifier to the bindings of a unifier. -/
theorem Reached.exists_unifier {b : Bindings} (h : b.Reached) : ∃ u : Unifier, u.bindings = b := by
  induction h with
  | empty => exact ⟨.empty, rfl⟩
  | @extend _ _ key t _ hc ih =>
    obtain ⟨u, rfl⟩ := ih
    rw [Unifier.extend_eq, Part.mem_some_iff] at hc
    cases hv : u.bind key t with
    | error x =>
      rw [hv] at hc
      cases hc
    | ok v =>
      rw [hv] at hc
      cases hc
      exact ⟨v, rfl⟩
  | compress _ hc ih =>
    obtain ⟨u, rfl⟩ := ih
    rw [Unifier.compress_eq, Part.mem_some_iff] at hc
    exact ⟨_, hc.symm⟩
  | compressAll _ _ hc ih =>
    obtain ⟨u, rfl⟩ := ih
    rw [Unifier.compressEach_eq, Part.mem_some_iff] at hc
    exact ⟨_, hc.symm⟩

/-- A key that is not bound can be bound to a term that is not bound and has no parts. -/
theorem Reached.append {b : Bindings} {t : Term} (h : b.Reached) (key : Key)
    (hkey : b.lookup key = none) (ht : b.next? t = none) (hne : t ≠ key.term)
    (hchildren : t.children = []) : Reached (b ++ [(key, t)]) := by
  obtain ⟨u, rfl⟩ := h.exists_unifier
  obtain ⟨v, hv, hbindings⟩ := Unifier.bind_of_childless hkey ht hne hchildren
  rw [← hbindings]
  exact Unifier.reached_bind h hv

/-- Bindings that have come about lead down. All loops over them end, with the results of the
functions that recurse along the bindings of a unifier, and a term is followed to its representative
in no more steps than there are bindings. -/
theorem Reached.loops_end {b : Bindings} (h : b.Reached) :
    WellFounded b.Below ∧
      ∃ u : Unifier, u.bindings = b ∧ ∀ t : Term,
        b.follow t = Part.some (u.walk t) ∧ b.next? (u.walk t) = none ∧
        (∃ chain, b.trace ([], t) = Part.some (chain, u.walk t) ∧ chain.length ≤ b.length) ∧
        (∀ key, b.search key [t] = Part.some (u.occurs key t)) ∧
        b.rebuild ([.visit t], []) = Part.some [u.substitute t] ∧
        b.write ([.term t], []) = Part.some ((u.exportTerm t).map ([·])) ∧
        b.write ([.rest t 0], []) = Part.some ((u.exportElements t).map fun es => [.list es]) := by
  obtain ⟨u, rfl⟩ := h.exists_unifier
  refine ⟨u.acyclic, u, rfl, fun t => ⟨u.follow_eq t, u.walk_unbound t, ?_,
    fun key => u.search_singleton key t, ?_, u.write_term t, u.write_list t⟩⟩
  · exact ⟨u.chain t, u.trace_eq t [], u.length_chain_le t⟩
  · rw [u.rebuild_eq, u.run_visit, u.substitute_eq_image, Unifier.run]

/-- An operator term that is bound to its own argument, which is bound to another variable and so to
a value. -/
theorem loops_end_boundArgument :
    let x : Variable := ⟨none, "x"⟩
    let y : Variable := ⟨none, "y"⟩
    let a : Term := .application "a" []
    let b : Bindings := [(.operator "f" [.var x], .var x), (.var x, .var y), (.var y, a)]
    b.Reached ∧ WellFounded b.Below ∧ b.follow (.operator "f" [.var x]) = Part.some a := by
  intro x y a b
  have hfx : Reached [(.operator "f" [.var x], .var x)] :=
    Reached.empty.append (.operator "f" [.var x]) rfl rfl (by decide) rfl
  have hb : b.Reached :=
    (hfx.append (.var x) rfl rfl (by decide) rfl).append (.var y) rfl rfl (by decide) rfl
  obtain ⟨hbelow, u, hu, hloops⟩ := hb.loops_end
  have hnext (t : Term) : u.next? t = b.next? t := congrArg (Bindings.next? · t) hu
  have hwalk : u.walk (.operator "f" [.var x]) = a := by
    rw [Unifier.walk_of_bound ((hnext _).trans rfl), Unifier.walk_of_bound ((hnext _).trans rfl),
      Unifier.walk_of_bound ((hnext _).trans rfl), Unifier.walk_of_unbound ((hnext _).trans rfl)]
  exact ⟨hb, hbelow, hwalk ▸ (hloops _).1⟩

end Bindings

end NameResolution

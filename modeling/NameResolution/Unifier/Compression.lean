import NameResolution.Unifier.Basic

namespace NameResolution.Unifier

theorem walk_below {u : Unifier} {s t : Term} (h : u.next? t = some s) :
    Relation.TransGen u.bindings.Below (u.walk s) t := by
  induction s using u.induction generalizing t with
  | bound s r hs ih =>
    rw [walk_of_bound hs]
    exact .tail (ih hs) (.bound h)
  | unbound s hs =>
    rw [walk_of_unbound hs]
    exact .single (.bound h)

theorem next?_replaceValue_of_ne {bindings : Bindings} {key : Key} {value t : Term}
    (h : t ≠ key.term) :
    Bindings.next? (replaceValue bindings key value) t = bindings.next? t := by
  unfold Bindings.next?
  cases hk : t.key? with
  | none => rfl
  | some key' =>
    refine lookup_replaceValue_of_ne fun e => h ?_
    rw [Term.key?_eq_some_iff.mp hk, e]

theorem below_of_replaceValue {u : Unifier} {key : Key} {s t : Term}
    (h : Bindings.Below (replaceValue u.bindings key (u.walk key.term)) s t) :
    Relation.TransGen u.bindings.Below s t := by
  by_cases ht : t = key.term
  · subst ht
    have hnext (b : Bindings) : b.next? key.term = b.lookup key := by
      simp [Bindings.next?, Term.key?_eq_some_iff.mpr rfl]
    cases hl : u.bindings.lookup key with
    | none =>
      have hn : (replaceValue u.bindings key (u.walk key.term)).lookup key = none :=
        lookup_replaceValue_eq_none hl
      cases h with
      | bound h => rw [hnext, hn] at h; cases h
      | child _ h => exact .single (.child (by rw [hnext, hl]) h)
    | some r =>
      have hn : (replaceValue u.bindings key (u.walk key.term)).lookup key = some _ :=
        lookup_replaceValue_self hl
      have hr : u.next? key.term = some r := by rw [next?_term]; exact hl
      cases h with
      | bound h =>
        rw [hnext, hn, Option.some.injEq] at h
        exact h ▸ walk_of_bound hr ▸ walk_below hr
      | child h _ => rw [hnext, hn] at h; cases h
  · have hsame : Bindings.next? (replaceValue u.bindings key (u.walk key.term)) t =
        u.bindings.next? t := next?_replaceValue_of_ne ht
    cases h with
    | bound h => exact .single (.bound (hsame ▸ h))
    | child hn h => exact .single (.child (hsame ▸ hn) h)

/-- The unifier in which a bound key is bound directly to its representative. -/
def shorten (u : Unifier) (key : Key) : Unifier where
  bindings := replaceValue u.bindings key (u.walk key.term)
  nodup := by
    rw [keys_replaceValue]
    exact u.nodup
  acyclic := Subrelation.wf below_of_replaceValue u.acyclic.transGen

/-- The keys that lead from a term to its representative. -/
def chain (u : Unifier) (t : Term) : List Key :=
  match _ : u.next? t with
  | some s => t.key?.toList ++ u.chain s
  | none => []
termination_by u.acyclic.wrap t
decreasing_by exact .bound ‹_›

theorem chain_of_bound {u : Unifier} {s t : Term} (h : u.next? t = some s) :
    u.chain t = t.key?.toList ++ u.chain s := by
  rw [chain]
  split
  · next r hr => rw [h, Option.some.injEq] at hr; rw [hr]
  · next hr => rw [h] at hr; cases hr

theorem chain_of_unbound {u : Unifier} {t : Term} (h : u.next? t = none) : u.chain t = [] := by
  rw [chain]
  split
  · next r hr => rw [h] at hr; cases hr
  · rfl

structure Found where
  representative : Term
  /-- The unifier in which all keys on the way are bound to the representative. -/
  unifier : Unifier
  /-- The number of keys whose binding changed. -/
  compressed : Nat

def find (u : Unifier) (t : Term) : Found :=
  let representative := u.walk t
  let stale := (u.chain t).filter fun key => u.lookup key ≠ some representative
  ⟨representative, stale.foldl shorten u, stale.length⟩

def findAll (u : Unifier) : Unifier := u.keys.foldl (fun v key => (v.find key.term).unifier) u

end NameResolution.Unifier

import Mathlib.Data.PFun
import NameResolution.Unifier.Binding
import NameResolution.Unifier.Compression
import NameResolution.Unifier.Substitution

namespace NameResolution

section Loop

variable {σ ρ : Type} {round : σ → ρ ⊕ σ} {s : σ}

/-- A loop of rounds. A round ends it with a result or leads on to the next state. -/
def loop (round : σ → ρ ⊕ σ) : σ →. ρ := PFun.fix fun s => Part.some (round s)

theorem loop_of_done {r : ρ} (h : round s = .inl r) : loop round s = Part.some r := by
  apply Part.eq_some_iff.mpr
  apply PFun.fix_stop
  rw [h]
  exact Part.mem_some _

theorem loop_of_again {s' : σ} (h : round s = .inr s') : loop round s = loop round s' := by
  apply PFun.fix_fwd_eq
  rw [h]
  exact Part.mem_some _

end Loop

namespace Bindings

variable {b : Bindings} {s t : Term} {key : Key}

section Follow

def followRound (b : Bindings) (t : Term) : Term ⊕ Term :=
  match b.next? t with
  | some s => .inr s
  | none => .inl t

def follow (b : Bindings) : Term →. Term := loop b.followRound

theorem follow_of_bound (h : b.next? t = some s) : b.follow t = b.follow s :=
  loop_of_again (by simp only [followRound, h])

theorem follow_of_unbound (h : b.next? t = none) : b.follow t = Part.some t :=
  loop_of_done (by simp only [followRound, h])

end Follow

section Trace

def traceRound (b : Bindings) : List Key × Term → (List Key × Term) ⊕ (List Key × Term)
  | (chain, t) =>
    match b.next? t with
    | some s => .inr (chain ++ t.key?.toList, s)
    | none => .inl (chain, t)

def trace (b : Bindings) : List Key × Term →. List Key × Term := loop b.traceRound

theorem trace_of_bound (h : b.next? t = some s) (chain : List Key) :
    b.trace (chain, t) = b.trace (chain ++ t.key?.toList, s) :=
  loop_of_again (by simp only [traceRound, h])

theorem trace_of_unbound (h : b.next? t = none) (chain : List Key) :
    b.trace (chain, t) = Part.some (chain, t) :=
  loop_of_done (by simp only [traceRound, h])

end Trace

section Search

/-- Takes the newest term from the stack and follows its binding, or else compares it with the key
and puts its subterms on the stack. -/
def searchRound (b : Bindings) (key : Key) : List Term → Bool ⊕ List Term
  | [] => .inl false
  | t :: stack =>
    match b.next? t with
    | some s => .inr (s :: stack)
    | none => if t = key.term then .inl true else .inr (t.children.reverse ++ stack)

def search (b : Bindings) (key : Key) : List Term →. Bool := loop (b.searchRound key)

theorem search_nil : b.search key [] = Part.some false := loop_of_done rfl

theorem search_of_bound (h : b.next? t = some s) (stack : List Term) :
    b.search key (t :: stack) = b.search key (s :: stack) :=
  loop_of_again (by simp only [searchRound, h])

theorem search_of_eq (h : b.next? t = none) (hkey : t = key.term) (stack : List Term) :
    b.search key (t :: stack) = Part.some true :=
  loop_of_done (by simp only [searchRound, h, if_pos hkey])

theorem search_of_ne (h : b.next? t = none) (hkey : t ≠ key.term) (stack : List Term) :
    b.search key (t :: stack) = b.search key (t.children.reverse ++ stack) :=
  loop_of_again (by simp only [searchRound, h, if_neg hkey])

end Search

section Rebuild

/-- Does the first task: a visit follows a binding, or else puts the subterms before the task of
rebuilding the term from them. -/
def rebuildRound (b : Bindings) :
    List Unifier.Task × List Term → List Term ⊕ (List Unifier.Task × List Term)
  | ([], finished) => .inl finished
  | (.visit t :: tasks, finished) =>
    match b.next? t with
    | some s => .inr (.visit s :: tasks, finished)
    | none => .inr (t.children.map .visit ++ .rebuild t :: tasks, finished)
  | (.rebuild t :: tasks, finished) =>
    let arity := t.children.length
    .inr (tasks, t.withChildren (finished.take arity).reverse :: finished.drop arity)

def rebuild (b : Bindings) : List Unifier.Task × List Term →. List Term := loop b.rebuildRound

theorem rebuild_of_bound (h : b.next? t = some s) (tasks : List Unifier.Task)
    (finished : List Term) :
    b.rebuild (.visit t :: tasks, finished) = b.rebuild (.visit s :: tasks, finished) :=
  loop_of_again (by simp only [rebuildRound, h])

theorem rebuild_of_unbound (h : b.next? t = none) (tasks : List Unifier.Task)
    (finished : List Term) :
    b.rebuild (.visit t :: tasks, finished) =
      b.rebuild (t.children.map .visit ++ .rebuild t :: tasks, finished) :=
  loop_of_again (by simp only [rebuildRound, h])

theorem rebuild_finished (t : Term) (tasks : List Unifier.Task) (finished : List Term) :
    b.rebuild (.rebuild t :: tasks, finished) =
      b.rebuild (tasks, t.withChildren (finished.take t.children.length).reverse ::
        finished.drop t.children.length) :=
  loop_of_again rfl

end Rebuild

end Bindings

namespace Unifier

variable {u : Unifier} {s t : Term} {key : Key}

theorem follow_eq (u : Unifier) (t : Term) : u.bindings.follow t = Part.some (u.walk t) := by
  induction t using u.induction with
  | bound t s ht ih => rw [Bindings.follow_of_bound ht, ih, walk_of_bound ht]
  | unbound t ht => rw [Bindings.follow_of_unbound ht, walk_of_unbound ht]

theorem trace_eq (u : Unifier) (t : Term) (chain : List Key) :
    u.bindings.trace (chain, t) = Part.some (chain ++ u.chain t, u.walk t) := by
  induction t using u.induction generalizing chain with
  | bound t s ht ih =>
    rw [Bindings.trace_of_bound ht, ih, chain_of_bound ht, walk_of_bound ht, List.append_assoc]
  | unbound t ht =>
    rw [Bindings.trace_of_unbound ht, chain_of_unbound ht, walk_of_unbound ht, List.append_nil]

/-- The loop of the occurs check goes on with the rest of the stack if the key does not occur in the
newest term. -/
theorem search_cons (u : Unifier) (key : Key) (t : Term) (stack : List Term) :
    u.bindings.search key (t :: stack) =
      if u.occurs key t then Part.some true else u.bindings.search key stack := by
  induction t using u.induction generalizing stack with
  | bound t s ht ih => rw [Bindings.search_of_bound ht, ih, occurs_of_bound ht]
  | unbound t ht ih =>
    by_cases hkey : t = key.term
    · have hoccurs : u.occurs key t = true := (occurs_of_unbound ht).mpr (.inl hkey)
      rw [Bindings.search_of_eq ht hkey, if_pos hoccurs]
    · have hlist : ∀ l : List Term, l ⊆ t.children →
          u.bindings.search key (l ++ stack) =
            if ∃ c ∈ l, u.occurs key c = true then Part.some true
            else u.bindings.search key stack := by
        intro l
        induction l with
        | nil => simp
        | cons c l ihl =>
          intro hl
          obtain ⟨hc, hl⟩ := List.cons_subset.mp hl
          rw [List.cons_append, ih c hc, ihl hl]
          by_cases hoccurs : u.occurs key c = true <;> simp [hoccurs]
      have hiff : (∃ c ∈ t.children.reverse, u.occurs key c = true) ↔ u.occurs key t = true := by
        rw [occurs_of_unbound ht]
        simp only [List.mem_reverse, hkey, false_or]
      rw [Bindings.search_of_ne ht hkey, hlist _ (List.reverse_subset.mpr (List.Subset.refl _))]
      exact if_congr hiff rfl rfl

theorem search_singleton (u : Unifier) (key : Key) (t : Term) :
    u.bindings.search key [t] = Part.some (u.occurs key t) := by
  rw [search_cons, Bindings.search_nil]
  cases u.occurs key t <;> rfl

theorem rebuild_eq (u : Unifier) (tasks : List Task) (finished : List Term) :
    u.bindings.rebuild (tasks, finished) = Part.some (u.run tasks finished) := by
  fun_induction run with
  | case1 finished => exact loop_of_done rfl
  | case2 t tasks finished s hs ih => exact (Bindings.rebuild_of_bound hs tasks finished).trans ih
  | case3 t tasks finished hn ih => exact (Bindings.rebuild_of_unbound hn tasks finished).trans ih
  | case4 t tasks finished arity ih => exact (Bindings.rebuild_finished t tasks finished).trans ih

end Unifier

end NameResolution

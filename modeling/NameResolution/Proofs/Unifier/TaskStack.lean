import NameResolution.Proofs.Unifier.Composition
import NameResolution.Proofs.Unifier.Loops

namespace NameResolution

def Term.mapChildren (f : Term → Term) : Term → Term
  | var x => var x
  | primitive p => primitive p
  | application name args => application name (args.map f)
  | tuple args => tuple (args.map f)
  | cons head tail => cons (f head) (f tail)
  | nil => nil
  | operator name args => operator name (args.map f)

theorem Term.withChildren_map (f : Term → Term) (t : Term) :
    t.withChildren (t.children.map f) = t.mapChildren f := by
  cases t <;> rfl

namespace Unifier

variable {u : Unifier} {t : Term} {tasks tasks' : List Task} {finished finished' : List Term}

def Advances (u : Unifier) (state state' : List Task × List Term) : Prop :=
  u.bindings.rebuildRound state = .inr state'

/-- With this number of finished terms, every term is rebuilt from finished subterms, and there is a
single term at the end. -/
def Balanced : List Task → Nat → Prop
  | [], count => count = 1
  | .visit _ :: tasks, count => Balanced tasks (count + 1)
  | .rebuild t :: tasks, count =>
    t.children.length ≤ count ∧ Balanced tasks (count - t.children.length + 1)

theorem balanced_visits (ts : List Term) (tasks : List Task) (count : Nat) :
    Balanced (ts.map .visit ++ tasks) count ↔ Balanced tasks (count + ts.length) := by
  induction ts generalizing count with
  | nil => rfl
  | cons t ts ih =>
    rw [List.map_cons, List.cons_append, Balanced, ih, List.length_cons, Nat.add_right_comm,
      Nat.add_assoc]

/-- To visit the subterms of a term and rebuild it from them leaves one term, as a visit does. -/
theorem balanced_expansion (t : Term) (tasks : List Task) (count : Nat) :
    Balanced (t.children.map .visit ++ .rebuild t :: tasks) count ↔
      Balanced (.visit t :: tasks) count := by
  rw [balanced_visits, Balanced, Balanced, Nat.add_sub_cancel]
  exact and_iff_right (Nat.le_add_left _ _)

theorem Balanced.advance (h : Balanced tasks finished.length)
    (hround : u.Advances (tasks, finished) (tasks', finished')) :
    Balanced tasks' finished'.length := by
  cases tasks with
  | nil => cases hround
  | cons task tasks =>
    cases task with
    | visit t =>
      rw [Advances, Bindings.rebuildRound] at hround
      cases ht : u.bindings.next? t with
      | some s =>
        simp only [ht] at hround
        cases hround
        exact h
      | none =>
        simp only [ht] at hround
        cases hround
        exact (balanced_expansion t tasks _).mpr h
    | rebuild t =>
      cases hround
      -- the subterms are taken off, the term that is rebuilt from them is put on
      rw [List.length_cons, List.length_drop]
      exact h.2

theorem run_single (u : Unifier) (t : Term) : u.run [.visit t] [] = [u.substitute t] := by
  rw [run_visit, run, substitute_eq_image]

/-- A round does not change the terms that come out in the end. -/
theorem run_advance (hround : u.Advances (tasks, finished) (tasks', finished')) :
    u.run tasks finished = u.run tasks' finished' := by
  have hloop : u.bindings.rebuild (tasks, finished) = u.bindings.rebuild (tasks', finished') :=
    loop_of_again hround
  rw [rebuild_eq, rebuild_eq] at hloop
  exact Part.some_injective hloop

/-- The rounds come to an end with the terms that come out. -/
theorem advances_run (u : Unifier) (tasks : List Task) (finished : List Term) :
    Relation.ReflTransGen u.Advances (tasks, finished) ([], u.run tasks finished) := by
  fun_induction run with
  | case1 finished => exact .refl
  | case2 t tasks finished s hs ih =>
    have hround : u.Advances (.visit t :: tasks, finished) (.visit s :: tasks, finished) := by
      simp only [Advances, Bindings.rebuildRound, show u.bindings.next? t = some s from hs]
    exact ih.head hround
  | case3 t tasks finished hn ih =>
    have hround : u.Advances (.visit t :: tasks, finished)
        (t.children.map .visit ++ .rebuild t :: tasks, finished) := by
      simp only [Advances, Bindings.rebuildRound, show u.bindings.next? t = none from hn]
    exact ih.head hround
  | case4 t tasks finished arity ih => exact ih.head rfl

theorem balanced_and_run_of_advances
    (h : Relation.ReflTransGen u.Advances ([.visit t], []) (tasks, finished)) :
    Balanced tasks finished.length ∧ u.run tasks finished = [u.substitute t] := by
  generalize hstate : (tasks, finished) = state at h
  induction h generalizing tasks finished with
  | refl =>
    cases hstate
    exact ⟨rfl, u.run_single t⟩
  | @tail state _ _ hround ih =>
    subst hstate
    obtain ⟨hbalanced, hrun⟩ := @ih state.1 state.2 rfl
    exact ⟨hbalanced.advance hround, (run_advance hround).symm.trans hrun⟩

/-- The representative of a term, rebuilt from its substituted subterms. -/
theorem substitute_eq_mapChildren (u : Unifier) (t : Term) :
    u.substitute t = (u.walk t).mapChildren u.substitute := by
  rw [← Term.withChildren_map, ← substitute_of_unbound (u.walk_unbound t), substitute_walk]

theorem eq_substitute_of_eq_mapChildren {f : Term → Term}
    (hf : ∀ t, f t = (u.walk t).mapChildren f) (t : Term) : f t = u.substitute t := by
  induction t using u.induction with
  | bound t s ht ih => rw [hf, walk_of_bound ht, ← hf, ih, substitute_of_bound ht]
  | unbound t ht ih =>
    rw [hf, walk_of_unbound ht, ← Term.withChildren_map, List.map_congr_left ih,
      substitute_of_unbound ht]

/-- Substitution is the one function that takes the representative of a term and rebuilds it from the
substituted subterms, in their order. The tasks that compute it leave the substituted term as the only
finished term, and whenever a term is to be rebuilt on the way there are as many finished terms as it
has subterms. -/
theorem substitute_recursive (u : Unifier) :
    (∀ t, u.substitute t = (u.walk t).mapChildren u.substitute) ∧
      (∀ f : Term → Term, (∀ t, f t = (u.walk t).mapChildren f) → u.substitute = f) ∧
      ∀ t, u.run [.visit t] [] = [u.substitute t] ∧
        Relation.ReflTransGen u.Advances ([.visit t], []) ([], [u.substitute t]) ∧
          ∀ tasks finished,
            Relation.ReflTransGen u.Advances ([.visit t], []) (tasks, finished) →
              (∀ s rest, tasks = .rebuild s :: rest → s.children.length ≤ finished.length) ∧
                (tasks = [] → finished = [u.substitute t]) := by
  refine ⟨u.substitute_eq_mapChildren,
    fun f hf => (funext (eq_substitute_of_eq_mapChildren hf)).symm,
    fun t => ⟨u.run_single t, ?_, fun tasks finished hrounds => ?_⟩⟩
  · exact u.run_single t ▸ u.advances_run [.visit t] []
  · obtain ⟨hbalanced, hrun⟩ := balanced_and_run_of_advances hrounds
    constructor
    · rintro s rest rfl
      exact hbalanced.1
    · rintro rfl
      rwa [run] at hrun

/-- A list inside a tuple, with a bound variable as its head and as an argument of the operator that
is its tail: when the list is rebuilt, both parts are finished. -/
theorem substitute_recursive_nested :
    let x : Variable := ⟨none, "x"⟩
    let a : Term := .application "a" []
    let list : Term := .cons (.var x) (.operator "g" [.var x])
    ∃ u : Unifier, Unifier.empty.bind (.var x) a = .ok u ∧
      Relation.ReflTransGen u.Advances ([.visit (.tuple [list])], [])
        ([.rebuild list, .rebuild (.tuple [list])], [.operator "g" [a], a]) ∧
      list.children.length ≤ 2 ∧
      u.substitute (.tuple [list]) = .tuple [.cons a (.operator "g" [a])] := by
  intro x a list
  obtain ⟨u, hu, hbindings⟩ : ∃ u, Unifier.empty.bind (.var x) a = .ok u ∧
      u.bindings = [(.var x, a)] := bind_of_childless rfl rfl (by decide) rfl
  have hround {state state' : List Task × List Term}
      (h : Bindings.rebuildRound [(.var x, a)] state = .inr state') : u.Advances state state' := by
    rwa [Advances, hbindings]
  have hlist : Relation.ReflTransGen u.Advances ([.visit (.tuple [list])], [])
      ([.rebuild list, .rebuild (.tuple [list])], [.operator "g" [a], a]) :=
    .head (hround rfl) <| .head (hround rfl) <| .head (hround rfl) <| .head (hround rfl) <|
      .head (hround rfl) <| .head (hround rfl) <| .head (hround rfl) <| .head (hround rfl) <|
      .head (hround rfl) <| .head (hround rfl) .refl
  have hend : Relation.ReflTransGen u.Advances ([.visit (.tuple [list])], [])
      ([], [.tuple [.cons a (.operator "g" [a])]]) :=
    (hlist.tail (hround rfl)).tail (hround rfl)
  obtain ⟨-, -, hrounds⟩ := u.substitute_recursive
  have hlength := ((hrounds _).2.2 _ _ hlist).1 _ _ rfl
  have hvalue := ((hrounds _).2.2 _ _ hend).2 rfl
  exact ⟨u, hu, hlist, hlength, (List.singleton_inj.mp hvalue).symm⟩

end Unifier

end NameResolution

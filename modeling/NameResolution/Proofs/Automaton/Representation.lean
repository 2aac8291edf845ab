import NameResolution.Proofs.Automaton.Numbering
import NameResolution.Proofs.Automaton.Residuals

namespace NameResolution

universe u
variable {σ : Type u}

namespace Automaton

def residual (automaton : Automaton σ) (i : Fin automaton.size) : Regex σ :=
  (automaton.states.get i).residual

/-- The state to which the symbol at a position of the alphabet leads. -/
def target (automaton : Automaton σ) (i : Fin automaton.size) (j : Fin automaton.alphabet.size) :
    Fin automaton.size :=
  (automaton.states.get i).next.get j

end Automaton

variable [DecidableEq σ] {regex : Regex σ} {alphabet : Alphabet σ} (h : regex.Over alphabet)

namespace Regex

theorem residual_compile (i : Fin (regex.compile alphabet h).size) :
    (regex.compile alphabet h).residual i = (regex.residuals alphabet h).get i :=
  congrArg State.residual (Matcher.current_compile ⟨i⟩)

theorem target_compile (i : Fin (regex.compile alphabet h).size)
    (j : Fin (regex.compile alphabet h).alphabet.size) :
    (regex.compile alphabet h).target i j = ((regex.transitions h).get i).get j :=
  congrArg (Vector.get · j) (congrArg State.next (Matcher.current_compile ⟨i⟩))

theorem residual_injective : Function.Injective (regex.compile alphabet h).residual := by
  have hnodup : (regex.residuals alphabet h).Nodup := nodup_explore
  intro i j hij
  rw [residual_compile, residual_compile] at hij
  exact List.nodup_iff_injective_get.mp hnodup hij

theorem residual_target (i : Fin (regex.compile alphabet h).size)
    (j : Fin (regex.compile alphabet h).alphabet.size) :
    (regex.compile alphabet h).residual ((regex.compile alphabet h).target i j) =
      ((regex.compile alphabet h).residual i).derive alphabet (alphabet.symbols.get j) := by
  rw [residual_compile, residual_compile, target_compile]
  exact Matcher.get_transitions i j

theorem residual_initial :
    (regex.compile alphabet h).residual (regex.compile alphabet h).initial =
      regex.normalize alphabet :=
  Matcher.residual_start

theorem exists_residual_eq {r : Regex σ}
    (hr : Reachable (derivatives alphabet) (regex.normalize alphabet) r) :
    ∃ i, (regex.compile alphabet h).residual i = r := by
  have hmem : r ∈ regex.residuals alphabet h := mem_explore.mpr hr
  obtain ⟨i, hi⟩ := List.mem_iff_get.mp hmem
  exact ⟨i, (residual_compile h i).trans hi⟩

theorem exists_target_eq {i k : Fin (regex.compile alphabet h).size}
    (hmem : (regex.compile alphabet h).residual i ∈
      derivatives alphabet ((regex.compile alphabet h).residual k)) :
    ∃ j, (regex.compile alphabet h).target k j = i := by
  obtain ⟨a, ha, hderive⟩ := List.mem_map.mp hmem
  obtain ⟨j, rfl⟩ : ∃ j : Fin (regex.compile alphabet h).alphabet.size,
      alphabet.symbols.get j = a := List.mem_iff_get.mp ha
  refine ⟨j, residual_injective h ?_⟩
  rw [residual_target]
  exact hderive

/-- A walk along derivatives is a walk along the states. -/
theorem reachable_of_reachable_residual {r : Regex σ}
    (hr : Reachable (derivatives alphabet) (regex.normalize alphabet) r)
    (i : Fin (regex.compile alphabet h).size) (hi : (regex.compile alphabet h).residual i = r) :
    Reachable (fun i => List.ofFn ((regex.compile alphabet h).target i))
      (regex.compile alphabet h).initial i := by
  induction hr generalizing i with
  | refl =>
    rw [residual_injective h (hi.trans (residual_initial h).symm)]
    exact .refl
  | step hx hy ih =>
    obtain ⟨k, rfl⟩ := exists_residual_eq h hx
    subst hi
    exact .step (ih k rfl) (List.mem_ofFn.mpr (exists_target_eq h hy))

theorem reachable_target (i : Fin (regex.compile alphabet h).size) :
    Reachable (fun i => List.ofFn ((regex.compile alphabet h).target i))
      (regex.compile alphabet h).initial i := by
  have hmem : (regex.residuals alphabet h).get i ∈ regex.residuals alphabet h := List.get_mem _ _
  exact reachable_of_reachable_residual h (mem_explore.mp hmem) i (residual_compile h i)

/-- Every word over the alphabet leads from the start to a matcher with what remains after it. -/
theorem exists_matchAll?_start {word : List σ} (hword : ∀ a ∈ word, a ∈ alphabet) :
    ∃ m, (regex.compile alphabet h).start.matchAll? word = .ok m ∧
      m.residual = (regex.normalize alphabet).deriveAll alphabet word := by
  obtain ⟨m, hmatch, hresidual⟩ := (regex.compile alphabet h).start.exists_matchAll? hword
  exact ⟨m, hmatch, hresidual.trans (by rw [Matcher.residual_start])⟩

/-- Two words lead to one matcher exactly if the same remains after both. -/
theorem matchAll?_start_eq_iff {v w : List σ} (hv : ∀ a ∈ v, a ∈ alphabet)
    (hw : ∀ a ∈ w, a ∈ alphabet) :
    (regex.compile alphabet h).start.matchAll? v = (regex.compile alphabet h).start.matchAll? w ↔
      (regex.normalize alphabet).deriveAll alphabet v =
        (regex.normalize alphabet).deriveAll alphabet w := by
  obtain ⟨m, hm, hmv⟩ := exists_matchAll?_start h hv
  obtain ⟨m', hm', hmw⟩ := exists_matchAll?_start h hw
  rw [hm, hm', ← hmv, ← hmw, Except.ok.injEq]
  refine ⟨congrArg _, fun heq => ?_⟩
  have hstate : m.state = m'.state := residual_injective h heq
  cases m
  cases m'
  exact congrArg _ hstate

/-- The row of a state holds the positions of the derivatives of its expression. -/
theorem row_compile (i : Fin (regex.compile alphabet h).size) :
    (derivatives alphabet ((regex.compile alphabet h).residual i)).map
        (regex.residuals alphabet h).idxOf =
      List.ofFn fun j => ((regex.compile alphabet h).target i j).val := by
  have hnodup : (regex.residuals alphabet h).Nodup := nodup_explore
  have hcell (j : Fin (regex.compile alphabet h).alphabet.size) :
      (regex.residuals alphabet h).idxOf
        (((regex.residuals alphabet h).get i).derive alphabet (alphabet.symbols.get j)) =
          ((regex.compile alphabet h).target i j).val :=
    calc (regex.residuals alphabet h).idxOf
          (((regex.residuals alphabet h).get i).derive alphabet (alphabet.symbols.get j))
        = (regex.residuals alphabet h).idxOf
            ((regex.residuals alphabet h).get (((regex.transitions h).get i).get j)) :=
          congrArg (List.idxOf · _) (Matcher.get_transitions i j).symm
      _ = (((regex.transitions h).get i).get j).val := hnodup.idxOf_getElem _ _
      _ = ((regex.compile alphabet h).target i j).val :=
          congrArg Fin.val (target_compile h i j).symm
  rw [residual_compile, derivatives, List.map_map, ← List.ofFn_getElem_eq_map]
  exact congrArg List.ofFn (funext hcell)

/-- The work list that numbers the derivatives ends with the states of the automaton and their
rows. -/
theorem numbering_compile :
    let automaton := regex.compile alphabet h
    let g := (Numbering.visit (derivatives alphabet))^[automaton.size]
      (.single (regex.normalize alphabet))
    g.nodes = List.ofFn automaton.residual ∧ g.work = [] ∧
      g.rows = List.ofFn (fun i => List.ofFn fun j => (automaton.target i j).val) ∧
      g.sources.length = automaton.size ∧
      ∀ i k, i ∈ g.sources.getD k [] ↔ k ∈ g.rows.getD i [] := by
  intro automaton g
  obtain ⟨hnodes, hwork, hrows, hlength, hsources⟩ : g.nodes = regex.residuals alphabet h ∧
      g.work = [] ∧ g.rows = (regex.residuals alphabet h).map (fun r =>
        (derivatives alphabet r).map (regex.residuals alphabet h).idxOf) ∧
      g.sources.length = (regex.residuals alphabet h).length ∧ _ :=
    Numbering.iterate_visit_single (finitelyReachable_derivatives h)
  have hrow (i : Fin automaton.size) : (derivatives alphabet
      ((regex.residuals alphabet h).get i)).map (regex.residuals alphabet h).idxOf =
        List.ofFn fun j => (automaton.target i j).val := by
    rw [← residual_compile]
    exact row_compile h i
  refine ⟨?_, hwork, ?_, hlength, hsources⟩
  · rw [hnodes, funext (residual_compile h)]
    exact (List.ofFn_get _).symm
  · rw [hrows, ← List.ofFn_getElem_eq_map]
    exact congrArg List.ofFn (funext hrow)

end Regex

/-- The states of a compiled automaton have different expressions. Each symbol leads from a state to
the state of the derivative, the initial state has the normal form, and every state is reached from
it. So a word leads to what remains after it, and two words lead to one matcher exactly if the same
remains after both. The work list that numbers the derivatives and fills a row for each of them, with
one entry for each symbol, runs empty with these states and rows. -/
theorem Regex.compile_represents {automaton : Automaton σ}
    (hcompile : regex.compile? alphabet = .ok automaton) :
    Function.Injective automaton.residual ∧
      automaton.alphabet = alphabet ∧
      (∀ i j, automaton.residual (automaton.target i j) =
        (automaton.residual i).derive alphabet (automaton.alphabet.symbols.get j)) ∧
      automaton.residual automaton.initial = regex.normalize alphabet ∧
      (∀ i, Reachable (fun i => List.ofFn (automaton.target i)) automaton.initial i) ∧
      (∀ word : List σ, (∀ a ∈ word, a ∈ alphabet) →
        ∃ m, automaton.start.matchAll? word = .ok m ∧
          m.residual = (regex.normalize alphabet).deriveAll alphabet word) ∧
      (∀ v w : List σ, (∀ a ∈ v, a ∈ alphabet) → (∀ a ∈ w, a ∈ alphabet) →
        (automaton.start.matchAll? v = automaton.start.matchAll? w ↔
          (regex.normalize alphabet).deriveAll alphabet v =
            (regex.normalize alphabet).deriveAll alphabet w)) ∧
      let g := (Numbering.visit (derivatives alphabet))^[automaton.size]
        (.single (regex.normalize alphabet))
      g.nodes = List.ofFn automaton.residual ∧ g.work = [] ∧
        g.rows = List.ofFn (fun i => List.ofFn fun j => (automaton.target i j).val) ∧
        g.sources.length = automaton.size ∧
        ∀ i k, i ∈ g.sources.getD k [] ↔ k ∈ g.rows.getD i [] := by
  obtain ⟨h, rfl⟩ := exists_over_of_compile? hcompile
  exact ⟨residual_injective h, rfl, residual_target h, residual_initial h, reachable_target h,
    fun _ => exists_matchAll?_start h, fun _ _ => matchAll?_start_eq_iff h, numbering_compile h⟩

/-- Any number of `false` leaves what one `false` leaves. -/
theorem Regex.compile_represents_repetition :
    let regex : Regex Bool := concat (symbol false) (star (symbol false))
    let alphabet : Alphabet Bool := ⟨[false, true], by decide⟩
    ∃ automaton, regex.compile? alphabet = .ok automaton ∧
      automaton.start.matchAll? [false] = automaton.start.matchAll? [false, false] ∧
      automaton.start.matchAll? [] ≠ automaton.start.matchAll? [false] := by
  intro regex alphabet
  have hcompile := compile?_eq_ok (show regex.Over alphabet by decide)
  obtain ⟨-, -, -, -, -, -, hwords, -⟩ := compile_represents hcompile
  refine ⟨_, hcompile, (hwords _ _ (by decide) (by decide)).mpr (by decide), ?_⟩
  rw [ne_eq, hwords _ _ (by decide) (by decide)]
  decide

end NameResolution

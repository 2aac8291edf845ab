import Mathlib.Data.Set.Finite.Basic
import NameResolution.Automaton.Basic

namespace NameResolution

universe u
variable {α : Type u} [DecidableEq α]

def visit (next : α → List α) : List α × List α → List α × List α
  | (known, []) => (known, [])
  | (known, x :: work) =>
    (known ++ unseen known (next x), (unseen known (next x)).reverse ++ work)

section Rounds

variable {next : α → List α} {start : α} {finite : FinitelyReachable next start}

/-- Every node takes one round, those on the work list and those still to be met. -/
theorem iterate_visit_exploreFrom {known work : List α} (nodup : known.Nodup)
    (reachable : ∀ x ∈ known, Reachable next start x) (pending : ∀ x ∈ work, x ∈ known) (n : ℕ) :
    n + known.length =
        (exploreFrom finite known work nodup reachable pending).length + work.length →
      (visit next)^[n] (known, work) =
        (exploreFrom finite known work nodup reachable pending, []) := by
  fun_induction exploreFrom generalizing n with
  | case1 known =>
    intro hn
    have hzero : n = 0 := by simpa using hn
    rw [hzero]
    rfl
  | case2 known _ _ x work _ fresh _ ih =>
    intro hn
    -- at least the visit of `x` is still to come
    have hle : (known ++ fresh).length + (work.length + 1) ≤ n + known.length := by
      rw [hn]
      exact Nat.add_le_add_right (isPrefix_exploreFrom _ _ _).length_le _
    obtain ⟨n, rfl⟩ : ∃ k, n = k + 1 := ⟨n - 1, by rw [List.length_append] at hle; omega⟩
    rw [Function.iterate_succ_apply]
    apply ih
    simp only [List.length_append, List.length_reverse, List.length_cons] at hn ⊢
    omega

/-- The work list runs empty after one round for each reachable node. -/
theorem iterate_visit_explore :
    (visit next)^[(explore finite).length] ([start], [start]) = (explore finite, []) :=
  iterate_visit_exploreFrom _ _ _ _ rfl

end Rounds

omit [DecidableEq α] in
theorem FinitelyReachable.finite_setOf {next : α → List α} {start : α}
    (finite : FinitelyReachable next start) : {x | Reachable next start x}.Finite := by
  obtain ⟨bound, hbound⟩ := finite
  exact bound.finite_toSet.subset hbound

/-- From the normal form of an expression over the alphabet, derivation by symbols of the alphabet
reaches finitely many expressions, and the work list is empty after one round for each of them. -/
theorem Regex.finite_derivatives {regex : Regex α} {alphabet : Alphabet α}
    (h : regex.Over alphabet) :
    {r | Reachable (derivatives alphabet) (regex.normalize alphabet) r}.Finite ∧
      (visit (derivatives alphabet))^[(regex.residuals alphabet h).length]
        ([regex.normalize alphabet], [regex.normalize alphabet]) =
          (regex.residuals alphabet h, []) :=
  ⟨(finitelyReachable_derivatives h).finite_setOf, iterate_visit_explore⟩

/-- Words that do not end in `false`, over two letters. -/
theorem Regex.finite_derivatives_complement :
    let regex : Regex Bool := complement (concat (complement emptySet) (symbol false))
    let alphabet : Alphabet Bool := ⟨[false, true], by decide⟩
    ∃ h : regex.Over alphabet,
      {r | Reachable (derivatives alphabet) (regex.normalize alphabet) r}.Finite ∧
        (visit (derivatives alphabet))^[(regex.residuals alphabet h).length]
          ([regex.normalize alphabet], [regex.normalize alphabet]) =
            (regex.residuals alphabet h, []) := by
  refine ⟨by decide, ?_⟩
  exact finite_derivatives _

end NameResolution

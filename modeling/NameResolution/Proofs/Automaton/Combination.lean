import NameResolution.Proofs.Automaton.Renaming
import NameResolution.Proofs.Regex.Commutation
import NameResolution.Proofs.Regex.Language

namespace NameResolution

universe u
variable {σ : Type u} [DecidableEq σ] {alphabet : Alphabet σ}

theorem Matcher.getElem?_residuals {regex : Regex σ} {h : regex.Over alphabet}
    (m : Matcher (regex.compile alphabet h)) :
    (regex.residuals alphabet h)[m.state.val]? = some m.residual := by
  rw [residual_eq_get]
  exact List.getElem?_eq_getElem m.index.isLt

namespace Regex

section Words

variable {x y : Regex σ}

theorem deriveAll_simplify (j : Junction) (hx : x.Over alphabet) (hy : y.Over alphabet)
    (hxnormal : x.Normal alphabet) (hynormal : y.Normal alphabet) (word : List σ) :
    (j.simplify alphabet x y).deriveAll alphabet word =
      j.simplify alphabet (x.deriveAll alphabet word) (y.deriveAll alphabet word) := by
  induction word generalizing x y with
  | nil => rfl
  | cons a word ih =>
    have hstep := ih (over_derive a hx) (over_derive a hy) (normal_derive a hxnormal)
      (normal_derive a hynormal)
    rw [← j.derive_simplify a hx hy hxnormal hynormal] at hstep
    exact hstep

theorem deriveAll_simpleComplement (hnormal : x.Normal alphabet) (word : List σ) :
    (simpleComplement x).deriveAll alphabet word =
      simpleComplement (x.deriveAll alphabet word) := by
  induction word generalizing x with
  | nil => rfl
  | cons a word ih =>
    have hstep := ih (normal_derive a hnormal)
    rw [← derive_simpleComplement a hnormal] at hstep
    exact hstep

omit [DecidableEq σ] in
theorem nullable_simpleComplement (x : Regex σ) : (simpleComplement x).nullable = !x.nullable :=
  nullable_eq_of_language_eq (language_simpleComplement x)

end Words

namespace Junction

def connect : Junction → Bool → Bool → Bool
  | union => Bool.or
  | intersection => Bool.and

variable (j : Junction)

theorem nullable_simplify (x y : Regex σ) :
    (j.simplify alphabet x y).nullable = j.connect x.nullable y.nullable := by
  cases j with
  | union => exact nullable_eq_of_language_eq (language_simpleOr alphabet x y)
  | intersection => exact nullable_eq_of_language_eq (language_simpleAnd alphabet x y)

theorem normalize_node (l r : Regex σ) : normalize alphabet (j.node l r) =
    j.simplify alphabet (normalize alphabet l) (normalize alphabet r) := by
  cases j <;> rfl

end Junction

section Node

variable (j : Junction) {l r : Regex σ} (hl : l.Over alphabet) (hr : r.Over alphabet)

/-- Every derivative of a node is made of one derivative of each side. -/
theorem mem_residuals_node {x : Regex σ}
    (hx : x ∈ (j.node l r).residuals alphabet ((over_node j).mpr ⟨hl, hr⟩)) :
    ∃ y ∈ l.residuals alphabet hl, ∃ z ∈ r.residuals alphabet hr,
      x = j.simplify alphabet y z := by
  induction mem_explore.mp hx with
  | refl =>
    exact ⟨_, mem_explore.mpr .refl, _, mem_explore.mpr .refl, j.normalize_node l r⟩
  | step hreachable hmem ih =>
    obtain ⟨y, hy, z, hz, rfl⟩ := ih (mem_explore.mpr hreachable)
    obtain ⟨a, ha, rfl⟩ := List.mem_map.mp hmem
    -- both sides step by the symbol by which the node steps
    refine ⟨_, derive_mem_residuals hl hy ha, _, derive_mem_residuals hr hz ha, ?_⟩
    exact j.derive_simplify a (over_of_reachable hl (mem_explore.mp hy))
      (over_of_reachable hr (mem_explore.mp hz)) (normal_of_mem_residuals hl hy)
      (normal_of_mem_residuals hr hz)

theorem size_compile_node_le :
    ((j.node l r).compile alphabet ((over_node j).mpr ⟨hl, hr⟩)).size ≤
      (l.compile alphabet hl).size * (r.compile alphabet hr).size := by
  have hnodup : ((j.node l r).residuals alphabet ((over_node j).mpr ⟨hl, hr⟩)).Nodup :=
    nodup_explore
  have hsub : (j.node l r).residuals alphabet ((over_node j).mpr ⟨hl, hr⟩) ⊆
      (l.residuals alphabet hl ×ˢ r.residuals alphabet hr).map
        fun p => j.simplify alphabet p.1 p.2 := by
    intro x hx
    obtain ⟨y, hy, z, hz, rfl⟩ := mem_residuals_node j hl hr hx
    exact List.mem_map.mpr ⟨(y, z), List.pair_mem_product.mpr ⟨hy, hz⟩, rfl⟩
  have hlength := hnodup.length_le_of_subset hsub
  rwa [List.length_map, List.length_product] at hlength

/-- The automaton of a union or intersection runs those of both sides at once, and it has at most
one state for each pair of their states. -/
theorem compile_node :
    let automaton := (j.node l r).compile alphabet ((over_node j).mpr ⟨hl, hr⟩)
    automaton.size ≤ (l.compile alphabet hl).size * (r.compile alphabet hr).size ∧
      ∀ word : List σ, (∀ a ∈ word, a ∈ alphabet) → ∃ m left right,
        automaton.start.matchAll? word = .ok m ∧
        (l.compile alphabet hl).start.matchAll? word = .ok left ∧
        (r.compile alphabet hr).start.matchAll? word = .ok right ∧
        m.residual = j.simplify alphabet left.residual right.residual ∧
        m.accepting = j.connect left.accepting right.accepting := by
  refine ⟨size_compile_node_le j hl hr, fun word hword => ?_⟩
  obtain ⟨m, hmatch, hm⟩ := exists_matchAll?_start ((over_node j).mpr ⟨hl, hr⟩) hword
  obtain ⟨left, hleft, hleft'⟩ := exists_matchAll?_start hl hword
  obtain ⟨right, hright, hright'⟩ := exists_matchAll?_start hr hword
  have hresidual : m.residual = j.simplify alphabet left.residual right.residual := by
    rw [hm, hleft', hright', j.normalize_node]
    exact deriveAll_simplify j (over_normalize hl) (over_normalize hr) (normal_normalize l)
      (normal_normalize r) word
  refine ⟨m, left, right, hmatch, hleft, hright, hresidual, ?_⟩
  rw [m.accepting_eq_nullable, left.accepting_eq_nullable, right.accepting_eq_nullable, hresidual,
    j.nullable_simplify]

end Node

section Complement

variable {r : Regex σ} (h : r.Over alphabet)

theorem derivatives_simpleComplement {x : Regex σ} (hnormal : x.Normal alphabet) :
    derivatives alphabet (simpleComplement x) = (derivatives alphabet x).map simpleComplement := by
  rw [derivatives, derivatives, List.map_map]
  exact List.map_congr_left fun a _ => derive_simpleComplement a hnormal

/-- Exploration meets the complements of the derivatives in the order of the derivatives. -/
theorem residuals_complement :
    (complement r).residuals alphabet (over_complement.mpr h) =
      (r.residuals alphabet h).map simpleComplement := by
  have hnormal {x : Regex σ} (hx : Reachable (derivatives alphabet) (normalize alphabet r) x) :
      x.Normal alphabet := normal_of_mem_residuals h (mem_explore.mpr hx)
  refine explore_map (g := simpleComplement) (fun x hx => ?_) fun x y hx hy heq => ?_
  · exact derivatives_simpleComplement (hnormal hx)
  · rw [← (hnormal hx).simpleComplement_simpleComplement, heq,
      (hnormal hy).simpleComplement_simpleComplement]

theorem size_compile_complement :
    ((complement r).compile alphabet (over_complement.mpr h)).size =
      (r.compile alphabet h).size := by
  change ((complement r).residuals alphabet (over_complement.mpr h)).length =
    (r.residuals alphabet h).length
  rw [residuals_complement, List.length_map]

theorem state_eq_of_residual_eq
    {m : Matcher ((complement r).compile alphabet (over_complement.mpr h))}
    {m' : Matcher (r.compile alphabet h)} (hresidual : m.residual = simpleComplement m'.residual) :
    m.state.val = m'.state.val := by
  -- no expression is in two states, so a state is told by its expression
  have hnodup : ((complement r).residuals alphabet (over_complement.mpr h)).Nodup := nodup_explore
  refine (List.getElem?_inj m.state.isLt hnodup).mp ?_
  calc ((complement r).residuals alphabet (over_complement.mpr h))[m.state.val]?
      = some (simpleComplement m'.residual) := hresidual ▸ m.getElem?_residuals
    _ = (r.residuals alphabet h)[m'.state.val]?.map simpleComplement := by
        rw [m'.getElem?_residuals, Option.map_some]
    _ = ((complement r).residuals alphabet (over_complement.mpr h))[m'.state.val]? := by
        rw [residuals_complement h, List.getElem?_map]

/-- The automaton of a complement is that of its operand with the other states accepting. -/
theorem compile_complement :
    let automaton := (complement r).compile alphabet (over_complement.mpr h)
    automaton.size = (r.compile alphabet h).size ∧
      ∀ word : List σ, (∀ a ∈ word, a ∈ alphabet) → ∃ m m',
        automaton.start.matchAll? word = .ok m ∧
        (r.compile alphabet h).start.matchAll? word = .ok m' ∧
        m.state.val = m'.state.val ∧ m.residual = simpleComplement m'.residual ∧
        m.accepting = !m'.accepting := by
  refine ⟨size_compile_complement h, fun word hword => ?_⟩
  obtain ⟨m, hmatch, hm⟩ := exists_matchAll?_start (over_complement.mpr h) hword
  obtain ⟨m', hmatch', hm'⟩ := exists_matchAll?_start h hword
  have hresidual : m.residual = simpleComplement m'.residual := by
    rw [hm, hm']
    exact deriveAll_simpleComplement (normal_normalize r) word
  refine ⟨m, m', hmatch, hmatch', state_eq_of_residual_eq h hresidual, hresidual, ?_⟩
  rw [m.accepting_eq_nullable, m'.accepting_eq_nullable, hresidual, nullable_simpleComplement]

end Complement

end Regex

end NameResolution

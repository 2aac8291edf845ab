import NameResolution.Proofs.Regex.Similarity

namespace NameResolution.Regex

universe u
variable {σ : Type u} [DecidableEq σ] {alphabet : Alphabet σ}

namespace Junction

variable (j : Junction) (a : σ) {operands : List (Regex σ)}

theorem derive_node (l r : Regex σ) : derive alphabet a (j.node l r) =
    j.simplify alphabet (derive alphabet a l) (derive alphabet a r) := by
  cases j <;> rfl

theorem derive_unit : derive alphabet a j.unit = j.unit := by
  cases j <;> rfl

theorem derive_zero : derive alphabet a j.zero = j.zero := by
  cases j <;> rfl

variable (alphabet) in
def derivedOperands (operands : List (Regex σ)) : List (Regex σ) :=
  operands.flatMap fun o => j.operands (derive alphabet a o)

variable {j a}

theorem mem_derivedOperands_iff {x : Regex σ} : x ∈ j.derivedOperands alphabet a operands ↔
    ∃ o ∈ operands, x ∈ j.operands (derive alphabet a o) := List.mem_flatMap

theorem over_of_mem_derivedOperands (h : ∀ o ∈ operands, o.Over alphabet) :
    ∀ x ∈ j.derivedOperands alphabet a operands, x.Over alphabet := by
  intro x hx
  obtain ⟨o, ho, hmem⟩ := mem_derivedOperands_iff.mp hx
  exact (over_derive a (h o ho)).of_mem_operands j hmem

theorem not_isNode_of_mem_derivedOperands :
    ∀ x ∈ j.derivedOperands alphabet a operands, ¬j.IsNode x := by
  intro x hx
  obtain ⟨o, -, hmem⟩ := mem_derivedOperands_iff.mp hx
  exact j.not_isNode_of_mem_operands hmem

/-- Leaving out the unit and repetitions loses no operand of a derivative besides the unit. -/
theorem same_derivedOperands_arranged :
    j.Same (j.derivedOperands alphabet a (arrange alphabet (operands.filter (· ≠ j.unit))))
      (j.derivedOperands alphabet a operands) := by
  have hmem (x : Regex σ) (hx : x ≠ j.unit) :
      x ∈ j.derivedOperands alphabet a (arrange alphabet (operands.filter (· ≠ j.unit))) ↔
        x ∈ j.derivedOperands alphabet a operands := by
    rw [mem_derivedOperands_iff, mem_derivedOperands_iff]
    constructor
    · rintro ⟨o, ho, hmem⟩
      exact ⟨o, (j.mem_arranged_iff.mp ho).1, hmem⟩
    · rintro ⟨o, ho, hmem⟩
      refine ⟨o, j.mem_arranged_iff.mpr ⟨ho, ?_⟩, hmem⟩
      -- the unit was left out, but it is the only operand of its derivative
      rintro rfl
      rw [derive_unit, j.operands_of_not_isNode j.not_isNode_unit, List.mem_singleton] at hmem
      exact hx hmem
  exact ⟨hmem _ j.zero_ne_unit, fun _ => hmem⟩

variable (j a)

theorem simplify_derivedOperands (as bs : List (Regex σ)) (has : ∀ o ∈ as, o.Over alphabet)
    (hbs : ∀ o ∈ bs, o.Over alphabet) :
    j.simplify alphabet (j.combine alphabet (j.derivedOperands alphabet a as))
        (j.combine alphabet (j.derivedOperands alphabet a bs)) =
      j.combine alphabet (j.derivedOperands alphabet a (as ++ bs)) := by
  rw [derivedOperands, derivedOperands, derivedOperands, List.flatMap_append]
  exact j.simplify_combine (over_of_mem_derivedOperands has) (over_of_mem_derivedOperands hbs)
    not_isNode_of_mem_derivedOperands not_isNode_of_mem_derivedOperands

theorem combine_derivedOperands_singleton {r : Regex σ} (h : r.Normal alphabet) :
    j.combine alphabet (j.derivedOperands alphabet a [r]) = derive alphabet a r := by
  rw [derivedOperands, List.flatMap_singleton]
  exact j.combine_operands (normal_derive a h)

/-- The derivative of nested operands combines the derivatives of all of them. -/
theorem derive_nest {operands : List (Regex σ)} (hover : ∀ o ∈ operands, o.Over alphabet)
    (hnormal : ∀ o ∈ operands, o.Normal alphabet) :
    derive alphabet a (nest j.node j.unit operands) =
      j.combine alphabet (j.derivedOperands alphabet a operands) := by
  match operands with
  | [] =>
    rw [nest, derive_unit]
    exact j.combine_nil.symm
  | [r] => exact (j.combine_derivedOperands_singleton a (hnormal r (.head _))).symm
  | r :: s :: rs =>
    -- the derivative of `r` may be a node itself, and its operands then join those of the rest
    obtain ⟨hr, hrest⟩ := List.forall_mem_cons.mp hover
    have ih := derive_nest hrest (List.forall_mem_cons.mp hnormal).2
    rw [nest, derive_node, ih, ← j.combine_derivedOperands_singleton a (hnormal r (.head _))]
    exact j.simplify_derivedOperands a [r] (s :: rs) (List.forall_mem_singleton.mpr hr) hrest

/-- The derivative of combined operands combines the derivatives of all of them. -/
theorem derive_combine (hover : ∀ o ∈ operands, o.Over alphabet)
    (hnormal : ∀ o ∈ operands, o.Normal alphabet) :
    derive alphabet a (j.combine alphabet operands) =
      j.combine alphabet (j.derivedOperands alphabet a operands) := by
  by_cases hzero : j.zero ∈ operands
  · -- the zero is its own derivative and absorbs the other derivatives as well
    have hderived : j.zero ∈ j.derivedOperands alphabet a operands := by
      refine mem_derivedOperands_iff.mpr ⟨j.zero, hzero, ?_⟩
      rw [derive_zero, j.operands_of_not_isNode j.not_isNode_zero]
      exact List.mem_singleton_self _
    rw [j.combine_of_zero_mem hzero, j.combine_of_zero_mem hderived, derive_zero]
  · have harranged {p : Regex σ → Prop} (h : ∀ o ∈ operands, p o) :
        ∀ o ∈ arrange alphabet (operands.filter (· ≠ j.unit)), p o :=
      fun o ho => h o (j.mem_arranged_iff.mp ho).1
    rw [j.combine_of_zero_not_mem hzero, j.derive_nest a (harranged hover) (harranged hnormal)]
    exact j.combine_eq_of_same (over_of_mem_derivedOperands (harranged hover))
      (over_of_mem_derivedOperands hover) same_derivedOperands_arranged

theorem derive_simplify {x y : Regex σ} (hx : x.Over alphabet) (hy : y.Over alphabet)
    (hxnormal : x.Normal alphabet) (hynormal : y.Normal alphabet) :
    derive alphabet a (j.simplify alphabet x y) =
      j.simplify alphabet (derive alphabet a x) (derive alphabet a y) := by
  have hderive {z : Regex σ} (hz : z.Over alphabet) (h : z.Normal alphabet) : derive alphabet a z =
      j.combine alphabet (j.derivedOperands alphabet a (j.operands z)) := by
    rw [← j.derive_combine a (fun _ => hz.of_mem_operands j) fun _ => h.of_mem_operands j,
      j.combine_operands h]
  have hnormal : ∀ o ∈ j.operands x ++ j.operands y, o.Normal alphabet := fun _ ho =>
    (List.mem_append.mp ho).elim (hxnormal.of_mem_operands j) (hynormal.of_mem_operands j)
  calc derive alphabet a (j.simplify alphabet x y)
      = derive alphabet a (j.combine alphabet (j.operands x ++ j.operands y)) := by
        rw [j.simplify_eq_combine]
    _ = j.combine alphabet (j.derivedOperands alphabet a (j.operands x ++ j.operands y)) :=
        j.derive_combine a (j.over_of_mem_append hx hy) hnormal
    _ = j.simplify alphabet (derive alphabet a x) (derive alphabet a y) := by
        rw [hderive hx hxnormal, hderive hy hynormal]
        exact (j.simplify_derivedOperands a _ _ (fun _ => hx.of_mem_operands j)
          fun _ => hy.of_mem_operands j).symm

end Junction

section Complement

variable {r : Regex σ}

theorem Normal.simpleComplement_simpleComplement (h : r.Normal alphabet) :
    simpleComplement (simpleComplement r) = r := by
  cases r with
  | complement r => exact h.simpleComplement_eq
  | _ => rfl

/-- Where two complements cancel in the expression, they cancel in its derivative too. -/
theorem derive_simpleComplement (a : σ) (h : r.Normal alphabet) :
    derive alphabet a (simpleComplement r) = simpleComplement (derive alphabet a r) := by
  cases r with
  | complement r => exact (normal_derive a h.1).simpleComplement_simpleComplement.symm
  | _ => rfl

end Complement

open Function (IsFixedPt)

/-- Derivation by any symbol commutes with the simplifying constructors of union, intersection and
complement, of normal forms over the alphabet and up to equality of expressions. -/
theorem derive_commutes {x y : Regex σ} (hx : x.Over alphabet) (hy : y.Over alphabet)
    (hxnormal : IsFixedPt (normalize alphabet) x) (hynormal : IsFixedPt (normalize alphabet) y)
    (a : σ) :
    derive alphabet a (simpleOr alphabet x y) =
        simpleOr alphabet (derive alphabet a x) (derive alphabet a y) ∧
      derive alphabet a (simpleAnd alphabet x y) =
        simpleAnd alphabet (derive alphabet a x) (derive alphabet a y) ∧
      derive alphabet a (simpleComplement x) = simpleComplement (derive alphabet a x) := by
  rw [isFixedPt_normalize_iff] at hxnormal hynormal
  have hsimplify (j : Junction) := j.derive_simplify a hx hy hxnormal hynormal
  exact ⟨hsimplify .union, hsimplify .intersection, derive_simpleComplement a hxnormal⟩

/-- The operands of the union are different, and both derivatives by `false` are `~0`. -/
theorem derive_commutes_meeting :
    let alphabet : Alphabet Bool := ⟨[false, true], by decide⟩
    let x : Regex Bool := complement (symbol true)
    let y : Regex Bool := complement (concat (symbol true) (star (symbol false)))
    (x.Over alphabet ∧ y.Over alphabet ∧ IsFixedPt (normalize alphabet) x ∧
      IsFixedPt (normalize alphabet) y) ∧
    derive alphabet false (simpleOr alphabet x y) =
        simpleOr alphabet (derive alphabet false x) (derive alphabet false y) ∧
      derive alphabet false (simpleAnd alphabet x y) =
        simpleAnd alphabet (derive alphabet false x) (derive alphabet false y) ∧
      derive alphabet false (simpleComplement x) = simpleComplement (derive alphabet false x) := by
  intro alphabet x y
  have hx : x.Over alphabet := by decide
  have hy : y.Over alphabet := by decide
  have hxnormal : IsFixedPt (normalize alphabet) x := by decide
  have hynormal : IsFixedPt (normalize alphabet) y := by decide
  exact ⟨⟨hx, hy, hxnormal, hynormal⟩, derive_commutes hx hy hxnormal hynormal false⟩

end NameResolution.Regex

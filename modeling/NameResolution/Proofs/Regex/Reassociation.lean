import NameResolution.Regex.Tidy

namespace NameResolution.Regex

universe u
variable {σ : Type u}

def IsConcat : Regex σ → Prop
  | concat _ _ => True
  | _ => False

/-- The concatenation of `l` and `r`, where `l` is nested to the right. -/
def attach : Regex σ → Regex σ → Regex σ
  | concat a b, r => concat a (attach b r)
  | l, r => concat l r

def reassociate : Regex σ → Regex σ
  | emptyString => emptyString
  | emptySet => emptySet
  | symbol a => symbol a
  | star r => star r.reassociate
  | complement r => complement r.reassociate
  | or l r => or l.reassociate r.reassociate
  | and l r => and l.reassociate r.reassociate
  | concat l r => attach l.reassociate r.reassociate

/-- No concatenation is the left operand of one. -/
def RightNested : Regex σ → Prop
  | emptyString => True
  | emptySet => True
  | symbol _ => True
  | star r => r.RightNested
  | complement r => r.RightNested
  | or l r => l.RightNested ∧ r.RightNested
  | and l r => l.RightNested ∧ r.RightNested
  | concat l r => ¬l.IsConcat ∧ l.RightNested ∧ r.RightNested

theorem attach_of_not_isConcat {l : Regex σ} (hl : ¬l.IsConcat) (r : Regex σ) :
    attach l r = concat l r := by
  cases l <;> first | rfl | exact absurd trivial hl

theorem attach_assoc (l m r : Regex σ) : attach (attach l m) r = attach l (attach m r) := by
  induction l with
  | concat a b _ ih => rw [attach, attach, attach, ih]
  | _ => rfl

theorem reassociate_of_rightNested {r : Regex σ} (h : r.RightNested) : r.reassociate = r := by
  induction r with
  | star r ih | complement r ih => rw [reassociate, ih h]
  | or l r ihl ihr | and l r ihl ihr => rw [reassociate, ihl h.1, ihr h.2]
  | concat l r ihl ihr =>
    rw [reassociate, ihl h.2.1, ihr h.2.2, attach_of_not_isConcat h.1]
  | _ => rfl

section Normal

theorem rightNested_simpleConcat {l r : Regex σ} (hl : l.RightNested) (hr : r.RightNested) :
    (simpleConcat l r).RightNested := by
  fun_induction simpleConcat l r with
  | case1 | case2 => trivial
  | case3 => exact hr
  | case4 => exact hl
  | case5 l₁ l₂ r _ _ ih₂ ih₁ => exact ih₁ hl.2.1 (ih₂ hl.2.2 hr)
  | case6 l r _ _ _ _ hconcat =>
    refine ⟨fun h => ?_, hl, hr⟩
    cases l with
    | concat a b => exact hconcat a b rfl
    | _ => exact h

theorem rightNested_simpleStar {r : Regex σ} (hr : r.RightNested) :
    (simpleStar r).RightNested := by
  cases r <;> exact hr

theorem rightNested_simpleComplement {r : Regex σ} (hr : r.RightNested) :
    (simpleComplement r).RightNested := by
  cases r <;> exact hr

theorem rightNested_node (j : Junction) {l r : Regex σ} :
    (j.node l r).RightNested ↔ l.RightNested ∧ r.RightNested := by
  cases j <;> rfl

theorem rightNested_simplify [DecidableEq σ] {alphabet : Alphabet σ} (j : Junction)
    {l r : Regex σ} (hl : l.RightNested) (hr : r.RightNested) :
    (j.simplify alphabet l r).RightNested := by
  apply j.simplify_induction fun _ _ hl hr => (rightNested_node j).mpr ⟨hl, hr⟩
  · exact fun _ => j.operands_induction (rightNested_node j).mp hl
  · exact fun _ => j.operands_induction (rightNested_node j).mp hr

theorem rightNested_normalize [DecidableEq σ] (alphabet : Alphabet σ) (r : Regex σ) :
    (normalize alphabet r).RightNested := by
  induction r with
  | star r ih => exact rightNested_simpleStar ih
  | complement r ih => exact rightNested_simpleComplement ih
  | or l r ihl ihr =>
    exact rightNested_simplify .union ihl ihr
  | and l r ihl ihr =>
    exact rightNested_simplify .intersection ihl ihr
  | concat l r ihl ihr => exact rightNested_simpleConcat ihl ihr
  | _ => trivial

end Normal

end NameResolution.Regex

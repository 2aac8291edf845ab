import NameResolution.Regex.Tidy

namespace NameResolution.Regex

universe u
variable {σ : Type u}

def factors : Regex σ → Nat
  | concat l r => l.factors + r.factors
  | _ => 1

/-- A bound on the factors of all concatenations among the derivatives. -/
def span : Regex σ → Nat
  | star r => r.span + 1
  | complement r => r.span
  | or l r => max l.span r.span
  | and l r => max l.span r.span
  | concat l r => max (l.span + r.factors) r.span
  | _ => 1

def aboveAnd (n : Nat) : Regex σ → Nat
  | and _ _ => n
  | _ => n + 1

def aboveOr (n : Nat) : Regex σ → Nat
  | or _ _ => n + 1
  | _ => n

/-- Nesting of operators, where the operands of one chain of `or` or `and` lie side by side. -/
def depth : Regex σ → Nat
  | star r => r.depth + 1
  | complement r => r.depth + 1
  | or l r => max l.depth r.depth
  | and l r => max (aboveAnd l.depth l) (aboveAnd r.depth r)
  | concat l r => max (l.depth + 1) (aboveOr r.depth r)
  | _ => 0

def andDepth (r : Regex σ) : Nat := aboveAnd r.depth r

def tailDepth (r : Regex σ) : Nat := aboveOr r.depth r

theorem depth_and (l r : Regex σ) : (and l r).depth = max l.andDepth r.andDepth := rfl

theorem depth_concat (l r : Regex σ) : (concat l r).depth = max (l.depth + 1) r.tailDepth := rfl

theorem depth_le_andDepth (r : Regex σ) : r.depth ≤ r.andDepth := by
  cases r <;> simp [andDepth, aboveAnd]

theorem andDepth_le (r : Regex σ) : r.andDepth ≤ r.depth + 1 := by
  cases r <;> simp [andDepth, aboveAnd]

theorem andDepth_of_not_isAnd {r : Regex σ} (h : ¬r.IsAnd) : r.andDepth = r.depth + 1 := by
  cases r <;> first | rfl | exact absurd trivial h

theorem depth_le_tailDepth (r : Regex σ) : r.depth ≤ r.tailDepth := by
  cases r <;> simp [tailDepth, aboveOr]

theorem tailDepth_le (r : Regex σ) : r.tailDepth ≤ r.depth + 1 := by
  cases r <;> simp [tailDepth, aboveOr]

theorem span_pos (r : Regex σ) : 0 < r.span := by
  induction r <;> simp only [span] <;> omega

theorem factors_pos (r : Regex σ) : 0 < r.factors := by
  induction r <;> simp only [factors] <;> omega

theorem factors_le_span (r : Regex σ) : r.factors ≤ r.span := by
  have := span_pos r
  induction r with
  | concat l r ihl _ =>
    have := ihl (span_pos l)
    simp only [factors, span]
    omega
  | _ => exact this

/-- A size by which a node is as large as its larger side is no larger for any operand. -/
theorem Junction.le_of_mem_operands (j : Junction) {size : Regex σ → Nat}
    (hsize : ∀ l r, size (j.node l r) = max (size l) (size r)) {r o : Regex σ}
    (h : o ∈ j.operands r) : size o ≤ size r :=
  j.operands_induction (p := fun s => size s ≤ size r)
    (fun h => Nat.max_le.mp (hsize _ _ ▸ h)) (Nat.le_refl _) h

theorem span_node (j : Junction) (l r : Regex σ) : (j.node l r).span = max l.span r.span := by
  cases j <;> rfl

theorem depth_or (l r : Regex σ) : (or l r).depth = max l.depth r.depth := rfl

theorem factors_simpleConcat_le (l r : Regex σ) :
    (simpleConcat l r).factors ≤ l.factors + r.factors := by
  fun_induction simpleConcat l r <;> simp only [factors] at * <;> omega

theorem span_simpleConcat_le (l r : Regex σ) :
    (simpleConcat l r).span ≤ max (l.span + r.factors) r.span := by
  fun_induction simpleConcat l r with
  | case5 l₁ l₂ r _ _ ih₂ ih₁ =>
    have := factors_simpleConcat_le l₂ r
    simp only [span] at *
    omega
  | case1 r => have := span_pos r; simp only [span] at *; omega
  | _ => simp only [span, factors] at *; omega

theorem tailDepth_simpleConcat_le (l r : Regex σ) :
    (simpleConcat l r).tailDepth ≤ max (l.depth + 1) r.tailDepth := by
  fun_induction simpleConcat l r with
  | case1 => exact Nat.zero_le _
  | case2 => exact Nat.zero_le _
  | case3 => exact Nat.le_max_right _ _
  | case4 => exact Nat.le_trans (tailDepth_le _) (Nat.le_max_left _ _)
  | case5 l₁ l₂ r _ _ ih₂ ih₁ =>
    have := depth_le_tailDepth l₂
    rw [depth_concat]
    omega
  | case6 => exact Nat.le_refl _

theorem span_simpleComplement_le (r : Regex σ) : (simpleComplement r).span ≤ r.span := by
  cases r <;> exact Nat.le_refl _

theorem depth_simpleComplement_le (r : Regex σ) : (simpleComplement r).depth ≤ r.depth + 1 := by
  cases r with
  | complement r => simp only [simpleComplement, depth]; omega
  | _ => exact Nat.le_refl _

variable [DecidableEq σ] (alphabet : Alphabet σ)

/-- By such a size, simplification makes nothing larger. -/
theorem Junction.simplify_le (j : Junction) {size : Regex σ → Nat}
    (hsize : ∀ l r, size (j.node l r) = max (size l) (size r)) (l r : Regex σ) :
    size (j.simplify alphabet l r) ≤ max (size l) (size r) := by
  apply j.simplify_induction (p := fun x => size x ≤ max (size l) (size r))
  · intro x y hx hy
    rw [hsize]
    exact Nat.max_le.mpr ⟨hx, hy⟩
  · exact fun o ho => Nat.le_trans (j.le_of_mem_operands hsize ho) (Nat.le_max_left _ _)
  · exact fun o ho => Nat.le_trans (j.le_of_mem_operands hsize ho) (Nat.le_max_right _ _)

theorem span_simpleOr_le (l r : Regex σ) : (simpleOr alphabet l r).span ≤ max l.span r.span :=
  Junction.union.simplify_le alphabet (span_node .union) l r

theorem span_simpleAnd_le (l r : Regex σ) : (simpleAnd alphabet l r).span ≤ max l.span r.span :=
  Junction.intersection.simplify_le alphabet (span_node .intersection) l r

theorem depth_simpleOr_le (l r : Regex σ) :
    (simpleOr alphabet l r).depth ≤ max l.depth r.depth :=
  Junction.union.simplify_le alphabet depth_or l r

theorem andDepth_simpleAnd_le (l r : Regex σ) :
    (simpleAnd alphabet l r).andDepth ≤ max l.andDepth r.andDepth :=
  Junction.intersection.simplify_le alphabet depth_and l r

theorem span_derive_le (a : σ) (r : Regex σ) : (derive alphabet a r).span ≤ r.span := by
  induction r with
  | emptyString => exact Nat.le_refl _
  | emptySet => exact Nat.le_refl _
  | symbol b => unfold derive; split <;> exact Nat.le_refl _
  | star r ih =>
    have := span_simpleConcat_le (derive alphabet a r) (star r)
    simp only [span, factors, derive] at *
    omega
  | complement r ih => exact Nat.le_trans (span_simpleComplement_le _) ih
  | or l r ihl ihr =>
    have := span_simpleOr_le alphabet (derive alphabet a l) (derive alphabet a r)
    simp only [span, derive]
    omega
  | and l r ihl ihr =>
    have := span_simpleAnd_le alphabet (derive alphabet a l) (derive alphabet a r)
    simp only [span, derive]
    omega
  | concat l r ihl ihr =>
    have := span_simpleConcat_le (derive alphabet a l) r
    have := span_simpleOr_le alphabet (simpleConcat (derive alphabet a l) r) (derive alphabet a r)
    simp only [span, derive]
    split <;> omega

theorem depth_derive_le (a : σ) (r : Regex σ) :
    (derive alphabet a r).depth ≤ r.depth ∧ (derive alphabet a r).andDepth ≤ r.andDepth := by
  have hdepth {r : Regex σ} (hr : ¬r.IsAnd) (h : (derive alphabet a r).depth ≤ r.depth) :
      (derive alphabet a r).depth ≤ r.depth ∧ (derive alphabet a r).andDepth ≤ r.andDepth :=
    ⟨h, Nat.le_trans (andDepth_le _) (andDepth_of_not_isAnd hr ▸ Nat.succ_le_succ h)⟩
  induction r with
  | emptyString => exact hdepth id (Nat.le_refl _)
  | emptySet => exact hdepth id (Nat.le_refl _)
  | symbol b => exact hdepth id (by unfold derive; split <;> exact Nat.le_refl _)
  | star r ih =>
    refine hdepth id ?_
    have h := tailDepth_simpleConcat_le (derive alphabet a r) (star r)
    have := depth_le_tailDepth (simpleConcat (derive alphabet a r) (star r))
    have e : (star r).tailDepth = r.depth + 1 := rfl
    simp only [depth, derive]
    omega
  | complement r ih =>
    refine hdepth id (Nat.le_trans (depth_simpleComplement_le _) ?_)
    exact Nat.succ_le_succ ih.1
  | or l r ihl ihr =>
    refine hdepth id ?_
    have := depth_simpleOr_le alphabet (derive alphabet a l) (derive alphabet a r)
    simp only [depth, derive]
    omega
  | and l r ihl ihr =>
    have h := andDepth_simpleAnd_le alphabet (derive alphabet a l) (derive alphabet a r)
    have := depth_le_andDepth (simpleAnd alphabet (derive alphabet a l) (derive alphabet a r))
    have e : (and l r).andDepth = max l.andDepth r.andDepth := rfl
    rw [depth_and, e]
    simp only [derive]
    omega
  | concat l r ihl ihr =>
    refine hdepth id ?_
    have h := tailDepth_simpleConcat_le (derive alphabet a l) r
    have := depth_le_tailDepth (simpleConcat (derive alphabet a l) r)
    have := depth_le_tailDepth r
    have := depth_simpleOr_le alphabet (simpleConcat (derive alphabet a l) r) (derive alphabet a r)
    rw [depth_concat]
    simp only [derive]
    split <;> omega

end NameResolution.Regex

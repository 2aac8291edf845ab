import NameResolution.Regex.Junction

namespace NameResolution.Regex

universe u
variable {σ : Type u}

/-- Operands of `or` and `and` nest to the right and are pairwise different. -/
def Tidy : Regex σ → Prop
  | emptyString => True
  | emptySet => True
  | symbol _ => True
  | star r => r.Tidy
  | complement r => r.Tidy
  | or l r => l.Tidy ∧ r.Tidy ∧ ¬l.IsOr ∧ l ∉ r.orOperands
  | and l r => l.Tidy ∧ r.Tidy ∧ ¬l.IsAnd ∧ l ∉ r.andOperands
  | concat l r => l.Tidy ∧ r.Tidy

section Over

variable {alphabet : Alphabet σ}

theorem over_node (j : Junction) {l r : Regex σ} :
    (j.node l r).Over alphabet ↔ l.Over alphabet ∧ r.Over alphabet := by
  cases j <;> simp only [Junction.node, Over, symbols, List.mem_append, or_imp, forall_and]

theorem over_complement {r : Regex σ} : (complement r).Over alphabet ↔ r.Over alphabet := Iff.rfl

theorem over_unit (j : Junction) : (j.unit : Regex σ).Over alphabet := by
  cases j <;> exact fun _ ha => absurd ha List.not_mem_nil

theorem over_zero (j : Junction) : (j.zero : Regex σ).Over alphabet := by
  cases j <;> exact fun _ ha => absurd ha List.not_mem_nil

theorem over_concat {l r : Regex σ} :
    (concat l r).Over alphabet ↔ l.Over alphabet ∧ r.Over alphabet := by
  simp only [Over, symbols, List.mem_append, or_imp, forall_and]

theorem Over.of_mem_operands (j : Junction) {r o : Regex σ} (hr : r.Over alphabet)
    (h : o ∈ j.operands r) : o.Over alphabet :=
  j.operands_induction (p := Over alphabet) (over_node j).mp hr h

end Over

section Nodes

variable (j : Junction)

theorem tidy_node {l r : Regex σ} :
    (j.node l r).Tidy ↔ l.Tidy ∧ r.Tidy ∧ ¬j.IsNode l ∧ l ∉ j.operands r := by
  cases j <;> rfl

theorem Tidy.of_mem_operands {r o : Regex σ} (hr : r.Tidy) (h : o ∈ j.operands r) : o.Tidy := by
  apply j.operands_induction _ hr h
  intro l r h
  obtain ⟨hl, hr, -⟩ := (tidy_node j).mp h
  exact ⟨hl, hr⟩

theorem Tidy.nodup_operands {r : Regex σ} (hr : r.Tidy) : (j.operands r).Nodup := by
  induction r using j.induction with
  | single r h => simp [j.operands_of_not_isNode h]
  | node l r _ ihr =>
    obtain ⟨-, hr, hl, hmem⟩ := (tidy_node j).mp hr
    rw [j.operands_node, j.operands_of_not_isNode hl]
    exact List.nodup_cons.mpr ⟨hmem, ihr hr⟩

theorem Tidy.nest_operands {r : Regex σ} (h : r.Tidy) :
    nest j.node j.unit (j.operands r) = r := by
  apply j.nest_operands _ h
  intro l r h
  obtain ⟨-, hr, hl, -⟩ := (tidy_node j).mp h
  exact ⟨hl, hr⟩

theorem tidy_nest {unit : Regex σ} (hunit : unit.Tidy) {operands : List (Regex σ)}
    (hnd : operands.Nodup) (ht : ∀ o ∈ operands, o.Tidy) (hn : ∀ o ∈ operands, ¬j.IsNode o) :
    (nest j.node unit operands).Tidy := by
  match operands with
  | [] => exact hunit
  | [r] => exact ht r (.head _)
  | r :: s :: rs =>
    have hnd' := List.nodup_cons.mp hnd
    have hn' : ∀ o ∈ s :: rs, ¬j.IsNode o := fun o ho => hn o (.tail _ ho)
    have hrest := tidy_nest hunit hnd'.2 (fun o ho => ht o (.tail _ ho)) hn'
    refine (tidy_node j).mpr ⟨ht r (.head _), hrest, hn r (.head _), ?_⟩
    rw [j.operands_nest (by simp) hn']
    exact hnd'.1

theorem tidy_unit : (j.unit : Regex σ).Tidy := by
  cases j <;> trivial

theorem tidy_zero : (j.zero : Regex σ).Tidy := by
  cases j <;> trivial

end Nodes

section Constructors

/-- What units, zeros and `concat` keep, simplified concatenation keeps. -/
theorem simpleConcat_induction {p : Regex σ → Prop} (hzero : p emptySet)
    (hleft : ∀ l r, p (concat l r) → p l) (hright : ∀ l r, p (concat l r) → p r)
    (hconcat : ∀ l r, p l → p r → p (concat l r)) {l r : Regex σ} (hl : p l) (hr : p r) :
    p (simpleConcat l r) := by
  fun_induction simpleConcat l r with
  | case1 => exact hzero
  | case2 => exact hzero
  | case3 => exact hr
  | case4 => exact hl
  | case5 l₁ l₂ r _ _ ih₂ ih₁ => exact ih₁ (hleft _ _ hl) (ih₂ (hright _ _ hl) hr)
  | case6 => exact hconcat _ _ hl hr

variable [DecidableEq σ] {alphabet : Alphabet σ}

omit [DecidableEq σ] in
theorem over_simpleConcat {l r : Regex σ} (hl : l.Over alphabet) (hr : r.Over alphabet) :
    (simpleConcat l r).Over alphabet :=
  simpleConcat_induction (p := Over alphabet) (fun _ h => absurd h List.not_mem_nil)
    (fun _ _ h => (over_concat.mp h).1) (fun _ _ h => (over_concat.mp h).2)
    (fun _ _ h h' => over_concat.mpr ⟨h, h'⟩) hl hr

theorem over_simplify (j : Junction) {l r : Regex σ} (hl : l.Over alphabet)
    (hr : r.Over alphabet) : (j.simplify alphabet l r).Over alphabet :=
  j.simplify_induction (p := Over alphabet) (fun _ _ h h' => (over_node j).mpr ⟨h, h'⟩)
    (fun _ => hl.of_mem_operands j) (fun _ => hr.of_mem_operands j)

omit [DecidableEq σ] in
theorem over_simpleStar {r : Regex σ} (hr : r.Over alphabet) : (simpleStar r).Over alphabet := by
  cases r <;> exact hr

omit [DecidableEq σ] in
theorem over_simpleComplement {r : Regex σ} (hr : r.Over alphabet) :
    (simpleComplement r).Over alphabet := by
  cases r <;> exact hr

theorem over_normalize {r : Regex σ} (hr : r.Over alphabet) : (normalize alphabet r).Over alphabet := by
  induction r with
  | star r ih => exact over_simpleStar (ih hr)
  | complement r ih => exact over_simpleComplement (ih hr)
  | or l r ihl ihr =>
    have ⟨hl, hr⟩ := (over_node .union).mp hr
    exact over_simplify .union (ihl hl) (ihr hr)
  | and l r ihl ihr =>
    have ⟨hl, hr⟩ := (over_node .intersection).mp hr
    exact over_simplify .intersection (ihl hl) (ihr hr)
  | concat l r ihl ihr =>
    have ⟨hl, hr⟩ := over_concat.mp hr
    exact over_simpleConcat (ihl hl) (ihr hr)
  | _ => exact hr

theorem over_derive (a : σ) {r : Regex σ} (hr : r.Over alphabet) :
    (derive alphabet a r).Over alphabet := by
  induction r with
  | symbol b =>
    unfold derive
    split <;> exact fun _ h => absurd h List.not_mem_nil
  | star r ih => exact over_simpleConcat (ih hr) hr
  | complement r ih => exact over_simpleComplement (ih hr)
  | or l r ihl ihr =>
    have ⟨hl, hr⟩ := (over_node .union).mp hr
    exact over_simplify .union (ihl hl) (ihr hr)
  | and l r ihl ihr =>
    have ⟨hl, hr⟩ := (over_node .intersection).mp hr
    exact over_simplify .intersection (ihl hl) (ihr hr)
  | concat l r ihl ihr =>
    have ⟨hl, hr⟩ := over_concat.mp hr
    have hleft := over_simpleConcat (ihl hl) hr
    simp only [derive]
    split
    · exact over_simplify .union hleft (ihr hr)
    · exact hleft
  | _ => exact fun _ h => absurd h List.not_mem_nil

omit [DecidableEq σ] in
theorem tidy_simpleConcat {l r : Regex σ} (hl : l.Tidy) (hr : r.Tidy) : (simpleConcat l r).Tidy :=
  simpleConcat_induction (p := Tidy) trivial (fun _ _ h => h.1) (fun _ _ h => h.2)
    (fun _ _ h h' => ⟨h, h'⟩) hl hr

theorem tidy_simplify (j : Junction) {l r : Regex σ} (hl : l.Tidy) (hr : r.Tidy)
    (ol : l.Over alphabet) (or' : r.Over alphabet) : (j.simplify alphabet l r).Tidy := by
  rw [j.simplify_eq_combine]
  by_cases hzero : j.zero ∈ j.operands l ++ j.operands r
  · rw [j.combine_of_zero_mem hzero]
    exact tidy_zero j
  · rw [j.combine_of_zero_not_mem hzero]
    apply tidy_nest j (tidy_unit j)
    · refine nodup_arrange fun o ho => ?_
      exact (List.mem_append.mp (List.mem_filter.mp ho).1).elim (ol.of_mem_operands j)
        (or'.of_mem_operands j)
    · intro o ho
      exact (j.mem_operands_of_mem_arranged ho).elim (hl.of_mem_operands j) (hr.of_mem_operands j)
    · exact fun o => j.not_isNode_of_mem_arranged

omit [DecidableEq σ] in
theorem tidy_simpleStar {r : Regex σ} (hr : r.Tidy) : (simpleStar r).Tidy := by
  cases r <;> exact hr

omit [DecidableEq σ] in
theorem tidy_simpleComplement {r : Regex σ} (hr : r.Tidy) : (simpleComplement r).Tidy := by
  cases r <;> exact hr

theorem tidy_normalize {r : Regex σ} (h : r.Over alphabet) : (normalize alphabet r).Tidy := by
  induction r with
  | star r ih => exact tidy_simpleStar (ih h)
  | complement r ih => exact tidy_simpleComplement (ih h)
  | or l r ihl ihr =>
    have ⟨hl, hr⟩ := (over_node .union).mp h
    exact tidy_simplify .union (ihl hl) (ihr hr) (over_normalize hl) (over_normalize hr)
  | and l r ihl ihr =>
    have ⟨hl, hr⟩ := (over_node .intersection).mp h
    exact tidy_simplify .intersection (ihl hl) (ihr hr) (over_normalize hl) (over_normalize hr)
  | concat l r ihl ihr =>
    have ⟨hl, hr⟩ := over_concat.mp h
    exact tidy_simpleConcat (ihl hl) (ihr hr)
  | _ => exact trivial

theorem tidy_derive (a : σ) {r : Regex σ} (h : r.Over alphabet) (ht : r.Tidy) :
    (derive alphabet a r).Tidy := by
  induction r with
  | symbol b =>
    unfold derive
    split <;> exact trivial
  | star r ih => exact tidy_simpleConcat (ih h ht) ht
  | complement r ih => exact tidy_simpleComplement (ih h ht)
  | or l r ihl ihr =>
    have ⟨hl, hr⟩ := (over_node .union).mp h
    exact tidy_simplify .union (ihl hl ht.1) (ihr hr ht.2.1) (over_derive a hl) (over_derive a hr)
  | and l r ihl ihr =>
    have ⟨hl, hr⟩ := (over_node .intersection).mp h
    exact tidy_simplify .intersection (ihl hl ht.1) (ihr hr ht.2.1) (over_derive a hl)
      (over_derive a hr)
  | concat l r ihl ihr =>
    have ⟨hl, hr⟩ := over_concat.mp h
    have hc := tidy_simpleConcat (ihl hl ht.1) ht.2
    simp only [derive]
    split
    · exact tidy_simplify .union hc (ihr hr ht.2) (over_simpleConcat (over_derive a hl) hr)
        (over_derive a hr)
    · exact hc
  | _ => exact trivial

end Constructors

end NameResolution.Regex

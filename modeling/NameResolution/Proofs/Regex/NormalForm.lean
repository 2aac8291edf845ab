import NameResolution.Proofs.Automaton.Residuals
import NameResolution.Proofs.Regex.Reassociation
import NameResolution.Regex.Junction

namespace NameResolution.Regex

universe u
variable {σ : Type u}

section DropRepeats

variable {α : Type u} [DecidableEq α]

theorem dropRepeats_sublist (l : List α) : (dropRepeats l).Sublist l := by
  fun_induction dropRepeats l with
  | case1 => exact .slnil
  | case2 x => exact .refl [x]
  | case3 x xs ih => exact ih.cons x
  | case4 x y xs _ ih => exact ih.cons_cons x

theorem head?_dropRepeats (l : List α) : (dropRepeats l).head? = l.head? := by
  fun_induction dropRepeats l with
  | case3 x xs ih => exact ih
  | _ => rfl

theorem isChain_dropRepeats (l : List α) : (dropRepeats l).IsChain (· ≠ ·) := by
  fun_induction dropRepeats l with
  | case1 => exact .nil
  | case2 x => exact .singleton x
  | case3 x xs ih => exact ih
  | case4 x y xs hxy ih =>
    refine List.isChain_cons.mpr ⟨fun z hz => ?_, ih⟩
    rw [head?_dropRepeats] at hz
    exact Option.some.inj hz ▸ hxy

theorem dropRepeats_eq_self {l : List α} (h : l.IsChain (· ≠ ·)) : dropRepeats l = l := by
  fun_induction dropRepeats l with
  | case3 x xs _ => exact absurd rfl (List.isChain_cons_cons.mp h).1
  | case4 x y xs _ ih => rw [ih (List.isChain_cons_cons.mp h).2]
  | _ => rfl

end DropRepeats

variable [DecidableEq σ]

structure Junction.Arranged (j : Junction) (alphabet : Alphabet σ) (operands : List (Regex σ)) :
    Prop where
  sorted : operands.Pairwise fun r s => le alphabet r s = true
  noRepeats : operands.IsChain (· ≠ ·)
  unit_not_mem : j.unit ∉ operands
  zero_not_mem : j.zero ∉ operands

/-- No constructor has operands that its simplification would change. -/
def Normal (alphabet : Alphabet σ) : Regex σ → Prop
  | emptyString => True
  | emptySet => True
  | symbol _ => True
  | star r => r.Normal alphabet ∧ r ≠ emptySet ∧ r ≠ emptyString ∧ ∀ s, r ≠ star s
  | complement r => r.Normal alphabet ∧ ∀ s, r ≠ complement s
  | or l r => l.Normal alphabet ∧ r.Normal alphabet ∧ ¬l.IsOr ∧
      Junction.union.Arranged alphabet (l :: r.orOperands)
  | and l r => l.Normal alphabet ∧ r.Normal alphabet ∧ ¬l.IsAnd ∧
      Junction.intersection.Arranged alphabet (l :: r.andOperands)
  | concat l r => l.Normal alphabet ∧ r.Normal alphabet ∧ ¬l.IsConcat ∧
      (l ≠ emptySet ∧ l ≠ emptyString) ∧ r ≠ emptySet ∧ r ≠ emptyString

variable {alphabet : Alphabet σ}

theorem pairwise_arrange (operands : List (Regex σ)) :
    (arrange alphabet operands).Pairwise fun r s => le alphabet r s = true :=
  (List.pairwise_mergeSort (le_trans alphabet) (le_total alphabet) operands).sublist
    (dropRepeats_sublist _)

/-- A stable sort leaves what is in order, and only neighbours that are equal are dropped. -/
theorem arrange_eq_self {operands : List (Regex σ)}
    (hsorted : operands.Pairwise fun r s => le alphabet r s = true)
    (hchain : operands.IsChain (· ≠ ·)) : arrange alphabet operands = operands := by
  rw [arrange, List.mergeSort_of_pairwise hsorted, dropRepeats_eq_self hchain]

namespace Junction

variable {j : Junction}

theorem arranged_arrange {operands : List (Regex σ)} (h : j.zero ∉ operands) :
    j.Arranged alphabet (arrange alphabet (operands.filter (· ≠ j.unit))) where
  sorted := pairwise_arrange _
  noRepeats := isChain_dropRepeats _
  unit_not_mem hunit := (j.mem_arranged_iff.mp hunit).2 rfl
  zero_not_mem hzero := h (j.mem_arranged_iff.mp hzero).1

namespace Arranged

variable {operands : List (Regex σ)}

theorem tail {o : Regex σ} (h : j.Arranged alphabet (o :: operands)) :
    j.Arranged alphabet operands where
  sorted := (List.pairwise_cons.mp h.sorted).2
  noRepeats := (List.isChain_cons.mp h.noRepeats).2
  unit_not_mem hunit := h.unit_not_mem (.tail _ hunit)
  zero_not_mem hzero := h.zero_not_mem (.tail _ hzero)

theorem combine_eq (h : j.Arranged alphabet operands) :
    j.combine alphabet operands = nest j.node j.unit operands := by
  have hfilter : operands.filter (· ≠ j.unit) = operands :=
    List.filter_eq_self.mpr fun o ho => decide_eq_true fun e => h.unit_not_mem (e ▸ ho)
  rw [j.combine_of_zero_not_mem h.zero_not_mem, hfilter, arrange_eq_self h.sorted h.noRepeats]

end Arranged

end Junction

section Nodes

variable {j : Junction} {l r : Regex σ}

theorem normal_node (j : Junction) {l r : Regex σ} : (j.node l r).Normal alphabet ↔
    l.Normal alphabet ∧ r.Normal alphabet ∧ ¬j.IsNode l ∧
      j.Arranged alphabet (l :: j.operands r) := by
  cases j <;> rfl

theorem normal_unit (j : Junction) : (j.unit : Regex σ).Normal alphabet := by
  cases j with
  | union => trivial
  | intersection => exact ⟨trivial, nofun⟩

theorem normal_zero (j : Junction) : (j.zero : Regex σ).Normal alphabet := by
  cases j with
  | union => exact ⟨trivial, nofun⟩
  | intersection => trivial

theorem Normal.of_mem_operands (j : Junction) (h : r.Normal alphabet) {o : Regex σ}
    (ho : o ∈ j.operands r) : o.Normal alphabet := by
  apply j.operands_induction (p := Normal alphabet) _ h ho
  intro l r h
  obtain ⟨hl, hr, -⟩ := (normal_node j).mp h
  exact ⟨hl, hr⟩

theorem Normal.nest_operands (j : Junction) (h : r.Normal alphabet) :
    nest j.node j.unit (j.operands r) = r := by
  apply j.nest_operands (p := Normal alphabet) _ h
  intro l r h
  obtain ⟨-, hr, hl, -⟩ := (normal_node j).mp h
  exact ⟨hl, hr⟩

theorem normal_nest {operands : List (Regex σ)} (h : j.Arranged alphabet operands)
    (hnormal : ∀ o ∈ operands, o.Normal alphabet) (hsingle : ∀ o ∈ operands, ¬j.IsNode o) :
    (nest j.node j.unit operands).Normal alphabet := by
  match operands with
  | [] => exact normal_unit j
  | [r] => exact hnormal r (.head _)
  | r :: s :: rs =>
    have hsingle' : ∀ o ∈ s :: rs, ¬j.IsNode o := fun o ho => hsingle o (.tail _ ho)
    have hrest := normal_nest h.tail (fun o ho => hnormal o (.tail _ ho)) hsingle'
    refine (normal_node j).mpr ⟨hnormal r (.head _), hrest, hsingle r (.head _), ?_⟩
    rw [j.operands_nest (by simp) hsingle']
    exact h

theorem normal_simplify (j : Junction) (hl : l.Normal alphabet) (hr : r.Normal alphabet) :
    (j.simplify alphabet l r).Normal alphabet := by
  rw [j.simplify_eq_combine]
  by_cases hzero : j.zero ∈ j.operands l ++ j.operands r
  · rw [j.combine_of_zero_mem hzero]
    exact normal_zero j
  · rw [j.combine_of_zero_not_mem hzero]
    apply normal_nest (Junction.arranged_arrange hzero)
    · intro o ho
      exact (j.mem_operands_of_mem_arranged ho).elim (hl.of_mem_operands j) (hr.of_mem_operands j)
    · exact fun o => j.not_isNode_of_mem_arranged

theorem Normal.simplify_eq (j : Junction) (h : (j.node l r).Normal alphabet) :
    j.simplify alphabet l r = j.node l r := by
  have hnest := h.nest_operands j
  obtain ⟨-, -, hl, harranged⟩ := (normal_node j).mp h
  rw [j.operands_node, j.operands_of_not_isNode hl, List.singleton_append] at hnest
  rw [j.simplify_eq_combine, j.operands_of_not_isNode hl, List.singleton_append, harranged.combine_eq]
  exact hnest

end Nodes

section Constructors

variable {l r : Regex σ}

theorem normal_simpleStar (h : r.Normal alphabet) : (simpleStar r).Normal alphabet := by
  cases r with
  | emptySet | emptyString => trivial
  | star r => exact h
  | _ => exact ⟨h, nofun, nofun, nofun⟩

theorem Normal.simpleStar_eq (h : (star r).Normal alphabet) : simpleStar r = star r := by
  obtain ⟨-, hset, hstring, hstar⟩ := h
  cases r with
  | emptySet => exact absurd rfl hset
  | emptyString => exact absurd rfl hstring
  | star r => exact absurd rfl (hstar r)
  | _ => rfl

theorem normal_simpleComplement (h : r.Normal alphabet) :
    (simpleComplement r).Normal alphabet := by
  cases r with
  | complement r => exact h.1
  | _ => exact ⟨h, nofun⟩

theorem Normal.simpleComplement_eq (h : (complement r).Normal alphabet) :
    simpleComplement r = complement r := by
  cases r with
  | complement r => exact absurd rfl (h.2 r)
  | _ => rfl

/-- Re-association exposes the second factor of `l` to `r`, and both are normal. -/
theorem normal_simpleConcat (hl : l.Normal alphabet) (hr : r.Normal alphabet) :
    (simpleConcat l r).Normal alphabet := by
  fun_induction simpleConcat l r with
  | case1 | case2 => trivial
  | case3 => exact hr
  | case4 => exact hl
  | case5 l₁ l₂ r _ _ ih₂ ih₁ => exact ih₁ hl.1 (ih₂ hl.2.1 hr)
  | case6 l r hlset hrset hlstring hrstring hconcat =>
    refine ⟨hl, hr, fun h => ?_, ⟨hlset, hlstring⟩, hrset, hrstring⟩
    cases l with
    | concat a b => exact hconcat a b rfl
    | _ => exact h

omit [DecidableEq σ] in
theorem simpleConcat_eq_concat (hconcat : ¬l.IsConcat) (hl : l ≠ emptySet ∧ l ≠ emptyString)
    (hr : r ≠ emptySet ∧ r ≠ emptyString) : simpleConcat l r = concat l r := by
  fun_cases simpleConcat l r with
  | case1 => exact absurd rfl hl.1
  | case2 => exact absurd rfl hr.1
  | case3 => exact absurd rfl hl.2
  | case4 => exact absurd rfl hr.2
  | case5 => exact absurd trivial hconcat
  | case6 => rfl

end Constructors

theorem normal_normalize (r : Regex σ) : (normalize alphabet r).Normal alphabet := by
  induction r with
  | star r ih => exact normal_simpleStar ih
  | complement r ih => exact normal_simpleComplement ih
  | or l r ihl ihr => exact normal_simplify .union ihl ihr
  | and l r ihl ihr => exact normal_simplify .intersection ihl ihr
  | concat l r ihl ihr => exact normal_simpleConcat ihl ihr
  | _ => trivial

theorem Normal.normalize_eq {r : Regex σ} (h : r.Normal alphabet) : normalize alphabet r = r := by
  induction r with
  | star r ih => rw [normalize, ih h.1, h.simpleStar_eq]
  | complement r ih => rw [normalize, ih h.1, h.simpleComplement_eq]
  | or l r ihl ihr =>
    rw [normalize, ihl h.1, ihr h.2.1]
    exact simplify_eq .union h
  | and l r ihl ihr =>
    rw [normalize, ihl h.1, ihr h.2.1]
    exact simplify_eq .intersection h
  | concat l r ihl ihr =>
    obtain ⟨hl, hr, hconcat, hl', hr'⟩ := h
    rw [normalize, ihl hl, ihr hr, simpleConcat_eq_concat hconcat hl' hr']
  | _ => rfl

/-- Normal forms are what normalisation leaves as it is. -/
theorem isFixedPt_normalize_iff {r : Regex σ} :
    Function.IsFixedPt (normalize alphabet) r ↔ r.Normal alphabet :=
  ⟨fun h => h.eq ▸ normal_normalize r, Normal.normalize_eq⟩

theorem normal_derive (a : σ) {r : Regex σ} (h : r.Normal alphabet) :
    (derive alphabet a r).Normal alphabet := by
  induction r with
  | symbol b =>
    rw [derive]
    split <;> trivial
  | star r ih => exact normal_simpleConcat (ih h.1) h
  | complement r ih => exact normal_simpleComplement (ih h.1)
  | or l r ihl ihr => exact normal_simplify .union (ihl h.1) (ihr h.2.1)
  | and l r ihl ihr => exact normal_simplify .intersection (ihl h.1) (ihr h.2.1)
  | concat l r ihl ihr =>
    have hleft := normal_simpleConcat (ihl h.1) h.2.1
    simp only [derive]
    split
    · exact normal_simplify .union hleft (ihr h.2.1)
    · exact hleft
  | _ => trivial

theorem normal_of_mem_residuals {regex : Regex σ} (h : regex.Over alphabet) {r : Regex σ}
    (hr : r ∈ regex.residuals alphabet h) : r.Normal alphabet := by
  have hreachable := mem_explore.mp hr
  induction hreachable with
  | refl => exact normal_normalize regex
  | step hx hy ih =>
    obtain ⟨a, -, rfl⟩ := List.mem_map.mp hy
    exact normal_derive a (ih (mem_explore.mpr hx))

theorem normal_residual {regex : Regex σ} (h : regex.Over alphabet)
    (i : Fin (regex.compile alphabet h).size) :
    ((regex.compile alphabet h).states.get i).residual.Normal alphabet := by
  have hresidual := Matcher.residual_eq_get (⟨i⟩ : Matcher (regex.compile alphabet h))
  change (Matcher.residual ⟨i⟩).Normal alphabet
  rw [hresidual]
  exact normal_of_mem_residuals h (List.get_mem _ _)

open Function (IsFixedPt)

/-- Normalisation leaves exactly the normal forms as they are and gives nothing else. Of normal
forms, the simplifying constructors and derivatives by any symbol make normal forms, and in every
state of a compiled automaton there is one. -/
theorem normalForms_closed (alphabet : Alphabet σ) :
    (∀ r, IsFixedPt (normalize alphabet) r ↔ r.Normal alphabet) ∧
    (∀ r, IsFixedPt (normalize alphabet) (normalize alphabet r)) ∧
    (∀ r, IsFixedPt (normalize alphabet) r →
      IsFixedPt (normalize alphabet) (simpleStar r) ∧
      IsFixedPt (normalize alphabet) (simpleComplement r) ∧
      ∀ a, IsFixedPt (normalize alphabet) (derive alphabet a r)) ∧
    (∀ l r, IsFixedPt (normalize alphabet) l → IsFixedPt (normalize alphabet) r →
      IsFixedPt (normalize alphabet) (simpleConcat l r) ∧
      IsFixedPt (normalize alphabet) (simpleOr alphabet l r) ∧
      IsFixedPt (normalize alphabet) (simpleAnd alphabet l r)) ∧
    ∀ (regex : Regex σ) (automaton : Automaton σ), regex.compile? alphabet = .ok automaton →
      ∀ i : Fin automaton.size, IsFixedPt (normalize alphabet) (automaton.states.get i).residual := by
  refine ⟨fun _ => isFixedPt_normalize_iff, ?_⟩
  -- the fixed points are the normal forms, which each constructor keeps
  simp only [isFixedPt_normalize_iff]
  refine ⟨normal_normalize, ?_, ?_, ?_⟩
  · intro r h
    exact ⟨normal_simpleStar h, normal_simpleComplement h, fun a => normal_derive a h⟩
  · intro l r hl hr
    exact ⟨normal_simpleConcat hl hr, normal_simplify .union hl hr,
      normal_simplify .intersection hl hr⟩
  · intro regex automaton hcompile i
    unfold compile? at hcompile
    split at hcompile
    · next hregex =>
      cases hcompile
      exact normal_residual hregex i
    · cases hcompile

/-- Symbols outside the alphabet: the operands of the union stay in the order in which they stand,
and its third operand repeats the first. -/
theorem normalForms_closed_outside :
    let alphabet : Alphabet Bool := .empty
    let r : Regex Bool := or (symbol true) (or (symbol false) (symbol true))
    let s : Regex Bool := concat (symbol true) (star (symbol false))
    (IsFixedPt (normalize alphabet) r ∧ IsFixedPt (normalize alphabet) s) ∧
      (IsFixedPt (normalize alphabet) (simpleStar r) ∧
        IsFixedPt (normalize alphabet) (simpleComplement r) ∧
        ∀ a, IsFixedPt (normalize alphabet) (derive alphabet a r)) ∧
      IsFixedPt (normalize alphabet) (simpleConcat s r) ∧
      IsFixedPt (normalize alphabet) (simpleOr alphabet s r) ∧
      IsFixedPt (normalize alphabet) (simpleAnd alphabet s r) := by
  intro alphabet r s
  obtain ⟨hnormal, -, hunary, hbinary, -⟩ := normalForms_closed alphabet
  have hr : IsFixedPt (normalize alphabet) r := by
    have harranged : Junction.union.Arranged alphabet [symbol true, symbol false, symbol true] :=
      ⟨by decide, by decide, by decide, by decide⟩
    exact (hnormal r).mpr ⟨trivial, ⟨trivial, trivial, id, harranged.tail⟩, id, harranged⟩
  have hs : IsFixedPt (normalize alphabet) s := by decide
  exact ⟨⟨hr, hs⟩, hunary r hr, hbinary s r hs hr⟩

end NameResolution.Regex

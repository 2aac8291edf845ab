import NameResolution.Proofs.Regex.NormalForm

namespace NameResolution.Regex

universe u
variable {σ : Type u}

section Concat

@[simp] theorem simpleConcat_emptySet (l : Regex σ) : simpleConcat l emptySet = emptySet := by
  cases l <;> rfl

@[simp] theorem emptyString_simpleConcat (r : Regex σ) : simpleConcat emptyString r = r := by
  cases r <;> rfl

@[simp] theorem simpleConcat_emptyString (l : Regex σ) : simpleConcat l emptyString = l := by
  cases l <;> rfl

theorem simpleConcat_concat (l₁ l₂ : Regex σ) {r : Regex σ} (hr : r ≠ emptyString) :
    simpleConcat (concat l₁ l₂) r = simpleConcat l₁ (simpleConcat l₂ r) := by
  cases r with
  | emptySet => simp
  | emptyString => exact absurd rfl hr
  | _ => rfl

theorem simpleConcat_eq_emptyString_iff {l r : Regex σ} :
    simpleConcat l r = emptyString ↔ l = emptyString ∧ r = emptyString := by
  fun_induction simpleConcat l r with
  | case5 l₁ l₂ r _ hr ih₂ ih₁ =>
    rw [ih₁, ih₂]
    exact iff_of_false (fun h => hr h.2.2) (fun h => hr h.2)
  | _ => simp_all

/-- Between a single factor and the rest it makes no difference what is concatenated first. -/
theorem simpleConcat_assoc_of_single {x : Regex σ} (hconcat : ¬x.IsConcat)
    (hx : x ≠ emptySet ∧ x ≠ emptyString) {y : Regex σ} (hy : y ≠ emptyString) (z : Regex σ) :
    simpleConcat (simpleConcat x y) z = simpleConcat x (simpleConcat y z) := by
  by_cases hset : y = emptySet
  · rw [hset, simpleConcat_emptySet]
    exact (simpleConcat_emptySet x).symm
  rw [simpleConcat_eq_concat hconcat hx ⟨hset, hy⟩]
  by_cases hz : z = emptyString
  · rw [hz, simpleConcat_emptyString, simpleConcat_emptyString,
      simpleConcat_eq_concat hconcat hx ⟨hset, hy⟩]
  · exact simpleConcat_concat x y hz

theorem simpleConcat_assoc (x y z : Regex σ) :
    simpleConcat (simpleConcat x y) z = simpleConcat x (simpleConcat y z) := by
  by_cases hy : y = emptyString
  · rw [hy, simpleConcat_emptyString, emptyString_simpleConcat]
  induction x generalizing y with
  | emptySet => rfl
  | emptyString => rw [emptyString_simpleConcat, emptyString_simpleConcat]
  | concat x₁ x₂ ih₁ ih₂ =>
    have hxy : simpleConcat x₂ y ≠ emptyString := fun h =>
      hy (simpleConcat_eq_emptyString_iff.mp h).2
    have hyz : simpleConcat y z ≠ emptyString := fun h =>
      hy (simpleConcat_eq_emptyString_iff.mp h).1
    rw [simpleConcat_concat _ _ hy, ih₁ _ hxy, ih₂ _ hy, ← simpleConcat_concat _ _ hyz]
  | _ => refine simpleConcat_assoc_of_single id ⟨?_, ?_⟩ hy z <;> exact nofun

end Concat

variable [DecidableEq σ] {alphabet : Alphabet σ}

/-- Over the alphabet the arranged operands depend on the set of operands only. -/
theorem arrange_congr {as bs : List (Regex σ)} (has : ∀ o ∈ as, o.Over alphabet)
    (hbs : ∀ o ∈ bs, o.Over alphabet) (h : ∀ o, o ∈ as ↔ o ∈ bs) :
    arrange alphabet as = arrange alphabet bs := by
  have hperm : (arrange alphabet as).Perm (arrange alphabet bs) := by
    rw [List.perm_ext_iff_of_nodup (nodup_arrange has) (nodup_arrange hbs)]
    intro o
    rw [mem_arrange, mem_arrange, h]
  refine hperm.eq_of_pairwise (fun r s hr hs => ?_) (pairwise_arrange as) (pairwise_arrange bs)
  exact le_antisymm (has r (mem_arrange.mp hr)) (hbs s (mem_arrange.mp hs))

namespace Junction

/-- Both have the zero, or neither has it and both have the same operands besides the unit. -/
structure Same (j : Junction) (as bs : List (Regex σ)) : Prop where
  zero_mem_iff : j.zero ∈ as ↔ j.zero ∈ bs
  mem_iff : j.zero ∉ as → ∀ o, o ≠ j.unit → (o ∈ as ↔ o ∈ bs)

namespace Same

variable {j : Junction} {as bs cs ds : List (Regex σ)}

omit [DecidableEq σ]

theorem of_mem_iff (h : ∀ o, o ∈ as ↔ o ∈ bs) : j.Same as bs :=
  ⟨h j.zero, fun _ o _ => h o⟩

theorem refl (as : List (Regex σ)) : j.Same as as := of_mem_iff fun _ => .rfl

theorem append (h : j.Same as bs) (h' : j.Same cs ds) : j.Same (as ++ cs) (bs ++ ds) where
  zero_mem_iff := by rw [List.mem_append, List.mem_append, h.zero_mem_iff, h'.zero_mem_iff]
  mem_iff hzero o ho := by
    rw [List.mem_append, not_or] at hzero
    rw [List.mem_append, List.mem_append, h.mem_iff hzero.1 o ho, h'.mem_iff hzero.2 o ho]

end Same

variable (j : Junction)

theorem combine_eq_of_same {as bs : List (Regex σ)} (has : ∀ o ∈ as, o.Over alphabet)
    (hbs : ∀ o ∈ bs, o.Over alphabet) (h : j.Same as bs) :
    j.combine alphabet as = j.combine alphabet bs := by
  by_cases hzero : j.zero ∈ as
  · rw [j.combine_of_zero_mem hzero, j.combine_of_zero_mem (h.zero_mem_iff.mp hzero)]
  · rw [j.combine_of_zero_not_mem hzero,
      j.combine_of_zero_not_mem fun hb => hzero (h.zero_mem_iff.mpr hb)]
    congr 1
    refine arrange_congr (fun o ho => has o (List.mem_filter.mp ho).1)
      (fun o ho => hbs o (List.mem_filter.mp ho).1) fun o => ?_
    rw [List.mem_filter, List.mem_filter, decide_eq_true_iff]
    exact and_congr_left fun ho => h.mem_iff hzero o ho

omit [DecidableEq σ] in
theorem mem_operands_nest {operands : List (Regex σ)} (h : ∀ o ∈ operands, ¬j.IsNode o)
    {o : Regex σ} (ho : o ≠ j.unit) :
    o ∈ j.operands (nest j.node j.unit operands) ↔ o ∈ operands := by
  cases operands with
  | nil =>
    rw [nest, j.operands_of_not_isNode j.not_isNode_unit, List.mem_singleton]
    exact iff_of_false ho List.not_mem_nil
  | cons r rs => rw [j.operands_nest (by simp) h]

theorem same_operands_combine {operands : List (Regex σ)} (h : ∀ o ∈ operands, ¬j.IsNode o) :
    j.Same (j.operands (j.combine alphabet operands)) operands := by
  by_cases hzero : j.zero ∈ operands
  · rw [j.combine_of_zero_mem hzero, j.operands_of_not_isNode j.not_isNode_zero]
    exact ⟨iff_of_true (.head _) hzero, fun h => absurd (.head _) h⟩
  · rw [j.combine_of_zero_not_mem hzero]
    have harranged : ∀ o ∈ arrange alphabet (operands.filter (· ≠ j.unit)), ¬j.IsNode o :=
      fun o ho => h o (j.mem_arranged_iff.mp ho).1
    have hmem (o : Regex σ) (ho : o ≠ j.unit) :
        o ∈ j.operands (nest j.node j.unit (arrange alphabet (operands.filter (· ≠ j.unit)))) ↔
          o ∈ operands := by
      rw [j.mem_operands_nest harranged ho, mem_arranged_iff, and_iff_left ho]
    exact ⟨hmem _ j.zero_ne_unit, fun _ => hmem⟩

/-- A simplified expression has the operands of both sides. -/
theorem same_operands_simplify (l r : Regex σ) :
    j.Same (j.operands (j.simplify alphabet l r)) (j.operands l ++ j.operands r) := by
  rw [simplify_eq_combine]
  exact j.same_operands_combine fun _ ho => (List.mem_append.mp ho).elim
    j.not_isNode_of_mem_operands j.not_isNode_of_mem_operands

omit [DecidableEq σ] in
theorem over_of_mem_append {l r : Regex σ} (hl : l.Over alphabet) (hr : r.Over alphabet) :
    ∀ o ∈ j.operands l ++ j.operands r, o.Over alphabet := fun _ ho =>
  (List.mem_append.mp ho).elim (hl.of_mem_operands j) (hr.of_mem_operands j)

theorem simplify_comm {x y : Regex σ} (hx : x.Over alphabet) (hy : y.Over alphabet) :
    j.simplify alphabet x y = j.simplify alphabet y x := by
  rw [simplify_eq_combine, simplify_eq_combine]
  apply j.combine_eq_of_same (j.over_of_mem_append hx hy) (j.over_of_mem_append hy hx)
  apply Same.of_mem_iff
  intro o
  rw [List.mem_append, List.mem_append, or_comm]

theorem simplify_assoc {x y z : Regex σ} (hx : x.Over alphabet) (hy : y.Over alphabet)
    (hz : z.Over alphabet) :
    j.simplify alphabet (j.simplify alphabet x y) z =
      j.simplify alphabet x (j.simplify alphabet y z) := by
  have hall : ∀ o ∈ j.operands x ++ j.operands y ++ j.operands z, o.Over alphabet := fun o ho =>
    (List.mem_append.mp ho).elim (j.over_of_mem_append hx hy o) (hz.of_mem_operands j)
  have hleft : j.simplify alphabet (j.simplify alphabet x y) z =
      j.combine alphabet (j.operands x ++ j.operands y ++ j.operands z) := by
    rw [simplify_eq_combine]
    exact j.combine_eq_of_same (j.over_of_mem_append (over_simplify j hx hy) hz) hall
      ((j.same_operands_simplify x y).append (.refl _))
  have hright : j.simplify alphabet x (j.simplify alphabet y z) =
      j.combine alphabet (j.operands x ++ j.operands y ++ j.operands z) := by
    rw [simplify_eq_combine, List.append_assoc]
    exact j.combine_eq_of_same (j.over_of_mem_append hx (over_simplify j hy hz))
      (List.append_assoc .. ▸ hall) ((Same.refl _).append (j.same_operands_simplify y z))
  rw [hleft, hright]

theorem over_combine {operands : List (Regex σ)} (h : ∀ o ∈ operands, o.Over alphabet) :
    (j.combine alphabet operands).Over alphabet := by
  by_cases hzero : j.zero ∈ operands
  · rw [j.combine_of_zero_mem hzero]
    exact h _ hzero
  · rw [j.combine_of_zero_not_mem hzero]
    exact nest_induction (p := Over alphabet) (fun _ => over_unit j)
      (fun _ _ hl hr => (over_node j).mpr ⟨hl, hr⟩) fun o ho => h o (j.mem_arranged_iff.mp ho).1

/-- Combinations are simplified to the combination of all operands. -/
theorem simplify_combine {as bs : List (Regex σ)} (has : ∀ o ∈ as, o.Over alphabet)
    (hbs : ∀ o ∈ bs, o.Over alphabet) (hasSingle : ∀ o ∈ as, ¬j.IsNode o)
    (hbsSingle : ∀ o ∈ bs, ¬j.IsNode o) :
    j.simplify alphabet (j.combine alphabet as) (j.combine alphabet bs) =
      j.combine alphabet (as ++ bs) := by
  rw [simplify_eq_combine]
  apply j.combine_eq_of_same (j.over_of_mem_append (j.over_combine has) (j.over_combine hbs))
  · exact fun o ho => (List.mem_append.mp ho).elim (has o) (hbs o)
  · exact (j.same_operands_combine hasSingle).append (j.same_operands_combine hbsSingle)

theorem combine_nil : j.combine alphabet [] = j.unit := by
  rw [j.combine_of_zero_not_mem List.not_mem_nil, List.filter_nil, arrange, List.mergeSort_nil]
  rfl

theorem combine_singleton (r : Regex σ) : j.combine alphabet [r] = r := by
  by_cases hzero : j.zero = r
  · rw [j.combine_of_zero_mem (List.mem_singleton.mpr hzero), hzero]
  have hzero' : j.zero ∉ [r] := mt List.mem_singleton.mp hzero
  by_cases hunit : j.unit = r
  · have hfilter : [r].filter (· ≠ j.unit) = [] := by simp [hunit]
    rw [j.combine_of_zero_not_mem hzero', hfilter, arrange, List.mergeSort_nil]
    exact hunit
  · have harranged : j.Arranged alphabet [r] :=
      ⟨List.pairwise_singleton _ r, .singleton r, mt List.mem_singleton.mp hunit, hzero'⟩
    exact harranged.combine_eq

theorem combine_operands {r : Regex σ} (h : r.Normal alphabet) :
    j.combine alphabet (j.operands r) = r := by
  induction r using j.induction with
  | single r hr => rw [j.operands_of_not_isNode hr, combine_singleton]
  | node l r _ _ =>
    rw [j.operands_node, ← simplify_eq_combine]
    exact h.simplify_eq j

theorem simplify_self {x : Regex σ} (hnormal : x.Normal alphabet) (hx : x.Over alphabet) :
    j.simplify alphabet x x = x := by
  have hsame : j.Same (j.operands x ++ j.operands x) (j.operands x) := by
    apply Same.of_mem_iff
    intro o
    rw [List.mem_append, or_self]
  rw [simplify_eq_combine, j.combine_eq_of_same (j.over_of_mem_append hx hx)
    (fun _ => hx.of_mem_operands j) hsame, j.combine_operands hnormal]

end Junction

open Function (IsFixedPt)

/-- Over the alphabet union and intersection are commutative, associative and, of normal forms,
idempotent, and concatenation is associative, all up to equality of expressions. -/
theorem similar_eq {x y z : Regex σ} (hx : x.Over alphabet) (hy : y.Over alphabet)
    (hz : z.Over alphabet) (hnormal : IsFixedPt (normalize alphabet) x) :
    (simpleOr alphabet x y = simpleOr alphabet y x ∧
      simpleOr alphabet (simpleOr alphabet x y) z = simpleOr alphabet x (simpleOr alphabet y z) ∧
      simpleOr alphabet x x = x) ∧
    (simpleAnd alphabet x y = simpleAnd alphabet y x ∧
      simpleAnd alphabet (simpleAnd alphabet x y) z =
        simpleAnd alphabet x (simpleAnd alphabet y z) ∧
      simpleAnd alphabet x x = x) ∧
    simpleConcat (simpleConcat x y) z = simpleConcat x (simpleConcat y z) := by
  have hnormal := isFixedPt_normalize_iff.mp hnormal
  have laws (j : Junction) :
      j.simplify alphabet x y = j.simplify alphabet y x ∧
        j.simplify alphabet (j.simplify alphabet x y) z =
          j.simplify alphabet x (j.simplify alphabet y z) ∧
        j.simplify alphabet x x = x :=
    ⟨j.simplify_comm hx hy, j.simplify_assoc hx hy hz, j.simplify_self hnormal hx⟩
  exact ⟨laws .union, laws .intersection, simpleConcat_assoc x y z⟩

/-- A union of two symbols, a concatenation and the zero of unions. -/
theorem similar_eq_absorbed :
    let alphabet : Alphabet Bool := ⟨[false, true], by decide⟩
    let x : Regex Bool := or (symbol false) (symbol true)
    let y : Regex Bool := concat (symbol true) (star (symbol false))
    let z : Regex Bool := universal
    (x.Over alphabet ∧ y.Over alphabet ∧ z.Over alphabet ∧ IsFixedPt (normalize alphabet) x) ∧
    (simpleOr alphabet x y = simpleOr alphabet y x ∧
      simpleOr alphabet (simpleOr alphabet x y) z = simpleOr alphabet x (simpleOr alphabet y z) ∧
      simpleOr alphabet x x = x) ∧
    (simpleAnd alphabet x y = simpleAnd alphabet y x ∧
      simpleAnd alphabet (simpleAnd alphabet x y) z =
        simpleAnd alphabet x (simpleAnd alphabet y z) ∧
      simpleAnd alphabet x x = x) ∧
    simpleConcat (simpleConcat x y) z = simpleConcat x (simpleConcat y z) := by
  intro alphabet x y z
  have hx : x.Over alphabet := by decide
  have hy : y.Over alphabet := by decide
  have hz : z.Over alphabet := by decide
  have hnormal : x.Normal alphabet :=
    ⟨trivial, trivial, id, by decide, by decide, by decide, by decide⟩
  have hfixed := isFixedPt_normalize_iff.mpr hnormal
  exact ⟨⟨hx, hy, hz, hfixed⟩, similar_eq hx hy hz hfixed⟩

end NameResolution.Regex

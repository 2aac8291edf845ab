import NameResolution.Regex.Normal
import NameResolution.Regex.OrderLemmas

namespace NameResolution.Regex

universe u
variable {σ : Type u}

def IsOr : Regex σ → Prop
  | or _ _ => True
  | _ => False

def IsAnd : Regex σ → Prop
  | and _ _ => True
  | _ => False

inductive Junction where
  | union
  | intersection

namespace Junction

def node : Junction → Regex σ → Regex σ → Regex σ
  | union => or
  | intersection => and

def IsNode : Junction → Regex σ → Prop
  | union => IsOr
  | intersection => IsAnd

def operands : Junction → Regex σ → List (Regex σ)
  | union => orOperands
  | intersection => andOperands

/-- The operand without effect. -/
def unit : Junction → Regex σ
  | union => emptySet
  | intersection => universal

/-- The operand that absorbs all others. -/
def zero : Junction → Regex σ
  | union => universal
  | intersection => emptySet

end Junction

section Arrange

theorem mem_dropRepeats {α : Type u} [DecidableEq α] {l : List α} {x : α} :
    x ∈ dropRepeats l ↔ x ∈ l := by
  fun_induction dropRepeats l with
  | case1 => rfl
  | case2 => rfl
  | case3 y xs ih => simp [ih]
  | case4 y z xs _ ih => simp [ih]

/-- Where equal elements are adjacent, dropping repetitions leaves no element twice. -/
theorem nodup_dropRepeats {α : Type u} [DecidableEq α] {le : α → α → Prop} {l : List α}
    (hs : l.Pairwise le) (ha : ∀ x ∈ l, ∀ y ∈ l, le x y → le y x → x = y) :
    (dropRepeats l).Nodup := by
  fun_induction dropRepeats l with
  | case1 => exact .nil
  | case2 => simp
  | case3 y xs ih =>
    exact ih (List.pairwise_cons.mp hs).2 fun x hx z hz => ha x (.tail _ hx) z (.tail _ hz)
  | case4 x y xs hxy ih =>
    have hs' := List.pairwise_cons.mp hs
    refine List.nodup_cons.mpr ⟨?_, ih hs'.2 fun u hu v hv => ha u (.tail _ hu) v (.tail _ hv)⟩
    rw [mem_dropRepeats]
    intro hx
    rcases List.mem_cons.mp hx with e | hx'
    · exact hxy e
    · exact hxy (ha x (.head _) y (.tail _ (.head _)) (hs'.1 y (.head _))
        ((List.pairwise_cons.mp hs'.2).1 x hx'))

variable [DecidableEq σ] {alphabet : Alphabet σ}

theorem mem_arrange {operands : List (Regex σ)} {o : Regex σ} :
    o ∈ arrange alphabet operands ↔ o ∈ operands := by
  rw [arrange, mem_dropRepeats, List.mem_mergeSort]

theorem nodup_arrange {operands : List (Regex σ)} (h : ∀ o ∈ operands, o.Over alphabet) :
    (arrange alphabet operands).Nodup := by
  apply nodup_dropRepeats (List.pairwise_mergeSort (le_trans alphabet) (le_total alphabet) operands)
  intro r hr s hs
  exact le_antisymm (h r (List.mem_mergeSort.mp hr)) (h s (List.mem_mergeSort.mp hs))

end Arrange

/-- A property of the unit and of all operands that `node` keeps holds of the nested expression. -/
theorem nest_induction {node : Regex σ → Regex σ → Regex σ} {unit : Regex σ}
    {p : Regex σ → Prop} {operands : List (Regex σ)} (hunit : operands = [] → p unit)
    (hnode : ∀ l r, p l → p r → p (node l r)) (h : ∀ o ∈ operands, p o) :
    p (nest node unit operands) := by
  match operands with
  | [] => exact hunit rfl
  | [r] => exact h r (.head _)
  | r :: s :: rs =>
    exact hnode _ _ (h r (.head _))
      (nest_induction (by simp) hnode fun o ho => h o (.tail _ ho))

namespace Junction

variable (j : Junction)

theorem operands_node (l r : Regex σ) :
    j.operands (j.node l r) = j.operands l ++ j.operands r := by
  cases j <;> rfl

/-- An expression is a node or has only itself as operand. -/
theorem induction {p : Regex σ → Prop} (single : ∀ r, ¬j.IsNode r → p r)
    (node : ∀ l r, p l → p r → p (j.node l r)) (r : Regex σ) : p r := by
  cases j with
  | union =>
    induction r with
    | or l r ihl ihr => exact node l r ihl ihr
    | _ => exact single _ id
  | intersection =>
    induction r with
    | and l r ihl ihr => exact node l r ihl ihr
    | _ => exact single _ id

theorem not_isNode_unit : ¬j.IsNode (j.unit : Regex σ) := by
  cases j <;> exact id

theorem not_isNode_zero : ¬j.IsNode (j.zero : Regex σ) := by
  cases j <;> exact id

theorem zero_ne_unit : (j.zero : Regex σ) ≠ j.unit := by
  cases j <;> exact nofun

theorem operands_of_not_isNode {r : Regex σ} (h : ¬j.IsNode r) : j.operands r = [r] := by
  cases j <;> cases r <;> first | rfl | exact absurd trivial h

theorem not_isNode_of_mem_operands {r o : Regex σ} (h : o ∈ j.operands r) : ¬j.IsNode o := by
  induction r using j.induction with
  | single r hr =>
    rw [j.operands_of_not_isNode hr, List.mem_singleton] at h
    exact h ▸ hr
  | node l r ihl ihr =>
    rw [operands_node, List.mem_append] at h
    exact h.elim ihl ihr

theorem operands_ne_nil (r : Regex σ) : j.operands r ≠ [] := by
  induction r using j.induction with
  | single r hr => simp [j.operands_of_not_isNode hr]
  | node l r ihl _ => simp [operands_node, ihl]

/-- What a node passes on to both sides, its operands have. -/
theorem operands_induction {p : Regex σ → Prop} (hnode : ∀ {l r}, p (j.node l r) → p l ∧ p r)
    {r o : Regex σ} (hr : p r) (h : o ∈ j.operands r) : p o := by
  induction r using j.induction with
  | single r hsingle =>
    rw [j.operands_of_not_isNode hsingle, List.mem_singleton] at h
    exact h ▸ hr
  | node l r ihl ihr =>
    rw [operands_node, List.mem_append] at h
    exact h.elim (ihl (hnode hr).1) (ihr (hnode hr).2)

theorem operands_nest {unit : Regex σ} {operands : List (Regex σ)} (hne : operands ≠ [])
    (h : ∀ o ∈ operands, ¬j.IsNode o) : j.operands (nest j.node unit operands) = operands := by
  match operands with
  | [r] => exact j.operands_of_not_isNode (h r (.head _))
  | r :: s :: rs =>
    rw [nest, operands_node, j.operands_of_not_isNode (h r (.head _)),
      operands_nest (by simp) fun o ho => h o (.tail _ ho)]
    rfl

/-- Where nodes nest to the right, nesting the operands gives the expression back. -/
theorem nest_operands {p : Regex σ → Prop} (hp : ∀ {l r}, p (j.node l r) → ¬j.IsNode l ∧ p r)
    {r : Regex σ} (hr : p r) : nest j.node j.unit (j.operands r) = r := by
  induction r using j.induction with
  | single r h => rw [j.operands_of_not_isNode h, nest]
  | node l r _ ihr =>
    obtain ⟨hl, hr⟩ := hp hr
    rw [operands_node, j.operands_of_not_isNode hl]
    cases e : j.operands r with
    | nil => exact absurd e (j.operands_ne_nil r)
    | cons x xs => exact congrArg (j.node l) (e ▸ ihr hr)

variable [DecidableEq σ] (alphabet : Alphabet σ)

def simplify : Junction → Regex σ → Regex σ → Regex σ
  | union => simpleOr alphabet
  | intersection => simpleAnd alphabet

/-- All operands, each once and in order, without the unit; the zero absorbs all others. -/
def combine (operands : List (Regex σ)) : Regex σ :=
  if operands.contains j.zero then j.zero
  else nest j.node j.unit (arrange alphabet (operands.filter (· ≠ j.unit)))

variable {alphabet}

theorem combine_of_zero_mem {operands : List (Regex σ)} (h : j.zero ∈ operands) :
    j.combine alphabet operands = j.zero := if_pos (List.contains_iff_mem.mpr h)

theorem combine_of_zero_not_mem {operands : List (Regex σ)} (h : j.zero ∉ operands) :
    j.combine alphabet operands =
      nest j.node j.unit (arrange alphabet (operands.filter (· ≠ j.unit))) :=
  if_neg (mt List.contains_iff_mem.mp h)

theorem simplify_eq_combine (l r : Regex σ) :
    j.simplify alphabet l r = j.combine alphabet (j.operands l ++ j.operands r) := by
  by_cases h : j.zero ∈ j.operands l ++ j.operands r
  · rw [j.combine_of_zero_mem h]
    cases j <;> exact if_pos h
  · rw [j.combine_of_zero_not_mem h]
    cases j <;> exact if_neg h

theorem mem_arranged_iff {operands : List (Regex σ)} {o : Regex σ} :
    o ∈ arrange alphabet (operands.filter (· ≠ j.unit)) ↔ o ∈ operands ∧ o ≠ j.unit := by
  rw [mem_arrange, List.mem_filter, decide_eq_true_iff]

theorem mem_operands_of_mem_arranged {l r o : Regex σ}
    (h : o ∈ arrange alphabet ((j.operands l ++ j.operands r).filter (· ≠ j.unit))) :
    o ∈ j.operands l ∨ o ∈ j.operands r :=
  List.mem_append.mp (j.mem_arranged_iff.mp h).1

theorem not_isNode_of_mem_arranged {l r o : Regex σ}
    (h : o ∈ arrange alphabet ((j.operands l ++ j.operands r).filter (· ≠ j.unit))) :
    ¬j.IsNode o :=
  (j.mem_operands_of_mem_arranged h).elim j.not_isNode_of_mem_operands
    j.not_isNode_of_mem_operands

/-- What all operands have and a node keeps, their combination has. -/
theorem combine_induction {p : Regex σ → Prop} (hnode : ∀ l r, p l → p r → p (j.node l r))
    {operands : List (Regex σ)} (hne : operands ≠ []) (h : ∀ o ∈ operands, p o) :
    p (j.combine alphabet operands) := by
  by_cases hzero : j.zero ∈ operands
  · rw [j.combine_of_zero_mem hzero]
    exact h _ hzero
  · rw [j.combine_of_zero_not_mem hzero]
    refine nest_induction (fun hnil => ?_) hnode fun o ho => h o (j.mem_arranged_iff.mp ho).1
    -- nothing is left, so all operands are the unit
    obtain ⟨o, ho⟩ := List.exists_mem_of_ne_nil _ hne
    by_cases hunit : o = j.unit
    · exact hunit ▸ h o ho
    · exact absurd (hnil ▸ j.mem_arranged_iff.mpr ⟨ho, hunit⟩) List.not_mem_nil

/-- What all operands have and a node keeps, the simplified expression has. -/
theorem simplify_induction {p : Regex σ → Prop} (hnode : ∀ l r, p l → p r → p (j.node l r))
    {l r : Regex σ} (hl : ∀ o ∈ j.operands l, p o) (hr : ∀ o ∈ j.operands r, p o) :
    p (j.simplify alphabet l r) := by
  rw [simplify_eq_combine]
  apply j.combine_induction hnode
  · simp [operands_ne_nil]
  · exact fun o ho => (List.mem_append.mp ho).elim (hl o) (hr o)

end Junction

end NameResolution.Regex

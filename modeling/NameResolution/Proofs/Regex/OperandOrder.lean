import NameResolution.Proofs.Regex.Similarity

namespace NameResolution

universe u

/-- The elements of `l` in ascending order, where those that compare as equal stand as in `l`. -/
structure StablySorted {α : Type u} (cmp : α → α → Ordering) (l sorted : List α) : Prop where
  ascending : sorted.Pairwise fun x y => (cmp x y).isLE
  stable : ∀ x, (sorted.filter fun y => (cmp x y).isEq) = l.filter fun y => (cmp x y).isEq

section StablySorted

variable {α : Type u} {cmp : α → α → Ordering} [Std.TransCmp cmp] {x y : α} {l xs ys : List α}

theorem isEq_self (x : α) : (cmp x x).isEq = true :=
  Ordering.isEq_iff_eq_eq.mpr Std.ReflCmp.compare_self

theorem isLE_head_of_mem (h : (x :: xs).Pairwise fun x y => (cmp x y).isLE) (hy : y ∈ x :: xs) :
    (cmp x y).isLE := by
  rcases List.mem_cons.mp hy with rfl | hy
  · exact Std.ReflCmp.isLE_rfl
  · exact (List.pairwise_cons.mp h).1 y hy

theorem filter_eq_of_filter_cons_eq {p : α → Bool} (h : (x :: xs).filter p = (x :: ys).filter p) :
    xs.filter p = ys.filter p := by
  by_cases hx : p x = true
  · rw [List.filter_cons_of_pos hx, List.filter_cons_of_pos hx] at h
    exact (List.cons.inj h).2
  · rwa [List.filter_cons_of_neg hx, List.filter_cons_of_neg hx] at h

namespace StablySorted

theorem mem_iff (h : StablySorted cmp l xs) : x ∈ xs ↔ x ∈ l := by
  have hclass (k : List α) : x ∈ k ↔ x ∈ k.filter fun y => (cmp x y).isEq := by
    rw [List.mem_filter, and_iff_left (isEq_self x)]
  rw [hclass xs, h.stable, ← hclass]

/-- Both heads are least, so they compare as equal, and each is the first of those that do. -/
theorem eq_of_ascending (h : StablySorted cmp ys xs)
    (hys : ys.Pairwise fun x y => (cmp x y).isLE) : xs = ys := by
  induction xs generalizing ys with
  | nil =>
    have hnot (y : α) : y ∉ ys := mt h.mem_iff.mpr List.not_mem_nil
    exact (List.eq_nil_iff_forall_not_mem.mpr hnot).symm
  | cons x xs ih =>
    cases ys with
    | nil => exact absurd (h.mem_iff.mp List.mem_cons_self) List.not_mem_nil
    | cons y ys =>
      have hxy := isLE_head_of_mem h.ascending (h.mem_iff.mpr List.mem_cons_self)
      have hyx := isLE_head_of_mem hys (h.mem_iff.mp List.mem_cons_self)
      have heq : (cmp x y).isEq = true :=
        Ordering.isEq_iff_eq_eq.mpr (Std.OrientedCmp.isLE_antisymm hxy hyx)
      have hclass := h.stable x
      simp only [List.filter_cons, isEq_self, heq, if_true] at hclass
      obtain ⟨rfl, -⟩ := List.cons.inj hclass
      have htail : StablySorted cmp ys xs :=
        ⟨(List.pairwise_cons.mp h.ascending).2, fun z => filter_eq_of_filter_cons_eq (h.stable z)⟩
      rw [ih htail (List.pairwise_cons.mp hys).2]

theorem unique (hx : StablySorted cmp l xs) (hy : StablySorted cmp l ys) : xs = ys := by
  have h : StablySorted cmp ys xs := ⟨hx.ascending, fun z => (hx.stable z).trans (hy.stable z).symm⟩
  exact h.eq_of_ascending hy.ascending

end StablySorted

theorem stablySorted_mergeSort (l : List α) :
    StablySorted cmp l (l.mergeSort fun x y => (cmp x y).isLE) := by
  have htrans (x y z : α) : (cmp x y).isLE → (cmp y z).isLE → (cmp x z).isLE :=
    Std.TransCmp.isLE_trans
  have htotal (x y : α) : ((cmp x y).isLE || (cmp y x).isLE) = true := by
    have hswap : cmp y x = (cmp x y).swap := Std.OrientedCmp.eq_swap
    rw [hswap]
    cases cmp x y <;> rfl
  refine ⟨List.pairwise_mergeSort htrans htotal l, fun x => ?_⟩
  -- those that compare as equal to `x` ascend as they stand, so sorting leaves them in their order
  have hclass : (l.filter fun y => (cmp x y).isEq).Pairwise fun y z => (cmp y z).isLE := by
    refine List.pairwise_of_forall_mem_list fun y hy z hz => ?_
    have hxy := Ordering.isEq_iff_eq_eq.mp (List.mem_filter.mp hy).2
    have hxz := Ordering.isEq_iff_eq_eq.mp (List.mem_filter.mp hz).2
    rw [← Std.TransCmp.congr_left hxy, hxz]
    rfl
  have hsub :=
    (List.sublist_mergeSort htrans htotal hclass List.filter_sublist).filter fun y => (cmp x y).isEq
  rw [List.filter_filter] at hsub
  simp only [Bool.and_self] at hsub
  exact (hsub.eq_of_length ((List.mergeSort_perm l _).filter _).length_eq.symm).symm

theorem stablySorted_iff :
    StablySorted cmp l xs ↔ xs = l.mergeSort fun x y => (cmp x y).isLE := by
  constructor
  · exact fun h => h.unique (stablySorted_mergeSort l)
  · rintro rfl
    exact stablySorted_mergeSort l

end StablySorted

namespace Regex

variable {σ : Type u} [DecidableEq σ] {alphabet : Alphabet σ} {r s t : Regex σ}

theorem compare_eq_iff (hr : r.Over alphabet) (hs : s.Over alphabet) :
    compare alphabet r s = .eq ↔ r = s := by
  constructor
  · exact eq_of_compare_eq hr hs
  · rintro rfl
    exact compare_self alphabet r

theorem compare_trans {o : Ordering} (hrs : compare alphabet r s = o)
    (hst : compare alphabet s t = o) : compare alphabet r t = o := by
  cases o with
  | lt => exact Std.TransCmp.lt_trans hrs hst
  | eq => exact Std.TransCmp.eq_trans hrs hst
  | gt => exact Std.TransCmp.gt_trans hrs hst

theorem pairwise_lt_arrange {operands : List (Regex σ)} (h : ∀ o ∈ operands, o.Over alphabet) :
    (arrange alphabet operands).Pairwise fun r s => compare alphabet r s = .lt := by
  refine ((pairwise_arrange operands).and (nodup_arrange h)).imp_of_mem fun {r s} hr hs hrs => ?_
  obtain ⟨hle, hne⟩ := hrs
  have hover {o : Regex σ} (ho : o ∈ arrange alphabet operands) : o.Over alphabet :=
    h o (mem_arrange.mp ho)
  rcases Ordering.isLE_iff_eq_lt_or_eq_eq.mp hle with hlt | heq
  · exact hlt
  · exact absurd (eq_of_compare_eq (hover hr) (hover hs) heq) hne

/-- Over the alphabet the arranged operands are the strictly ascending list of the operands. -/
theorem eq_arrange_iff {operands sorted : List (Regex σ)} (h : ∀ o ∈ operands, o.Over alphabet) :
    sorted = arrange alphabet operands ↔
      (sorted.Pairwise fun r s => compare alphabet r s = .lt) ∧
        ∀ o, o ∈ sorted ↔ o ∈ operands := by
  constructor
  · rintro rfl
    exact ⟨pairwise_lt_arrange h, fun _ => mem_arrange⟩
  · rintro ⟨hlt, hmem⟩
    have hle : sorted.Pairwise fun r s => le alphabet r s = true := hlt.imp Ordering.isLE_of_eq_lt
    have hne : sorted.Pairwise (· ≠ ·) := hlt.imp fun {r s} hrs heq => by
      rw [heq, compare_self] at hrs
      cases hrs
    rw [← arrange_eq_self hle hne.isChain]
    exact arrange_congr (fun o ho => h o ((hmem o).mp ho)) h hmem

/-- Comparison of operands reverses with its sides and is transitive, so it is a total preorder
whatever the symbols, and over the alphabet only equal expressions compare as equal. Therefore
stable sorting by it has exactly one result, and over the alphabet so has sorting without
repetitions. -/
theorem operandOrder_total (alphabet : Alphabet σ) :
    (∀ r s : Regex σ, r.Over alphabet → s.Over alphabet →
      (compare alphabet r s = .eq ↔ r = s)) ∧
    (∀ r s : Regex σ, compare alphabet s r = (compare alphabet r s).swap) ∧
    (∀ (o : Ordering) (r s t : Regex σ), compare alphabet r s = o → compare alphabet s t = o →
      compare alphabet r t = o) ∧
    (∀ r s : Regex σ, le alphabet r s ∨ le alphabet s r) ∧
    (∀ r s t : Regex σ, le alphabet r s → le alphabet s t → le alphabet r t) ∧
    (∀ operands sorted : List (Regex σ), StablySorted (compare alphabet) operands sorted ↔
      sorted = operands.mergeSort (le alphabet)) ∧
    ∀ operands sorted : List (Regex σ), (∀ o ∈ operands, o.Over alphabet) →
      (sorted = arrange alphabet operands ↔
        (sorted.Pairwise fun r s => compare alphabet r s = .lt) ∧
          ∀ o, o ∈ sorted ↔ o ∈ operands) :=
  ⟨fun _ _ => compare_eq_iff, compare_swap alphabet, fun _ _ _ _ => compare_trans,
    fun r s => Bool.or_eq_true_iff.mp (le_total alphabet r s), le_trans alphabet,
    fun _ _ => stablySorted_iff, fun _ _ => eq_arrange_iff⟩

/-- The symbols `0` and `2` are outside the alphabet: they compare as equal, stay in the order in
which they stand and come after `1`. -/
theorem operandOrder_total_outside :
    let alphabet : Alphabet (Fin 3) := ⟨[1], by decide⟩
    let r : Regex (Fin 3) := symbol 1
    let s : Regex (Fin 3) := star (symbol 1)
    (r.Over alphabet ∧ s.Over alphabet) ∧
      (compare alphabet r s = .eq ↔ r = s) ∧
      (compare alphabet (symbol 2) (symbol 0) = .eq ∧
        compare alphabet (symbol 0) (symbol 2) = .eq ∧
        compare alphabet (symbol 2) (symbol 2 : Regex (Fin 3)) = .eq) ∧
      (le alphabet r (symbol 2) ∧ le alphabet (symbol 2) s ∧ le alphabet r s) ∧
      StablySorted (compare alphabet) [symbol 2, r, symbol 0] [r, symbol 2, symbol 0] ∧
      ([r, s] = arrange alphabet [s, r, s] ↔
        ([r, s].Pairwise fun r s => compare alphabet r s = .lt) ∧
          ∀ o, o ∈ [r, s] ↔ o ∈ [s, r, s]) := by
  intro alphabet r s
  obtain ⟨heq, -, htrans, -, hle, hstable, harrange⟩ := operandOrder_total alphabet
  have hr : r.Over alphabet := by decide
  have hs : s.Over alphabet := by decide
  have hsame : compare alphabet (symbol 2) (symbol 0) = .eq := by decide
  have hsame' : compare alphabet (symbol 0) (symbol 2) = .eq := by decide
  have hrs : le alphabet r (symbol 2) = true := by decide
  have hst : le alphabet (symbol 2) s = true := by decide
  refine ⟨⟨hr, hs⟩, heq r s hr hs, ⟨hsame, hsame', htrans _ _ _ _ hsame hsame'⟩,
    ⟨hrs, hst, hle _ _ _ hrs hst⟩, (hstable _ _).mpr ?_, harrange _ _ ?_⟩
  · cbv
  · decide

end Regex

end NameResolution

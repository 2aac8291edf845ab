import NameResolution.Regex.Order

namespace NameResolution.Regex

universe u
variable {σ : Type u} [DecidableEq σ] (alphabet : Alphabet σ)

/-- Ranks and positions in preorder. -/
def code : Regex σ → List Nat
  | symbol a => [2, alphabet.position a]
  | emptyString => [0]
  | emptySet => [1]
  | star r => 3 :: code r
  | complement r => 4 :: code r
  | or l r => 5 :: (code l ++ code r)
  | and l r => 6 :: (code l ++ code r)
  | concat l r => 7 :: (code l ++ code r)

theorem compare_code_append (r s : Regex σ) (x y : List Nat) :
    Ord.compare (code alphabet r ++ x) (code alphabet s ++ y) =
      (compare alphabet r s).then (Ord.compare x y) := by
  induction r generalizing s x y <;> cases s <;>
    simp_all [code, compare, rank, List.compare_eq_compareLex, Ordering.then_assoc] <;> rfl

theorem compare_eq_code (r s : Regex σ) :
    compare alphabet r s = Ord.compare (code alphabet r) (code alphabet s) := by
  have h := compare_code_append alphabet r s [] []
  have e : Ord.compare ([] : List Nat) [] = .eq := rfl
  simpa [e] using h.symm

theorem compare_swap (r s : Regex σ) :
    compare alphabet s r = (compare alphabet r s).swap := by
  rw [compare_eq_code, compare_eq_code]
  exact Std.OrientedCmp.eq_swap

theorem le_total (r s : Regex σ) : (le alphabet r s || le alphabet s r) = true := by
  unfold le
  rw [compare_swap alphabet r s]
  cases compare alphabet r s <;> rfl

theorem le_trans (r s t : Regex σ) (hrs : le alphabet r s = true) (hst : le alphabet s t = true) :
    le alphabet r t = true := by
  unfold le at *
  rw [compare_eq_code] at *
  exact Std.TransCmp.isLE_trans hrs hst

instance : Std.TransCmp (compare alphabet) where
  eq_swap := compare_swap alphabet _ _
  isLE_trans := le_trans alphabet _ _ _

theorem compare_self (r : Regex σ) : compare alphabet r r = .eq := Std.ReflCmp.compare_self

/-- Over the alphabet only equal expressions compare as equal. -/
theorem eq_of_compare_eq {alphabet : Alphabet σ} {r s : Regex σ} (hr : r.Over alphabet)
    (hs : s.Over alphabet) (h : compare alphabet r s = .eq) : r = s := by
  induction r generalizing s with
  | symbol a =>
    cases s with
    | symbol b =>
      exact congrArg symbol
        (Alphabet.position_inj (hr a (.head _)) (hs b (.head _)) (Nat.compare_eq_eq.mp h))
    | _ => simp [compare, rank] at h
  | emptyString => cases s <;> simp [compare, rank] at h ⊢
  | emptySet => cases s <;> simp [compare, rank] at h ⊢
  | star r ih =>
    cases s with
    | star s => exact congrArg star (ih hr hs h)
    | _ => simp [compare, rank] at h
  | complement r ih =>
    cases s with
    | complement s => exact congrArg complement (ih hr hs h)
    | _ => simp [compare, rank] at h
  | or l r ihl ihr =>
    cases s with
    | or l' r' =>
      simp only [Over, symbols, List.mem_append, or_imp, forall_and] at hr hs
      obtain ⟨hl, hr'⟩ := Ordering.then_eq_eq.mp h
      exact congr (congrArg or (ihl hr.1 hs.1 hl)) (ihr hr.2 hs.2 hr')
    | _ => simp [compare, rank] at h
  | and l r ihl ihr =>
    cases s with
    | and l' r' =>
      simp only [Over, symbols, List.mem_append, or_imp, forall_and] at hr hs
      obtain ⟨hl, hr'⟩ := Ordering.then_eq_eq.mp h
      exact congr (congrArg and (ihl hr.1 hs.1 hl)) (ihr hr.2 hs.2 hr')
    | _ => simp [compare, rank] at h
  | concat l r ihl ihr =>
    cases s with
    | concat l' r' =>
      simp only [Over, symbols, List.mem_append, or_imp, forall_and] at hr hs
      obtain ⟨hl, hr'⟩ := Ordering.then_eq_eq.mp h
      exact congr (congrArg concat (ihl hr.1 hs.1 hl)) (ihr hr.2 hs.2 hr')
    | _ => simp [compare, rank] at h

theorem le_antisymm {alphabet : Alphabet σ} {r s : Regex σ} (hr : r.Over alphabet)
    (hs : s.Over alphabet) (h : le alphabet r s = true) (h' : le alphabet s r = true) : r = s := by
  apply eq_of_compare_eq hr hs
  unfold le at *
  rw [compare_swap alphabet r s] at h'
  cases e : compare alphabet r s <;> simp_all

end NameResolution.Regex

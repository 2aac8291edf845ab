import Mathlib
import NameResolution.Regex.Tidy

namespace NameResolution.Regex
open Computability

universe u
variable {σ : Type u}

def words (letters : Set σ) : Language σ := {w | ∀ a ∈ w, a ∈ letters}

/-- The words that an expression matches, where `letters` are all that words are made of. -/
def language (letters : Set σ) : Regex σ → Language σ
  | emptyString => 1
  | emptySet => 0
  | symbol a => {[a]}
  | star r => (r.language letters)∗
  | complement r => words letters - r.language letters
  | or l r => l.language letters + r.language letters
  | and l r => l.language letters ⊓ r.language letters
  | concat l r => l.language letters * r.language letters

@[simp] theorem mem_words_univ (w : List σ) : w ∈ words Set.univ := fun _ _ => trivial

theorem nil_mem_words (letters : Set σ) : [] ∈ words letters := fun _ h => absurd h List.not_mem_nil

theorem append_mem_words {letters : Set σ} {v w : List σ} :
    v ++ w ∈ words letters ↔ v ∈ words letters ∧ w ∈ words letters :=
  List.forall_mem_append

theorem flatten_mem_words {letters : Set σ} {ws : List (List σ)} :
    ws.flatten ∈ words letters ↔ ∀ w ∈ ws, w ∈ words letters := by
  induction ws with
  | nil => simpa using nil_mem_words letters
  | cons w ws ih => rw [List.flatten_cons, append_mem_words, ih, List.forall_mem_cons]

theorem mem_symbol {letters : Set σ} {a : σ} {w : List σ} :
    w ∈ (symbol a).language letters ↔ w = [a] := Iff.rfl

theorem mem_complement {letters : Set σ} {r : Regex σ} {w : List σ} :
    w ∈ (complement r).language letters ↔ w ∈ words letters ∧ w ∉ r.language letters := Iff.rfl

theorem mem_or {letters : Set σ} {l r : Regex σ} {w : List σ} :
    w ∈ (or l r).language letters ↔ w ∈ l.language letters ∨ w ∈ r.language letters := Iff.rfl

theorem mem_and {letters : Set σ} {l r : Regex σ} {w : List σ} :
    w ∈ (and l r).language letters ↔ w ∈ l.language letters ∧ w ∈ r.language letters := Iff.rfl

theorem mem_concat {letters : Set σ} {l r : Regex σ} {w : List σ} :
    w ∈ (concat l r).language letters ↔
      ∃ u ∈ l.language letters, ∃ v ∈ r.language letters, u ++ v = w :=
  Language.mem_mul

theorem mem_universal (w : List σ) : w ∈ universal.language Set.univ :=
  mem_complement.mpr ⟨mem_words_univ w, Language.notMem_zero w⟩

/-- Between words over the letters it makes no difference which other letters there are. -/
theorem mem_language_univ {letters : Set σ} (r : Regex σ) {w : List σ} (hw : w ∈ words letters) :
    w ∈ r.language letters ↔ w ∈ r.language Set.univ := by
  induction r generalizing w with
  | star r ih =>
    -- the pieces of a word over the letters are words over the letters
    have pieces (ws : List (List σ)) (h : w = ws.flatten) :
        (∀ v ∈ ws, v ∈ r.language letters) ↔ ∀ v ∈ ws, v ∈ r.language Set.univ := by
      have hws := flatten_mem_words.mp (h ▸ hw)
      exact forall₂_congr fun v hv => ih (hws v hv)
    exact exists_congr fun ws => and_congr_right (pieces ws)
  | complement r ih => simp only [mem_complement, ih hw, hw, mem_words_univ]
  | or l r ihl ihr => rw [mem_or, mem_or, ihl hw, ihr hw]
  | and l r ihl ihr => rw [mem_and, mem_and, ihl hw, ihr hw]
  | concat l r ihl ihr =>
    rw [mem_concat, mem_concat]
    constructor
    · rintro ⟨u, hu, v, hv, rfl⟩
      have hw := append_mem_words.mp hw
      exact ⟨u, (ihl hw.1).mp hu, v, (ihr hw.2).mp hv, rfl⟩
    · rintro ⟨u, hu, v, hv, rfl⟩
      have hw := append_mem_words.mp hw
      exact ⟨u, (ihl hw.1).mpr hu, v, (ihr hw.2).mpr hv, rfl⟩
  | _ => rfl

theorem nil_mem_language (r : Regex σ) : [] ∈ r.language Set.univ ↔ r.nullable = true := by
  induction r with
  | emptyString => simp [language, nullable]
  | emptySet => simp [language, nullable]
  | symbol a => simp [mem_symbol, nullable]
  | star r _ => simp [language, nullable, Language.nil_mem_kstar]
  | complement r ih => simp [mem_complement, nullable, ih]
  | or l r ihl ihr => simp [mem_or, nullable, ihl, ihr]
  | and l r ihl ihr => simp [mem_and, nullable, ihl, ihr]
  | concat l r ihl ihr => simp [mem_concat, nullable, ← ihl, ← ihr]

theorem nullable_eq_of_language_eq {r s : Regex σ}
    (h : r.language Set.univ = s.language Set.univ) : r.nullable = s.nullable := by
  rw [Bool.eq_iff_iff, ← nil_mem_language, ← nil_mem_language, h]

section Constructors

theorem mem_orOperands (r : Regex σ) (w : List σ) :
    w ∈ r.language Set.univ ↔ ∃ o ∈ r.orOperands, w ∈ o.language Set.univ := by
  induction r with
  | or l r ihl ihr =>
    simp only [mem_or, ihl, ihr, orOperands, List.mem_append, or_and_right, exists_or]
  | _ => simp [orOperands]

theorem mem_andOperands (r : Regex σ) (w : List σ) :
    w ∈ r.language Set.univ ↔ ∀ o ∈ r.andOperands, w ∈ o.language Set.univ := by
  induction r with
  | and l r ihl ihr => simp only [mem_and, ihl, ihr, andOperands, List.forall_mem_append]
  | _ => simp [andOperands]

theorem mem_nest_or (operands : List (Regex σ)) (w : List σ) :
    w ∈ (nest or emptySet operands).language Set.univ ↔
      ∃ o ∈ operands, w ∈ o.language Set.univ := by
  match operands with
  | [] => simp [nest, language]
  | [r] => simp [nest]
  | r :: s :: rs => simp only [nest, mem_or, mem_nest_or (s :: rs) w, List.exists_mem_cons_iff]

theorem mem_nest_and (operands : List (Regex σ)) (w : List σ) :
    w ∈ (nest and universal operands).language Set.univ ↔
      ∀ o ∈ operands, w ∈ o.language Set.univ := by
  match operands with
  | [] => simp [nest, mem_universal]
  | [r] => simp [nest]
  | r :: s :: rs => simp only [nest, mem_and, mem_nest_and (s :: rs) w, List.forall_mem_cons]

theorem language_simpleStar (r : Regex σ) :
    (simpleStar r).language Set.univ = (star r).language Set.univ := by
  cases r with
  | emptySet => exact kstar_zero.symm
  | emptyString => exact kstar_one.symm
  | star r => exact (kstar_idem _).symm
  | _ => rfl

theorem language_simpleComplement (r : Regex σ) :
    (simpleComplement r).language Set.univ = (complement r).language Set.univ := by
  cases r with
  | complement r =>
    ext w
    simp [simpleComplement, mem_complement]
  | _ => rfl

theorem language_simpleConcat (l r : Regex σ) :
    (simpleConcat l r).language Set.univ = (concat l r).language Set.univ := by
  fun_induction simpleConcat l r with
  | case1 r => exact (zero_mul (r.language Set.univ)).symm
  | case2 l => exact (mul_zero (l.language Set.univ)).symm
  | case3 r => exact (one_mul (r.language Set.univ)).symm
  | case4 l => exact (mul_one (l.language Set.univ)).symm
  | case5 l₁ l₂ r _ _ ih₂ ih₁ =>
    -- a concatenation on the left is re-associated
    rw [ih₁, language, ih₂]
    exact (mul_assoc (l₁.language Set.univ) (l₂.language Set.univ) (r.language Set.univ)).symm
  | case6 => rfl

variable [DecidableEq σ] (alphabet : Alphabet σ)

theorem language_simpleOr (l r : Regex σ) :
    (simpleOr alphabet l r).language Set.univ = (or l r).language Set.univ := by
  ext w
  rw [mem_orOperands (or l r), orOperands]
  simp only [simpleOr]
  split
  · next h => exact iff_of_true (mem_universal w) ⟨_, h, mem_universal w⟩
  · -- leaving out `0` loses no word
    rw [mem_nest_or]
    constructor
    · rintro ⟨o, ho, hw⟩
      exact ⟨o, (List.mem_filter.mp (mem_arrange.mp ho)).1, hw⟩
    · rintro ⟨o, ho, hw⟩
      have hne : o ≠ emptySet := by
        rintro rfl
        exact Language.notMem_zero w hw
      exact ⟨o, mem_arrange.mpr (List.mem_filter.mpr ⟨ho, decide_eq_true hne⟩), hw⟩

theorem language_simpleAnd (l r : Regex σ) :
    (simpleAnd alphabet l r).language Set.univ = (and l r).language Set.univ := by
  ext w
  rw [mem_andOperands (and l r), andOperands]
  simp only [simpleAnd]
  split
  · next h =>
    exact iff_of_false (Language.notMem_zero w) fun hw => Language.notMem_zero w (hw _ h)
  · -- leaving out `~0` adds no word
    rw [mem_nest_and]
    constructor
    · intro hw o ho
      by_cases hu : o = universal
      · rw [hu]
        exact mem_universal w
      · exact hw o (mem_arrange.mpr (List.mem_filter.mpr ⟨ho, decide_eq_true hu⟩))
    · intro hw o ho
      exact hw o (List.mem_filter.mp (mem_arrange.mp ho)).1

theorem language_normalize (r : Regex σ) :
    (normalize alphabet r).language Set.univ = r.language Set.univ := by
  induction r with
  | star r ih => rw [normalize, language_simpleStar, language, language, ih]
  | complement r ih => rw [normalize, language_simpleComplement, language, language, ih]
  | or l r ihl ihr => rw [normalize, language_simpleOr, language, language, ihl, ihr]
  | and l r ihl ihr => rw [normalize, language_simpleAnd, language, language, ihl, ihr]
  | concat l r ihl ihr => rw [normalize, language_simpleConcat, language, language, ihl, ihr]
  | _ => rfl

end Constructors

section Derivatives

theorem cons_mem_mul {l m : Language σ} {a : σ} {w : List σ} :
    a :: w ∈ l * m ↔ (∃ u v, a :: u ∈ l ∧ v ∈ m ∧ u ++ v = w) ∨ [] ∈ l ∧ a :: w ∈ m := by
  rw [Language.mem_mul]
  constructor
  · rintro ⟨_ | ⟨b, u⟩, hu, v, hv, h⟩
    · rw [List.nil_append] at h
      exact .inr ⟨hu, h ▸ hv⟩
    · obtain ⟨rfl, rfl⟩ := List.cons.inj h
      exact .inl ⟨u, v, hu, hv, rfl⟩
  · rintro (⟨u, v, hu, hv, rfl⟩ | ⟨hnil, hw⟩)
    · exact ⟨a :: u, hu, v, hv, rfl⟩
    · exact ⟨[], hnil, a :: w, hw, rfl⟩

theorem cons_mem_kstar {l : Language σ} {a : σ} {w : List σ} :
    a :: w ∈ l∗ ↔ ∃ u v, a :: u ∈ l ∧ v ∈ l∗ ∧ u ++ v = w := by
  constructor
  · intro h
    obtain ⟨ws, hws, hmem⟩ := Language.mem_kstar_iff_exists_nonempty.mp h
    match ws with
    | [] => cases hws
    | [] :: _ => exact absurd rfl (hmem [] (.head _)).2
    | (b :: u) :: ws =>
      obtain ⟨rfl, rfl⟩ := List.cons.inj hws
      have hrest : ws.flatten ∈ l∗ := Language.join_mem_kstar fun y hy => (hmem y (.tail _ hy)).1
      exact ⟨u, ws.flatten, (hmem _ (.head _)).1, hrest, rfl⟩
  · rintro ⟨u, v, hu, ⟨ws, rfl, hws⟩, rfl⟩
    exact ⟨(a :: u) :: ws, rfl, List.forall_mem_cons.mpr ⟨hu, hws⟩⟩

variable [DecidableEq σ] (alphabet : Alphabet σ)

/-- A derivative matches what remains of a word after its first symbol. -/
theorem mem_language_derive (a : σ) (r : Regex σ) (w : List σ) :
    w ∈ (derive alphabet a r).language Set.univ ↔ a :: w ∈ r.language Set.univ := by
  induction r generalizing w with
  | emptyString => simp [derive, language]
  | emptySet => simp [derive, language]
  | symbol b =>
    rw [derive, mem_symbol]
    split
    · next h => simp [language, h]
    · next h => simp [language, Ne.symm h]
  | star r ih =>
    rw [derive, language_simpleConcat, mem_concat, language, cons_mem_kstar]
    simp only [ih, exists_and_left]
  | complement r ih => simp [derive, language_simpleComplement, mem_complement, ih]
  | or l r ihl ihr => rw [derive, language_simpleOr, mem_or, mem_or, ihl, ihr]
  | and l r ihl ihr => rw [derive, language_simpleAnd, mem_and, mem_and, ihl, ihr]
  | concat l r ihl ihr =>
    have hleft : w ∈ (simpleConcat (derive alphabet a l) r).language Set.univ ↔
        ∃ u v, a :: u ∈ l.language Set.univ ∧ v ∈ r.language Set.univ ∧ u ++ v = w := by
      simp only [language_simpleConcat, mem_concat, ihl, exists_and_left]
    rw [derive, language, cons_mem_mul, nil_mem_language, ← hleft, ← ihr]
    split
    · next h => rw [language_simpleOr, mem_or, and_iff_right h]
    · next h => simp [h]

end Derivatives

end NameResolution.Regex

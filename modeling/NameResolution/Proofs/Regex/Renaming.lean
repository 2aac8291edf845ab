import Mathlib.Data.List.Nodup
import NameResolution.Regex.Tidy

namespace NameResolution

universe u
variable {σ τ : Type u}

/-- The second alphabet is the first one renamed. It has no symbol twice, so distinct symbols of the
first have distinct names. -/
def Alphabet.Renamed (alphabet : Alphabet σ) (f : σ → τ) (renamed : Alphabet τ) : Prop :=
  renamed.symbols = alphabet.symbols.map f

namespace Alphabet.Renamed

variable {f : σ → τ} {alphabet : Alphabet σ} {renamed : Alphabet τ} {a b : σ}

theorem mem (hf : alphabet.Renamed f renamed) (ha : a ∈ alphabet) : f a ∈ renamed := by
  rw [mem_def, show renamed.symbols = _ from hf]
  exact List.mem_map_of_mem ha

theorem inj (hf : alphabet.Renamed f renamed) (ha : a ∈ alphabet) (hb : b ∈ alphabet)
    (h : f a = f b) : a = b := by
  have hnodup : (alphabet.symbols.map f).Nodup := hf ▸ renamed.nodup
  exact List.inj_on_of_nodup_map hnodup ha hb h

theorem position_eq [DecidableEq σ] [DecidableEq τ] (hf : alphabet.Renamed f renamed)
    (ha : a ∈ alphabet) : renamed.position (f a) = alphabet.position a := by
  have hget : renamed.symbols[alphabet.position a]? = some (f a) := by
    rw [show renamed.symbols = _ from hf, List.getElem?_map, getElem?_position ha]
    rfl
  obtain ⟨hlt, hget⟩ := List.getElem?_eq_some_iff.mp hget
  rw [← hget]
  exact renamed.nodup.idxOf_getElem _ hlt

end Alphabet.Renamed

namespace Regex

def map (f : σ → τ) : Regex σ → Regex τ
  | emptyString => emptyString
  | emptySet => emptySet
  | symbol a => symbol (f a)
  | star r => star (r.map f)
  | complement r => complement (r.map f)
  | or l r => or (l.map f) (r.map f)
  | and l r => and (l.map f) (r.map f)
  | concat l r => concat (l.map f) (r.map f)

section Structure

variable (f : σ → τ)

theorem symbols_map (r : Regex σ) : (r.map f).symbols = r.symbols.map f := by
  induction r with
  | or l r ihl ihr | and l r ihl ihr | concat l r ihl ihr =>
    simp only [map, symbols, ihl, ihr, List.map_append]
  | star r ih | complement r ih => exact ih
  | _ => rfl

theorem nullable_map (r : Regex σ) : (r.map f).nullable = r.nullable := by
  induction r with
  | or l r ihl ihr | and l r ihl ihr | concat l r ihl ihr => simp only [map, nullable, ihl, ihr]
  | complement r ih => simp only [map, nullable, ih]
  | _ => rfl

theorem simpleStar_map (r : Regex σ) : simpleStar (r.map f) = (simpleStar r).map f := by
  cases r <;> rfl

theorem simpleComplement_map (r : Regex σ) :
    simpleComplement (r.map f) = (simpleComplement r).map f := by
  cases r <;> rfl

theorem simpleConcat_map (l r : Regex σ) :
    simpleConcat (l.map f) (r.map f) = (simpleConcat l r).map f := by
  induction l generalizing r with
  | concat l₁ l₂ ih₁ ih₂ =>
    cases r with
    | emptySet | emptyString => rfl
    | _ => exact (congrArg (simpleConcat (l₁.map f)) (ih₂ _)).trans (ih₁ _)
  | _ => cases r <;> rfl

variable (j : Junction)

theorem map_node (l r : Regex σ) : (j.node l r).map f = j.node (l.map f) (r.map f) := by
  cases j <;> rfl

theorem map_unit : (j.unit : Regex σ).map f = j.unit := by
  cases j <;> rfl

theorem map_zero : (j.zero : Regex σ).map f = j.zero := by
  cases j <;> rfl

theorem isNode_map_iff {r : Regex σ} : j.IsNode (r.map f) ↔ j.IsNode r := by
  cases j <;> cases r <;> rfl

theorem operands_map (r : Regex σ) : j.operands (r.map f) = (j.operands r).map (map f) := by
  induction r using j.induction with
  | single r h =>
    rw [j.operands_of_not_isNode h, j.operands_of_not_isNode (mt (isNode_map_iff f j).mp h)]
    rfl
  | node l r ihl ihr =>
    rw [map_node, j.operands_node, j.operands_node, ihl, ihr, List.map_append]

theorem nest_map (operands : List (Regex σ)) :
    nest j.node j.unit (operands.map (map f)) = (nest j.node j.unit operands).map f := by
  match operands with
  | [] => exact (map_unit f j).symm
  | [r] => rfl
  | r :: s :: rs =>
    have ih := nest_map (s :: rs)
    rw [nest, map_node, ← ih]
    rfl

end Structure

section Normal

variable {f : σ → τ} {alphabet : Alphabet σ} {renamed : Alphabet τ}

theorem over_map (hf : alphabet.Renamed f renamed) {r : Regex σ} (hr : r.Over alphabet) :
    (r.map f).Over renamed := by
  intro a ha
  rw [symbols_map, List.mem_map] at ha
  obtain ⟨b, hb, rfl⟩ := ha
  exact hf.mem (hr b hb)

variable [DecidableEq σ] [DecidableEq τ] (hf : alphabet.Renamed f renamed) {l r s : Regex σ}

include hf

theorem code_map (hr : r.Over alphabet) : code renamed (r.map f) = code alphabet r := by
  induction r with
  | symbol a => rw [map, code, code, hf.position_eq (hr a List.mem_cons_self)]
  | star r ih | complement r ih => rw [map, code, code, ih hr]
  | or l r ihl ihr | and l r ihl ihr | concat l r ihl ihr =>
    obtain ⟨hl, hr⟩ := over_concat.mp hr
    rw [map, code, code, ihl hl, ihr hr]
  | _ => rfl

theorem compare_map (hr : r.Over alphabet) (hs : s.Over alphabet) :
    compare renamed (r.map f) (s.map f) = compare alphabet r s := by
  rw [compare_eq_code, compare_eq_code, code_map hf hr, code_map hf hs]

/-- Over the alphabet, renaming keeps expressions apart. -/
theorem map_inj (hr : r.Over alphabet) (hs : s.Over alphabet) (h : r.map f = s.map f) : r = s := by
  apply eq_of_compare_eq hr hs
  rw [← compare_map hf hr hs, h]
  exact compare_self renamed (s.map f)

theorem map_eq_map_iff (hr : r.Over alphabet) (hs : s.Over alphabet) :
    r.map f = s.map f ↔ r = s :=
  ⟨map_inj hf hr hs, congrArg (map f)⟩

theorem dropRepeats_map {operands : List (Regex σ)} (h : ∀ o ∈ operands, o.Over alphabet) :
    dropRepeats (operands.map (map f)) = (dropRepeats operands).map (map f) := by
  fun_induction dropRepeats operands with
  | case1 => rfl
  | case2 => rfl
  | case3 x xs ih =>
    have hrest := ih (List.forall_mem_cons.mp h).2
    rw [← hrest, List.map_cons, List.map_cons, dropRepeats, if_pos rfl]
  | case4 x y xs hxy ih =>
    obtain ⟨hx, hrest⟩ := List.forall_mem_cons.mp h
    have hne : x.map f ≠ y.map f := mt (map_inj hf hx (hrest y List.mem_cons_self)) hxy
    rw [List.map_cons, List.map_cons, dropRepeats, if_neg hne, List.map_cons, ← ih hrest,
      List.map_cons]

theorem arrange_map {operands : List (Regex σ)} (h : ∀ o ∈ operands, o.Over alphabet) :
    arrange renamed (operands.map (map f)) = (arrange alphabet operands).map (map f) := by
  have hsort : (operands.map (map f)).mergeSort (le renamed) =
      (operands.mergeSort (le alphabet)).map (map f) := by
    refine (List.map_mergeSort fun x hx y hy => ?_).symm
    rw [le, le, compare_map hf (h x hx) (h y hy)]
  rw [arrange, arrange, hsort]
  exact dropRepeats_map hf fun o ho => h o (List.mem_mergeSort.mp ho)

variable (j : Junction)

theorem combine_map {operands : List (Regex σ)} (h : ∀ o ∈ operands, o.Over alphabet) :
    j.combine renamed (operands.map (map f)) = (j.combine alphabet operands).map f := by
  have hmem : j.zero ∈ operands.map (map f) ↔ j.zero ∈ operands := by
    rw [← map_zero f j, List.mem_map]
    constructor
    · rintro ⟨o, ho, heq⟩
      exact map_inj hf (h o ho) (over_zero j) heq ▸ ho
    · exact fun hz => ⟨_, hz, rfl⟩
  by_cases hz : j.zero ∈ operands
  · rw [j.combine_of_zero_mem hz, j.combine_of_zero_mem (hmem.mpr hz), map_zero]
  · have hfilter : (operands.map (map f)).filter (· ≠ j.unit) =
        (operands.filter (· ≠ j.unit)).map (map f) := by
      rw [List.filter_map]
      refine congrArg _ (List.filter_congr fun o ho => ?_)
      simp only [Function.comp, ← map_unit f j, ne_eq, map_eq_map_iff hf (h o ho) (over_unit j)]
    rw [j.combine_of_zero_not_mem hz, j.combine_of_zero_not_mem (mt hmem.mp hz), hfilter,
      arrange_map hf fun o ho => h o (List.mem_filter.mp ho).1, nest_map]

theorem simplify_map (hl : l.Over alphabet) (hr : r.Over alphabet) :
    j.simplify renamed (l.map f) (r.map f) = (j.simplify alphabet l r).map f := by
  rw [j.simplify_eq_combine, j.simplify_eq_combine, operands_map, operands_map, ← List.map_append]
  apply combine_map hf
  intro o ho
  exact (List.mem_append.mp ho).elim (hl.of_mem_operands j) (hr.of_mem_operands j)

/-- Normal forms are renamed with their expressions. -/
theorem normalize_map (hr : r.Over alphabet) :
    normalize renamed (r.map f) = (normalize alphabet r).map f := by
  induction r with
  | star r ih => rw [map, normalize, ih hr, simpleStar_map, normalize]
  | complement r ih => rw [map, normalize, ih hr, simpleComplement_map, normalize]
  | or l r ihl ihr =>
    obtain ⟨hl, hr⟩ := (over_node .union).mp hr
    rw [map, normalize, ihl hl, ihr hr]
    exact simplify_map hf .union (over_normalize hl) (over_normalize hr)
  | and l r ihl ihr =>
    obtain ⟨hl, hr⟩ := (over_node .intersection).mp hr
    rw [map, normalize, ihl hl, ihr hr]
    exact simplify_map hf .intersection (over_normalize hl) (over_normalize hr)
  | concat l r ihl ihr =>
    obtain ⟨hl, hr⟩ := over_concat.mp hr
    rw [map, normalize, ihl hl, ihr hr, simpleConcat_map, normalize]
  | _ => rfl

/-- Derivatives are renamed with their expressions. -/
theorem derive_map {a : σ} (ha : a ∈ alphabet) (hr : r.Over alphabet) :
    derive renamed (f a) (r.map f) = (derive alphabet a r).map f := by
  induction r with
  | symbol b =>
    rw [map, derive, derive]
    -- both symbols are in the alphabet, where the renaming is injective
    by_cases h : b = a
    · rw [if_pos h, if_pos (congrArg f h)]
      rfl
    · rw [if_neg h, if_neg (mt (hf.inj (hr b List.mem_cons_self) ha) h)]
      rfl
  | star r ih =>
    rw [map, derive, ih hr, derive, ← simpleConcat_map]
    rfl
  | complement r ih => rw [map, derive, ih hr, simpleComplement_map, derive]
  | or l r ihl ihr =>
    obtain ⟨hl, hr⟩ := (over_node .union).mp hr
    rw [map, derive, ihl hl, ihr hr]
    exact simplify_map hf .union (over_derive a hl) (over_derive a hr)
  | and l r ihl ihr =>
    obtain ⟨hl, hr⟩ := (over_node .intersection).mp hr
    rw [map, derive, ihl hl, ihr hr]
    exact simplify_map hf .intersection (over_derive a hl) (over_derive a hr)
  | concat l r ihl ihr =>
    obtain ⟨hl, hr⟩ := over_concat.mp hr
    rw [map, derive, derive, ihl hl, ihr hr, simpleConcat_map, nullable_map]
    split
    · exact simplify_map hf .union (over_simpleConcat (over_derive a hl) hr) (over_derive a hr)
    · rfl
  | _ => rfl

end Normal

end Regex

end NameResolution

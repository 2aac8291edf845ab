import NameResolution.Proofs.Automaton.Representation
import NameResolution.Proofs.Automaton.Stuckness
import NameResolution.Proofs.Regex.Renaming

namespace NameResolution

universe u

section Exploration

variable {α β : Type u} [DecidableEq α] [DecidableEq β] {g : α → β}

theorem unseen_map {known xs : List α}
    (hg : ∀ x ∈ known ++ xs, ∀ y ∈ known ++ xs, g x = g y → x = y) :
    unseen (known.map g) (xs.map g) = (unseen known xs).map g := by
  induction xs generalizing known with
  | nil => rfl
  | cons x xs ih =>
    have hmem : g x ∈ known.map g ↔ x ∈ known := by
      rw [List.mem_map]
      constructor
      · rintro ⟨y, hy, heq⟩
        exact hg y (by simp [hy]) x (by simp) heq ▸ hy
      · exact fun hx => ⟨x, hx, rfl⟩
    rw [List.map_cons, unseen, unseen]
    by_cases hx : x ∈ known
    · rw [if_pos hx, if_pos (hmem.mpr hx)]
      exact ih fun y hy z hz => hg y (by grind) z (by grind)
    · rw [if_neg hx, if_neg (mt hmem.mp hx), List.map_cons, ← List.map_cons,
        ih fun y hy z hz => hg y (by grind) z (by grind)]

variable {next : α → List α} {next' : β → List β} {start : α}
  {finite : FinitelyReachable next start} {finite' : FinitelyReachable next' (g start)}

theorem exploreFrom_map (hnext : ∀ x, Reachable next start x → next' (g x) = (next x).map g)
    (hg : ∀ x y, Reachable next start x → Reachable next start y → g x = g y → x = y)
    {known work : List α} (nodup : known.Nodup) (reachable : ∀ x ∈ known, Reachable next start x)
    (pending : ∀ x ∈ work, x ∈ known) {known' work' : List β} (hknown : known' = known.map g)
    (hwork : work' = work.map g) (nodup' : known'.Nodup)
    (reachable' : ∀ x ∈ known', Reachable next' (g start) x)
    (pending' : ∀ x ∈ work', x ∈ known') :
    exploreFrom finite' known' work' nodup' reachable' pending' =
      (exploreFrom finite known work nodup reachable pending).map g := by
  -- Both runs meet nodes in step, since only new nodes are added and renaming keeps them apart.
  fun_induction exploreFrom finite known work nodup reachable pending generalizing known' work' with
  | case1 =>
    obtain rfl : work' = [] := hwork
    rw [exploreFrom]
    exact hknown
  | case2 known nodup reachable x work pending fresh _ =>
    rename_i ih
    obtain rfl : work' = g x :: work.map g := hwork
    have hx : Reachable next start x := reachable x (pending x List.mem_cons_self)
    have hfresh : unseen known' (next' (g x)) = fresh.map g := by
      rw [hknown, hnext x hx]
      apply unseen_map
      have hall : ∀ y ∈ known ++ next x, Reachable next start y := by
        intro y hy
        exact (List.mem_append.mp hy).elim (reachable y) (.step hx)
      exact fun y hy z hz => hg y z (hall y hy) (hall z hz)
    rw [exploreFrom]
    apply ih
    · rw [hfresh, hknown, List.map_append]
    · rw [hfresh, List.map_append, List.map_reverse]

/-- Where successors are renamed with their nodes, so is what exploration finds, in its order. -/
theorem explore_map (hnext : ∀ x, Reachable next start x → next' (g x) = (next x).map g)
    (hg : ∀ x y, Reachable next start x → Reachable next start y → g x = g y → x = y) :
    explore finite' = (explore finite).map g := by
  unfold explore
  have hstart : [g start] = [start].map g := rfl
  exact exploreFrom_map hnext hg _ _ _ hstart hstart _ _ _

end Exploration

variable {σ τ : Type u} [DecidableEq σ] [DecidableEq τ] {f : σ → τ} {alphabet : Alphabet σ}
  {renamed : Alphabet τ} {regex : Regex σ}

namespace Regex

variable (hf : alphabet.Renamed f renamed) (h : regex.Over alphabet)
  (h' : (regex.map f).Over renamed)

include hf

theorem derivatives_map {r : Regex σ} (hr : r.Over alphabet) :
    derivatives renamed (r.map f) = (derivatives alphabet r).map (map f) := by
  rw [derivatives, derivatives, show renamed.symbols = _ from hf, List.map_map, List.map_map]
  exact List.map_congr_left fun a ha => derive_map hf ha hr

theorem residuals_map :
    (regex.map f).residuals renamed h' = (regex.residuals alphabet h).map (map f) := by
  have hmap (finite : FinitelyReachable (derivatives renamed) (normalize renamed (regex.map f))) :
      explore finite = (regex.residuals alphabet h).map (map f) := by
    revert finite
    rw [normalize_map hf h]
    intro finite
    apply explore_map
    · exact fun r hr => derivatives_map hf (over_of_reachable h hr)
    · exact fun r s hr hs => map_inj hf (over_of_reachable h hr) (over_of_reachable h hs)
  exact hmap _

theorem deriveAll_map {r : Regex σ} (hr : r.Over alphabet) {word : List σ}
    (hword : ∀ a ∈ word, a ∈ alphabet) :
    (r.map f).deriveAll renamed (word.map f) = (r.deriveAll alphabet word).map f := by
  induction word generalizing r with
  | nil => rfl
  | cons a word ih =>
    obtain ⟨ha, hrest⟩ := List.forall_mem_cons.mp hword
    have hstep := ih (over_derive a hr) hrest
    rw [← derive_map hf ha hr] at hstep
    exact hstep

end Regex

omit [DecidableEq σ] [DecidableEq τ] in
theorem Alphabet.Renamed.exists_word (hf : alphabet.Renamed f renamed) {word : List τ}
    (hword : ∀ b ∈ word, b ∈ renamed) :
    ∃ word' : List σ, (∀ a ∈ word', a ∈ alphabet) ∧ word'.map f = word := by
  induction word with
  | nil => exact ⟨[], fun _ ha => absurd ha List.not_mem_nil, rfl⟩
  | cons b word ih =>
    obtain ⟨hb, hrest⟩ := List.forall_mem_cons.mp hword
    obtain ⟨word', hword', rfl⟩ := ih hrest
    rw [mem_def, show renamed.symbols = _ from hf, List.mem_map] at hb
    obtain ⟨a, ha, rfl⟩ := hb
    exact ⟨a :: word', List.forall_mem_cons.mpr ⟨ha, hword'⟩, rfl⟩

namespace Matcher

/-- A matcher is stuck if no word over the alphabet leaves the empty word to be matched. -/
theorem stuck_iff_deriveAll {h : regex.Over alphabet} (m : Matcher (regex.compile alphabet h)) :
    m.stuck = true ↔ ∀ word : List σ, (∀ a ∈ word, a ∈ alphabet) →
      (m.residual.deriveAll alphabet word).nullable = false := by
  have hcompiled : (regex.compile alphabet h).Compiled := ⟨regex, alphabet, h, rfl⟩
  rw [hcompiled.stuck_iff]
  constructor
  · intro hnone word hword
    obtain ⟨m', hmatch, hresidual⟩ := m.exists_matchAll? hword
    rw [← hresidual, ← accepting_eq_nullable]
    exact hnone word m' hmatch
  · intro hnone word m' hmatch
    have hword := mem_alphabet_of_matchAll? hmatch
    obtain ⟨m'', hmatch', hresidual⟩ := m.exists_matchAll? hword
    cases hmatch.symm.trans hmatch'
    rw [accepting_eq_nullable, hresidual]
    exact hnone word hword

theorem stuck_map (hf : alphabet.Renamed f renamed) {h : regex.Over alphabet}
    {h' : (regex.map f).Over renamed} {m : Matcher (regex.compile alphabet h)}
    {m' : Matcher ((regex.map f).compile renamed h')} (hm : m'.residual = m.residual.map f)
    (hover : m.residual.Over alphabet) : m'.stuck = m.stuck := by
  rw [Bool.eq_iff_iff, stuck_iff_deriveAll, stuck_iff_deriveAll, hm]
  constructor
  · intro hnone word hword
    have hmem : ∀ b ∈ word.map f, b ∈ renamed := by
      intro b hb
      obtain ⟨a, ha, rfl⟩ := List.mem_map.mp hb
      exact hf.mem (hword a ha)
    rw [← Regex.nullable_map f, ← Regex.deriveAll_map hf hover hword]
    exact hnone _ hmem
  · intro hnone word hword
    obtain ⟨word', hword', rfl⟩ := hf.exists_word hword
    rw [Regex.deriveAll_map hf hover hword', Regex.nullable_map]
    exact hnone word' hword'

end Matcher

/-- An automaton without its symbols and expressions: where each state leads by each position of the
alphabet, whether it accepts and whether it is stuck. -/
def Automaton.shape (automaton : Automaton σ) : List (List ℕ × Bool × Bool) :=
  List.ofFn fun i => (List.ofFn fun j => (automaton.target i j).val,
    (automaton.states.get i).accepting, !(automaton.states.get i).live)

namespace Regex

theorem length_residuals_map (hf : alphabet.Renamed f renamed) (h : regex.Over alphabet)
    (h' : (regex.map f).Over renamed) :
    ((regex.map f).residuals renamed h').length = (regex.residuals alphabet h).length := by
  rw [residuals_map hf h h', List.length_map]

/-- The state at the same position holds the renamed expression. -/
theorem get_residuals_map (hf : alphabet.Renamed f renamed) (h : regex.Over alphabet)
    (h' : (regex.map f).Over renamed) (i : Fin (regex.residuals alphabet h).length) :
    ((regex.map f).residuals renamed h').get (i.cast (length_residuals_map hf h h').symm) =
      ((regex.residuals alphabet h).get i).map f := by
  simp [residuals_map hf h h']

theorem idxOf_residuals_map (hf : alphabet.Renamed f renamed) (h : regex.Over alphabet)
    (h' : (regex.map f).Over renamed) {r : Regex σ} (hr : r ∈ regex.residuals alphabet h) :
    ((regex.map f).residuals renamed h').idxOf (r.map f) =
      (regex.residuals alphabet h).idxOf r := by
  obtain ⟨i, rfl⟩ := List.mem_iff_get.mp hr
  have hnodup : (regex.residuals alphabet h).Nodup := nodup_explore
  have hnodup' : ((regex.map f).residuals renamed h').Nodup := nodup_explore
  rw [← get_residuals_map hf h h' i]
  exact (hnodup'.idxOf_getElem _ _).trans (hnodup.idxOf_getElem _ _).symm

/-- Renaming keeps the transition table and tells which states accept and which are stuck. -/
theorem shape_map (hf : alphabet.Renamed f renamed) (h : regex.Over alphabet)
    (h' : (regex.map f).Over renamed) :
    ((regex.map f).compile renamed h').shape = (regex.compile alphabet h).shape := by
  have hsize : ((regex.map f).compile renamed h').size = (regex.compile alphabet h).size :=
    length_residuals_map hf h h'
  rw [Automaton.shape, Automaton.shape, List.ofFn_congr hsize]
  refine congrArg List.ofFn (funext fun i => ?_)
  let m : Matcher (regex.compile alphabet h) := ⟨i⟩
  let m' : Matcher ((regex.map f).compile renamed h') := ⟨i.cast hsize.symm⟩
  have hresidual : m'.residual = m.residual.map f := by
    rw [Matcher.residual_eq_get, Matcher.residual_eq_get]
    exact get_residuals_map hf h h' i
  have hmem : m.residual ∈ regex.residuals alphabet h := by
    rw [Matcher.residual_eq_get]
    exact List.get_mem _ _
  have hover : m.residual.Over alphabet := over_of_reachable h (mem_explore.mp hmem)
  -- a row holds positions of derivatives, and renamed derivatives stand at the same positions
  have hrow : (List.ofFn fun j => (((regex.map f).compile renamed h').target m'.state j).val) =
      List.ofFn fun j => ((regex.compile alphabet h).target m.state j).val :=
    calc (List.ofFn fun j => (((regex.map f).compile renamed h').target m'.state j).val)
        = (derivatives renamed m'.residual).map ((regex.map f).residuals renamed h').idxOf :=
          (row_compile h' _).symm
      _ = (derivatives alphabet m.residual).map (regex.residuals alphabet h).idxOf := by
          rw [hresidual, derivatives_map hf hover, List.map_map]
          exact List.map_congr_left fun s hs =>
            idxOf_residuals_map hf h h' (next_subset_explore hmem hs)
      _ = List.ofFn fun j => ((regex.compile alphabet h).target m.state j).val := row_compile h _
  have haccepting : m'.accepting = m.accepting := by
    rw [Matcher.accepting_eq_nullable, Matcher.accepting_eq_nullable, hresidual, nullable_map]
  have hstuck : m'.stuck = m.stuck := Matcher.stuck_map hf hresidual hover
  exact Prod.ext hrow (Prod.ext haccepting hstuck)

end Regex

end NameResolution

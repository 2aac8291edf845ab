import NameResolution.Proofs.Automaton.Residuals

namespace NameResolution

universe u
variable {σ : Type u} [DecidableEq σ]

namespace Matcher

section Branches

variable {automaton : Automaton σ} {m m' : Matcher automaton} {a : σ}

/-- The branches are the steps by the symbols of the alphabet. -/
theorem mem_branches : (a, m') ∈ m.branches ↔ ∃ h : a ∈ automaton.alphabet, m.step a h = m' := by
  unfold branches
  rw [List.mem_iff_getElem?]
  simp only [List.getElem?_zip_eq_some, List.getElem?_map, Option.map_eq_some_iff]
  constructor
  · rintro ⟨i, hi, next, hnext, rfl⟩
    have ha : a ∈ automaton.alphabet := List.mem_of_getElem? hi
    have hposition : automaton.alphabet.position a = i := by
      obtain ⟨hlt, rfl⟩ := List.getElem?_eq_some_iff.mp hi
      exact automaton.alphabet.nodup.idxOf_getElem i hlt
    refine ⟨ha, congrArg mk ?_⟩
    obtain ⟨hlt, hget⟩ := List.getElem?_eq_some_iff.mp hnext
    rw [← hget]
    simp [Vector.get, hposition]
  · rintro ⟨ha, rfl⟩
    refine ⟨automaton.alphabet.position a, Alphabet.getElem?_position ha, _, ?_, rfl⟩
    simp [Vector.get]

omit [DecidableEq σ] in
theorem map_fst_branches (m : Matcher automaton) :
    m.branches.map (·.1) = automaton.alphabet.symbols := by
  unfold branches
  apply List.map_fst_zip
  simp [Alphabet.size]

omit [DecidableEq σ] in
theorem nodup_branches (m : Matcher automaton) : m.branches.Nodup := by
  apply List.Nodup.of_map (·.1)
  rw [map_fst_branches]
  exact automaton.alphabet.nodup

end Branches

variable {regex : Regex σ} {alphabet : Alphabet σ} {h : regex.Over alphabet}

/-- Liveness follows an accepted word backwards. -/
theorem live_of_accepting_matchAll {m m' : Matcher (regex.compile alphabet h)} {word : List σ}
    (hmatch : m.matchAll? word = .ok m') (hacc : m'.accepting = true) :
    Reachable (Automaton.backward (fun i => ((regex.residuals alphabet h).get i).nullable)
      (regex.transitions h)) none (some m.index) := by
  induction word generalizing m with
  | nil =>
    cases hmatch
    apply Reachable.step .refl
    apply List.mem_map_of_mem
    rw [accepting_eq_nullable, residual_eq_get] at hacc
    exact List.mem_filter.mpr ⟨List.mem_finRange _, hacc⟩
  | cons a word ih =>
    obtain ⟨ha, hrest⟩ := matchAll?_cons_eq_ok_iff.mp hmatch
    -- the state after `a` is live, and this one precedes it
    apply Reachable.step (ih hrest)
    apply List.mem_map_of_mem
    rw [index_step m ha]
    apply List.mem_filter.mpr
    refine ⟨List.mem_finRange _, ?_⟩
    simp [Vector.get]

end Matcher

/-- A matcher of a compiled automaton is not stuck if some word is accepted from it. -/
theorem Automaton.Compiled.not_stuck {automaton : Automaton σ} (hcompiled : automaton.Compiled)
    {m m' : Matcher automaton} {word : List σ} (hmatch : m.matchAll? word = .ok m')
    (hacc : m'.accepting = true) : m.stuck = false := by
  obtain ⟨regex, alphabet, h, rfl⟩ := hcompiled
  rw [Matcher.stuck_compile, Bool.not_eq_false', decide_eq_true_iff, mem_explore]
  exact Matcher.live_of_accepting_matchAll hmatch hacc

end NameResolution

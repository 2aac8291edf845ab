import NameResolution.Proofs.Automaton.Liveness

namespace NameResolution

universe u
variable {σ : Type u} [DecidableEq σ]

theorem Regex.compiled_of_compile? {regex : Regex σ} {alphabet : Alphabet σ}
    {automaton : Automaton σ} (hcompile : regex.compile? alphabet = .ok automaton) :
    automaton.Compiled := by
  obtain ⟨h, hautomaton⟩ := exists_over_of_compile? hcompile
  exact ⟨regex, alphabet, h, hautomaton⟩

namespace Matcher

section Words

variable {automaton : Automaton σ} {m m' : Matcher automaton} {a : σ}

theorem step?_eq_ok_iff : m.step? a = .ok m' ↔ ∃ h : a ∈ automaton.alphabet, m.step a h = m' := by
  unfold step?
  split
  · next h => simp [h]
  · next h => simp [h]

theorem mem_alphabet_of_matchAll? {word : List σ} (hmatch : m.matchAll? word = .ok m') :
    ∀ a ∈ word, a ∈ automaton.alphabet := by
  induction word generalizing m with
  | nil => exact fun a ha => absurd ha List.not_mem_nil
  | cons b word ih =>
    obtain ⟨hb, hrest⟩ := matchAll?_cons_eq_ok_iff.mp hmatch
    exact List.forall_mem_cons.mpr ⟨hb, ih hrest⟩

theorem accepts?_cons (h : a ∈ automaton.alphabet) (word : List σ) :
    m.accepts? (a :: word) =
      if (m.step a h).stuck then .ok false else (m.step a h).accepts? word := by
  have hstep : m.step? a = .ok (m.step a h) := step?_eq_ok_iff.mpr ⟨h, rfl⟩
  rw [accepts?, hstep]
  rfl

end Words

variable {regex : Regex σ} {alphabet : Alphabet σ} {h : regex.Over alphabet}

/-- Some symbol takes each predecessor of a state there. -/
theorem exists_index_step_eq {m : Matcher (regex.compile alphabet h)}
    {i : Fin (regex.residuals alphabet h).length}
    (hi : m.index ∈ Automaton.predecessors (regex.transitions h) i) :
    ∃ a, ∃ ha : a ∈ alphabet, (m.step a ha).index = i := by
  have hmem : i ∈ (regex.transitions h).get m.index := by
    simpa [Automaton.predecessors, Vector.get] using hi
  obtain ⟨k, hk, hget⟩ := Vector.getElem_of_mem hmem
  have ha : alphabet.symbols.get ⟨k, hk⟩ ∈ alphabet := List.get_mem _ _
  refine ⟨_, ha, ?_⟩
  -- no symbol occurs twice, so the column of the symbol is the one that `i` was found in
  have hposition : alphabet.position (alphabet.symbols.get ⟨k, hk⟩) = k :=
    alphabet.nodup.idxOf_getElem k hk
  rw [index_step m ha, ← hget]
  simp only [hposition]
  rfl

/-- A walk backwards from an accepting state spells an accepted word. -/
theorem exists_accepting_matchAll {x : Option (Fin (regex.residuals alphabet h).length)}
    (hx : Reachable (Automaton.backward (fun i => ((regex.residuals alphabet h).get i).nullable)
      (regex.transitions h)) none x) (m : Matcher (regex.compile alphabet h))
    (hm : x = some m.index) :
    ∃ word m', m.matchAll? word = .ok m' ∧ m'.accepting = true := by
  induction hx generalizing m with
  | refl => cases hm
  | @step y x _ hmem ih =>
    subst hm
    cases y with
    | none =>
      obtain ⟨i, hi, hindex⟩ := List.mem_map.mp hmem
      cases hindex
      refine ⟨[], m, rfl, ?_⟩
      rw [accepting_eq_nullable, residual_eq_get]
      exact (List.mem_filter.mp hi).2
    | some i =>
      obtain ⟨j, hj, hindex⟩ := List.mem_map.mp hmem
      cases hindex
      obtain ⟨a, ha, hstep⟩ := exists_index_step_eq hj
      obtain ⟨word, m', hmatch, hacc⟩ := ih (m.step a ha) (by rw [hstep])
      exact ⟨a :: word, m', matchAll?_cons_eq_ok_iff.mpr ⟨ha, hmatch⟩, hacc⟩

end Matcher

namespace Automaton.Compiled

variable {automaton : Automaton σ} (hcompiled : automaton.Compiled) {m : Matcher automaton}

include hcompiled

theorem exists_matchAll? (m : Matcher automaton) {word : List σ}
    (hword : ∀ a ∈ word, a ∈ automaton.alphabet) : ∃ m', m.matchAll? word = .ok m' := by
  obtain ⟨regex, alphabet, h, rfl⟩ := hcompiled
  obtain ⟨m', hmatch, -⟩ := m.exists_matchAll? hword
  exact ⟨m', hmatch⟩

theorem exists_accepting_of_not_stuck (hm : m.stuck = false) :
    ∃ word m', m.matchAll? word = .ok m' ∧ m'.accepting = true := by
  obtain ⟨regex, alphabet, h, rfl⟩ := hcompiled
  rw [Matcher.stuck_compile, Bool.not_eq_false', decide_eq_true_iff, mem_explore] at hm
  exact Matcher.exists_accepting_matchAll hm m rfl

/-- Nothing is accepted after a stuck matcher. -/
theorem not_accepting {m' : Matcher automaton} {word : List σ} (hm : m.stuck = true)
    (hmatch : m.matchAll? word = .ok m') : m'.accepting = false := by
  rw [← Bool.not_eq_true]
  intro hacc
  rw [hcompiled.not_stuck hmatch hacc] at hm
  cases hm

theorem stuck_iff : m.stuck = true ↔
    ∀ word m', m.matchAll? word = .ok m' → m'.accepting = false := by
  refine ⟨fun hm word m' => hcompiled.not_accepting hm, ?_⟩
  intro hnone
  rw [← Bool.not_eq_false]
  intro hm
  obtain ⟨word, m', hmatch, hacc⟩ := hcompiled.exists_accepting_of_not_stuck hm
  rw [hnone word m' hmatch] at hacc
  cases hacc

theorem stuck_step {a : σ} (hm : m.stuck = true) (ha : a ∈ automaton.alphabet) :
    (m.step a ha).stuck = true := by
  rw [hcompiled.stuck_iff]
  intro word m' hmatch
  exact hcompiled.not_accepting hm (Matcher.matchAll?_cons_eq_ok_iff.mpr ⟨ha, hmatch⟩)

/-- Giving a match up at a stuck matcher does not change the answer. -/
theorem accepts?_eq {m' : Matcher automaton} {word : List σ} (hmatch : m.matchAll? word = .ok m') :
    m.accepts? word = .ok m'.accepting := by
  induction word generalizing m with
  | nil =>
    cases hmatch
    rfl
  | cons a word ih =>
    obtain ⟨ha, hrest⟩ := Matcher.matchAll?_cons_eq_ok_iff.mp hmatch
    rw [Matcher.accepts?_cons ha]
    split
    · next hstuck => rw [hcompiled.not_accepting hstuck hrest]
    · exact ih hrest

end Automaton.Compiled

/-- Every word over the alphabet can be matched from a matcher of a compiled automaton. The matcher
is stuck exactly if none of them is accepted, then every further matcher is stuck too, and a match
that is given up at a stuck matcher has the answer of the whole match. -/
theorem Regex.stuck_exact {regex : Regex σ} {alphabet : Alphabet σ} {automaton : Automaton σ}
    (hcompile : regex.compile? alphabet = .ok automaton) (m : Matcher automaton) :
    (m.stuck = true ↔ ∀ word : List σ, (∀ a ∈ word, a ∈ automaton.alphabet) →
        ∃ m', m.matchAll? word = .ok m' ∧ m'.accepting = false) ∧
      (m.stuck = true → ∀ (a : σ) (ha : a ∈ automaton.alphabet), (m.step a ha).stuck = true) ∧
      ∀ word : List σ, (∀ a ∈ word, a ∈ automaton.alphabet) →
        ∃ m', m.matchAll? word = .ok m' ∧ m.accepts? word = .ok m'.accepting := by
  have hcompiled := compiled_of_compile? hcompile
  refine ⟨⟨?_, ?_⟩, fun hm a ha => hcompiled.stuck_step hm ha, ?_⟩
  · intro hm word hword
    obtain ⟨m', hmatch⟩ := hcompiled.exists_matchAll? m hword
    exact ⟨m', hmatch, hcompiled.not_accepting hm hmatch⟩
  · intro hnone
    rw [hcompiled.stuck_iff]
    intro word m' hmatch
    obtain ⟨m'', hmatch', hacc⟩ := hnone word (Matcher.mem_alphabet_of_matchAll? hmatch)
    cases hmatch.symm.trans hmatch'
    exact hacc
  · intro word hword
    obtain ⟨m', hmatch⟩ := hcompiled.exists_matchAll? m hword
    exact ⟨m', hmatch, hcompiled.accepts?_eq hmatch⟩

theorem Regex.deriveAll_emptySet (alphabet : Alphabet σ) (word : List σ) :
    (emptySet : Regex σ).deriveAll alphabet word = emptySet := by
  induction word with
  | nil => rfl
  | cons a word ih => exact ih

/-- `true` where `false` is expected. -/
theorem Regex.stuck_exact_mismatch :
    let regex : Regex Bool := concat (symbol false) (symbol true)
    let alphabet : Alphabet Bool := ⟨[false, true], by decide⟩
    ∃ automaton, regex.compile? alphabet = .ok automaton ∧
      ∃ m, automaton.start.matchAll? [true] = .ok m ∧ m.stuck = true ∧
        ∀ (a : Bool) (ha : a ∈ automaton.alphabet), (m.step a ha).stuck = true := by
  intro regex alphabet
  have hregex : regex.Over alphabet := by decide
  have hword : ∀ a ∈ [true], a ∈ alphabet := by decide
  obtain ⟨m, hmatch, hresidual⟩ := (regex.compile alphabet hregex).start.exists_matchAll? hword
  have hempty : m.residual = emptySet := by
    rw [hresidual, Matcher.residual_start]
    decide
  obtain ⟨hexact, hsuccessors, -⟩ := stuck_exact (compile?_eq_ok hregex) m
  have hstuck : m.stuck = true := by
    apply hexact.mpr
    intro word hword
    obtain ⟨m', hmatch', hresidual'⟩ := m.exists_matchAll? hword
    refine ⟨m', hmatch', ?_⟩
    rw [Matcher.accepting_eq_nullable, hresidual', hempty, deriveAll_emptySet]
    rfl
  exact ⟨_, compile?_eq_ok hregex, m, hmatch, hstuck, hsuccessors hstuck⟩

end NameResolution

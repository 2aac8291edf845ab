import NameResolution.Proofs.Automaton.Residuals
import NameResolution.Proofs.Regex.Language

namespace NameResolution

universe u
variable {σ : Type u} [DecidableEq σ]

/-- What remains after a word matches the continuations of the word. -/
theorem Regex.mem_language_deriveAll (alphabet : Alphabet σ) (r : Regex σ) (v w : List σ) :
    w ∈ (r.deriveAll alphabet v).language Set.univ ↔ v ++ w ∈ r.language Set.univ := by
  induction v generalizing r with
  | nil => rfl
  | cons a v ih =>
    change w ∈ ((r.derive alphabet a).deriveAll alphabet v).language Set.univ ↔ _
    rw [ih, mem_language_derive]
    rfl

theorem Regex.nullable_deriveAll (alphabet : Alphabet σ) (r : Regex σ) (w : List σ) :
    (r.deriveAll alphabet w).nullable = true ↔ w ∈ r.language Set.univ := by
  rw [← nil_mem_language, mem_language_deriveAll, List.append_nil]

/-- An expression over the alphabet compiles, every word over the alphabet can be matched, and the
matcher that it leads to accepts exactly the words of the expression. -/
theorem Regex.accepting_matchAll_iff {regex : Regex σ} {alphabet : Alphabet σ}
    (hregex : regex.Over alphabet) {word : List σ} (hword : ∀ a ∈ word, a ∈ alphabet) :
    ∃ automaton, regex.compile? alphabet = .ok automaton ∧
      ∃ m, automaton.start.matchAll? word = .ok m ∧
        (m.accepting = true ↔ word ∈ regex.language {a | a ∈ alphabet}) := by
  obtain ⟨m, hm, hresidual⟩ := (regex.compile alphabet hregex).start.exists_matchAll? hword
  refine ⟨_, compile?_eq_ok hregex, m, hm, ?_⟩
  rw [Matcher.residual_start] at hresidual
  rw [Matcher.accepting_eq_nullable, hresidual, nullable_deriveAll, language_normalize]
  exact (mem_language_univ regex hword).symm

/-- Words of `false` other than `false` itself. -/
theorem Regex.accepting_matchAll_iff_others :
    let regex := and (star (symbol false)) (complement (symbol false))
    let alphabet : Alphabet Bool := ⟨[false, true], by decide⟩
    regex.Over alphabet ∧ (∀ a ∈ [false, false], a ∈ alphabet) ∧
      ∃ automaton, regex.compile? alphabet = .ok automaton ∧
        ∃ m, automaton.start.matchAll? [false, false] = .ok m ∧
          (m.accepting = true ↔ [false, false] ∈ regex.language {a | a ∈ alphabet}) := by
  refine ⟨by decide, by decide, ?_⟩
  exact accepting_matchAll_iff (by decide) (by decide)

end NameResolution

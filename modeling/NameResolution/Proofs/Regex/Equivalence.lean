import NameResolution.Proofs.Regex.Language

namespace NameResolution.Regex

universe u
variable {σ : Type u}

/-- Both match the same words, whatever the letters that words, and so complements, are made of. -/
def Equivalent (r s : Regex σ) : Prop :=
  ∀ letters : Set σ, ∀ w ∈ words letters, w ∈ r.language letters ↔ w ∈ s.language letters

theorem equivalent_iff_language_eq {r s : Regex σ} :
    Equivalent r s ↔ r.language Set.univ = s.language Set.univ := by
  constructor
  · intro h
    ext w
    exact h Set.univ w (mem_words_univ w)
  · intro h letters w hw
    rw [mem_language_univ r hw, mem_language_univ s hw, h]

variable [DecidableEq σ]

/-- Simplifying constructors make expressions equivalent to those of the plain constructors, from
any operands and over any alphabet, and so does normalisation. -/
theorem equivalent_simplified (alphabet : Alphabet σ) (l r : Regex σ) :
    Equivalent (simpleStar r) (star r) ∧
      Equivalent (simpleComplement r) (complement r) ∧
      Equivalent (simpleConcat l r) (concat l r) ∧
      Equivalent (simpleOr alphabet l r) (or l r) ∧
      Equivalent (simpleAnd alphabet l r) (and l r) ∧
      Equivalent (normalize alphabet r) r := by
  simp only [equivalent_iff_language_eq]
  exact ⟨language_simpleStar r, language_simpleComplement r, language_simpleConcat l r,
    language_simpleOr alphabet l r, language_simpleAnd alphabet l r, language_normalize alphabet r⟩

/-- A derivative by `a` matches `w` exactly if the expression matches `a` followed by `w`, whether
words are made of all letters or of some that contain these. -/
theorem mem_derive_iff_cons_mem (alphabet : Alphabet σ) (a : σ) (r : Regex σ) :
    (∀ w, w ∈ (derive alphabet a r).language Set.univ ↔ a :: w ∈ r.language Set.univ) ∧
      ∀ letters : Set σ, a ∈ letters → ∀ w ∈ words letters,
        (w ∈ (derive alphabet a r).language letters ↔ a :: w ∈ r.language letters) := by
  refine ⟨mem_language_derive alphabet a r, fun letters ha w hw => ?_⟩
  have hcons : a :: w ∈ words letters := List.forall_mem_cons.mpr ⟨ha, hw⟩
  rw [mem_language_univ _ hw, mem_language_univ r hcons, mem_language_derive]

/-- Once `true` or not at all, then anything but `true`, with no symbol in the alphabet. -/
theorem mem_derive_iff_cons_mem_optional :
    let r : Regex Bool :=
      concat (optional (symbol true)) (complement (concat emptyString (symbol true)))
    (true ∈ ({true} : Set Bool) ∧ [true] ∈ words ({true} : Set Bool)) ∧
      ([true] ∈ (derive .empty true r).language {true} ↔ [true, true] ∈ r.language {true}) := by
  intro r
  have hword : [true] ∈ words ({true} : Set Bool) :=
    List.forall_mem_cons.mpr ⟨rfl, nil_mem_words _⟩
  exact ⟨⟨rfl, hword⟩, (mem_derive_iff_cons_mem .empty true r).2 {true} rfl [true] hword⟩

end NameResolution.Regex

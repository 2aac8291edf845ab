import NameResolution.Exploration
import NameResolution.Regex.Measure

namespace NameResolution.Regex

universe u
variable {σ : Type u}

/-- Operands from `operands`, at most `n + 1` of them, nested to the right. -/
def chains (node : Regex σ → Regex σ → Regex σ) (operands : List (Regex σ)) :
    Nat → List (Regex σ)
  | 0 => operands
  | n + 1 => operands ++ operands.flatMap fun o => (chains node operands n).map (node o)

theorem nest_mem_chains (node : Regex σ → Regex σ → Regex σ) (unit : Regex σ)
    {all : List (Regex σ)} (n : Nat) {operands : List (Regex σ)} (hne : operands ≠ [])
    (hsub : operands ⊆ all) (hlen : operands.length ≤ n + 1) :
    nest node unit operands ∈ chains node all n := by
  match operands, n with
  | [r], 0 => exact hsub (.head _)
  | [r], n + 1 => exact List.mem_append_left _ (hsub (.head _))
  | r :: s :: rs, 0 => simp at hlen
  | r :: s :: rs, n + 1 =>
    refine List.mem_append_right _ (List.mem_flatMap.mpr ⟨r, hsub (.head _), ?_⟩)
    exact List.mem_map_of_mem (nest_mem_chains node unit n (by simp) (fun x hx => hsub (.tail _ hx))
      (by simpa using hlen))

def concatenations (factors last : List (Regex σ)) : Nat → List (Regex σ)
  | 0 => last
  | n + 1 => last ++ factors.flatMap fun r => (concatenations factors last n).map (concat r)

theorem last_subset_concatenations {factors last : List (Regex σ)} (n : Nat) :
    last ⊆ concatenations factors last n := by
  cases n with
  | zero => exact fun _ h => h
  | succ n => exact fun _ h => List.mem_append_left _ h

variable [DecidableEq σ]

def atoms (alphabet : Alphabet σ) : List (Regex σ) :=
  emptyString :: emptySet :: alphabet.symbols.map symbol

/-- What can end a concatenation of depth one more than `below`. -/
def lastFactors (alphabet : Alphabet σ) (below : List (Regex σ)) : List (Regex σ) :=
  atoms alphabet ++ below.map star ++ below.map complement ++ chains and below below.length ++ below

def operandsUpTo (alphabet : Alphabet σ) (span : Nat) : Nat → List (Regex σ)
  | 0 => atoms alphabet
  | n + 1 =>
    let operands := operandsUpTo alphabet span n
    let below := chains or operands operands.length
    concatenations below (lastFactors alphabet below) span

/-- All tidy expressions of limited depth and span. -/
def tidyUpTo (alphabet : Alphabet σ) (span depth : Nat) : List (Regex σ) :=
  chains or (operandsUpTo alphabet span depth) (operandsUpTo alphabet span depth).length

variable {alphabet : Alphabet σ}

omit [DecidableEq σ] in
theorem symbol_mem_atoms {a : σ} (h : (symbol a).Over alphabet) : symbol a ∈ atoms alphabet :=
  .tail _ (.tail _ (List.mem_map_of_mem (h a (.head _))))

omit [DecidableEq σ] in
theorem mem_tidyUpTo_of_operandsUpTo {n m : Nat}
    (hb : ∀ r : Regex σ, r.Tidy → r.Over alphabet → r.span ≤ m → r.depth ≤ n → ¬r.IsOr →
      r ∈ operandsUpTo alphabet m n) {r : Regex σ} (ht : r.Tidy) (ho : r.Over alphabet)
    (hs : r.span ≤ m) (hd : r.depth ≤ n) : r ∈ tidyUpTo alphabet m n := by
  let j := Junction.union
  have hsub : j.operands r ⊆ operandsUpTo alphabet m n := fun o h =>
    hb o (ht.of_mem_operands j h) (ho.of_mem_operands j h)
      (Nat.le_trans (j.le_of_mem_operands (span_node j) h) hs)
      (Nat.le_trans (j.le_of_mem_operands depth_or h) hd) (j.not_isNode_of_mem_operands h)
  have hlen := (ht.nodup_operands j).length_le_of_subset hsub
  have := nest_mem_chains or emptySet _ (j.operands_ne_nil r) hsub
    (Nat.le_succ_of_le hlen)
  exact ht.nest_operands j ▸ this

theorem mem_lastFactors {n m : Nat}
    (hu : ∀ r : Regex σ, r.Tidy → r.Over alphabet → r.span ≤ m → r.depth ≤ n →
      r ∈ tidyUpTo alphabet m n) {r : Regex σ} (ht : r.Tidy) (ho : r.Over alphabet)
    (hs : r.span ≤ m) (hd : r.tailDepth ≤ n + 1) (hc : r.factors = 1) :
    r ∈ lastFactors alphabet (tidyUpTo alphabet m n) := by
  simp only [lastFactors, List.mem_append]
  cases r with
  | emptyString => exact .inl (.inl (.inl (.inl (.head _))))
  | emptySet => exact .inl (.inl (.inl (.inl (.tail _ (.head _)))))
  | symbol a => exact .inl (.inl (.inl (.inl (symbol_mem_atoms ho))))
  | star r =>
    have := hu r ht ho (by simp only [span] at hs; omega) (Nat.le_of_succ_le_succ hd)
    exact .inl (.inl (.inl (.inr (List.mem_map_of_mem this))))
  | complement r =>
    have := hu r ht ho hs (Nat.le_of_succ_le_succ hd)
    exact .inl (.inl (.inr (List.mem_map_of_mem this)))
  | or l r => exact .inr (hu (or l r) ht ho hs (Nat.le_of_succ_le_succ hd))
  | and l r =>
    let j := Junction.intersection
    -- no operand is an intersection itself, so each is less deep than the whole
    have hsub : j.operands (and l r) ⊆ tidyUpTo alphabet m n := fun o h => by
      refine hu o (ht.of_mem_operands j h) (ho.of_mem_operands j h)
        (Nat.le_trans (j.le_of_mem_operands (span_node j) h) hs) ?_
      have : o.andDepth ≤ (and l r).andDepth := j.le_of_mem_operands depth_and h
      rw [andDepth_of_not_isAnd (j.not_isNode_of_mem_operands h)] at this
      have e : (and l r).andDepth = (and l r).tailDepth := rfl
      omega
    have hlen := (ht.nodup_operands j).length_le_of_subset hsub
    have := nest_mem_chains and universal _ (j.operands_ne_nil _) hsub
      (Nat.le_succ_of_le hlen)
    exact .inl (.inr (ht.nest_operands j ▸ this))
  | concat l r =>
    have := factors_pos l
    have := factors_pos r
    simp only [factors] at hc
    omega

theorem mem_concatenations {n m : Nat}
    (hu : ∀ r : Regex σ, r.Tidy → r.Over alphabet → r.span ≤ m → r.depth ≤ n →
      r ∈ tidyUpTo alphabet m n) (k : Nat) {r : Regex σ} (ht : r.Tidy)
    (ho : r.Over alphabet) (hs : r.span ≤ m) (hd : r.tailDepth ≤ n + 1) (hk : r.factors ≤ k + 1) :
    r ∈ concatenations (tidyUpTo alphabet m n)
      (lastFactors alphabet (tidyUpTo alphabet m n)) k := by
  induction k generalizing r with
  | zero =>
    have := factors_pos r
    exact mem_lastFactors hu ht ho hs hd (by omega)
  | succ k ih =>
    by_cases hc : r.factors = 1
    · exact last_subset_concatenations _ (mem_lastFactors hu ht ho hs hd hc)
    · cases r with
      | concat l r =>
        have ⟨ol, or'⟩ := over_concat.mp ho
        have := factors_pos l
        have e : (concat l r).tailDepth = max (l.depth + 1) r.tailDepth := rfl
        simp only [factors, span] at hk hs
        refine List.mem_append_right _ (List.mem_flatMap.mpr ⟨l, ?_, List.mem_map_of_mem ?_⟩)
        · exact hu l ht.1 ol (by omega) (by omega)
        · exact ih ht.2 or' (by omega) (by omega) (by omega)
      | _ => exact absurd rfl hc

theorem mem_tidyUpTo {m : Nat} (n : Nat) {r : Regex σ} (ht : r.Tidy) (ho : r.Over alphabet)
    (hs : r.span ≤ m) (hd : r.depth ≤ n) : r ∈ tidyUpTo alphabet m n := by
  induction n generalizing r with
  | zero =>
    refine mem_tidyUpTo_of_operandsUpTo (fun r ht ho hs hd hr => ?_) ht ho hs hd
    cases r with
    | emptyString => exact .head _
    | emptySet => exact .tail _ (.head _)
    | symbol a => exact symbol_mem_atoms ho
    | or => exact absurd trivial hr
    | and l r =>
      have := ht.2.2.1
      rw [depth_and, andDepth_of_not_isAnd this] at hd
      omega
    | concat l r => rw [depth_concat] at hd; omega
    | _ => simp only [depth] at hd; omega
  | succ n ih =>
    refine mem_tidyUpTo_of_operandsUpTo (fun r ht ho hs hd hr => ?_) ht ho hs hd
    have hd' : r.tailDepth ≤ n + 1 := by
      cases r <;> first | exact hd | exact absurd trivial hr
    exact mem_concatenations (fun r ht ho hs hd => ih ht ho hs hd) m ht ho hs hd'
      (Nat.le_succ_of_le (Nat.le_trans (factors_le_span r) hs))

def derivatives (alphabet : Alphabet σ) (r : Regex σ) : List (Regex σ) :=
  alphabet.symbols.map fun a => derive alphabet a r

/-- Only finitely many expressions arise from a normal form by repeated derivation. -/
theorem finitelyReachable_derivatives {r : Regex σ} (h : r.Over alphabet) :
    FinitelyReachable (derivatives alphabet) (normalize alphabet r) := by
  refine ⟨tidyUpTo alphabet (normalize alphabet r).span (normalize alphabet r).depth,
    fun x hx => ?_⟩
  have key : x.Tidy ∧ x.Over alphabet ∧ x.span ≤ (normalize alphabet r).span ∧
      x.depth ≤ (normalize alphabet r).depth := by
    induction hx with
    | refl => exact ⟨tidy_normalize h, over_normalize h, Nat.le_refl _, Nat.le_refl _⟩
    | step _ hy ih =>
      obtain ⟨a, _, rfl⟩ := List.mem_map.mp hy
      exact ⟨tidy_derive a ih.2.1 ih.1, over_derive a ih.2.1,
        Nat.le_trans (span_derive_le alphabet a _) ih.2.2.1,
        Nat.le_trans (depth_derive_le alphabet a _).1 ih.2.2.2⟩
  exact mem_tidyUpTo _ key.1 key.2.1 key.2.2.1 key.2.2.2

end NameResolution.Regex

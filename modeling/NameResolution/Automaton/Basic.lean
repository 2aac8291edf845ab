import NameResolution.Regex.Finite

namespace NameResolution

universe u
variable {σ : Type u}

/-- What remains to be matched in a state, and where each symbol of the alphabet leads. -/
structure State (σ : Type u) (states symbols : Nat) where
  residual : Regex σ
  accepting : Bool
  live : Bool
  next : Vector (Fin states) symbols

structure Automaton (σ : Type u) where
  regex : Regex σ
  alphabet : Alphabet σ
  size : Nat
  states : Vector (State σ size alphabet.size) size
  initial : Fin size

namespace Automaton

def predecessors {n k : Nat} (table : Vector (Vector (Fin n) k) n) (i : Fin n) : List (Fin n) :=
  (List.finRange n).filter fun j => i ∈ table[j]

/-- The table walked backwards; `none` stands before every accepting state. -/
def backward {n k : Nat} (accepting : Fin n → Bool) (table : Vector (Vector (Fin n) k) n) :
    Option (Fin n) → List (Option (Fin n))
  | none => ((List.finRange n).filter accepting).map some
  | some i => (predecessors table i).map some

theorem finitelyReachable_backward {n k : Nat} (accepting : Fin n → Bool)
    (table : Vector (Vector (Fin n) k) n) :
    FinitelyReachable (backward accepting table) none :=
  ⟨none :: (List.finRange n).map some, fun x _ => by cases x <;> simp⟩

variable [DecidableEq σ] {alphabet : Alphabet σ}

def table (states : List (Regex σ))
    (closed : ∀ r ∈ states, ∀ a ∈ alphabet, Regex.derive alphabet a r ∈ states) :
    Vector (Vector (Fin states.length) alphabet.size) states.length :=
  Vector.ofFn fun i => Vector.ofFn fun a =>
    let symbol := alphabet.symbols.get a
    ⟨states.idxOf (Regex.derive alphabet symbol states[i]),
      List.idxOf_lt_length_of_mem
        (closed _ (List.getElem_mem _) _ (List.get_mem _ _))⟩

def ofStates (regex : Regex σ) (states : List (Regex σ)) (initial : Fin states.length)
    (closed : ∀ r ∈ states, ∀ a ∈ alphabet, Regex.derive alphabet a r ∈ states) : Automaton σ :=
  let next := table states closed
  let accepting := fun i => states[i].nullable
  let live := explore (finitelyReachable_backward accepting next)
  { regex, alphabet, initial
    size := states.length
    states := Vector.ofFn fun i =>
      { residual := states[i], accepting := accepting i, live := some i ∈ live, next := next[i] } }

end Automaton

namespace Regex

variable [DecidableEq σ]

/-- The derivatives of the normal form in the order in which exploration meets them. -/
def residuals (regex : Regex σ) (alphabet : Alphabet σ) (h : regex.Over alphabet) :
    List (Regex σ) :=
  explore (finitelyReachable_derivatives h)

theorem derive_mem_residuals {regex : Regex σ} {alphabet : Alphabet σ} (h : regex.Over alphabet)
    {r : Regex σ} (hr : r ∈ regex.residuals alphabet h) {a : σ} (ha : a ∈ alphabet) :
    derive alphabet a r ∈ regex.residuals alphabet h :=
  next_subset_explore hr (List.mem_map_of_mem ha)

theorem length_residuals_pos {regex : Regex σ} {alphabet : Alphabet σ} (h : regex.Over alphabet) :
    0 < (regex.residuals alphabet h).length :=
  List.length_pos_of_mem (mem_explore.mpr .refl)

def compile (regex : Regex σ) (alphabet : Alphabet σ) (h : regex.Over alphabet) : Automaton σ :=
  .ofStates regex (regex.residuals alphabet h) ⟨0, length_residuals_pos h⟩
    fun _ hr _ ha => derive_mem_residuals h hr ha

end Regex

structure OutsideAlphabet (σ : Type u) where
  symbols : List σ
  alphabet : Alphabet σ

/-- Names the missing symbol; which of several would be named is left open. -/
def OutsideAlphabet.message? (symbol : σ → String) (e : OutsideAlphabet σ) : Option String :=
  match e.symbols with
  | [a] => some ("symbol " ++ symbol a ++ " is not in the alphabet " ++ e.alphabet.render symbol)
  | _ => none

def Regex.compile? [DecidableEq σ] (regex : Regex σ) (alphabet : Alphabet σ) :
    Except (OutsideAlphabet σ) (Automaton σ) :=
  if h : regex.Over alphabet then .ok (regex.compile alphabet h)
  else .error ⟨(Alphabet.ofList regex.symbols).symbols.filter (· ∉ alphabet), alphabet⟩

end NameResolution

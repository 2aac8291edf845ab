import NameResolution.Regex.Basic

namespace NameResolution.Regex

universe u
variable {σ : Type u} [DecidableEq σ]

def rank : Regex σ → Nat
  | emptyString => 0
  | emptySet => 1
  | symbol _ => 2
  | star _ => 3
  | complement _ => 4
  | or _ _ => 5
  | and _ _ => 6
  | concat _ _ => 7

def compare (alphabet : Alphabet σ) : Regex σ → Regex σ → Ordering
  | symbol a, symbol b => Ord.compare (alphabet.position a) (alphabet.position b)
  | star r, star s => compare alphabet r s
  | complement r, complement s => compare alphabet r s
  | or l r, or l' r' => (compare alphabet l l').then (compare alphabet r r')
  | and l r, and l' r' => (compare alphabet l l').then (compare alphabet r r')
  | concat l r, concat l' r' => (compare alphabet l l').then (compare alphabet r r')
  | r, s => Ord.compare r.rank s.rank

def le (alphabet : Alphabet σ) (r s : Regex σ) : Bool := (compare alphabet r s).isLE

def Over (alphabet : Alphabet σ) (r : Regex σ) : Prop := ∀ a ∈ r.symbols, a ∈ alphabet

instance (alphabet : Alphabet σ) (r : Regex σ) : Decidable (r.Over alphabet) :=
  inferInstanceAs (Decidable (∀ a ∈ r.symbols, a ∈ alphabet))

end NameResolution.Regex

import NameResolution.Regex.Order

namespace NameResolution.Regex

universe u
variable {σ : Type u} [DecidableEq σ]

def universal : Regex σ := complement emptySet

def dropRepeats {α : Type u} [DecidableEq α] : List α → List α
  | [] => []
  | [x] => [x]
  | x :: y :: xs => if x = y then dropRepeats (y :: xs) else x :: dropRepeats (y :: xs)

def orOperands : Regex σ → List (Regex σ)
  | or l r => l.orOperands ++ r.orOperands
  | r => [r]

def andOperands : Regex σ → List (Regex σ)
  | and l r => l.andOperands ++ r.andOperands
  | r => [r]

/-- Nests the operands to the right; of no operands it is `unit`. -/
def nest (node : Regex σ → Regex σ → Regex σ) (unit : Regex σ) : List (Regex σ) → Regex σ
  | [] => unit
  | [r] => r
  | r :: s :: rs => node r (nest node unit (s :: rs))

/-- The operands sorted by the alphabet, each once. -/
def arrange (alphabet : Alphabet σ) (operands : List (Regex σ)) : List (Regex σ) :=
  dropRepeats (operands.mergeSort (le alphabet))

def simpleStar : Regex σ → Regex σ
  | emptySet => emptyString
  | emptyString => emptyString
  | star r => star r
  | r => star r

def simpleComplement : Regex σ → Regex σ
  | complement r => r
  | r => complement r

/-- Concatenation without units and zeros, nested to the right. -/
def simpleConcat : Regex σ → Regex σ → Regex σ
  | emptySet, _ => emptySet
  | _, emptySet => emptySet
  | emptyString, r => r
  | l, emptyString => l
  | concat l₁ l₂, r => simpleConcat l₁ (simpleConcat l₂ r)
  | l, r => concat l r

/-- Union of the operands of `l` and `r`, each once and in order; `~0` absorbs all others. -/
def simpleOr (alphabet : Alphabet σ) (l r : Regex σ) : Regex σ :=
  let operands := l.orOperands ++ r.orOperands
  if universal ∈ operands then universal
  else nest or emptySet (arrange alphabet (operands.filter (· ≠ emptySet)))

/-- Intersection of the operands of `l` and `r`, each once and in order; `0` absorbs all others. -/
def simpleAnd (alphabet : Alphabet σ) (l r : Regex σ) : Regex σ :=
  let operands := l.andOperands ++ r.andOperands
  if emptySet ∈ operands then emptySet
  else nest and universal (arrange alphabet (operands.filter (· ≠ universal)))

def normalize (alphabet : Alphabet σ) : Regex σ → Regex σ
  | emptyString => emptyString
  | emptySet => emptySet
  | symbol a => symbol a
  | star r => simpleStar (normalize alphabet r)
  | complement r => simpleComplement (normalize alphabet r)
  | or l r => simpleOr alphabet (normalize alphabet l) (normalize alphabet r)
  | and l r => simpleAnd alphabet (normalize alphabet l) (normalize alphabet r)
  | concat l r => simpleConcat (normalize alphabet l) (normalize alphabet r)

/-- What remains to be matched after `a`: the words `w` such that `r` matches `a` followed by `w`. -/
def derive (alphabet : Alphabet σ) (a : σ) : Regex σ → Regex σ
  | emptyString => emptySet
  | emptySet => emptySet
  | symbol b => if b = a then emptyString else emptySet
  | star r => simpleConcat (derive alphabet a r) (star r)
  | complement r => simpleComplement (derive alphabet a r)
  | or l r => simpleOr alphabet (derive alphabet a l) (derive alphabet a r)
  | and l r => simpleAnd alphabet (derive alphabet a l) (derive alphabet a r)
  | concat l r =>
    let left := simpleConcat (derive alphabet a l) r
    if l.nullable then simpleOr alphabet left (derive alphabet a r) else left

end NameResolution.Regex

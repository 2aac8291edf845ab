import NameResolution.Alphabet

namespace NameResolution

universe u v
variable {σ : Type u} {τ : Type v}

inductive Regex (σ : Type u) where
  | emptyString
  | emptySet
  | symbol (a : σ)
  | star (r : Regex σ)
  | complement (r : Regex σ)
  | or (l r : Regex σ)
  | and (l r : Regex σ)
  | concat (l r : Regex σ)
  deriving DecidableEq

namespace Regex

def plus (r : Regex σ) : Regex σ := concat r (star r)

def optional (r : Regex σ) : Regex σ := or emptyString r

def nullable : Regex σ → Bool
  | emptyString => true
  | emptySet => false
  | symbol _ => false
  | star _ => true
  | complement r => !r.nullable
  | or l r => l.nullable || r.nullable
  | and l r => l.nullable && r.nullable
  | concat l r => l.nullable && r.nullable

def symbols : Regex σ → List σ
  | emptyString => []
  | emptySet => []
  | symbol a => [a]
  | star r => r.symbols
  | complement r => r.symbols
  | or l r => l.symbols ++ r.symbols
  | and l r => l.symbols ++ r.symbols
  | concat l r => l.symbols ++ r.symbols

/-- Replaces every symbol, left to right, by what `f` gives for it; the first failure ends it. -/
def mapM {m : Type v → Type v} [Monad m] (f : σ → m τ) : Regex σ → m (Regex τ)
  | emptyString => pure emptyString
  | emptySet => pure emptySet
  | symbol a => do return symbol (← f a)
  | star r => do return star (← r.mapM f)
  | complement r => do return complement (← r.mapM f)
  | or l r => do
    let l' ← l.mapM f
    let r' ← r.mapM f
    return or l' r'
  | and l r => do
    let l' ← l.mapM f
    let r' ← r.mapM f
    return and l' r'
  | concat l r => do
    let l' ← l.mapM f
    let r' ← r.mapM f
    return concat l' r'

/-- The notation that the parser reads back, each symbol written by `name`. -/
def render (name : σ → String) : Regex σ → String
  | emptyString => "e"
  | emptySet => "0"
  | symbol a => name a
  | star r => "(" ++ r.render name ++ ")*"
  | complement r => "~(" ++ r.render name ++ ")"
  | or l r => "(" ++ l.render name ++ " | " ++ r.render name ++ ")"
  | and l r => "(" ++ l.render name ++ " & " ++ r.render name ++ ")"
  | concat l r => l.render name ++ " " ++ r.render name

def renderTree (name : σ → String) : Regex σ → String
  | emptyString => "EmptyString"
  | emptySet => "EmptySet"
  | symbol a => "Symbol(" ++ name a ++ ")"
  | star r => "Repeat(" ++ r.renderTree name ++ ")"
  | complement r => "Complement(" ++ r.renderTree name ++ ")"
  | or l r => "Or(" ++ l.renderTree name ++ ", " ++ r.renderTree name ++ ")"
  | and l r => "And(" ++ l.renderTree name ++ ", " ++ r.renderTree name ++ ")"
  | concat l r => "Concat(" ++ l.renderTree name ++ ", " ++ r.renderTree name ++ ")"

end Regex

end NameResolution

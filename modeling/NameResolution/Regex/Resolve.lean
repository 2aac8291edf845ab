import NameResolution.Regex.Basic
import NameResolution.Symbol

namespace NameResolution

structure UnknownSymbol where
  name : String

def UnknownSymbol.message (e : UnknownSymbol) : String :=
  "unknown symbol `" ++ e.name ++ "` in regular expression"

namespace Regex

variable {τ : Type}

def lookUp (lookup : String → Option τ) (s : Symbol) :
    ExceptT UnknownSymbol (StateM (List String)) τ := do
  modify (· ++ [s.name])
  match lookup s.name with
  | some a => return a
  | none => throw ⟨s.name⟩

/-- The resolved expression, or the first symbol without a value, with the names looked up. -/
def resolveSymbols (lookup : String → Option τ) (r : Regex Symbol) :
    Except UnknownSymbol (Regex τ) × List String :=
  (r.mapM (lookUp lookup)).run.run []

end Regex

end NameResolution

import NameResolution.Regex.Parser
import NameResolution.Regex.Resolve

namespace NameResolution

/-- A finite type of labels, listed in order. -/
class Label (L : Type) where
  all : List L
  nodup_all : all.Nodup
  mem_all : ∀ l : L, l ∈ all
  name : L → String

namespace Label

variable {L : Type} [DecidableEq L] [Label L]

def alphabet : Alphabet L := ⟨all, nodup_all⟩

def index (l : L) : Nat := (alphabet (L := L)).position l

def ofName? (name : String) : Option L := all.find? fun l => Label.name l = name

end Label

inductive LabelRegexError where
  | unreadable (cause : Regex.ReadError)
  | unknownSymbol (cause : UnknownSymbol)

def Regex.parseLabels {L : Type} [Label L] (text : String) : Except LabelRegexError (Regex L) := do
  let r ← (Regex.parse text).mapError .unreadable
  (r.resolveSymbols Label.ofName?).1.mapError .unknownSymbol

inductive EdgeLabel where
  | lexical
  | importing
  | definition
  | parent
  deriving DecidableEq

namespace EdgeLabel

def all : List EdgeLabel := [lexical, importing, definition, parent]

def name : EdgeLabel → String
  | lexical => "Lex"
  | importing => "Imp"
  | definition => "Def"
  | parent => "P"

instance : Label EdgeLabel where
  all := all
  nodup_all := by decide
  mem_all l := by cases l <;> decide
  name := name

end EdgeLabel

end NameResolution

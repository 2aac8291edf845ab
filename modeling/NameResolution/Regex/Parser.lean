import NameResolution.Regex.Basic
import NameResolution.Symbol
import NameResolution.Token.Lexer

namespace NameResolution.Regex

inductive Postfix where
  | star
  | plus
  | optional
  deriving DecidableEq

namespace Postfix

def ofChar? : Char → Option Postfix
  | '*' => some star
  | '+' => some plus
  | '?' => some optional
  | _ => none

def toChar : Postfix → Char
  | star => '*'
  | plus => '+'
  | optional => '?'

def apply {σ : Type} : Postfix → Regex σ → Regex σ
  | star, r => .star r
  | plus, r => .plus r
  | optional, r => .optional r

end Postfix

/-- Why tokens are no expression. Two causes depend on whether anything is left to read. -/
inductive ParseError where
  | expectedOperand (atEnd : Bool)
  | expectedAtom
  | nonzeroLiteral
  | expectedSegment (atEnd : Bool)
  | ambiguous (op : Postfix)
  | unclosedGroup
  | residualInput
  deriving DecidableEq

def ParseError.message : ParseError → String
  | expectedOperand atEnd => ending atEnd ++
      "expected '0', 'e', '~', label or parenthesized regular expression here"
  | expectedAtom => "expected one of: parentheses, integer literal, identifier"
  | nonzeroLiteral => "only '0' is allowed as a literal"
  | expectedSegment atEnd => ending atEnd ++ "expected path segment after `::`"
  | ambiguous op => "ambiguous regex: simultaneous use of '~' prefix and '" ++
      String.singleton op.toChar ++ "' postfix operator"
  | unclosedGroup => "unexpected token in parenthesized regular expression"
  | residualInput => "residual input after parsing finished"
where
  ending (atEnd : Bool) : String := if atEnd then "unexpected end of input, " else ""

/-- What the parser reads: a token, or a group with what its own tokens were read as. -/
inductive Item where
  | name (text : String)
  | integer (value : Nat)
  | punctuation (c : Char) (joint : Bool)
  | group (body : Except ParseError (Regex Symbol))
  | other

/-- A result and the items after it, of which there are fewer than before. -/
abbrev Parsed (α : Type) (items : List Item) :=
  Except ParseError { p : α × List Item // p.2.length < items.length }

def reservedWords : List String :=
  ["abstract", "as", "async", "await", "become", "box", "break", "const", "continue", "crate",
    "do", "dyn", "else", "enum", "extern", "false", "final", "fn", "for", "if", "impl", "in",
    "let", "loop", "macro", "match", "mod", "move", "mut", "override", "priv", "pub", "ref",
    "return", "Self", "self", "static", "struct", "super", "trait", "true", "try", "type",
    "typeof", "unsafe", "unsized", "use", "virtual", "where", "while", "yield"]

def isLabelName (name : String) : Bool := name ≠ "_" && !reservedWords.contains name

def isSegment (name : String) : Bool :=
  isLabelName name || ["self", "Self", "super", "crate"].contains name

def segments : (items : List Item) →
    Except ParseError { p : List String × List Item // p.2.length ≤ items.length }
  | .punctuation ':' true :: .punctuation ':' _ :: items =>
    match items with
    | [] => .error (.expectedSegment true)
    | .name s :: rest =>
      if isSegment s then do
        let ⟨(names, rest'), h⟩ ← segments rest
        return ⟨(s :: names, rest'), by simp only [List.length_cons] at *; omega⟩
      else .error (.expectedSegment false)
    | _ => .error (.expectedSegment false)
  | items => .ok ⟨([], items), Nat.le_refl _⟩

/-- The expression of a label; `e` alone is the empty word. -/
def ofSegments : List String → Regex Symbol
  | ["e"] => .emptyString
  | names => .symbol ⟨"::".intercalate names⟩

def isOperator (c : Char) : Bool := c = '|' || c = '&' || (Postfix.ofChar? c).isSome

def parseAtom (items : List Item) : Parsed (Regex Symbol) items :=
  match items with
  | [] => .error (.expectedOperand true)
  | .group body :: rest => do return ⟨(← body, rest), by simp⟩
  | .integer value :: rest =>
    if value = 0 then .ok ⟨(.emptySet, rest), by simp⟩ else .error .nonzeroLiteral
  | .punctuation '-' _ :: .integer _ :: _ => .error .nonzeroLiteral
  | .punctuation c _ :: _ =>
    .error (if isOperator c then .expectedOperand false else .expectedAtom)
  | .name s :: rest =>
    if isLabelName s then do
      let ⟨(names, rest'), h⟩ ← segments rest
      return ⟨(ofSegments (s :: names), rest'), Nat.lt_succ_of_le h⟩
    else .error .expectedAtom
  | .other :: _ => .error .expectedAtom

/-- Whether a further operand of a concatenation starts here. -/
def startsOperand : List Item → Bool
  | .group _ :: _ => true
  | .integer _ :: _ => true
  | .punctuation '-' _ :: .integer _ :: _ => true
  | .punctuation c _ :: _ => c = '~'
  | .name s :: _ => isLabelName s
  | _ => false

def leadingOperator? : List Item → Option Postfix
  | .punctuation c _ :: _ => Postfix.ofChar? c
  | _ => none

def startsComplement : List Item → Bool
  | .punctuation c _ :: _ => c = '~'
  | _ => false

def parseComplement (items : List Item) : Parsed (Regex Symbol) items :=
  match items with
  | .punctuation '~' _ :: rest => do
    let ⟨(r, rest'), h⟩ ← parseComplement rest
    return ⟨(.complement r, rest'), Nat.lt_succ_of_lt h⟩
  | items => parseAtom items

def applyPostfixes (r : Regex Symbol) :
    (items : List Item) → { p : Regex Symbol × List Item // p.2.length ≤ items.length }
  | .punctuation c joint :: rest =>
    match Postfix.ofChar? c with
    | some op =>
      let ⟨p, h⟩ := applyPostfixes (op.apply r) rest
      ⟨p, Nat.le_succ_of_le h⟩
    | none => ⟨(r, .punctuation c joint :: rest), Nat.le_refl _⟩
  | items => ⟨(r, items), Nat.le_refl _⟩

def parseUnary (items : List Item) : Parsed (Regex Symbol) items :=
  if startsComplement items then do
    let p ← parseComplement items
    match leadingOperator? p.1.2 with
    | some op => .error (.ambiguous op)
    | none => .ok p
  else do
    let ⟨(r, rest), h⟩ ← parseAtom items
    let ⟨p, h'⟩ := applyPostfixes r rest
    return ⟨p, Nat.lt_of_le_of_lt h' h⟩

def parseConcat (items : List Item) : Parsed (Regex Symbol) items := do
  let ⟨(r, rest), h⟩ ← parseUnary items
  if startsOperand rest then
    let ⟨(s, rest'), h'⟩ ← parseConcat rest
    return ⟨(.concat r s, rest'), Nat.lt_trans h' h⟩
  else return ⟨(r, rest), h⟩
termination_by items.length

/-- The operands after `l`, each behind `op`, nested to the left. -/
def parseOperands (op : Char) (node : Regex Symbol → Regex Symbol → Regex Symbol)
    (operand : (items : List Item) → Parsed (Regex Symbol) items) (l : Regex Symbol)
    (items : List Item) :
    Except ParseError { p : Regex Symbol × List Item // p.2.length ≤ items.length } :=
  match items with
  | .punctuation c joint :: rest =>
    if c = op then do
      let ⟨(r, rest'), h⟩ ← operand rest
      let ⟨p, h'⟩ ← parseOperands op node operand (node l r) rest'
      return ⟨p, by simp only [List.length_cons] at *; omega⟩
    else .ok ⟨(l, .punctuation c joint :: rest), Nat.le_refl _⟩
  | items => .ok ⟨(l, items), Nat.le_refl _⟩
termination_by items.length
decreasing_by simp only [List.length_cons] at *; omega

def parseChain (op : Char) (node : Regex Symbol → Regex Symbol → Regex Symbol)
    (operand : (items : List Item) → Parsed (Regex Symbol) items) (items : List Item) :
    Parsed (Regex Symbol) items := do
  let ⟨(l, rest), h⟩ ← operand items
  let ⟨p, h'⟩ ← parseOperands op node operand l rest
  return ⟨p, Nat.lt_of_le_of_lt h' h⟩

def parseAnd : (items : List Item) → Parsed (Regex Symbol) items := parseChain '&' .and parseConcat

def parseOr : (items : List Item) → Parsed (Regex Symbol) items := parseChain '|' .or parseAnd

/-- From loosest to tightest: `|`, `&`, juxtaposition, then `~` before an operand or `*`, `+` and
`?` after it, never both. -/
def parseItems (leftOver : ParseError) (items : List Item) : Except ParseError (Regex Symbol) := do
  let ⟨(r, rest), _⟩ ← parseOr items
  if rest.isEmpty then return r else .error leftOver

mutual

/-- A token with parenthesised groups read. -/
def Item.ofToken : Token → Item
  | .identifier text => .name text
  | .punctuation c joint => .punctuation c joint
  | .integer _ value => .integer value
  | .literal _ => .other
  | .group .parenthesis tokens => .group (parseItems .unclosedGroup (Item.ofTokens tokens))
  | .group _ _ => .other

def Item.ofTokens : List Token → List Item
  | [] => []
  | t :: ts => Item.ofToken t :: Item.ofTokens ts

end

def ofTokens (tokens : List Token) : Except ParseError (Regex Symbol) :=
  parseItems .residualInput (Item.ofTokens tokens)

inductive ReadError where
  | noTokens
  | noExpression (cause : ParseError)
  deriving DecidableEq

def ReadError.message : ReadError → String
  | noTokens => "lex error: cannot parse string into token stream"
  | noExpression cause => "parse error: " ++ cause.message

def parse (text : String) : Except ReadError (Regex Symbol) :=
  match Token.lex? text with
  | none => .error .noTokens
  | some tokens => (ofTokens tokens).mapError .noExpression

end NameResolution.Regex

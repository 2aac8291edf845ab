import NameResolution.Regex.Parser

namespace NameResolution

/-- Why a text is no path. The second cause depends on whether anything is left to read. -/
inductive PathTextError where
  | noTokens
  | expectedIdentifier (atEnd : Bool)
  | reserved (word : String)
  | unexpectedToken
  deriving DecidableEq

def PathTextError.message : PathTextError → String
  | noTokens => "cannot parse string into token stream"
  | expectedIdentifier true => "unexpected end of input, expected identifier"
  | expectedIdentifier false => "expected identifier"
  | reserved word => "expected identifier, found keyword `" ++ word ++ "`"
  | unexpectedToken => "unexpected token"

namespace Token

def pathSeparator : List Token := [punctuation ':' true, punctuation ':' false]

def readSegments : List Token → Except PathTextError (List Token)
  | [] => .error (.expectedIdentifier true)
  | identifier name :: rest =>
    if Regex.isSegment name then
      match rest with
      | [] => .ok [identifier name]
      | punctuation ':' true :: punctuation ':' _ :: rest =>
        match rest with
        | group .parenthesis _ :: _ => .error .unexpectedToken
        | rest => do return identifier name :: pathSeparator ++ (← readSegments rest)
      | _ => .error .unexpectedToken
    else .error (.reserved name)
  | _ => .error (.expectedIdentifier false)

/-- The tokens of a path, which may begin with a separator. -/
def readPath (text : String) : Except PathTextError (List Token) :=
  match lex? text with
  | none => .error .noTokens
  | some (punctuation ':' true :: punctuation ':' _ :: rest) => do
    return pathSeparator ++ (← readSegments rest)
  | some tokens => readSegments tokens

end Token

namespace Regex

open Token

def constant (type : List Token) (name : String) : List Token :=
  type ++ pathSeparator ++ [identifier name]

def application (type : List Token) (name : String) (operands : List (List Token)) : List Token :=
  constant type name ++
    [group .parenthesis ([punctuation ',' false].intercalate operands)]

/-- The tokens that rebuild the expression by the constructors of `type`. -/
def construction (type : List Token) : Regex Symbol → Except PathTextError (List Token)
  | emptyString => return constant type "EmptyString"
  | emptySet => return constant type "EmptySet"
  | symbol a => do return application type "symbol" [← readPath a.name]
  | star r => do return application type "repeat" [← r.construction type]
  | complement r => do return application type "complement" [← r.construction type]
  | or l r => do
    let l' ← l.construction type
    let r' ← r.construction type
    return application type "or" [l', r']
  | and l r => do
    let l' ← l.construction type
    let r' ← r.construction type
    return application type "and" [l', r']
  | concat l r => do
    let l' ← l.construction type
    let r' ← r.construction type
    return application type "concat" [l', r']

end Regex

end NameResolution

import NameResolution.Text.Blank
import NameResolution.Text.Quoted
import NameResolution.Token.Basic
import NameResolution.Token.Literal

namespace NameResolution.Token

open Text

/-- What follows a block comment inside which `depth` comments are open. -/
def blockComment? (depth : Nat) : List Char → Option (List Char)
  | [] => none
  | '/' :: '*' :: s => blockComment? (depth + 1) s
  | '*' :: '/' :: s => if depth ≤ 1 then some s else blockComment? (depth - 1) s
  | _ :: s => blockComment? depth s

def untilLineEnd : List Char → List Char × List Char
  | [] => ([], [])
  | '\n' :: s => ([], '\n' :: s)
  | '\r' :: '\n' :: s => ([], '\n' :: s)
  | c :: s => let (line, rest) := untilLineEnd s; (c :: line, rest)

def startsWith (s : List Char) (text : String) : Bool := text.toList.isPrefixOf s

/-- What follows one blank or one comment that is no documentation. -/
def blank? (s : List Char) : Option (List Char) :=
  if startsWith s "//" && (!startsWith s "///" || startsWith s "////") && !startsWith s "//!" then
    some (untilLineEnd s).2
  else if startsWith s "/**/" then some (s.drop 4)
  else if startsWith s "/*" && (!startsWith s "/**" || startsWith s "/***") &&
      !startsWith s "/*!" then
    blockComment? 0 s
  else
    match s with
    | [] => none
    | c :: rest => if isBlank c then some rest else none

def skipBlanks (s : List Char) : List Char :=
  match blank? s with
  | some rest => if rest.length < s.length then skipBlanks rest else s
  | none => s
termination_by s.length

theorem length_skipBlanks_le (s : List Char) : (skipBlanks s).length ≤ s.length := by
  fun_induction skipBlanks s with
  | case1 s rest _ h ih => exact Nat.le_trans ih (Nat.le_of_lt h)
  | _ => exact Nat.le_refl _

/-- The text of a documentation comment, whether it is about what encloses it, and the rest. -/
def documentation? (s : List Char) : Option (List Char × Bool × List Char) :=
  let block (inner : Bool) : Option (List Char × Bool × List Char) :=
    (blockComment? 0 s).map fun rest =>
      ((s.take (s.length - rest.length - 2)).drop 3, inner, rest)
  if startsWith s "//!" then
    let (line, rest) := untilLineEnd (s.drop 3)
    some (line, true, rest)
  else if startsWith s "/*!" then block true
  else if startsWith s "///" then
    if startsWith s "////" then none
    else
      let (line, rest) := untilLineEnd (s.drop 3)
      some (line, false, rest)
  else if startsWith s "/**" && !startsWith s "/***" then block false
  else none

/-- Whether a return stands anywhere but before a line feed. -/
def hasBareReturn : List Char → Bool
  | [] => false
  | '\r' :: '\n' :: s => hasBareReturn s
  | c :: s => c = '\r' || hasBareReturn s

def documentationTokens? (s : List Char) : Option (List Token × List Char) :=
  match documentation? s with
  | none => none
  | some (text, inner, rest) =>
    if hasBareReturn text then none else
    let note := group .bracket
      [identifier "doc", punctuation '=' false, literal (quoted (String.ofList text))]
    some (punctuation '#' false :: (if inner then [punctuation '!' false] else []) ++ [note],
      rest)

def anyName? (s : List Char) : Option (List Char × List Char) :=
  match s with
  | 'r' :: '#' :: s =>
    match Literal.name? s with
    | some (name, rest) =>
      if ["_", "super", "self", "Self", "crate"].contains (String.ofList name) then none
      else some ('r' :: '#' :: name, rest)
    | none => none
  | s => Literal.name? s

/-- A name that is not the beginning of a broken string. -/
def name? (s : List Char) : Option (List Char × List Char) :=
  if ["r\"", "r#\"", "r##", "b\"", "b'", "br\"", "br#", "c\"", "cr\"", "cr#"].any (startsWith s)
  then none
  else anyName? s

def punctuationChar? (s : List Char) : Option (Char × List Char) :=
  if startsWith s "//" || startsWith s "/*" then none else
  match s with
  | [] => none
  | c :: rest =>
    if "~!@#$%^&*-=+|;:,<.>/?'".toList.contains c then some (c, rest) else none

/-- A punctuation token; an apostrophe must begin a lifetime. -/
def punctuation? (s : List Char) : Option (Token × List Char) :=
  match punctuationChar? s with
  | none => none
  | some (c, rest) =>
    if c = '\'' then
      match anyName? rest with
      | none => none
      | some (_, after) =>
        if startsWith after "'" || (startsWith after "#" && !startsWith rest "r#") then none
        else some (punctuation c true, rest)
    else some (punctuation c (punctuationChar? rest).isSome, rest)

def literal? (s : List Char) : Option (Token × List Char) :=
  (Literal.any? s).map fun rest =>
    let text := s.take (s.length - rest.length)
    match Literal.integerValue? text with
    | some value => (integer (String.ofList text) value, rest)
    | none => (literal (String.ofList text), rest)

def leaf? (s : List Char) : Option (Token × List Char) :=
  ((literal? s).or (punctuation? s)).or
    ((name? s).map fun (name, rest) => (identifier (String.ofList name), rest))

/-- Reads tokens up to the end of the text. `opened` holds the groups that are still open, each
with the tokens before it, and `before` the tokens of the innermost one, last first. -/
def lexFrom (opened : List (Delimiter × List Token)) (before : List Token) (s : List Char) :
    Option (List Token) :=
  match h : skipBlanks s with
  | [] => if opened.isEmpty then some before.reverse else none
  | c :: rest =>
    have hlt : rest.length < s.length := by
      have := length_skipBlanks_le s
      rw [h, List.length_cons] at this
      omega
    match documentationTokens? (c :: rest) with
    | some (tokens, after) =>
      if after.length < s.length then lexFrom opened (tokens.reverse ++ before) after else none
    | none =>
      match Delimiter.ofOpening? c with
      | some delimiter => lexFrom ((delimiter, before) :: opened) [] rest
      | none =>
        match Delimiter.ofClosing? c with
        | some delimiter =>
          match opened with
          | (delimiter', outer) :: opened =>
            if delimiter = delimiter' then
              lexFrom opened (group delimiter before.reverse :: outer) rest
            else none
          | [] => none
        | none =>
          match leaf? (c :: rest) with
          | some (token, after) =>
            if after.length < s.length then lexFrom opened (token :: before) after else none
          | none => none
termination_by s.length

/-- The tokens of a text, unless it cannot be split into tokens. A leading mark of byte order is
left out. -/
def lex? (text : String) : Option (List Token) :=
  match text.toList with
  | '\ufeff' :: s => lexFrom [] [] s
  | s => lexFrom [] [] s

end NameResolution.Token

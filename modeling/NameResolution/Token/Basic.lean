namespace NameResolution

inductive Delimiter where
  | parenthesis
  | bracket
  | brace
  deriving DecidableEq

namespace Delimiter

def ofOpening? : Char → Option Delimiter
  | '(' => some parenthesis
  | '[' => some bracket
  | '{' => some brace
  | _ => none

def ofClosing? : Char → Option Delimiter
  | ')' => some parenthesis
  | ']' => some bracket
  | '}' => some brace
  | _ => none

/-- The text around a group; braces keep a space inside. -/
def enclose (body : String) : Delimiter → String
  | parenthesis => "(" ++ body ++ ")"
  | bracket => "[" ++ body ++ "]"
  | brace => if body.isEmpty then "\x7b \x7d" else "\x7b " ++ body ++ " \x7d"

end Delimiter

/-- An integer literal carries its value; raw identifiers keep their mark in the name. -/
inductive Token where
  | identifier (name : String)
  | punctuation (c : Char) (joint : Bool)
  | integer (text : String) (value : Nat)
  | literal (text : String)
  | group (delimiter : Delimiter) (tokens : List Token)

namespace Token

def isJoint : Token → Bool
  | punctuation _ joint => joint
  | _ => false

mutual

def render : Token → String
  | identifier name => name
  | punctuation c _ => String.singleton c
  | integer text _ => text
  | literal text => text
  | group delimiter tokens => delimiter.enclose (renderAll tokens)

/-- The tokens with one space between any two that are not joint. -/
def renderAll : List Token → String
  | [] => ""
  | [t] => t.render
  | t :: u :: ts => t.render ++ (if t.isJoint then "" else " ") ++ renderAll (u :: ts)

end

end Token

end NameResolution

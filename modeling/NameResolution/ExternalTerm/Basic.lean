import NameResolution.Term.Basic

namespace NameResolution

inductive ExternalTerm where
  | int (value : Int64)
  | real (bits : UInt64)
  | string (text : String)
  /-- An application. What the constructor states as its arity need not be right. -/
  | application (name : String) (arity : Nat) (args : List ExternalTerm)
  | tuple (args : List ExternalTerm)
  | list (elements : List ExternalTerm)
  /-- Stands for a term of the other program that has no meaning here. -/
  | placeholder (inner : ExternalTerm)

namespace ExternalTerm

def variableName : String := "CVar"

/-- The constructor of the element that stands for an open end of a list. -/
def openTailName : String := "LazyList"

/-- An application whose constructor has the right arity. -/
def apply (name : String) (args : List ExternalTerm) : ExternalTerm :=
  application name args.length args

/-- A variable; no resource is written as the empty one. -/
def ofVariable (v : Variable) : ExternalTerm :=
  apply variableName [string (v.resource.getD ""), string v.name]

def ofPrimitive : Primitive → ExternalTerm
  | .int value => int value
  | .real bits => real bits
  | .string text => string text

def openTail (tail : ExternalTerm) : ExternalTerm := apply openTailName [tail]

def kind : ExternalTerm → String
  | int _ => "int"
  | real _ => "real"
  | string _ => "string"
  | application _ _ _ => "application"
  | tuple _ => "tuple"
  | list _ => "list"
  | placeholder _ => "placeholder"

inductive Unsupported where
  /-- A list goes on with a term that is neither a list nor open. -/
  | listPosition (term : Term)
  | variableArity (count : Nat)
  | placeholder
  | primitive (external : ExternalTerm)

def Unsupported.message : Unsupported → String
  | listPosition term => "unsupported term kind: " ++ term.kind ++ " in list position"
  | variableArity count =>
    "unsupported term kind: " ++ variableName ++ " with " ++ toString count ++ " arguments"
  | placeholder => "unsupported term kind: " ++ (ExternalTerm.placeholder (.list [])).kind
  | primitive external => "unsupported primitive kind: " ++ external.kind

end ExternalTerm

end NameResolution

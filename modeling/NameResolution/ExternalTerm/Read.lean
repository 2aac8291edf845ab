import NameResolution.ExternalTerm.Basic

namespace NameResolution

namespace Variable

def ofArguments? : List ExternalTerm → Except ExternalTerm.Unsupported Variable
  | [.string resource, .string name] =>
    return if resource = "" then ⟨none, name⟩ else ⟨some resource, name⟩
  | args => .error (.variableArity args.length)

end Variable

def Primitive.ofExternal? : ExternalTerm → Except ExternalTerm.Unsupported Primitive
  | .int value => return .int value
  | .real bits => return .real bits
  | .string text => return .string text
  | external => .error (.primitive external)

namespace ExternalTerm

/-- The tail that an element of a list stands for. -/
def openTail? : ExternalTerm → Option ExternalTerm
  | application name _ [tail] => if name = openTailName then some tail else none
  | _ => none

mutual

def toTerm? : ExternalTerm → Except Unsupported Term
  | int value => return .primitive (.int value)
  | real bits => return .primitive (.real bits)
  | string text => return .primitive (.string text)
  | application name _ args => do
    if name = variableName then return .var (← Variable.ofArguments? args)
    return .application name (← toTerms? args)
  | tuple args => return .tuple (← toTerms? args)
  | list elements => do
    let tail ← tailOfElements? elements
    return .listWithTail (← toElements? elements) tail
  | placeholder _ => .error .placeholder

def toTerms? : List ExternalTerm → Except Unsupported (List Term)
  | [] => return []
  | e :: es => do
    let t ← e.toTerm?
    return t :: (← toTerms? es)

/-- All elements of a list but one that stands for its open tail. -/
def toElements? : List ExternalTerm → Except Unsupported (List Term)
  | [] => return []
  | [e] => do
    if e.openTail?.isSome then return []
    return [← e.toTerm?]
  | e :: f :: es => do
    let t ← e.toTerm?
    return t :: (← toElements? (f :: es))

def tailOfElements? : List ExternalTerm → Except Unsupported Term
  | [] => return .nil
  | [e] => e.toTail?
  | _ :: f :: es => tailOfElements? (f :: es)

/-- What comes after a list whose last element is this one. An open tail that is an application is
an operator. -/
def toTail? : ExternalTerm → Except Unsupported Term
  | application outer _ [application name _ args] => do
    if outer ≠ openTailName then return .nil
    if name = variableName then return .var (← Variable.ofArguments? args)
    return .operator name (← toTerms? args)
  | application outer _ [tail] => if outer = openTailName then tail.toTerm? else return .nil
  | _ => return .nil

end

end ExternalTerm

end NameResolution

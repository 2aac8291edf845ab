import NameResolution.Decimal.Real
import NameResolution.Term.Basic
import NameResolution.Text.Quoted

namespace NameResolution

def Variable.render (v : Variable) : String :=
  match v.resource with
  | none => "?" ++ v.name
  | some r => "?" ++ r ++ ":" ++ v.name

def Primitive.render : Primitive → String
  | int value => toString value.toInt
  | real bits => Decimal.realFormat.ofBits bits
  | string text => Text.quoted text

namespace Term

/-- A term that is not a list, alone or as the tail of one. -/
def afterBar (isTail : Bool) (text : String) : String := if isTail then " | " ++ text else text

mutual

/-- A term alone, or what it adds to the list that it is the tail of. -/
def renderIn (isTail : Bool) : Term → String
  | var v => afterBar isTail v.render
  | primitive p => afterBar isTail p.render
  | application name args => afterBar isTail (name ++ "(" ++ renderAll args ++ ")")
  | operator name args => afterBar isTail ("#" ++ name ++ "(" ++ renderAll args ++ ")")
  | tuple args => afterBar isTail ("(" ++ renderAll args ++ ")")
  | nil => if isTail then "" else "[]"
  | cons head tail =>
    let elements := head.renderIn false ++ tail.renderIn true
    if isTail then ", " ++ elements else "[" ++ elements ++ "]"

def renderAll : List Term → String
  | [] => ""
  | [t] => t.renderIn false
  | t :: u :: ts => t.renderIn false ++ ", " ++ renderAll (u :: ts)

end

def render (t : Term) : String := t.renderIn false

end Term

end NameResolution

import NameResolution.Path.Basic

namespace NameResolution

class Endpoint (A : Type) where
  occurrence? : A → Option Occurrence

instance : Endpoint Unit := ⟨fun _ => none⟩
instance : Endpoint Occurrence := ⟨some⟩

variable {L A B : Type}

def Step.renderIn (label : L → String) : Step L → String
  | .edge _ l t => " -" ++ label l ++ "-> " ++ t.render
  | .named _ l p t => " =" ++ label l ++ "[" ++ p.stop.render ++ "]=> " ++ t.render

namespace Path

variable [Endpoint A] [Endpoint B]

def reference? (p : Path (Step L) A B) : Option Occurrence := Endpoint.occurrence? p.start

def declaration? (p : Path (Step L) A B) : Option Occurrence := Endpoint.occurrence? p.stop

def kind (p : Path (Step L) A B) : String :=
  match p.reference?, p.declaration? with
  | none, none => "ScopePath"
  | none, some _ => "DeclPath"
  | some _, none => "RefPath"
  | some _, some _ => "FullPath"

def render (label : L → String) (p : Path (Step L) A B) : String :=
  p.kind ++ "(" ++ (p.reference?.map fun r => r.render ++ " in ").getD "" ++ p.source.render ++
    String.join (p.steps.map (Step.renderIn label)) ++
    (p.declaration?.map fun d => " : " ++ d.render).getD "" ++ ")"

end Path

def Step.render (label : L → String) : Step L → String
  | .edge s l t => s.render ++ " -" ++ label l ++ "-> " ++ t.render
  | .named s l p t => s.render ++ " =" ++ label l ++ p.render label ++ "=> " ++ t.render

end NameResolution

import NameResolution.Path.Basic

namespace NameResolution

variable {L A B : Type} [DecidableEq L]

mutual

def Step.same : Step L → Step L → Bool
  | .edge s l t, .edge s' l' t' => s = s' && l = l' && t = t'
  | .named s l p t, .named s' l' p' t' => s = s' && l = l' && t = t' && sameResolution p p'
  | _, _ => false

def sameResolution : ResolutionPath L → ResolutionPath L → Bool
  | ⟨a, b, s, t, steps, _, _, scopes, references, _, _, _⟩, q =>
    a = q.start && b = q.stop && s = q.source && t = q.target &&
      scopes = q.scopes && references = q.references && sameSteps steps q.steps

def sameSteps : List (Step L) → List (Step L) → Bool
  | [], [] => true
  | s :: ss, t :: ts => s.same t && sameSteps ss ts
  | _, _ => false

end

instance : BEq (Step L) := ⟨Step.same⟩

instance [DecidableEq A] [DecidableEq B] : BEq (Path (Step L) A B) where
  beq p q :=
    p.start = q.start && p.stop = q.stop && p.source = q.source && p.target = q.target &&
      p.scopes = q.scopes && p.references = q.references && p.steps == q.steps

end NameResolution

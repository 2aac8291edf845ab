import NameResolution.ExternalTerm.Export
import NameResolution.Proofs.Outcome

namespace NameResolution.Exported

open ExternalTerm

variable {α β : Type}

theorem mapError_bind (rename : Unsupported → Unsupported) (e : Exported α) (f : α → Exported β) :
    (e >>= f).mapError rename = e.mapError rename >>= fun a => (f a).mapError rename := by
  cases e <;> rfl

theorem mapError_mapM (rename : Unsupported → Unsupported) (f : α → Exported β) (l : List α) :
    (l.mapM f).mapError rename = l.mapM fun a => (f a).mapError rename := by
  induction l with
  | nil => rfl
  | cons a l ih =>
    rw [List.mapM_cons, List.mapM_cons, mapError_bind]
    refine bind_congr fun b => ?_
    rw [mapError_bind, ih]
    rfl

end NameResolution.Exported

import NameResolution.ExternalTerm.Read
import NameResolution.Proofs.ExternalTerm.Substitution

namespace NameResolution

/-- What an open tail stands for whose external form is read as the term. -/
def Term.asTail : Term → Term
  | application name args => operator name args
  | t => t

namespace ExternalTerm

open Exported

variable {e : ExternalTerm} {es : List ExternalTerm} {t : Term}

theorem toTerms?_eq_ok_iff {ts : List Term} :
    toTerms? es = .ok ts ↔ List.Forall₂ (fun e t => e.toTerm? = .ok t) es ts := by
  have hmapM : toTerms? es = es.mapM toTerm? := by
    induction es with
    | nil => rfl
    | cons e es ih => rw [List.mapM_cons, toTerms?, ih]
  rw [hmapM, mapM_eq_ok_iff]

theorem toTerm?_ofPrimitive (p : Primitive) : (ofPrimitive p).toTerm? = .ok (.primitive p) := by
  cases p <;> rfl

theorem exists_of_toTerm?_tuple {args : List ExternalTerm} (h : (tuple args).toTerm? = .ok t) :
    ∃ ts, toTerms? args = .ok ts ∧ t = .tuple ts := by
  rw [toTerm?] at h
  obtain ⟨ts, hts, h⟩ := bind_eq_ok_iff.mp h
  cases h
  exact ⟨ts, hts, rfl⟩

theorem toTerm?_list (es : List ExternalTerm) : (list es).toTerm? = do
    let tail ← tailOfElements? es
    let ts ← toElements? es
    return .listWithTail ts tail := by
  rw [toTerm?]

theorem toTerm?_list_nil : (list []).toTerm? = .ok .nil := by
  rw [toTerm?_list]
  rfl

theorem openTail?_eq_some_iff {tail : ExternalTerm} :
    e.openTail? = some tail ↔ ∃ arity, e = application openTailName arity [tail] := by
  constructor
  · intro h
    unfold openTail? at h
    split at h
    · split at h
      · next name arity tail' hname =>
        exact ⟨arity, by rw [hname, Option.some.inj h]⟩
      · cases h
    · cases h
  · rintro ⟨arity, rfl⟩
    simp [openTail?]

/-- Either a list goes on with an element, or it is an open tail alone. -/
theorem exists_openTail_of_not (h : ¬(es = [] → e.openTail? = none)) :
    es = [] ∧ ∃ tail, e.openTail? = some tail := by
  obtain ⟨hnil, hsome⟩ := Classical.not_imp.mp h
  exact ⟨hnil, Option.ne_none_iff_exists'.mp hsome⟩

/-- An element that stands for no tail is the last of a list that ends in nil. -/
theorem toTail?_of_closed (h : e.openTail? = none) : e.toTail? = .ok .nil := by
  cases e with
  | application outer arity args =>
    match args with
    | [] => rfl
    | [tail] =>
      have houter : outer ≠ openTailName := by
        intro heq
        simp [openTail?, heq] at h
      cases tail <;> simp [toTail?, houter] <;> rfl
    | first :: _ :: _ => cases first <;> rfl
  | int | real | string | tuple | list | placeholder => rfl

/-- A list of an open tail alone. -/
theorem toTerm?_list_of_open {tail : ExternalTerm} (h : e.openTail? = some tail) :
    (list [e]).toTerm? = e.toTail? := by
  have helements : toElements? [e] = .ok [] := by
    rw [toElements?, h]
    rfl
  rw [toTerm?_list, tailOfElements?, helements]
  cases e.toTail? <;> rfl

theorem toTerm?_list_cons (h : es = [] → e.openTail? = none) :
    (list (e :: es)).toTerm? = .ok t ↔
      ∃ head tail, e.toTerm? = .ok head ∧ (list es).toTerm? = .ok tail ∧ t = .cons head tail := by
  -- only a last element can be an open tail, and if this one is the last it is none
  have hrest : tailOfElements? (e :: es) = tailOfElements? es := by
    cases es with
    | nil => exact toTail?_of_closed (h rfl)
    | cons f es => rfl
  have helements : toElements? (e :: es) = do
      let t ← e.toTerm?
      return t :: (← toElements? es) := by
    cases es with
    | nil => simp [toElements?, h rfl]
    | cons f es => rw [toElements?]
  rw [toTerm?_list, toTerm?_list, hrest, helements]
  simp only [bind_eq_ok_iff]
  constructor
  · rintro ⟨tail, htail, _, ⟨head, hhead, ts, hts, heq⟩, ht⟩
    cases heq
    cases ht
    exact ⟨head, .listWithTail ts tail, hhead, ⟨tail, htail, ts, hts, rfl⟩, rfl⟩
  · rintro ⟨head, _, hhead, ⟨tail, htail, ts, hts, heq⟩, rfl⟩
    cases heq
    exact ⟨tail, htail, head :: ts, ⟨head, hhead, ts, hts, rfl⟩, rfl⟩

section Application

variable {name : String} {arity : Nat} {args : List ExternalTerm}

theorem toTerm?_application (name : String) (arity : Nat) (args : List ExternalTerm) :
    (application name arity args).toTerm? =
      if name = variableName then do return .var (← Variable.ofArguments? args)
      else do return .application name (← toTerms? args) := by
  rw [toTerm?]

/-- An open tail is a variable or an operator if an application stands for it. -/
theorem toTerm?_list_openTail (outer : Nat) (name : String) (arity : Nat)
    (args : List ExternalTerm) :
    (list [application openTailName outer [application name arity args]]).toTerm? =
      if name = variableName then do return .var (← Variable.ofArguments? args)
      else do return .operator name (← toTerms? args) := by
  rw [toTerm?_list_of_open (openTail?_eq_some_iff.mpr ⟨outer, rfl⟩), toTail?]
  simp only [ne_eq, not_true_eq_false, if_false]

/-- The arguments of a variable are those that it is written with; an empty resource is read as
none. -/
theorem ofArguments?_eq_ok_iff {v : Variable} :
    Variable.ofArguments? args = .ok v ↔
      args = [string (v.resource.getD ""), string v.name] ∧ v.resource ≠ some "" := by
  constructor
  · intro h
    unfold Variable.ofArguments? at h
    split at h
    · next resource name =>
      by_cases hempty : resource = ""
      · rw [if_pos hempty] at h
        cases h
        exact ⟨by rw [hempty]; rfl, nofun⟩
      · rw [if_neg hempty] at h
        cases h
        exact ⟨rfl, fun heq => hempty (Option.some.inj heq)⟩
    · cases h
  · rintro ⟨rfl, hresource⟩
    obtain ⟨resource, name⟩ := v
    cases resource with
    | none => rfl
    | some r =>
      have hr : r ≠ "" := fun heq => hresource (congrArg some heq)
      simp [Variable.ofArguments?, hr]
      rfl

theorem toTerm?_application_cases (h : (application name arity args).toTerm? = .ok t) :
    (name = variableName ∧ ∃ v : Variable,
        args = [string (v.resource.getD ""), string v.name] ∧ t = .var v) ∨
      name ≠ variableName ∧ ∃ ts, toTerms? args = .ok ts ∧ t = .application name ts := by
  rw [toTerm?_application] at h
  split at h
  · next hname =>
    obtain ⟨v, hv, h⟩ := bind_eq_ok_iff.mp h
    cases h
    exact .inl ⟨hname, v, (ofArguments?_eq_ok_iff.mp hv).1, rfl⟩
  · next hname =>
    obtain ⟨ts, hts, h⟩ := bind_eq_ok_iff.mp h
    cases h
    exact .inr ⟨hname, ts, hts, rfl⟩

end Application

section Tail

variable {tail : ExternalTerm}

/-- Apart from applications, open tails are read as they are on their own. -/
theorem toTail?_of_open (h : e.openTail? = some tail)
    (htail : ¬∃ name arity args, tail = application name arity args) :
    e.toTail? = tail.toTerm? := by
  obtain ⟨arity, rfl⟩ := openTail?_eq_some_iff.mp h
  cases tail with
  | application name arity args => exact absurd ⟨name, arity, args, rfl⟩ htail
  | int | real | string | tuple | list | placeholder => simp [toTail?]

/-- Only applications are read as applications, and a list of an open tail alone as what the tail
stands for. -/
theorem asTail_of_toTerm? {e : ExternalTerm}
    (he : ¬∃ name arity args, e = application name arity args) (h : e.toTerm? = .ok t) :
    t.asTail = t := by
  cases e with
  | application name arity args => exact absurd ⟨name, arity, args, rfl⟩ he
  | int | real | string =>
    cases h
    rfl
  | tuple args =>
    obtain ⟨ts, -, rfl⟩ := exists_of_toTerm?_tuple h
    rfl
  | placeholder => cases h
  | list es =>
    cases es with
    | nil =>
      cases toTerm?_list_nil.symm.trans h
      rfl
    | cons e es =>
      by_cases hopen : es = [] → e.openTail? = none
      · obtain ⟨head, tail, -, -, rfl⟩ := (toTerm?_list_cons hopen).mp h
        rfl
      -- an open tail alone: an application is read as an operator, anything else as on its own
      obtain ⟨rfl, tail, htail⟩ := exists_openTail_of_not hopen
      obtain ⟨outer, rfl⟩ := openTail?_eq_some_iff.mp htail
      by_cases happ : ∃ name arity args, tail = application name arity args
      · obtain ⟨name, arity, args, rfl⟩ := happ
        rw [toTerm?_list_openTail] at h
        split at h
        all_goals
          obtain ⟨_, -, h⟩ := bind_eq_ok_iff.mp h
          cases h
          rfl
      · rw [toTerm?_list_of_open htail, toTail?_of_open htail happ] at h
        exact asTail_of_toTerm? happ h
termination_by sizeOf e

theorem asTail_of_list (h : (list es).toTerm? = .ok t) : t.asTail = t :=
  asTail_of_toTerm? (fun ⟨_, _, _, heq⟩ => nomatch heq) h

theorem toTail?_eq_ok_iff (h : e.openTail? = some tail) :
    e.toTail? = .ok t ↔ ∃ s, tail.toTerm? = .ok s ∧ t = s.asTail := by
  by_cases happ : ∃ name arity args, tail = application name arity args
  · obtain ⟨name, arity, args, rfl⟩ := happ
    obtain ⟨outer, rfl⟩ := openTail?_eq_some_iff.mp h
    rw [← toTerm?_list_of_open h, toTerm?_list_openTail, toTerm?_application]
    -- the result is a variable or an application, each made from a value that is read in both
    split
    all_goals
      simp only [bind_eq_ok_iff]
      constructor
      · rintro ⟨a, ha, heq⟩
        cases heq
        exact ⟨_, ⟨a, ha, rfl⟩, rfl⟩
      · rintro ⟨_, ⟨a, ha, heq⟩, rfl⟩
        cases heq
        exact ⟨a, ha, rfl⟩
  · rw [toTail?_of_open h happ]
    constructor
    · exact fun hread => ⟨t, hread, (asTail_of_toTerm? happ hread).symm⟩
    · rintro ⟨s, hread, rfl⟩
      rw [asTail_of_toTerm? happ hread, hread]

/-- A list of an open tail alone is read as what the tail stands for. -/
theorem toTerm?_list_of_open_iff (h : e.openTail? = some tail) :
    (list [e]).toTerm? = .ok t ↔ ∃ s, tail.toTerm? = .ok s ∧ t = s.asTail := by
  rw [toTerm?_list_of_open h, toTail?_eq_ok_iff h]

/-- How a list is read: element by element, to its end or to an open tail. -/
inductive ReadsList : List ExternalTerm → Term → Prop
  | nil : ReadsList [] .nil
  | cons {e : ExternalTerm} {es : List ExternalTerm} {head tail : Term}
    (hopen : es = [] → e.openTail? = none) (hhead : e.toTerm? = .ok head)
    (htail : ReadsList es tail) : ReadsList (e :: es) (.cons head tail)
  | bare {e tail : ExternalTerm} {s : Term} (hopen : e.openTail? = some tail)
    (htail : tail.toTerm? = .ok s) : ReadsList [e] s.asTail

theorem toTerm?_list_iff : (list es).toTerm? = .ok t ↔ ReadsList es t := by
  constructor
  · intro h
    induction es generalizing t with
    | nil =>
      cases toTerm?_list_nil.symm.trans h
      exact .nil
    | cons e es ih =>
      by_cases hopen : es = [] → e.openTail? = none
      · obtain ⟨head, tail, hhead, htail, rfl⟩ := (toTerm?_list_cons hopen).mp h
        exact .cons hopen hhead (ih htail)
      · obtain ⟨rfl, tail, htail⟩ := exists_openTail_of_not hopen
        obtain ⟨s, hs, rfl⟩ := (toTerm?_list_of_open_iff htail).mp h
        exact .bare htail hs
  · intro h
    induction h with
    | nil => exact toTerm?_list_nil
    | cons hopen hhead _ ih => exact (toTerm?_list_cons hopen).mpr ⟨_, _, hhead, ih, rfl⟩
    | bare hopen htail => exact (toTerm?_list_of_open_iff hopen).mpr ⟨_, htail, rfl⟩

end Tail

end ExternalTerm

end NameResolution

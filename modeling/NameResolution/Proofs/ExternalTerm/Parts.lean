import NameResolution.Proofs.ExternalTerm.Reading

namespace NameResolution.ExternalTerm

def children : ExternalTerm → List ExternalTerm
  | application _ _ args | tuple args => args
  | list elements => elements
  | placeholder inner => [inner]
  | int _ | real _ | string _ => []

def PartOf (c e : ExternalTerm) : Prop := c ∈ e.children

/-- `c` is all of `e` or a part of it. -/
def Within : ExternalTerm → ExternalTerm → Prop := Relation.ReflTransGen PartOf

theorem sizeOf_lt_of_mem_children {c e : ExternalTerm} (h : c ∈ e.children) :
    sizeOf c < sizeOf e := by
  cases e with
  | int | real | string => cases h
  | placeholder inner =>
    rw [List.mem_singleton.mp h, placeholder.sizeOf_spec]
    omega
  | application name arity args =>
    have hlt := List.sizeOf_lt_of_mem (show c ∈ args from h)
    rw [application.sizeOf_spec]
    omega
  | tuple args | list args =>
    have hlt := List.sizeOf_lt_of_mem (show c ∈ args from h)
    simp
    omega

theorem wellFounded_partOf : WellFounded PartOf :=
  Subrelation.wf sizeOf_lt_of_mem_children (measure sizeOf).wf

theorem forall_within_iff {e : ExternalTerm} {p : ExternalTerm → Prop} :
    (∀ c : ExternalTerm, c.Within e → p c) ↔
      p e ∧ ∀ d ∈ e.children, ∀ c : ExternalTerm, c.Within d → p c :=
  forall_reflTransGen_iff

theorem forall_within_of_part {d e : ExternalTerm} {p : ExternalTerm → Prop}
    (h : ∀ c : ExternalTerm, c.Within e → p c) (hd : Relation.TransGen PartOf d e) :
    ∀ c : ExternalTerm, c.Within d → p c := fun c hc => h c (hc.trans hd.to_reflTransGen)

/-- An application has as many arguments as its constructor states. -/
def RightArity : ExternalTerm → Prop
  | application _ arity args => arity = args.length
  | _ => True

section RightArity

variable {args : List ExternalTerm}

theorem rightArity_apply (name : String)
    (hargs : ∀ d ∈ args, ∀ c : ExternalTerm, c.Within d → c.RightArity) :
    ∀ c : ExternalTerm, c.Within (apply name args) → c.RightArity :=
  forall_within_iff.mpr ⟨rfl, hargs⟩

theorem rightArity_list (hargs : ∀ d ∈ args, ∀ c : ExternalTerm, c.Within d → c.RightArity) :
    ∀ c : ExternalTerm, c.Within (list args) → c.RightArity :=
  forall_within_iff.mpr ⟨trivial, hargs⟩

theorem rightArity_ofPrimitive (p : Primitive) :
    ∀ c : ExternalTerm, c.Within (ofPrimitive p) → c.RightArity := by
  cases p <;> exact forall_within_iff.mpr ⟨trivial, nofun⟩

theorem rightArity_ofVariable (v : Variable) :
    ∀ c : ExternalTerm, c.Within (ofVariable v) → c.RightArity := by
  refine rightArity_apply _ (List.forall_mem_cons.mpr ⟨rightArity_ofPrimitive (.string _), ?_⟩)
  exact List.forall_mem_singleton.mpr (rightArity_ofPrimitive (.string _))

end RightArity

def listTail? : ExternalTerm → Option ExternalTerm
  | list elements => elements.getLast?.bind openTail?
  | _ => none

section ListTail

variable {e tail : ExternalTerm} {es : List ExternalTerm}

theorem listTail?_of_not_list (h : ∀ es, e ≠ list es) : e.listTail? = none := by
  cases e with
  | list es => exact absurd rfl (h es)
  | int | real | string | application | tuple | placeholder => rfl

theorem listTail?_cons (h : es = [] → e.openTail? = none) :
    (list (e :: es)).listTail? = (list es).listTail? := by
  cases es with
  | nil => exact h rfl
  | cons f es => rfl

theorem exists_mem_of_listTail? (h : (list es).listTail? = some tail) :
    ∃ arity, application openTailName arity [tail] ∈ es := by
  obtain ⟨element, helement, htail⟩ := Option.bind_eq_some_iff.mp h
  obtain ⟨arity, rfl⟩ := openTail?_eq_some_iff.mp htail
  exact ⟨arity, List.mem_of_getLast? helement⟩

theorem part_of_listTail? (h : e.listTail? = some tail) : Relation.TransGen PartOf tail e := by
  cases e with
  | list es =>
    obtain ⟨arity, hmem⟩ := exists_mem_of_listTail? h
    have htail : PartOf tail (application openTailName arity [tail]) := .head _
    exact .head htail (.single hmem)
  | int | real | string | application | tuple | placeholder => cases h

end ListTail

/-- A list that consists of an open tail alone. -/
def BareTail (e : ExternalTerm) : Prop :=
  ∃ element tail, e = list [element] ∧ element.openTail? = some tail

theorem not_bareTail {e : ExternalTerm} (h : ∀ es, e ≠ list es) : ¬e.BareTail :=
  fun ⟨_, _, heq, _⟩ => h _ heq

theorem not_bareTail_cons {e : ExternalTerm} {es : List ExternalTerm}
    (h : es = [] → e.openTail? = none) : ¬(list (e :: es)).BareTail := by
  rintro ⟨element, tail, heq, hopen⟩
  cases heq
  cases (h rfl).symm.trans hopen

end NameResolution.ExternalTerm

import NameResolution.Proofs.ExternalTerm.Acceptance

namespace NameResolution.ExternalTerm

open Exported

/-- If the list ends in an open tail, that is a variable or an operator, which are written as
applications. -/
def AppliedTail (e : ExternalTerm) : Prop :=
  ∀ tail, e.listTail? = some tail → ∃ name arity args, tail = application name arity args

/-- In every part that is a list with an open tail, the tail comes after an element and is a variable
or an operator. -/
def Plain (e : ExternalTerm) : Prop := ∀ c : ExternalTerm, c.Within e → ¬c.BareTail ∧ c.AppliedTail

variable {e tail : ExternalTerm} {es args : List ExternalTerm} {t : Term} {ts : List Term}

theorem plain_iff : e.Plain ↔ (¬e.BareTail ∧ e.AppliedTail) ∧ ∀ c ∈ e.children, c.Plain :=
  forall_within_iff

theorem plain_of_parts (h : ∀ es, e ≠ list es) : e.Plain ↔ ∀ c ∈ e.children, c.Plain := by
  refine plain_iff.trans (and_iff_right ⟨not_bareTail h, fun tail htail => ?_⟩)
  cases (listTail?_of_not_list h).symm.trans htail

theorem plain_application {name : String} {arity : Nat} :
    (application name arity args).Plain ↔ ∀ c ∈ args, c.Plain := plain_of_parts nofun

theorem plain_tuple : (tuple args).Plain ↔ ∀ c ∈ args, c.Plain := plain_of_parts nofun

theorem plain_ofPrimitive (p : Primitive) : (ofPrimitive p).Plain := by
  have hparts : ∀ es, ofPrimitive p ≠ list es := by cases p <;> nofun
  refine (plain_of_parts hparts).mpr ?_
  cases p <;> nofun

theorem plain_ofVariable (v : Variable) : (ofVariable v).Plain := by
  refine plain_application.mpr (List.forall_mem_cons.mpr ⟨plain_ofPrimitive (.string _), ?_⟩)
  exact List.forall_mem_singleton.mpr (plain_ofPrimitive (.string _))

section Tail

theorem eq_openTail (harity : e.RightArity) (h : e.openTail? = some tail) : e = openTail tail := by
  obtain ⟨arity, rfl⟩ := openTail?_eq_some_iff.mp h
  have hright : arity = 1 := harity
  rw [hright]
  rfl

/-- A variable or an operator that is the rest of a list is written as one more element. -/
theorem exportElements_asTail {name : String} {arity : Nat}
    (h : (application name arity args).toTerm? = .ok t) :
    Unifier.empty.exportElements t.asTail = do
      let e ← Unifier.empty.exportTerm t
      return [openTail e] := by
  rw [Unifier.exportElements_of_unbound (Unifier.next?_empty _),
    Unifier.exportTerm_of_unbound (Unifier.next?_empty _)]
  obtain ⟨-, v, -, rfl⟩ | ⟨-, ts, -, rfl⟩ := toTerm?_application_cases h
  · rfl
  · simp only [Term.asTail, bind_assoc, pure_bind]

/-- Of the open tails that are not applications, only a list can be written as the rest of a list. -/
theorem exists_list_of_exportElements {es' : List ExternalTerm}
    (htail : ¬∃ name arity args, tail = application name arity args) (hread : tail.toTerm? = .ok t)
    (hwrite : Unifier.empty.exportElements t.asTail = .ok es') :
    ∃ es, tail = list es ∧ Unifier.empty.exportElements t = .ok es' := by
  rw [asTail_of_toTerm? htail hread] at hwrite
  cases tail with
  | application name arity args => exact absurd ⟨name, arity, args, rfl⟩ htail
  | list es => exact ⟨es, rfl, hwrite⟩
  | int | real | string =>
    cases hread
    rw [Unifier.exportElements_of_unbound (Unifier.next?_empty _)] at hwrite
    cases hwrite
  | tuple args =>
    obtain ⟨ts, -, rfl⟩ := exists_of_toTerm?_tuple hread
    rw [Unifier.exportElements_of_unbound (Unifier.next?_empty _)] at hwrite
    cases hwrite
  | placeholder => cases hread

/-- What is read from a list that is no open tail alone is written as a list. -/
theorem ReadsList.exportTerm_eq (h : ReadsList es t) (hbare : ¬(list es).BareTail) :
    Unifier.empty.exportTerm t = do
      let es ← Unifier.empty.exportElements t
      return list es := by
  rw [Unifier.exportTerm_of_unbound (Unifier.next?_empty _)]
  cases h with
  | nil | cons => rfl
  | @bare element tail s hopen => exact absurd ⟨element, tail, rfl, hopen⟩ hbare

end Tail

section Size

theorem sizeOf_lt_of_part {c : ExternalTerm} (h : Relation.TransGen PartOf c e) :
    sizeOf c < sizeOf e := by
  induction h with
  | single h => exact sizeOf_lt_of_mem_children h
  | tail _ h ih => exact ih.trans (sizeOf_lt_of_mem_children h)

def WrittenNoLarger (e : ExternalTerm) : Prop :=
  ∀ t, e.toTerm? = .ok t →
    (∀ e', Unifier.empty.exportTerm t = .ok e' → sizeOf e' ≤ sizeOf e) ∧
      ∀ es es', e = list es → Unifier.empty.exportElements t = .ok es' → sizeOf es' ≤ sizeOf es

theorem sizeOf_mapM_le {es' : List ExternalTerm} (hargs : ∀ c ∈ args, c.WrittenNoLarger)
    (hread : toTerms? args = .ok ts) (hwrite : ts.mapM Unifier.empty.exportTerm = .ok es') :
    es'.length = args.length ∧ sizeOf es' ≤ sizeOf args := by
  have hread := toTerms?_eq_ok_iff.mp hread
  have hwrite := mapM_eq_ok_iff.mp hwrite
  clear * - hargs hread hwrite
  induction hread generalizing es' with
  | nil =>
    cases hwrite
    exact ⟨rfl, le_rfl⟩
  | @cons c t args ts ht _ ih =>
    obtain ⟨hc, hargs⟩ := List.forall_mem_cons.mp hargs
    obtain ⟨e', es', he', hes', rfl⟩ := List.forall₂_cons_left_iff.mp hwrite
    obtain ⟨hlength, hsize⟩ := ih hargs hes'
    have hle := (hc t ht).1 e' he'
    refine ⟨congrArg (· + 1) hlength, ?_⟩
    rw [List.cons.sizeOf_spec, List.cons.sizeOf_spec]
    omega

theorem sizeOf_openTail_le {e' : ExternalTerm} (h : sizeOf e' ≤ sizeOf e) :
    sizeOf (openTail e') ≤ sizeOf (openTail e) := by
  simp only [openTail, apply, application.sizeOf_spec, List.cons.sizeOf_spec, List.length_singleton]
  omega

theorem sizeOf_lt_openTail (tail : ExternalTerm) : sizeOf tail < sizeOf (openTail tail) :=
  sizeOf_lt_of_mem_children (.head _)

theorem ReadsList.sizeOf_le {es' : List ExternalTerm} (h : ReadsList es t)
    (harity : ∀ c ∈ es, c.RightArity) (hes : ∀ c ∈ es, c.WrittenNoLarger)
    (htail : ∀ tail, (list es).listTail? = some tail → tail.WrittenNoLarger)
    (hwrite : Unifier.empty.exportElements t = .ok es') : sizeOf es' ≤ sizeOf es := by
  induction h generalizing es' with
  | nil =>
    rw [Unifier.exportElements_of_unbound (Unifier.next?_empty _)] at hwrite
    cases hwrite
    exact le_rfl
  | @cons e es head tail hopen hhead _ ih =>
    rw [Unifier.exportElements_of_unbound (Unifier.next?_empty _)] at hwrite
    obtain ⟨first, hfirst, hwrite⟩ := bind_eq_ok_iff.mp hwrite
    obtain ⟨others, hothers, hwrite⟩ := bind_eq_ok_iff.mp hwrite
    cases hwrite
    obtain ⟨-, harity⟩ := List.forall_mem_cons.mp harity
    obtain ⟨he, hes⟩ := List.forall_mem_cons.mp hes
    rw [listTail?_cons hopen] at htail
    have hle := (he head hhead).1 first hfirst
    have hrest := ih harity hes htail hothers
    rw [List.cons.sizeOf_spec, List.cons.sizeOf_spec]
    omega
  | @bare element tail s hopen hread =>
    obtain ⟨hterm, hlist⟩ := htail tail hopen s hread
    cases eq_openTail (harity element (.head _)) hopen
    by_cases happ : ∃ name arity args, tail = application name arity args
    · obtain ⟨name, arity, args, rfl⟩ := happ
      rw [exportElements_asTail hread] at hwrite
      obtain ⟨e', he', hwrite⟩ := bind_eq_ok_iff.mp hwrite
      cases hwrite
      have hle := sizeOf_openTail_le (hterm e' he')
      rw [List.cons.sizeOf_spec, List.cons.sizeOf_spec]
      omega
    · obtain ⟨es, rfl, hwrite⟩ := exists_list_of_exportElements happ hread hwrite
      have hle := hlist es es' rfl hwrite
      have hlt := sizeOf_lt_openTail (list es)
      rw [list.sizeOf_spec] at hlt
      rw [List.cons.sizeOf_spec]
      omega

theorem writtenNoLarger_ofPrimitive (p : Primitive) : (ofPrimitive p).WrittenNoLarger := by
  intro t h
  cases (toTerm?_ofPrimitive p).symm.trans h
  refine ⟨fun e' he' => ?_, fun es es' heq => ?_⟩
  · rw [Unifier.exportTerm_of_unbound (Unifier.next?_empty _)] at he'
    cases he'
    exact le_rfl
  · cases p <;> cases heq

theorem writtenNoLarger_tuple (hargs : ∀ c ∈ args, c.WrittenNoLarger) :
    (tuple args).WrittenNoLarger := by
  intro t h
  obtain ⟨ts, hts, rfl⟩ := exists_of_toTerm?_tuple h
  refine ⟨fun e' he' => ?_, fun _ _ heq => by cases heq⟩
  rw [Unifier.exportTerm_of_unbound (Unifier.next?_empty _)] at he'
  obtain ⟨es', hes', he'⟩ := bind_eq_ok_iff.mp he'
  cases he'
  obtain ⟨-, hle⟩ := sizeOf_mapM_le hargs hts hes'
  rw [tuple.sizeOf_spec, tuple.sizeOf_spec]
  omega

theorem writtenNoLarger_apply (name : String) (hargs : ∀ c ∈ args, c.WrittenNoLarger) :
    (apply name args).WrittenNoLarger := by
  intro t h
  refine ⟨fun e' he' => ?_, fun _ _ heq => by cases heq⟩
  rw [Unifier.exportTerm_of_unbound (Unifier.next?_empty _)] at he'
  obtain ⟨rfl, v, rfl, rfl⟩ | ⟨-, ts, hts, rfl⟩ := toTerm?_application_cases h
  · cases he'
    exact le_rfl
  · obtain ⟨es', hes', he'⟩ := bind_eq_ok_iff.mp he'
    cases he'
    obtain ⟨hlength, hle⟩ := sizeOf_mapM_le hargs hts hes'
    rw [apply, apply, application.sizeOf_spec, application.sizeOf_spec, hlength]
    omega

theorem writtenNoLarger_list (harity : ∀ c ∈ es, c.RightArity)
    (hparts : ∀ c, Relation.TransGen PartOf c (list es) → c.WrittenNoLarger) :
    (list es).WrittenNoLarger := by
  intro t h
  have hread := toTerm?_list_iff.mp h
  have helements : ∀ es', Unifier.empty.exportElements t = .ok es' → sizeOf es' ≤ sizeOf es :=
    fun es' => hread.sizeOf_le harity (fun c hc => hparts c (.single hc)) fun tail htail =>
      hparts tail (part_of_listTail? htail)
  refine ⟨fun e' he' => ?_, fun es₁ es' heq => ?_⟩
  · by_cases hbare : (list es).BareTail
    · obtain ⟨element, tail, heq, hopen⟩ := hbare
      cases heq
      obtain ⟨s, hs, rfl⟩ := (toTerm?_list_of_open_iff hopen).mp h
      rw [Unifier.exportTerm_asTail] at he'
      have hpart : Relation.TransGen PartOf tail (list [element]) := part_of_listTail? hopen
      exact ((hparts tail hpart s hs).1 e' he').trans (sizeOf_lt_of_part hpart).le
    · rw [hread.exportTerm_eq hbare] at he'
      obtain ⟨es', hes', he'⟩ := bind_eq_ok_iff.mp he'
      cases he'
      have hle := helements es' hes'
      rw [list.sizeOf_spec, list.sizeOf_spec]
      omega
  · cases heq
    exact helements es'

theorem writtenNoLarger (e : ExternalTerm) (harity : ∀ c : ExternalTerm, c.Within e → c.RightArity) :
    e.WrittenNoLarger := by
  induction e using wellFounded_partOf.transGen.induction with
  | _ e ih =>
  have hparts : ∀ c, Relation.TransGen PartOf c e → c.WrittenNoLarger := fun c hc =>
    ih c hc (forall_within_of_part harity hc)
  have hchildren : ∀ c ∈ e.children, c.WrittenNoLarger := fun c hc => hparts c (.single hc)
  cases e with
  | int value => exact writtenNoLarger_ofPrimitive (.int value)
  | real bits => exact writtenNoLarger_ofPrimitive (.real bits)
  | string text => exact writtenNoLarger_ofPrimitive (.string text)
  | placeholder =>
    intro t h
    cases h
  | tuple args => exact writtenNoLarger_tuple hchildren
  | application name arity args =>
    have hright : arity = args.length := harity _ .refl
    rw [hright]
    exact writtenNoLarger_apply name hchildren
  | list es => exact writtenNoLarger_list (fun c hc => harity c (.single hc)) hparts

end Size

/-- What the external term is read as is written as the external term exactly if that is plain. -/
def Faithful (e : ExternalTerm) : Prop :=
  ∀ t, e.toTerm? = .ok t → (Unifier.empty.exportTerm t = .ok e ↔ e.Plain)

theorem mapM_exportTerm_eq_ok_iff (hargs : ∀ c ∈ args, c.Faithful) (h : toTerms? args = .ok ts) :
    ts.mapM Unifier.empty.exportTerm = .ok args ↔ ∀ c ∈ args, c.Plain := by
  rw [mapM_eq_ok_iff]
  have hread := toTerms?_eq_ok_iff.mp h
  clear h
  induction hread with
  | nil => simp
  | cons ht _ ih =>
    obtain ⟨harg, hargs⟩ := List.forall_mem_cons.mp hargs
    rw [List.forall₂_cons, List.forall_mem_cons]
    exact and_congr (harg _ ht) (ih hargs)

theorem apply_injective (name : String) : Function.Injective (apply name) :=
  fun _ _ h => (application.inj h).2.2

theorem openTail_injective : Function.Injective openTail :=
  (apply_injective openTailName).comp List.singleton_injective

theorem ReadsList.exportElements_eq_ok_iff (h : ReadsList es t) (harity : ∀ c ∈ es, c.RightArity)
    (hes : ∀ c ∈ es, c.Faithful)
    (htail : ∀ tail, (list es).listTail? = some tail → tail.Faithful ∧ tail.WrittenNoLarger) :
    Unifier.empty.exportElements t = .ok es ↔ (list es).AppliedTail ∧ ∀ c ∈ es, c.Plain := by
  induction h with
  | nil =>
    rw [Unifier.exportElements_of_unbound (Unifier.next?_empty _)]
    exact iff_of_true rfl ⟨nofun, nofun⟩
  | @cons e es head tail hopen hhead _ ih =>
    obtain ⟨-, harity⟩ := List.forall_mem_cons.mp harity
    obtain ⟨he, hes⟩ := List.forall_mem_cons.mp hes
    rw [listTail?_cons hopen] at htail
    rw [AppliedTail, listTail?_cons hopen, List.forall_mem_cons, ← he head hhead, and_left_comm,
      ← AppliedTail, ← ih harity hes htail, Unifier.exportElements_of_unbound (Unifier.next?_empty _)]
    simp only [bind_eq_ok_iff]
    constructor
    · rintro ⟨_, hfirst, _, hothers, heq⟩
      cases heq
      exact ⟨hfirst, hothers⟩
    · rintro ⟨hfirst, hothers⟩
      exact ⟨e, hfirst, es, hothers, rfl⟩
  | @bare element tail s hopen hread =>
    obtain ⟨hfaithful, hsize⟩ := htail tail hopen
    cases eq_openTail (harity element (.head _)) hopen
    by_cases happ : ∃ name arity args, tail = application name arity args
    · have hplain : (∀ c ∈ [openTail tail], c.Plain) ↔ tail.Plain :=
        List.forall_mem_singleton.trans (plain_application.trans List.forall_mem_singleton)
      obtain ⟨name, arity, args, rfl⟩ := happ
      have happlied : (list [openTail (application name arity args)]).AppliedTail := by
        intro tail htail
        cases hopen.symm.trans htail
        exact ⟨name, arity, args, rfl⟩
      rw [exportElements_asTail hread, and_iff_right happlied, hplain, ← hfaithful s hread]
      exact bind_pure_eq_ok_iff (f := fun e => [openTail e])
        (List.singleton_injective.comp openTail_injective)
    -- any other tail that is written at all is a list, which comes without the open tail
    · refine iff_of_false (fun hwrite => ?_) fun ⟨happlied, _⟩ => happ (happlied tail hopen)
      obtain ⟨es, rfl, hwrite⟩ := exists_list_of_exportElements happ hread hwrite
      have hle := (hsize s hread).2 es _ rfl hwrite
      have hlt := sizeOf_lt_openTail (list es)
      rw [List.cons.sizeOf_spec] at hle
      rw [list.sizeOf_spec] at hlt
      omega

theorem faithful_ofPrimitive (p : Primitive) : (ofPrimitive p).Faithful := by
  intro t h
  cases (toTerm?_ofPrimitive p).symm.trans h
  rw [Unifier.exportTerm_of_unbound (Unifier.next?_empty _)]
  exact iff_of_true rfl (plain_ofPrimitive p)

theorem faithful_apply (name : String) (hargs : ∀ c ∈ args, c.Faithful) :
    (apply name args).Faithful := by
  intro t h
  obtain ⟨rfl, v, rfl, rfl⟩ | ⟨-, ts, hts, rfl⟩ := toTerm?_application_cases h
  · rw [Unifier.exportTerm_of_unbound (Unifier.next?_empty _)]
    exact iff_of_true rfl (plain_ofVariable v)
  · have hplain : (apply name args).Plain ↔ ∀ c ∈ args, c.Plain := plain_application
    rw [Unifier.exportTerm_of_unbound (Unifier.next?_empty _), hplain,
      ← mapM_exportTerm_eq_ok_iff hargs hts]
    exact bind_pure_eq_ok_iff (apply_injective name)

theorem faithful_tuple (hargs : ∀ c ∈ args, c.Faithful) : (tuple args).Faithful := by
  intro t h
  obtain ⟨ts, hts, rfl⟩ := exists_of_toTerm?_tuple h
  rw [Unifier.exportTerm_of_unbound (Unifier.next?_empty _), plain_tuple,
    ← mapM_exportTerm_eq_ok_iff hargs hts]
  exact bind_pure_eq_ok_iff fun _ _ => tuple.inj

theorem faithful_list (harity : ∀ c : ExternalTerm, c.Within (list es) → c.RightArity)
    (hparts : ∀ c, Relation.TransGen PartOf c (list es) → c.Faithful) : (list es).Faithful := by
  intro t h
  have hread := toTerm?_list_iff.mp h
  by_cases hbare : (list es).BareTail
  -- an open tail alone is larger than what is written for it
  · refine iff_of_false (fun hwrite => ?_) fun hplain => (hplain _ .refl).1 hbare
    obtain ⟨element, tail, heq, hopen⟩ := hbare
    cases heq
    obtain ⟨s, hs, rfl⟩ := (toTerm?_list_of_open_iff hopen).mp h
    rw [Unifier.exportTerm_asTail] at hwrite
    have hpart : Relation.TransGen PartOf tail (list [element]) := part_of_listTail? hopen
    have hle := (writtenNoLarger tail (forall_within_of_part harity hpart) s hs).1 _ hwrite
    exact absurd (sizeOf_lt_of_part hpart) (not_lt_of_ge hle)
  · have helements := hread.exportElements_eq_ok_iff (fun c hc => harity c (.single hc))
      (fun c hc => hparts c (.single hc)) fun tail htail =>
        have hpart := part_of_listTail? htail
        ⟨hparts tail hpart, writtenNoLarger tail (forall_within_of_part harity hpart)⟩
    have hplain : (list es).Plain ↔ (list es).AppliedTail ∧ ∀ c ∈ es, c.Plain :=
      plain_iff.trans (by rw [and_iff_right hbare]; rfl)
    rw [hread.exportTerm_eq hbare, hplain, ← helements]
    exact bind_pure_eq_ok_iff fun _ _ => list.inj

/-- An external term with right arities is written as it was read exactly if it is plain. -/
theorem faithful (e : ExternalTerm) (harity : ∀ c : ExternalTerm, c.Within e → c.RightArity) :
    e.Faithful := by
  induction e using wellFounded_partOf.transGen.induction with
  | _ e ih =>
  have hparts : ∀ c, Relation.TransGen PartOf c e → c.Faithful := fun c hc =>
    ih c hc (forall_within_of_part harity hc)
  have hchildren : ∀ c ∈ e.children, c.Faithful := fun c hc => hparts c (.single hc)
  cases e with
  | int value => exact faithful_ofPrimitive (.int value)
  | real bits => exact faithful_ofPrimitive (.real bits)
  | string text => exact faithful_ofPrimitive (.string text)
  | application name arity args =>
    have hright : arity = args.length := harity _ .refl
    rw [hright]
    exact faithful_apply name hchildren
  | tuple args => exact faithful_tuple hchildren
  | list es => exact faithful_list harity hparts
  | placeholder inner =>
    intro t h
    cases h

/-- Variables and operators can end a list. -/
theorem proper_of_appliedTail (h : ∀ c : ExternalTerm, c.Within e → c.AppliedTail) : e.Proper := by
  rintro c hc ⟨-, tail, htail, hends⟩
  obtain ⟨name, arity, args, rfl⟩ := h c hc tail htail
  exact hends (.application name arity args)

/-- What becomes of an external term with right arities that is read and written again. It is written
as it was exactly if it is plain. A list of an open tail alone is read as the tail and written as that
would be without the list; in the place of a list, a term is written as the list that it was read from
exactly if the elements are plain and the tail, if there is one, is a variable or an operator. The
term cannot be written exactly if a part of what was read is a list that goes on, after an element, to
a tail that is neither a list nor open, and there is no such list if all tails are variables and
operators. -/
theorem written_iff_plain (harity : ∀ c : ExternalTerm, c.Within e → c.RightArity)
    (h : e.toTerm? = .ok t) :
    let exporter := Exporter.ofUnifier .empty
    (exporter.term t = .ok e ↔ e.Plain) ∧
      (∀ element tail, e = list [element] → element.openTail? = some tail →
        ∃ s, tail.toTerm? = .ok s ∧ t = s.asTail ∧ exporter.term t = exporter.term s ∧
          (exporter.term t = .ok tail ↔ tail.Plain)) ∧
      (∀ es, e = list es →
        (exporter.list t = .ok e ↔ e.AppliedTail ∧ ∀ element ∈ es, element.Plain)) ∧
      ((∃ x, exporter.term t = .error x) ↔ ∃ c : ExternalTerm, c.Within e ∧ c.Improper) ∧
      (∀ x, exporter.term t = .error x → ∃ s, x = .listPosition s) ∧
      ((∀ c : ExternalTerm, c.Within e → c.AppliedTail) → ∃ e', exporter.term t = .ok e') := by
  intro exporter
  have hwritable : (∃ e', exporter.term t = .ok e') ↔ e.Proper :=
    (Unifier.exists_export_iff t).1.trans (readWritable e t h)
  refine ⟨faithful e harity t h, ?_, ?_, ?_, ?_, fun happlied =>
    hwritable.mpr (proper_of_appliedTail happlied)⟩
  · rintro element tail rfl hopen
    obtain ⟨s, hs, rfl⟩ := (toTerm?_list_of_open_iff hopen).mp h
    have hpart : Relation.TransGen PartOf tail (list [element]) := part_of_listTail? hopen
    have hsame : exporter.term s.asTail = exporter.term s := Unifier.exportTerm_asTail s
    refine ⟨s, hs, rfl, hsame, ?_⟩
    rw [hsame]
    exact faithful tail (forall_within_of_part harity hpart) s hs
  · rintro es rfl
    have hparts : ∀ c, Relation.TransGen PartOf c (list es) → c.Faithful ∧ c.WrittenNoLarger :=
      fun c hc =>
        have hright := forall_within_of_part harity hc
        ⟨faithful c hright, writtenNoLarger c hright⟩
    have helements := (toTerm?_list_iff.mp h).exportElements_eq_ok_iff
      (fun c hc => harity c (.single hc)) (fun c hc => (hparts c (.single hc)).1)
      fun tail htail => hparts tail (part_of_listTail? htail)
    rw [← helements]
    change list <$> Unifier.empty.exportElements t = .ok (list es) ↔ _
    rw [map_eq_pure_bind]
    exact bind_pure_eq_ok_iff fun _ _ => list.inj
  · rw [exists_error_iff, hwritable, Proper]
    push Not
    rfl
  · intro x hx
    obtain ⟨s, hs, -⟩ := (Unifier.faults_of_export .empty t).1 x hx
    exact ⟨s, hs⟩

/-- A list that ends in an operator with a variable in it. -/
theorem written_iff_plain_operator :
    let x : Variable := ⟨none, "x"⟩
    let f : ExternalTerm := apply "f" [ofVariable x]
    let e : ExternalTerm := list [int 1, openTail f]
    let t : Term := .cons (.primitive (.int 1)) (.operator "f" [.var x])
    (∀ c : ExternalTerm, c.Within e → c.RightArity) ∧ e.Plain ∧ e.toTerm? = .ok t ∧
      (Exporter.ofUnifier .empty).term t = .ok e ∧ (Exporter.ofUnifier .empty).list t = .ok e := by
  intro x f e t
  have harity : ∀ c : ExternalTerm, c.Within e → c.RightArity := by
    have hf := rightArity_apply "f" (List.forall_mem_singleton.mpr (rightArity_ofVariable x))
    have hopen := rightArity_apply openTailName (List.forall_mem_singleton.mpr hf)
    exact rightArity_list (List.forall_mem_cons.mpr ⟨rightArity_ofPrimitive (.int 1),
      List.forall_mem_singleton.mpr hopen⟩)
  have hparts : ∀ c ∈ [int 1, openTail f], c.Plain := by
    have hf : f.Plain := plain_application.mpr (List.forall_mem_singleton.mpr (plain_ofVariable x))
    exact List.forall_mem_cons.mpr ⟨plain_ofPrimitive (.int 1),
      List.forall_mem_singleton.mpr (plain_application.mpr (List.forall_mem_singleton.mpr hf))⟩
  have happlied : e.AppliedTail := by
    intro tail htail
    cases htail
    exact ⟨_, _, _, rfl⟩
  have hplain : e.Plain := plain_iff.mpr ⟨⟨not_bareTail_cons nofun, happlied⟩, hparts⟩
  have hread : e.toTerm? = .ok t := rfl
  obtain ⟨hterm, -, hlist, -⟩ := written_iff_plain harity hread
  exact ⟨harity, hplain, hread, hterm.mpr hplain, (hlist _ rfl).mpr ⟨happlied, hparts⟩⟩

/-- A variable that is the open tail of a list without elements is written as the variable; a number
is read as the rest of a list, which cannot be written; and a list is read as more elements. -/
theorem not_written_of_openTails :
    let exporter := Exporter.ofUnifier .empty
    let x : Variable := ⟨none, "x"⟩
    let one : Term := .primitive (.int 1)
    let two : Term := .primitive (.int 2)
    let bare : ExternalTerm := list [openTail (ofVariable x)]
    let improper : ExternalTerm := list [int 1, openTail (int 2)]
    let spliced : ExternalTerm := list [int 1, openTail (list [int 2])]
    (∀ e ∈ [bare, improper, spliced], ∀ c : ExternalTerm, c.Within e → c.RightArity) ∧
      (bare.toTerm? = .ok (.var x) ∧ exporter.term (.var x) = .ok (ofVariable x) ∧
        exporter.term (.var x) ≠ .ok bare) ∧
      (improper.toTerm? = .ok (.cons one two) ∧
        exporter.term (.cons one two) = .error (.listPosition two)) ∧
      (spliced.toTerm? = .ok (.cons one (.cons two .nil)) ∧
        exporter.term (.cons one (.cons two .nil)) = .ok (list [int 1, int 2]) ∧
        exporter.term (.cons one (.cons two .nil)) ≠ .ok spliced) := by
  intro exporter x one two bare improper spliced
  have hint (n : Int64) : ∀ c : ExternalTerm, c.Within (int n) → c.RightArity :=
    rightArity_ofPrimitive (.int n)
  have hpair {tail : ExternalTerm} (htail : ∀ c : ExternalTerm, c.Within tail → c.RightArity) :
      ∀ c : ExternalTerm, c.Within (list [int 1, openTail tail]) → c.RightArity :=
    rightArity_list (List.forall_mem_cons.mpr ⟨hint 1, List.forall_mem_singleton.mpr
      (rightArity_apply openTailName (List.forall_mem_singleton.mpr htail))⟩)
  have hbare : ∀ c : ExternalTerm, c.Within bare → c.RightArity :=
    rightArity_list (List.forall_mem_singleton.mpr (rightArity_apply openTailName
      (List.forall_mem_singleton.mpr (rightArity_ofVariable x))))
  have hspliced := hpair (rightArity_list (List.forall_mem_singleton.mpr (hint 2)))
  have hx : exporter.term (.var x) = .ok (ofVariable x) :=
    Unifier.exportTerm_of_unbound (Unifier.next?_empty _)
  have hone : Unifier.empty.exportTerm one = .ok (int 1) :=
    Unifier.exportTerm_of_unbound (Unifier.next?_empty _)
  have htwo : Unifier.empty.exportTerm two = .ok (int 2) :=
    Unifier.exportTerm_of_unbound (Unifier.next?_empty _)
  have hrest : Unifier.empty.exportElements two = .error (.listPosition two) :=
    Unifier.exportElements_of_unbound (Unifier.next?_empty _)
  have hnil : Unifier.empty.exportElements .nil = .ok [] :=
    Unifier.exportElements_of_unbound (Unifier.next?_empty _)
  have helements {head : Term} {e : ExternalTerm} (hhead : Unifier.empty.exportTerm head = .ok e)
      (tail : Term) : Unifier.empty.exportElements (.cons head tail) = do
        let others ← Unifier.empty.exportElements tail
        return e :: others := by
    rw [Unifier.exportElements_of_unbound (Unifier.next?_empty _)]
    change Unifier.empty.exportTerm head >>= _ = _
    rw [hhead]
    rfl
  have hterm (tail : Term) : exporter.term (.cons one tail) = do
      let es ← Unifier.empty.exportElements (.cons one tail)
      return list es := Unifier.exportTerm_of_unbound (Unifier.next?_empty _)
  have hlist : exporter.term (.cons one (.cons two .nil)) = .ok (list [int 1, int 2]) := by
    rw [hterm, helements hone, helements htwo, hnil]
    rfl
  refine ⟨?_, ⟨rfl, hx, ?_⟩, ⟨rfl, ?_⟩, rfl, hlist, ?_⟩
  · exact List.forall_mem_cons.mpr ⟨hbare, List.forall_mem_cons.mpr ⟨hpair (hint 2),
      List.forall_mem_singleton.mpr hspliced⟩⟩
  · rw [hx]
    exact fun h => nomatch Except.ok.inj h
  · rw [hterm, helements hone, hrest]
    rfl
  · rw [hlist]
    simp [spliced, openTail, apply]

end NameResolution.ExternalTerm

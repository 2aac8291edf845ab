import NameResolution.Proofs.Regex.RoundTrip
import NameResolution.Regex.Construction

namespace NameResolution

open Token

variable {ts us : List Token}

namespace Regex

section Reading

inductive Member where
  | constant (r : Regex Symbol)
  | ofPath
  | unary (node : Regex Symbol → Regex Symbol)
  | binary (node : Regex Symbol → Regex Symbol → Regex Symbol)

def member? : String → Option Member
  | "EmptyString" => some (.constant emptyString)
  | "EmptySet" => some (.constant emptySet)
  | "symbol" => some .ofPath
  | "repeat" => some (.unary star)
  | "complement" => some (.unary complement)
  | "or" => some (.binary or)
  | "and" => some (.binary and)
  | "concat" => some (.binary concat)
  | _ => none

def selection (type : List Token) (joint : Bool) (name : String) (rest : List Token) : List Token :=
  type ++ punctuation ':' true :: punctuation ':' joint :: identifier name :: rest

/-- The tokens, read as nested applications of the members of the type, give the expression. -/
inductive Rebuilds (type : List Token) : List Token → Regex Symbol → Prop
  | constant {joint : Bool} {name : String} {r : Regex Symbol}
      (hname : member? name = some (.constant r)) : Rebuilds type (selection type joint name []) r
  | symbol {joint : Bool} {name first : String} {ts : List Token} {names : List String}
      (hname : member? name = some .ofPath) (hfirst : isSegment first = true)
      (hs : Segments ts names) :
      Rebuilds type (selection type joint name [group .parenthesis (identifier first :: ts)])
        (.symbol ⟨"::".intercalate (first :: names)⟩)
  | unary {joint : Bool} {name : String} {node : Regex Symbol → Regex Symbol} {ts : List Token}
      {r : Regex Symbol} (hname : member? name = some (.unary node)) (h : Rebuilds type ts r) :
      Rebuilds type (selection type joint name [group .parenthesis ts]) (node r)
  | binary {joint joint' : Bool} {name : String}
      {node : Regex Symbol → Regex Symbol → Regex Symbol} {ts us : List Token} {l r : Regex Symbol}
      (hname : member? name = some (.binary node)) (hl : Rebuilds type ts l)
      (hr : Rebuilds type us r) :
      Rebuilds type
        (selection type joint name [group .parenthesis (ts ++ punctuation ',' joint' :: us)])
        (node l r)

theorem selection_append {type : List Token} {joint : Bool} {name : String} {rest : List Token} :
    selection type joint name rest ++ us = selection type joint name (rest ++ us) := by
  simp [selection]

theorem selection_inj {type rest rest' : List Token} {joint joint' : Bool} {name name' : String}
    (h : selection type joint name rest = selection type joint' name' rest') :
    name = name' ∧ rest = rest' := by
  have htail := List.append_cancel_left h
  obtain ⟨-, htail⟩ := List.cons.inj htail
  obtain ⟨-, htail⟩ := List.cons.inj htail
  obtain ⟨hname, hrest⟩ := List.cons.inj htail
  exact ⟨Token.identifier.inj hname, hrest⟩

theorem selection_eq_append {type rest rest' : List Token} {joint joint' : Bool}
    {name name' : String}
    (h : selection type joint name rest = selection type joint' name' rest' ++ us) :
    name = name' ∧ rest = rest' ++ us := by
  rw [selection_append] at h
  exact selection_inj h

theorem Segments.unique {names names' : List String} (h : Segments ts names)
    (h' : Segments ts names') : names = names' := by
  induction h generalizing names' with
  | nil => cases h'; rfl
  | cons _ _ ih =>
    cases h' with
    | cons _ hrest => rw [ih hrest]

/-- Which member is selected tells what stands behind it. -/
theorem Rebuilds.of_selection {type rest : List Token} {joint : Bool} {name : String} {m : Member}
    {r : Regex Symbol} (h : Rebuilds type ts r) (hname : member? name = some m)
    (heq : selection type joint name rest = ts ++ us) :
    match m with
    | .constant r' => r' = r ∧ rest = us
    | .ofPath => ∃ first ts' names, Segments ts' names ∧
        r = .symbol ⟨"::".intercalate (first :: names)⟩ ∧
        rest = group .parenthesis (identifier first :: ts') :: us
    | .unary node => ∃ ts' r', Rebuilds type ts' r' ∧ r = node r' ∧
        rest = group .parenthesis ts' :: us
    | .binary node => ∃ ts' us' joint' l r', Rebuilds type ts' l ∧ Rebuilds type us' r' ∧
        r = node l r' ∧ rest = group .parenthesis (ts' ++ punctuation ',' joint' :: us') :: us := by
  -- the name that is selected tells the members apart
  cases h with
  | constant hname' =>
    obtain ⟨rfl, hrest⟩ := selection_eq_append heq
    cases hname.symm.trans hname'
    exact ⟨rfl, hrest⟩
  | symbol hname' _ hs =>
    obtain ⟨rfl, hrest⟩ := selection_eq_append heq
    cases hname.symm.trans hname'
    exact ⟨_, _, _, hs, rfl, hrest⟩
  | unary hname' h =>
    obtain ⟨rfl, hrest⟩ := selection_eq_append heq
    cases hname.symm.trans hname'
    exact ⟨_, _, h, rfl, hrest⟩
  | binary hname' hl hr =>
    obtain ⟨rfl, hrest⟩ := selection_eq_append heq
    cases hname.symm.trans hname'
    exact ⟨_, _, _, _, _, hl, hr, rfl, hrest⟩

/-- At most one beginning of a list of tokens can be read, and in one way. -/
theorem Rebuilds.unique {type ts' : List Token} {r r' : Regex Symbol} (h : Rebuilds type ts r)
    (h' : Rebuilds type ts' r') (us us' : List Token) (heq : ts ++ us = ts' ++ us') :
    r = r' ∧ us = us' := by
  -- What follows is arbitrary, so that the first of two operands is known to end where the other
  -- reading ends it.
  induction h generalizing ts' r' us us' with
  | constant hname =>
    rw [selection_append] at heq
    exact h'.of_selection hname heq
  | symbol hname _ hs =>
    rw [selection_append] at heq
    obtain ⟨first, ts', names, hs', rfl, hrest⟩ := h'.of_selection hname heq
    obtain ⟨hgroup, rfl⟩ := List.cons.inj hrest
    cases hgroup
    exact ⟨by rw [hs.unique hs'], rfl⟩
  | unary hname _ ih =>
    rw [selection_append] at heq
    obtain ⟨args, arg, harg, rfl, hrest⟩ := h'.of_selection hname heq
    obtain ⟨hgroup, rfl⟩ := List.cons.inj hrest
    obtain ⟨-, hargs⟩ := Token.group.inj hgroup
    obtain ⟨rfl, -⟩ := ih harg [] [] (by rw [hargs])
    exact ⟨rfl, rfl⟩
  | binary hname _ _ ihl ihr =>
    rw [selection_append] at heq
    obtain ⟨left, right, joint', l', r', hl', hr', rfl, hrest⟩ := h'.of_selection hname heq
    obtain ⟨hgroup, rfl⟩ := List.cons.inj hrest
    obtain ⟨-, hargs⟩ := Token.group.inj hgroup
    obtain ⟨rfl, hright⟩ := ihl hl' _ _ hargs
    obtain ⟨-, hright⟩ := List.cons.inj hright
    obtain ⟨rfl, -⟩ := ihr hr' [] [] (by rw [hright])
    exact ⟨rfl, rfl⟩

end Reading

end Regex

section Writing

/-- A space is written behind a token that is not joint. -/
theorem renderAll_append {t : Token} (hlast : ts.getLast? = some t) (hjoint : t.isJoint = false)
    (hus : us ≠ []) : renderAll (ts ++ us) = renderAll ts ++ " " ++ renderAll us := by
  induction ts with
  | nil => cases hlast
  | cons a ts ih =>
    cases ts with
    | nil =>
      obtain rfl : a = t := Option.some.inj hlast
      obtain ⟨u, us, rfl⟩ := List.exists_cons_of_ne_nil hus
      have hcons : renderAll (a :: u :: us) =
          a.render ++ (if a.isJoint then "" else " ") ++ renderAll (u :: us) := by rw [renderAll]
      rw [List.singleton_append, hcons, hjoint]
      rfl
    | cons b ts =>
      have htail := ih hlast
      rw [List.cons_append, List.cons_append, renderAll, ← List.cons_append, htail, renderAll]
      simp only [String.append_assoc]

/-- In front of what ends a phrase, the written tokens are split into the same tokens. -/
structure Legible (ts : List Token) : Prop where
  ends : ∃ t, ts.getLast? = some t ∧ t.isJoint = false
  scans : ∀ rest, EndsPhrase rest → Scans ((renderAll ts).toList ++ rest) ts rest

theorem Legible.append (hts : Legible ts) (hus : Legible us) : Legible (ts ++ us) where
  ends := by
    obtain ⟨t, ht, hjoint⟩ := hus.ends
    exact ⟨t, by rw [List.getLast?_append, ht]; rfl, hjoint⟩
  scans rest hrest := by
    obtain ⟨t, ht, hjoint⟩ := hts.ends
    have hne : us ≠ [] := by
      rintro rfl
      obtain ⟨_, h, -⟩ := hus.ends
      cases h
    have hscan := (hts.scans _ (endsPhrase_blank _)).append (hus.scans rest hrest).blank
    rw [renderAll_append ht hjoint hne]
    simpa using hscan

theorem Legible.group (h : Legible ts) : Legible [group .parenthesis ts] where
  ends := ⟨_, rfl, rfl⟩
  scans rest _ := by
    have hscan := scans_group (h.scans _ (endsPhrase_closing rest))
    simpa [renderAll, render, Delimiter.enclose] using hscan

theorem legible_identifier {name : String} (h : IsName name.toList) :
    Legible [identifier name] where
  ends := ⟨_, rfl, rfl⟩
  scans rest hrest := by
    have hscan := scans_name h hrest.endsWord
    rwa [String.ofList_toList] at hscan

theorem legible_punctuation {c : Char} (hc : c ∈ ['*', '~', '|', '&', ':', ',', '<', '>']) :
    Legible [punctuation c false] where
  ends := ⟨_, rfl, rfl⟩
  scans rest hrest := by
    have hlast : (punctuationChar? rest).isSome = false := by
      rw [hrest.punctuationChar?]
      rfl
    simpa [renderAll, render] using scans_punctuation hc hlast

theorem legible_pathSeparator : Legible pathSeparator where
  ends := ⟨_, rfl, rfl⟩
  scans _ hrest := scans_separator hrest.punctuationChar?

/-- A path of names is legible. -/
theorem legible_path {name : String} {names : List String}
    (hn : ∀ n ∈ name :: names, IsName n.toList) :
    Legible (identifier name :: separated names) := by
  induction names generalizing name with
  | nil => exact legible_identifier (hn name List.mem_cons_self)
  | cons next names ih =>
    obtain ⟨hname, hnames⟩ := List.forall_mem_cons.mp hn
    exact (legible_identifier hname).append (legible_pathSeparator.append (ih hnames))

theorem Legible.lex?_renderAll (h : Legible ts) : lex? (renderAll ts) = some ts := by
  have hscan := h.scans [] nofun
  rw [List.append_nil] at hscan
  exact lex?_of_scans hscan

end Writing

section Paths

/-- Segments are read one by one, each with the separator before it. -/
theorem readSegments_separated {name : String} {names : List String}
    (hs : ∀ n ∈ name :: names, Regex.isSegment n = true) :
    readSegments (identifier name :: separated names) =
      .ok (identifier name :: separated names) := by
  induction names generalizing name with
  | nil =>
    rw [separated, List.flatMap_nil, readSegments, if_pos (hs name List.mem_cons_self)]
  | cons next names ih =>
    obtain ⟨hname, hnames⟩ := List.forall_mem_cons.mp hs
    have hcons : separated (next :: names) =
      punctuation ':' true :: punctuation ':' false :: identifier next :: separated names := rfl
    rw [hcons, readSegments, if_pos hname]
    · simp only [ih hnames]
      rfl
    · nofun

/-- Labels are paths. -/
theorem readPath_of_spelled {a : Symbol} (h : a.Spelled) :
    ∃ name names, readPath a.name = .ok (identifier name :: separated names) ∧
      a = ⟨"::".intercalate (name :: names)⟩ ∧ (∀ n ∈ name :: names, Regex.isSegment n = true) ∧
      ∀ n ∈ name :: names, IsName n.toList := by
  obtain @⟨name, names, hlabel, hs, hn, -⟩ := h
  have hsegments : ∀ n ∈ name :: names, Regex.isSegment n = true := by
    refine List.forall_mem_cons.mpr ⟨?_, hs⟩
    rw [Regex.isSegment, hlabel, Bool.true_or]
  have hscan := scans_label hn (show EndsPhrase [] from nofun)
  rw [List.append_nil] at hscan
  refine ⟨name, names, ?_, rfl, hsegments, hn⟩
  rw [readPath, lex?_of_scans hscan]
  exact readSegments_separated hsegments

end Paths

namespace Regex

variable {type : List Token}

theorem constant_eq_selection {name : String} :
    constant type name = selection type false name [] := by
  simp [constant, selection, pathSeparator]

theorem application_eq_selection {name : String} {operands : List (List Token)} :
    application type name operands = selection type false name
      [group .parenthesis ([punctuation ',' false].intercalate operands)] := by
  simp [application, constant_eq_selection, selection_append]

theorem isName_of_member? {name : String} (h : (member? name).isSome = true) :
    IsName name.toList := by
  unfold member? at h
  split at h
  case h_9 => cases h
  all_goals exact .plain (by decide +kernel)

theorem legible_constant {name : String} (h : Legible type) (hname : IsName name.toList) :
    Legible (constant type name) :=
  (h.append legible_pathSeparator).append (legible_identifier hname)

theorem legible_application {name : String} {operands : List (List Token)} (h : Legible type)
    (hname : IsName name.toList)
    (hoperands : Legible ([punctuation ',' false].intercalate operands)) :
    Legible (application type name operands) :=
  (legible_constant h hname).append hoperands.group

/-- The computation gives tokens that are read as the expression, legible ones if the type is. -/
def Constructs (type : List Token) (c : Except PathTextError (List Token)) (r : Regex Symbol) :
    Prop :=
  ∃ tokens, c = .ok tokens ∧ Rebuilds type tokens r ∧ (Legible type → Legible tokens)

section Members

variable {name : String} {c d : Except PathTextError (List Token)} {l r : Regex Symbol}

theorem constructs_constant (hname : member? name = some (.constant r)) :
    Constructs type (return constant type name) r := by
  refine ⟨_, rfl, ?_, fun htype => legible_constant htype (isName_of_member? (by rw [hname]; rfl))⟩
  rw [constant_eq_selection]
  exact .constant hname

theorem constructs_symbol {a : Symbol} (h : a.Spelled) :
    Constructs type (do return application type "symbol" [← readPath a.name]) (symbol a) := by
  obtain ⟨first, names, hread, rfl, hs, hn⟩ := readPath_of_spelled h
  refine ⟨_, by rw [hread]; rfl, ?_, fun htype => ?_⟩
  · obtain ⟨hfirst, hnames⟩ := List.forall_mem_cons.mp hs
    rw [application_eq_selection, List.intercalate_singleton]
    exact .symbol rfl hfirst (segments_separated hnames)
  · refine legible_application htype (isName_of_member? rfl) ?_
    rw [List.intercalate_singleton]
    exact legible_path hn

theorem Constructs.unary {node : Regex Symbol → Regex Symbol}
    (hname : member? name = some (.unary node)) (h : Constructs type c r) :
    Constructs type (do return application type name [← c]) (node r) := by
  obtain ⟨tokens, rfl, hread, hlegible⟩ := h
  refine ⟨_, rfl, ?_, fun htype => ?_⟩
  · rw [application_eq_selection, List.intercalate_singleton]
    exact .unary hname hread
  · refine legible_application htype (isName_of_member? (by rw [hname]; rfl)) ?_
    rw [List.intercalate_singleton]
    exact hlegible htype

theorem Constructs.binary {node : Regex Symbol → Regex Symbol → Regex Symbol}
    (hname : member? name = some (.binary node)) (hl : Constructs type c l)
    (hr : Constructs type d r) :
    Constructs type (do let l' ← c; let r' ← d; return application type name [l', r'])
      (node l r) := by
  obtain ⟨ts, rfl, hleft, hlegible⟩ := hl
  obtain ⟨us, rfl, hright, hlegible'⟩ := hr
  have hoperands : [punctuation ',' false].intercalate [ts, us] =
      ts ++ punctuation ',' false :: us := by simp
  refine ⟨_, rfl, ?_, fun htype => ?_⟩
  · rw [application_eq_selection, hoperands]
    exact .binary hname hleft hright
  · refine legible_application htype (isName_of_member? (by rw [hname]; rfl)) ?_
    rw [hoperands]
    exact (hlegible htype).append ((legible_punctuation (by simp)).append (hlegible' htype))

end Members

theorem constructs_construction (type : List Token) {r : Regex Symbol}
    (h : ∀ a ∈ r.symbols, a.Spelled) : Constructs type (r.construction type) r := by
  induction r with
  | emptyString | emptySet => exact constructs_constant rfl
  | symbol a => exact constructs_symbol (h a List.mem_cons_self)
  | star r ih | complement r ih => exact (ih h).unary rfl
  | or l r ihl ihr | and l r ihl ihr | concat l r ihl ihr =>
    obtain ⟨hl, hr⟩ := List.forall_mem_append.mp h
    exact (ihl hl).binary rfl (ihr hr)

/-- The tokens that rebuild an expression are written for every expression over labels that can be
read, and they are read as this expression only, also after they were text. So no other such
expression has the same tokens. -/
theorem construction_rebuilds (type : List Token) {r : Regex Symbol}
    (h : ∀ a ∈ r.symbols, a.Readable) :
    ∃ tokens, r.construction type = .ok tokens ∧
      (∀ r', Rebuilds type tokens r' ↔ r' = r) ∧
      (Legible type → lex? (renderAll tokens) = some tokens) ∧
      ∀ r', (∀ a ∈ r'.symbols, a.Readable) → r'.construction type = .ok tokens → r' = r := by
  obtain ⟨tokens, htokens, hread, hlegible⟩ :=
    constructs_construction type fun a ha => spelled_of_readable (h a ha)
  have hunique {r' : Regex Symbol} (h' : Rebuilds type tokens r') : r' = r :=
    (h'.unique hread [] [] rfl).1
  refine ⟨tokens, htokens, fun r' => ⟨hunique, ?_⟩, fun htype => ?_, fun r' hr' htokens' => ?_⟩
  · rintro rfl
    exact hread
  · exact (hlegible htype).lex?_renderAll
  · obtain ⟨tokens', hconstruct, hread', -⟩ :=
      constructs_construction type fun a ha => spelled_of_readable (hr' a ha)
    cases htokens'.symm.trans hconstruct
    exact hunique hread'

/-- A raw name and a segment that is no label by itself, with a type that has a parameter. -/
theorem construction_rebuilds_raw :
    let type := identifier "nabl" :: separated ["Regex"] ++ pathSeparator ++
      [punctuation '<' false, identifier "Label", punctuation '>' false]
    let r : Regex Symbol := concat (star (symbol ⟨"r#fn"⟩)) (symbol ⟨"A::self"⟩)
    Legible type ∧ (∀ a ∈ r.symbols, a.Readable) ∧ ∃ tokens, r.construction type = .ok tokens ∧
      (∀ r', Rebuilds type tokens r' ↔ r' = r) ∧ lex? (renderAll tokens) = some tokens := by
  intro type r
  have hname {name : String} (h : IsWord name.toList) : Legible [identifier name] :=
    legible_identifier (.plain h)
  have hpath : Legible (identifier "nabl" :: separated ["Regex"]) :=
    legible_path (by
      simp only [List.forall_mem_cons]
      exact ⟨.plain (by decide +kernel), .plain (by decide +kernel), nofun⟩)
  have htype : Legible type := (hpath.append legible_pathSeparator).append
    ((legible_punctuation (by simp)).append
      ((hname (by decide +kernel)).append (legible_punctuation (by simp))))
  have hsymbols : ∀ a ∈ r.symbols, a.Readable := by
    have hraw : Symbol.Readable ⟨"r#fn"⟩ :=
      ⟨"r#fn", .symbol ⟨"r#fn"⟩, by decide +kernel, List.mem_cons_self⟩
    have hself : Symbol.Readable ⟨"A::self"⟩ :=
      ⟨"A::self", .symbol ⟨"A::self"⟩, by decide +kernel, List.mem_cons_self⟩
    simp [r, symbols, hraw, hself]
  obtain ⟨tokens, htokens, hread, htext, -⟩ := construction_rebuilds type hsymbols
  exact ⟨htype, hsymbols, tokens, htokens, hread, htext htype⟩

end Regex

end NameResolution

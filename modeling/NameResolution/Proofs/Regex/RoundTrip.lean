import NameResolution.Proofs.Regex.Completeness
import NameResolution.Proofs.Regex.Reassociation
import NameResolution.Proofs.Token.Scanning

namespace NameResolution

open Token

variable {a : Symbol} {rest : List Char} {ts : List Token}

/-- Some text is read as an expression in which the symbol occurs. -/
def Symbol.Readable (a : Symbol) : Prop := ∃ text r, Regex.parse text = .ok r ∧ a ∈ r.symbols

def separated (names : List String) : List Token :=
  names.flatMap fun name => [punctuation ':' true, punctuation ':' false, identifier name]

inductive Symbol.Spelled : Symbol → Prop
  | intro {name : String} {names : List String} (h : Regex.isLabelName name = true)
      (hs : ∀ n ∈ names, Regex.isSegment n = true) (hn : ∀ n ∈ name :: names, IsName n.toList)
      (hne : name :: names ≠ ["e"]) : Spelled ⟨"::".intercalate (name :: names)⟩

namespace Regex

def tokens : Regex Symbol → List Token
  | emptyString => [identifier "e"]
  | emptySet => [integer "0" 0]
  | symbol a => (lex? a.name).getD []
  | star r => [group .parenthesis r.tokens, punctuation '*' false]
  | complement r => [punctuation '~' false, group .parenthesis r.tokens]
  | or l r => [group .parenthesis (l.tokens ++ punctuation '|' false :: r.tokens)]
  | and l r => [group .parenthesis (l.tokens ++ punctuation '&' false :: r.tokens)]
  | concat l r => l.tokens ++ r.tokens

theorem parse_eq_ok_iff {text : String} {r : Regex Symbol} :
    parse text = .ok r ↔ ∃ ts, lex? text = some ts ∧ ofTokens ts = .ok r := by
  unfold parse
  cases lex? text with
  | none => exact iff_of_false nofun fun ⟨_, h, _⟩ => nomatch h
  | some ts => simp [mapError_eq_ok_iff]

end Regex

section Labels

/-- What may follow an expression inside a larger one. -/
def EndsPhrase (rest : List Char) : Prop := ∀ c ∈ rest.head?, c = ' ' ∨ c = ')'

theorem endsPhrase_blank (s : List Char) : EndsPhrase (' ' :: s) := fun _ hc =>
  .inl (Option.some.inj hc).symm

theorem endsPhrase_closing (s : List Char) : EndsPhrase (')' :: s) := fun _ hc =>
  .inr (Option.some.inj hc).symm

theorem EndsPhrase.endsWord (h : EndsPhrase rest) : EndsWord rest := fun c hc =>
  (h c hc).elim .inl fun hc => .inr (.inl hc)

theorem EndsPhrase.punctuationChar? (h : EndsPhrase rest) : punctuationChar? rest = none := by
  match rest with
  | [] => rfl
  | c :: rest => obtain rfl | rfl := h c rfl <;> rfl

theorem punctuationChar?_name {n : List Char} (h : IsName n) :
    punctuationChar? (n ++ rest) = none := by
  cases h with
  | plain h =>
    match n with
    | c :: s => exact punctuationChar?_of_isIdentifierStart h.1
  | raw h hn => rfl

theorem toList_intercalate_cons {next : String} {name : String} {names : List String} :
    ("::".intercalate (name :: next :: names)).toList =
      name.toList ++ ':' :: ':' :: ("::".intercalate (next :: names)).toList := by
  rw [String.intercalate_cons_cons, String.toList_append, String.toList_append, List.append_assoc]
  rfl

theorem punctuationChar?_label {name : String} {names : List String} (h : IsName name.toList) :
    punctuationChar? (("::".intercalate (name :: names)).toList ++ rest) = none := by
  cases names with
  | nil => exact punctuationChar?_name h
  | cons next names =>
    rw [toList_intercalate_cons, List.append_assoc]
    exact punctuationChar?_name h

theorem scans_separator (h : punctuationChar? rest = none) :
    Scans (':' :: ':' :: rest) [punctuation ':' true, punctuation ':' false] rest := by
  have hlast : (punctuationChar? rest).isSome = false := by
    rw [h]
    rfl
  exact (scans_punctuation (by simp) rfl).append (scans_punctuation (by simp) hlast)

theorem scans_label {name : String} {names : List String}
    (hn : ∀ n ∈ name :: names, IsName n.toList) (hr : EndsPhrase rest) :
    Scans (("::".intercalate (name :: names)).toList ++ rest) (identifier name :: separated names)
      rest := by
  induction names generalizing name with
  | nil =>
    have hname := scans_name (hn name List.mem_cons_self) hr.endsWord
    rwa [String.ofList_toList] at hname
  | cons next names ih =>
    obtain ⟨hname, hnames⟩ := List.forall_mem_cons.mp hn
    have hnext := hnames next List.mem_cons_self
    have hcolon : EndsWord (':' :: ':' :: (("::".intercalate (next :: names)).toList ++ rest)) := by
      intro c hc
      exact .inr (.inr (Option.some.inj hc).symm)
    have hfirst := scans_name hname hcolon
    rw [String.ofList_toList] at hfirst
    rw [toList_intercalate_cons, List.append_assoc]
    exact hfirst.append ((scans_separator (punctuationChar?_label hnext)).append (ih hnames))

theorem segments_separated {names : List String} (hs : ∀ n ∈ names, Regex.isSegment n = true) :
    Regex.Segments (separated names) names := by
  induction names with
  | nil => exact .nil
  | cons name names ih =>
    obtain ⟨hname, hnames⟩ := List.forall_mem_cons.mp hs
    exact .cons hname (ih hnames)

/-- The tokens of a label are those of its segments. -/
theorem lex?_of_spelled (h : a.Spelled) : ∃ ts, lex? a.name = some ts ∧
    Regex.Derives .atom ts (.symbol a) ∧
    ∀ rest, EndsPhrase rest → Scans (a.name.toList ++ rest) ts rest := by
  obtain ⟨hlabel, hs, hn, hne⟩ := h
  refine ⟨_, ?_, .label hlabel (segments_separated hs) hne, fun rest hr => scans_label hn hr⟩
  have hscan := scans_label hn (show EndsPhrase [] from nofun)
  rw [List.append_nil] at hscan
  exact lex?_of_scans hscan

theorem isName_of_segments {names : List String} (h : Regex.Segments ts names)
    (hts : ∀ t ∈ ts, t.Named) :
    (∀ n ∈ names, Regex.isSegment n = true) ∧ ∀ n ∈ names, IsName n.toList := by
  induction h with
  | nil => exact ⟨nofun, nofun⟩
  | cons hseg _ ih =>
    obtain ⟨-, -, hname, hrest⟩ := by simpa [List.forall_mem_cons] using hts
    cases hname with
    | identifier hname =>
      obtain ⟨hs, hn⟩ := ih hrest
      exact ⟨List.forall_mem_cons.mpr ⟨hseg, hs⟩, List.forall_mem_cons.mpr ⟨hname, hn⟩⟩

/-- Only labels become symbols. -/
theorem spelled_of_derives {k : Regex.Phrase} {r : Regex Symbol} (h : Regex.Derives k ts r)
    (hts : ∀ t ∈ ts, t.Named) : ∀ a ∈ r.symbols, a.Spelled := by
  induction h with
  | factor h ih | word h ih | last h ih | unnegated h ih | once h ih | bare h ih => exact ih hts
  | or hl hr ihl ihr | and hl hr ihl ihr | concat hl hr ihl ihr =>
    intro a ha
    obtain ha | ha := List.mem_append.mp ha
    · exact ihl (fun t ht => hts t (by simp [ht])) a ha
    · exact ihr (fun t ht => hts t (by simp [ht])) a ha
  | not h ih | notAgain h ih => exact ih (List.forall_mem_cons.mp hts).2
  | star h ih | optional h ih => exact ih fun t ht => hts t (List.mem_append_left _ ht)
  | plus h ih =>
    intro a ha
    have ha := (List.mem_append.mp ha).elim id id
    exact ih (fun t ht => hts t (List.mem_append_left _ ht)) a ha
  | zero | empty => exact nofun
  | label h hs hne =>
    obtain ⟨hname, hrest⟩ := List.forall_mem_cons.mp hts
    obtain ⟨hseg, hnames⟩ := isName_of_segments hs hrest
    cases hname with
    | identifier hname =>
      intro a ha
      obtain rfl := List.mem_singleton.mp ha
      exact .intro h hseg (List.forall_mem_cons.mpr ⟨hname, hnames⟩) hne
  | group h ih =>
    cases hts _ List.mem_cons_self with
    | group hts => exact ih hts

theorem spelled_of_readable (h : a.Readable) : a.Spelled := by
  obtain ⟨text, r, hr, ha⟩ := h
  obtain ⟨ts, hts, hread⟩ := Regex.parse_eq_ok_iff.mp hr
  exact spelled_of_derives (Regex.derives_of_parseItems hread) (named_of_lex? hts) a ha

end Labels

namespace Regex

theorem tokens_symbol (h : lex? a.name = some ts) : (symbol a).tokens = ts := by
  rw [tokens, h]
  rfl

theorem scans_star (h : EndsPhrase rest) : Scans ('*' :: rest) [punctuation '*' false] rest := by
  have hlast : (punctuationChar? rest).isSome = false := by
    rw [h.punctuationChar?]
    rfl
  exact scans_punctuation (by simp) hlast

theorem scans_tilde {s : List Char} :
    Scans ('~' :: '(' :: s) [punctuation '~' false] ('(' :: s) :=
  scans_punctuation (by simp) rfl

/-- Operands in parentheses, with the operator between them. -/
theorem scans_operands {c : Char} {l r : List Char} {us : List Token}
    (hc : c ∈ ['*', '~', '|', '&', ':', ',', '<', '>'])
    (hl : Scans (l ++ ' ' :: c :: ' ' :: (r ++ ')' :: rest)) ts
      (' ' :: c :: ' ' :: (r ++ ')' :: rest)))
    (hr : Scans (r ++ ')' :: rest) us (')' :: rest)) :
    Scans ('(' :: (l ++ ' ' :: c :: ' ' :: (r ++ ')' :: rest)))
      [group .parenthesis (ts ++ punctuation c false :: us)] rest := by
  have hop := (scans_punctuation hc rfl).append hr.blank
  exact scans_group (hl.append hop.blank)

/-- The written expression is split into the tokens that it is made of. -/
theorem scans_render {r : Regex Symbol} (h : ∀ a ∈ r.symbols, a.Spelled) (hrest : EndsPhrase rest) :
    Scans ((r.render Symbol.name).toList ++ rest) r.tokens rest := by
  -- for whatever follows, since each operand is followed by the rest of the text
  induction r generalizing rest with
  | emptyString => exact scans_name (.plain (by decide +kernel)) hrest.endsWord
  | emptySet => exact scans_zero hrest.endsWord
  | symbol a =>
    obtain ⟨ts, hts, -, hscan⟩ := lex?_of_spelled (h a List.mem_cons_self)
    rw [tokens_symbol hts]
    exact hscan rest hrest
  | star r ih =>
    have hscan := (scans_group (ih h (endsPhrase_closing _))).append (scans_star hrest)
    simpa [render, tokens] using hscan
  | complement r ih =>
    have hscan := scans_tilde.append (scans_group (ih h (endsPhrase_closing rest)))
    simpa [render, tokens] using hscan
  | or l r ihl ihr =>
    obtain ⟨hl, hr⟩ := List.forall_mem_append.mp h
    have hscan := scans_operands (c := '|') (by simp) (ihl hl (endsPhrase_blank _))
      (ihr hr (endsPhrase_closing rest))
    simpa [render, tokens] using hscan
  | and l r ihl ihr =>
    obtain ⟨hl, hr⟩ := List.forall_mem_append.mp h
    have hscan := scans_operands (c := '&') (by simp) (ihl hl (endsPhrase_blank _))
      (ihr hr (endsPhrase_closing rest))
    simpa [render, tokens] using hscan
  | concat l r ihl ihr =>
    obtain ⟨hl, hr⟩ := List.forall_mem_append.mp h
    have hscan := (ihl hl (endsPhrase_blank _)).append (ihr hr hrest).blank
    simpa [render, tokens] using hscan

/-- What the tokens of an expression derive, alone and in front of further factors. -/
structure Factors (ts : List Token) (r : Regex Symbol) : Prop where
  alone : Derives .sequence ts r
  before : ∀ us s, Derives .sequence us s → Derives .sequence (ts ++ us) (attach r s)

theorem factors_of_unary {r : Regex Symbol} (h : Derives .unary ts r) (hr : ¬r.IsConcat) :
    Factors ts r where
  alone := .last h
  before us s hs := by
    rw [attach_of_not_isConcat hr]
    exact .concat h hs

theorem factors_of_atom {r : Regex Symbol} (h : Derives .atom ts r) (hr : ¬r.IsConcat) :
    Factors ts r := factors_of_unary (.unnegated (.bare h)) hr

theorem Factors.group {r : Regex Symbol} (h : Factors ts r) :
    Derives .atom [.group .parenthesis ts] r := .group (.factor (.word h.alone))

theorem factors_tokens {r : Regex Symbol} (h : ∀ a ∈ r.symbols, a.Spelled) :
    Factors r.tokens r.reassociate := by
  induction r with
  | emptyString => exact factors_of_atom .empty id
  | emptySet => exact factors_of_atom .zero id
  | symbol a =>
    obtain ⟨ts, hts, hd, -⟩ := lex?_of_spelled (h a List.mem_cons_self)
    rw [tokens_symbol hts]
    exact factors_of_atom hd id
  | star r ih =>
    have hstar : Derives .postfixed ([.group .parenthesis r.tokens] ++ [punctuation '*' false])
        (.star r.reassociate) := .star (.bare (ih h).group)
    exact factors_of_unary (.unnegated hstar) id
  | complement r ih => exact factors_of_unary (.not (.once (ih h).group)) id
  | or l r ihl ihr =>
    obtain ⟨hl, hr⟩ := List.forall_mem_append.mp h
    have hor : Derives .expression (l.tokens ++ punctuation '|' false :: r.tokens)
        (.or l.reassociate r.reassociate) :=
      .or (.factor (.word (ihl hl).alone)) (.word (ihr hr).alone)
    exact factors_of_atom (.group hor) id
  | and l r ihl ihr =>
    obtain ⟨hl, hr⟩ := List.forall_mem_append.mp h
    have hand : Derives .conjunction (l.tokens ++ punctuation '&' false :: r.tokens)
        (.and l.reassociate r.reassociate) := .and (.word (ihl hl).alone) (ihr hr).alone
    exact factors_of_atom (.group (.factor hand)) id
  | concat l r ihl ihr =>
    obtain ⟨hl, hr⟩ := List.forall_mem_append.mp h
    -- the factors of the left operand stand before those of the right one and what follows
    refine ⟨(ihl hl).before _ _ (ihr hr).alone, fun us s hs => ?_⟩
    rw [tokens, List.append_assoc, reassociate, attach_assoc]
    exact (ihl hl).before _ _ ((ihr hr).before us s hs)

theorem parse_render_of_spelled {r : Regex Symbol} (h : ∀ a ∈ r.symbols, a.Spelled) :
    parse (r.render Symbol.name) = .ok r.reassociate := by
  have hscan := scans_render h (show EndsPhrase [] from nofun)
  rw [List.append_nil] at hscan
  have hd : Derives .expression r.tokens r.reassociate := .factor (.word (factors_tokens h).alone)
  exact parse_eq_ok_iff.mpr ⟨r.tokens, lex?_of_scans hscan, ofTokens_eq_ok_iff.mpr hd⟩

/-- What is written is read again with its concatenations nested to the right and no other change. A
normal form, which is nested so, is read as it was. -/
theorem parse_render {r : Regex Symbol} (h : ∀ a ∈ r.symbols, a.Readable) :
    parse (r.render Symbol.name) = .ok r.reassociate ∧
      ∀ alphabet r₀, r = normalize alphabet r₀ → parse (r.render Symbol.name) = .ok r := by
  have hread := parse_render_of_spelled fun a ha => spelled_of_readable (h a ha)
  refine ⟨hread, ?_⟩
  rintro alphabet r₀ rfl
  rwa [reassociate_of_rightNested (rightNested_normalize alphabet r₀)] at hread

/-- The expression `(A (B::C)*) ~(e | A)`, with the left concatenation first. -/
def leftNested : Regex Symbol :=
  .concat (.concat (.symbol ⟨"A"⟩) (.star (.symbol ⟨"B::C"⟩)))
    (.complement (.or .emptyString (.symbol ⟨"A"⟩)))

theorem parse_render_leftNested :
    Symbol.Readable ⟨"A"⟩ ∧ Symbol.Readable ⟨"B::C"⟩ ∧
      leftNested.render Symbol.name = "A (B::C)* ~((e | A))" ∧
      parse "A (B::C)* ~((e | A))" =
        .ok (.concat (.symbol ⟨"A"⟩) (.concat (.star (.symbol ⟨"B::C"⟩))
          (.complement (.or .emptyString (.symbol ⟨"A"⟩))))) := by
  have ha : Symbol.Readable ⟨"A"⟩ :=
    ⟨"A", .symbol ⟨"A"⟩, by decide +kernel, List.mem_cons_self⟩
  have hbc : Symbol.Readable ⟨"B::C"⟩ :=
    ⟨"B::C", .symbol ⟨"B::C"⟩, by decide +kernel, List.mem_cons_self⟩
  have hrender : leftNested.render Symbol.name = "A (B::C)* ~((e | A))" := by decide +kernel
  have hsymbols : ∀ a ∈ leftNested.symbols, a.Readable := by
    simp [leftNested, symbols, ha, hbc]
  exact ⟨ha, hbc, hrender, hrender ▸ (parse_render hsymbols).1⟩

end Regex

end NameResolution

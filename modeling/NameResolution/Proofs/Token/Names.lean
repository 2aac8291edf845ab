import NameResolution.Token.Lexer

namespace NameResolution.Token

open Text

variable {c d : Char} {n s rest : List Char} {ts : List Token}

section Characters

/-- What no character that a name begins with has. -/
theorem eq_false_of_isIdentifierStart {p : Char → Bool}
    (hp : ∀ c, p c = true → isIdentifierStart c = false) (hc : isIdentifierStart c = true) :
    p c = false := by
  cases h : p c with
  | false => rfl
  | true => exact absurd hc (ne_true_of_eq_false (hp c h))

theorem ne_of_isIdentifierStart (hc : isIdentifierStart c = true) (hd : isIdentifierStart d = false) :
    c ≠ d := by
  rintro rfl
  exact absurd hc (ne_true_of_eq_false hd)

theorem isIdentifierStart_of_isDigit (h : Literal.isDigit c = true) :
    isIdentifierStart c = false := by
  have hd : 48 ≤ c.toNat ∧ c.toNat ≤ 57 := by
    simpa [Literal.isDigit, Char.le_def, UInt32.le_iff_toNat_le] using h
  have hc : c ≠ '_' := by
    rintro rfl
    exact absurd hd.2 (by decide)
  have hr : inRanges identifierStartRanges c.toNat = false := if_pos (by omega)
  simp [isIdentifierStart, hc, hr]

def blanks : List Nat :=
  [9, 10, 11, 12, 13, 0x20, 0x85, 0xA0, 0x1680, 0x2000, 0x2001, 0x2002, 0x2003, 0x2004, 0x2005,
    0x2006, 0x2007, 0x2008, 0x2009, 0x200A, 0x200E, 0x200F, 0x2028, 0x2029, 0x202F, 0x205F, 0x3000]

theorem isIdentifierStart_of_isBlank (h : isBlank c = true) : isIdentifierStart c = false := by
  have hmem : c.toNat ∈ blanks := by
    simp [isBlank, blanks] at h ⊢
    omega
  have hall : ∀ n ∈ blanks, n ≠ 95 ∧ inRanges identifierStartRanges n = false := by decide +kernel
  obtain ⟨hne, hr⟩ := hall _ hmem
  have hc : c ≠ '_' := by
    rintro rfl
    exact hne rfl
  simp [isIdentifierStart, hr, hc]

theorem isIdentifierStart_of_isPunctuation (h : "~!@#$%^&*-=+|;:,<.>/?'".toList.contains c = true) :
    isIdentifierStart c = false := by
  have hall : "~!@#$%^&*-=+|;:,<.>/?'".toList.all (!isIdentifierStart ·) = true := by decide +kernel
  simpa using List.all_eq_true.mp hall c (List.contains_iff_mem.mp h)

theorem isIdentifierStart_of_isOpening (h : (Delimiter.ofOpening? c).isSome = true) :
    isIdentifierStart c = false := by
  unfold Delimiter.ofOpening? at h
  split at h
  case h_4 => cases h
  all_goals decide +kernel

theorem isIdentifierStart_of_isClosing (h : (Delimiter.ofClosing? c).isSome = true) :
    isIdentifierStart c = false := by
  unfold Delimiter.ofClosing? at h
  split at h
  case h_4 => cases h
  all_goals decide +kernel

end Characters

/-- A name without the mark of raw names. -/
def IsWord : List Char → Prop
  | [] => False
  | c :: s => isIdentifierStart c = true ∧ s.all isIdentifierContinue = true

instance : DecidablePred IsWord
  | [] => inferInstanceAs (Decidable False)
  | _ :: s => inferInstanceAs (Decidable (_ ∧ s.all isIdentifierContinue = true))

inductive IsName : List Char → Prop
  | plain {n : List Char} (h : IsWord n) : IsName n
  | raw {n : List Char} (h : IsWord n)
      (hn : ["_", "super", "self", "Self", "crate"].contains (String.ofList n) = false) :
      IsName ('r' :: '#' :: n)

inductive Named : Token → Prop
  | identifier {name : String} (h : IsName name.toList) : Named (.identifier name)
  | punctuation {c : Char} {joint : Bool} : Named (.punctuation c joint)
  | integer {text : String} {value : Nat} : Named (.integer text value)
  | literal {text : String} : Named (.literal text)
  | group {delimiter : Delimiter} {tokens : List Token} (h : ∀ t ∈ tokens, Named t) :
      Named (.group delimiter tokens)

theorem isWord_of_name? (h : Literal.name? s = some (n, rest)) : IsWord n := by
  match s with
  | c :: s =>
    rw [Literal.name?] at h
    split at h
    · next hc =>
      obtain ⟨rfl, rfl⟩ := Prod.mk.inj (Option.some.inj h)
      exact ⟨hc, List.all_takeWhile⟩
    · cases h

theorem isName_of_name? (h : name? s = some (n, rest)) : IsName n := by
  rw [name?] at h
  split at h
  · cases h
  · unfold anyName? at h
    split at h
    · split at h
      · next name rest' hname =>
        split at h
        · cases h
        · next hn =>
          obtain ⟨rfl, rfl⟩ := Prod.mk.inj (Option.some.inj h)
          exact .raw (isWord_of_name? hname) (eq_false_of_ne_true hn)
      · cases h
    · exact .plain (isWord_of_name? h)

theorem named_of_literal? {token : Token} (h : literal? s = some (token, rest)) : token.Named := by
  rw [literal?, Option.map_eq_some_iff] at h
  obtain ⟨after, -, heq⟩ := h
  dsimp only at heq
  split at heq <;>
  · obtain ⟨rfl, -⟩ := Prod.mk.inj heq
    constructor

theorem named_of_punctuation? {token : Token} (h : punctuation? s = some (token, rest)) :
    token.Named := by
  rw [punctuation?] at h
  grind [Named]

theorem named_of_leaf? {token : Token} (h : leaf? s = some (token, rest)) : token.Named := by
  rw [leaf?, Option.or_eq_some_iff, Option.or_eq_some_iff] at h
  obtain (h | ⟨-, h⟩) | ⟨-, h⟩ := h
  · exact named_of_literal? h
  · exact named_of_punctuation? h
  · obtain ⟨⟨name, after⟩, hname, heq⟩ := Option.map_eq_some_iff.mp h
    obtain ⟨rfl, rfl⟩ := Prod.mk.inj heq
    exact .identifier (by simpa using isName_of_name? hname)

theorem named_of_documentationTokens? (h : documentationTokens? s = some (ts, rest)) :
    ∀ t ∈ ts, t.Named := by
  have hdoc : (identifier "doc").Named := .identifier (.plain (by decide +kernel))
  have hnote : ∀ text, (group .bracket [identifier "doc", punctuation '=' false,
      literal text]).Named := fun text => .group (by simp [hdoc, Named.punctuation, Named.literal])
  rw [documentationTokens?] at h
  split at h
  · cases h
  · next text inner rest' _ =>
    split at h
    · cases h
    · obtain ⟨rfl, -⟩ := Prod.mk.inj (Option.some.inj h)
      cases inner <;> simp [hnote, Named.punctuation]

theorem named_of_lexFrom {opened : List (Delimiter × List Token)} {before : List Token}
    (hopened : ∀ p ∈ opened, ∀ t ∈ p.2, t.Named) (hbefore : ∀ t ∈ before, t.Named)
    (h : lexFrom opened before s = some ts) : ∀ t ∈ ts, t.Named := by
  fun_induction lexFrom opened before s with
  | case1 =>
    obtain rfl := Option.some.inj h
    simpa using hbefore
  | case3 opened before s c u hs hlt tokens after hdoc hlt' ih =>
    refine ih hopened ?_ h
    have htokens := named_of_documentationTokens? hdoc
    intro t ht
    obtain ht | ht := List.mem_append.mp ht
    · exact htokens t (List.mem_reverse.mp ht)
    · exact hbefore t ht
  | case5 opened before s c u hs hlt hdoc delimiter hopen ih =>
    exact ih (List.forall_mem_cons.mpr ⟨hbefore, hopened⟩) (fun _ ht => absurd ht List.not_mem_nil) h
  | case6 before s c u hs hlt hdoc hopen delimiter outer opened hclose ih =>
    obtain ⟨houter, hopened⟩ := List.forall_mem_cons.mp hopened
    have hgroup : (group delimiter before.reverse).Named :=
      .group fun t ht => hbefore t (List.mem_reverse.mp ht)
    rw [List.unattach_reverse, List.unattach_attach] at ih
    exact ih hopened (List.forall_mem_cons.mpr ⟨hgroup, houter⟩) h
  | case9 opened before s c u hs hlt hdoc hopen hclose token after hleaf hlt' ih =>
    exact ih hopened (List.forall_mem_cons.mpr ⟨named_of_leaf? hleaf, hbefore⟩) h
  | _ => cases h

theorem named_of_lex? {text : String} (h : lex? text = some ts) : ∀ t ∈ ts, t.Named := by
  have hnil : ∀ t ∈ ([] : List Token), t.Named := fun _ ht => absurd ht List.not_mem_nil
  have hnone : ∀ p ∈ ([] : List (Delimiter × List Token)), ∀ t ∈ p.2, t.Named :=
    fun _ hp => absurd hp List.not_mem_nil
  rw [lex?] at h
  split at h
  · exact named_of_lexFrom hnone hnil h
  · exact named_of_lexFrom hnone hnil h

end NameResolution.Token

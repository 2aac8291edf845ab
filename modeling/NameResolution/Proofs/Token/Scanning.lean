import NameResolution.Proofs.Token.Names

namespace NameResolution.Token

open Text

variable {c d : Char} {n s u rest mid : List Char} {ts us : List Token}

section Scans

theorem startsWith_eq_false {text : String} (htext : text.toList = d :: u) (h : c ≠ d) :
    startsWith (c :: s) text = false := by
  simp [startsWith, htext, List.isPrefixOf, Ne.symm h]

theorem skipBlanks_of_isBlank (hc : c ≠ '/') (hb : isBlank c = true) :
    skipBlanks (c :: s) = skipBlanks s := by
  rw [skipBlanks]
  simp [blank?, startsWith_eq_false _ hc, hb]

theorem skipBlanks_of_not_isBlank (hc : c ≠ '/') (hb : isBlank c = false) :
    skipBlanks (c :: s) = c :: s := by
  rw [skipBlanks]
  simp [blank?, startsWith_eq_false _ hc, hb]

theorem documentationTokens?_eq_none (hc : c ≠ '/') : documentationTokens? (c :: s) = none := by
  simp [documentationTokens?, documentation?, startsWith_eq_false _ hc]

/-- After any blanks before `s`, these tokens are read and `rest` is left. -/
def Scans (s : List Char) (ts : List Token) (rest : List Char) : Prop :=
  ∀ opened before s', skipBlanks s' = skipBlanks s →
    lexFrom opened before s' = lexFrom opened (ts.reverse ++ before) rest

theorem Scans.append (h : Scans s ts mid) (h' : Scans mid us rest) : Scans s (ts ++ us) rest := by
  intro opened before s' hs
  rw [h opened before s' hs, h' opened _ mid rfl, List.reverse_append, List.append_assoc]

theorem Scans.blank (h : Scans s ts rest) : Scans (' ' :: s) ts rest := by
  intro opened before s' hs
  refine h opened before s' (hs.trans ?_)
  exact skipBlanks_of_isBlank (by decide) rfl

section Steps

variable {opened : List (Delimiter × List Token)} {outer before : List Token}

theorem lexFrom_opening {delimiter : Delimiter} (h : skipBlanks s = c :: u) (hc : c ≠ '/')
    (hopen : Delimiter.ofOpening? c = some delimiter) :
    lexFrom opened before s = lexFrom ((delimiter, before) :: opened) [] u := by
  rw [lexFrom]
  split
  · next heq => cases h.symm.trans heq
  · next heq =>
    cases h.symm.trans heq
    simp only [documentationTokens?_eq_none hc, hopen]

theorem lexFrom_closing {delimiter : Delimiter} (h : skipBlanks s = c :: u) (hc : c ≠ '/')
    (hopen : Delimiter.ofOpening? c = none) (hclose : Delimiter.ofClosing? c = some delimiter) :
    lexFrom ((delimiter, outer) :: opened) before s =
      lexFrom opened (group delimiter before.reverse :: outer) u := by
  rw [lexFrom]
  split
  · next heq => cases h.symm.trans heq
  · next heq =>
    cases h.symm.trans heq
    simp only [documentationTokens?_eq_none hc, hopen, hclose, if_true]

theorem lexFrom_leaf {token : Token} (h : skipBlanks s = c :: u) (hc : c ≠ '/')
    (hopen : Delimiter.ofOpening? c = none) (hclose : Delimiter.ofClosing? c = none)
    (hleaf : leaf? (c :: u) = some (token, rest)) (hlt : rest.length < s.length) :
    lexFrom opened before s = lexFrom opened (token :: before) rest := by
  rw [lexFrom]
  split
  · next heq => cases h.symm.trans heq
  · next heq =>
    cases h.symm.trans heq
    simp only [documentationTokens?_eq_none hc, hopen, hclose, hleaf, if_pos hlt]

theorem lexFrom_no_leaf (h : skipBlanks s = c :: u) (hc : c ≠ '/')
    (hopen : Delimiter.ofOpening? c = none) (hclose : Delimiter.ofClosing? c = none)
    (hleaf : leaf? (c :: u) = none) : lexFrom opened before s = none := by
  rw [lexFrom]
  split
  · next heq => cases h.symm.trans heq
  · next heq =>
    cases h.symm.trans heq
    simp only [documentationTokens?_eq_none hc, hopen, hclose, hleaf]

end Steps

theorem scans_leaf {token : Token} (hc : c ≠ '/') (hb : isBlank c = false)
    (hopen : Delimiter.ofOpening? c = none) (hclose : Delimiter.ofClosing? c = none)
    (h : leaf? (c :: s) = some (token, rest)) (hle : rest.length ≤ s.length) :
    Scans (c :: s) [token] rest := by
  intro opened before s' hs
  have hle' := length_skipBlanks_le s'
  rw [skipBlanks_of_not_isBlank hc hb] at hs
  rw [hs, List.length_cons] at hle'
  exact lexFrom_leaf hs hc hopen hclose h (by omega)

theorem scans_group (h : Scans s ts (')' :: rest)) :
    Scans ('(' :: s) [.group .parenthesis ts] rest := by
  intro opened before s' hs
  have hclosing : skipBlanks (')' :: rest) = ')' :: rest :=
    skipBlanks_of_not_isBlank (by decide) rfl
  rw [skipBlanks_of_not_isBlank (by decide) rfl] at hs
  calc lexFrom opened before s'
    _ = lexFrom ((.parenthesis, before) :: opened) [] s := lexFrom_opening hs (by decide) rfl
    _ = lexFrom ((.parenthesis, before) :: opened) (ts.reverse ++ []) (')' :: rest) := h _ [] s rfl
    _ = lexFrom opened (.group .parenthesis (ts.reverse ++ []).reverse :: before) rest :=
      lexFrom_closing hclosing (by decide) rfl rfl
    _ = lexFrom opened ([.group .parenthesis ts].reverse ++ before) rest := by simp

theorem skipBlanks_nil : skipBlanks [] = [] := by
  rw [skipBlanks]
  rfl

theorem lexFrom_nil {before : List Token} : lexFrom [] before [] = some before.reverse := by
  rw [lexFrom]
  split
  · rfl
  · next heq => rw [skipBlanks_nil] at heq; cases heq

/-- A mark of byte order can only be left out. -/
theorem lexFrom_mark {opened : List (Delimiter × List Token)} {before : List Token} :
    lexFrom opened before ('\ufeff' :: s) = none := by
  have h : skipBlanks ('\ufeff' :: s) = '\ufeff' :: s := skipBlanks_of_not_isBlank (by decide) rfl
  have hstart : isIdentifierStart '\ufeff' = false := by decide +kernel
  have hname : name? ('\ufeff' :: s) = none := by simp [name?, anyName?, Literal.name?, hstart]
  have hleaf : leaf? ('\ufeff' :: s) = none := by
    rw [leaf?, hname]
    rfl
  exact lexFrom_no_leaf h (by decide) rfl rfl hleaf

theorem lex?_of_scans {text : String} (h : Scans text.toList ts []) : lex? text = some ts := by
  have hts : lexFrom [] [] text.toList = some ts := by
    rw [h [] [] _ rfl, lexFrom_nil, List.append_nil, List.reverse_reverse]
  rw [lex?]
  split
  · next s heq =>
    rw [heq, lexFrom_mark] at hts
    cases hts
  · exact hts

end Scans

section Leaves

def EndsWord (rest : List Char) : Prop := ∀ c ∈ rest.head?, c = ' ' ∨ c = ')' ∨ c = ':'

theorem scans_punctuation {joint : Bool} (hc : c ∈ ['*', '~', '|', '&', ':', ',', '<', '>'])
    (hjoint : (punctuationChar? rest).isSome = joint) :
    Scans (c :: rest) [.punctuation c joint] rest := by
  subst hjoint
  simp only [List.mem_cons, List.not_mem_nil, or_false] at hc
  obtain rfl | rfl | rfl | rfl | rfl | rfl | rfl | rfl := hc <;>
    exact scans_leaf (by decide) rfl rfl rfl rfl (Nat.le_refl _)

theorem punctuationChar?_of_isIdentifierStart (h : isIdentifierStart c = true) :
    punctuationChar? (c :: s) = none := by
  have hp := eq_false_of_isIdentifierStart (fun _ => isIdentifierStart_of_isPunctuation) h
  have hc : c ≠ '/' := ne_of_isIdentifierStart h (by decide +kernel)
  simp only [punctuationChar?, hp]
  simp

theorem any?_zero (h : EndsWord rest) : Literal.any? ('0' :: rest) = some rest := by
  match rest with
  | [] => rfl
  | c :: rest => obtain rfl | rfl | rfl := h c rfl <;> rfl

theorem scans_zero (h : EndsWord rest) : Scans ('0' :: rest) [.integer "0" 0] rest := by
  have hleaf : leaf? ('0' :: rest) = some (.integer "0" 0, rest) := by
    have htext : ('0' :: rest).take (('0' :: rest).length - rest.length) = ['0'] := by simp
    have hvalue : Literal.integerValue? ['0'] = some 0 := rfl
    simp only [leaf?, literal?, any?_zero h, Option.map_some, htext, hvalue]
    rfl
  exact scans_leaf (by decide) rfl rfl rfl hleaf (Nat.le_refl _)

/-- Neither a string nor a raw name goes on here. -/
def Unquoted (s : List Char) : Prop := ∀ c ∈ s.head?, c ≠ '"' ∧ c ≠ '#' ∧ c ≠ '\''

theorem ne_of_isIdentifierContinue (hc : isIdentifierContinue c = true)
    (hd : isIdentifierContinue d = false) : c ≠ d := by
  rintro rfl
  exact absurd hc (ne_true_of_eq_false hd)

theorem unquoted_word (hs : s.all isIdentifierContinue = true) (hr : EndsWord rest) :
    Unquoted (s ++ rest) := by
  intro c hc
  match s with
  | [] => obtain rfl | rfl | rfl := hr c hc <;> decide
  | d :: s =>
    obtain rfl := Option.some.inj hc
    have hd := List.all_eq_true.mp hs d List.mem_cons_self
    exact ⟨ne_of_isIdentifierContinue hd (by decide +kernel),
      ne_of_isIdentifierContinue hd (by decide +kernel),
      ne_of_isIdentifierContinue hd (by decide +kernel)⟩

theorem not_isIdentifierContinue_of_endsWord (hr : EndsWord rest) :
    ∀ c ∈ rest.head?, ¬isIdentifierContinue c = true := by
  intro c hc
  obtain rfl | rfl | rfl := hr c hc <;> decide +kernel

theorem name?_word (h : IsWord n) (hr : EndsWord rest) :
    Literal.name? (n ++ rest) = some (n, rest) := by
  match n with
  | c :: s =>
    have hrest := not_isIdentifierContinue_of_endsWord hr
    have hsplit : (s ++ rest).takeWhile isIdentifierContinue = s ∧
        (s ++ rest).dropWhile isIdentifierContinue = rest := by
      have hs := List.all_eq_true.mp h.2
      rw [List.takeWhile_append_of_pos hs, List.dropWhile_append_of_pos hs]
      match rest with
      | [] => simp
      | d :: rest =>
        have hd := hrest d rfl
        rw [List.takeWhile_cons_of_neg hd, List.dropWhile_cons_of_neg hd]
        simp
    rw [List.cons_append, Literal.name?, if_pos h.1, hsplit.1, hsplit.2]

theorem rawString?_of_unquoted {content : Literal.Content} (h : Unquoted s) :
    Literal.rawString? content s = none := by
  match s with
  | [] => rfl
  | c :: s =>
    obtain ⟨hquote, hhash, -⟩ := h c rfl
    rw [Literal.rawString?, List.dropWhile_cons_of_neg (by simpa using hhash)]
    split
    · next heq => exact absurd (List.cons_eq_cons.mp heq).1 hquote
    · rfl

structure Unmarked (s : List Char) : Prop where
  unquoted : Unquoted s
  after : ∀ t, s = 'r' :: t → Unquoted t

theorem string?_of_unmarked (hc : c ≠ '"') (h : Unmarked s) : Literal.string? (c :: s) = none := by
  unfold Literal.string?
  split
  · next heq => exact absurd (List.cons_eq_cons.mp heq).1 hc
  · next heq =>
    obtain ⟨-, rfl⟩ := List.cons_eq_cons.mp heq
    exact rawString?_of_unquoted h.unquoted
  · next heq =>
    obtain ⟨-, rfl⟩ := List.cons_eq_cons.mp heq
    exact absurd rfl (h.unquoted _ rfl).1
  · next heq =>
    obtain ⟨-, rfl⟩ := List.cons_eq_cons.mp heq
    exact rawString?_of_unquoted (h.after _ rfl)
  · next heq =>
    obtain ⟨-, rfl⟩ := List.cons_eq_cons.mp heq
    exact absurd rfl (h.unquoted _ rfl).1
  · next heq =>
    obtain ⟨-, rfl⟩ := List.cons_eq_cons.mp heq
    exact rawString?_of_unquoted (h.after _ rfl)
  · rfl

theorem character?_of_unquoted (hc : c ≠ '\'') (h : Unquoted s) :
    Literal.character? (c :: s) = none := by
  unfold Literal.character?
  split
  · next heq =>
    obtain ⟨-, rfl⟩ := List.cons_eq_cons.mp heq
    exact absurd rfl (h _ rfl).2.2
  · next heq => exact absurd (List.cons_eq_cons.mp heq).1 hc
  · rfl

theorem le_of_hexDigit?_eq_some {value : Nat} (hc : Literal.isDigit c = false)
    (h : Literal.hexDigit? c = some value) : 10 ≤ value := by
  have hc' : ¬('0' ≤ c && c ≤ '9') = true := ne_true_of_eq_false hc
  rw [Literal.hexDigit?, if_neg hc'] at h
  split at h
  · obtain rfl := Option.some.inj h
    exact Nat.le_add_left 10 _
  · split at h
    · obtain rfl := Option.some.inj h
      exact Nat.le_add_left 10 _
    · cases h

theorem number?_of_isIdentifierStart (hc : isIdentifierStart c = true) :
    Literal.number? (c :: s) = none := by
  have hdigit := eq_false_of_isIdentifierStart (fun _ => isIdentifierStart_of_isDigit) hc
  have hzero : c ≠ '0' := ne_of_isIdentifierStart hc (by decide +kernel)
  have hfloat : Literal.floatDigits? (c :: s) = none := by simp [Literal.floatDigits?, hdigit]
  have hinteger : Literal.integerDigits? (c :: s) = none := by
    have hdecimal : Literal.integerDigits? (c :: s) = Literal.digits? 10 false (c :: s) := by
      simp [Literal.integerDigits?, hzero]
    rw [hdecimal, Literal.digits?]
    -- a letter that is a hexadecimal digit is too large for a decimal one
    split
    · rfl
    · split
      · next value hvalue =>
        have hle := le_of_hexDigit?_eq_some hdigit hvalue
        rw [if_neg (by omega), if_neg (ne_true_of_eq_false hdigit)]
        rfl
      · rfl
  rw [Literal.number?, hfloat, hinteger]
  rfl

theorem leaf?_of_isIdentifierStart (hc : isIdentifierStart c = true)
    (hstring : Literal.string? (c :: s) = none) (hchar : Literal.character? (c :: s) = none) :
    leaf? (c :: s) = (name? (c :: s)).map fun (name, rest) =>
      (.identifier (String.ofList name), rest) := by
  have hliteral : literal? (c :: s) = none := by
    rw [literal?, Literal.any?, hstring, hchar, number?_of_isIdentifierStart hc]
    rfl
  have hpunctuation : punctuation? (c :: s) = none := by
    rw [punctuation?, punctuationChar?_of_isIdentifierStart hc]
  rw [leaf?, hliteral, hpunctuation]
  rfl

theorem name?_of_unmarked (h : Unmarked s) : name? (c :: s) = Literal.name? (c :: s) := by
  have hbroken : ["r\"", "r#\"", "r##", "b\"", "b'", "br\"", "br#", "c\"", "cr\"", "cr#"].any
      (startsWith (c :: s)) = false := by
    match s with
    | [] => simp [startsWith, List.isPrefixOf]
    | d :: s =>
      obtain ⟨hquote, hhash, hapostrophe⟩ := h.unquoted d rfl
      match s with
      | [] => simp [startsWith, List.isPrefixOf, hquote.symm, hapostrophe.symm]
      | e :: s =>
        have hafter : d = 'r' → e ≠ '"' ∧ e ≠ '#' ∧ e ≠ '\'' := by
          rintro rfl
          exact h.after _ rfl e rfl
        simp only [List.any_cons, List.any_nil, startsWith, String.reduceToList, List.isPrefixOf]
        grind
  rw [name?, hbroken, if_neg (by decide)]
  unfold anyName?
  split
  · next heq =>
    obtain ⟨-, rfl⟩ := List.cons_eq_cons.mp heq
    exact absurd rfl (h.unquoted _ rfl).2.1
  · rfl

theorem leaf?_plain (h : IsWord n) (hr : EndsWord rest) :
    leaf? (n ++ rest) = some (.identifier (String.ofList n), rest) := by
  match n with
  | c :: s =>
    have ⟨hc, hs⟩ := h
    -- an `r` can open a raw string, so the character after it matters too
    have hu : Unmarked (s ++ rest) := {
      unquoted := unquoted_word hs hr
      after := by
        intro t ht
        match s with
        | [] => obtain h | h | h := hr 'r' (by rw [← List.nil_append rest, ht]; rfl) <;> cases h
        | d :: s =>
          obtain ⟨-, rfl⟩ := List.cons_eq_cons.mp ht
          exact unquoted_word (List.all_eq_true.mpr (List.forall_mem_cons.mp
            (List.all_eq_true.mp hs)).2) hr }
    rw [List.cons_append, leaf?_of_isIdentifierStart hc
      (string?_of_unmarked (ne_of_isIdentifierStart hc (by decide +kernel)) hu)
      (character?_of_unquoted (ne_of_isIdentifierStart hc (by decide +kernel)) hu.unquoted),
      name?_of_unmarked hu, ← List.cons_append, name?_word h hr]
    rfl

theorem leaf?_raw (h : IsWord n) (hr : EndsWord rest)
    (hn : ["_", "super", "self", "Self", "crate"].contains (String.ofList n) = false) :
    leaf? ('r' :: '#' :: (n ++ rest)) =
      some (.identifier (String.ofList ('r' :: '#' :: n)), rest) := by
  match n with
  | c :: s =>
    have hquote : c ≠ '"' := ne_of_isIdentifierStart h.1 (by decide +kernel)
    have hhash : c ≠ '#' := ne_of_isIdentifierStart h.1 (by decide +kernel)
    have hstring : Literal.string? ('r' :: '#' :: (c :: s ++ rest)) = none := by
      simp only [Literal.string?, Literal.rawString?]
      rw [List.dropWhile_cons_of_pos (by decide), List.cons_append,
        List.dropWhile_cons_of_neg (by simpa using hhash)]
      split
      · next heq => exact absurd (List.cons_eq_cons.mp heq).1 hquote
      · rfl
    have hname : name? ('r' :: '#' :: (c :: s ++ rest)) = some ('r' :: '#' :: c :: s, rest) := by
      rw [name?, if_neg (by simp [startsWith, List.isPrefixOf, hquote.symm, hhash.symm]), anyName?,
        name?_word h hr]
      simp only [hn]
      rfl
    rw [leaf?_of_isIdentifierStart (by decide +kernel) hstring rfl, hname]
    rfl

theorem scans_name (h : IsName n) (hr : EndsWord rest) :
    Scans (n ++ rest) [.identifier (String.ofList n)] rest := by
  cases h with
  | plain h =>
    match n with
    | c :: s =>
      have hopen := eq_false_of_isIdentifierStart (fun _ => isIdentifierStart_of_isOpening) h.1
      have hclose := eq_false_of_isIdentifierStart (fun _ => isIdentifierStart_of_isClosing) h.1
      exact scans_leaf (ne_of_isIdentifierStart h.1 (by decide +kernel))
        (eq_false_of_isIdentifierStart (fun _ => isIdentifierStart_of_isBlank) h.1)
        (Option.isSome_eq_false_iff.mp hopen |> Option.isNone_iff_eq_none.mp)
        (Option.isSome_eq_false_iff.mp hclose |> Option.isNone_iff_eq_none.mp)
        (leaf?_plain h hr) (by simp)
  | raw h hn =>
    exact scans_leaf (by decide) rfl rfl rfl (leaf?_raw h hr hn) (by simp; omega)

end Leaves

end NameResolution.Token

import NameResolution.Proofs.Regex.Soundness

namespace NameResolution.Regex

variable {items rest : List Item} {ts us vs : List Token} {l r : Regex Symbol} {k : Phrase}

/-- Neither a label nor an operand with its operators goes on here. -/
def EndsUnary (items : List Item) : Prop :=
  startsSeparator items = false ∧ leadingOperator? items = none

/-- Nothing that binds closer than `&` goes on here. -/
def EndsSequence (items : List Item) : Prop := EndsUnary items ∧ startsOperand items = false

theorem endsUnary_of_startsOperand (h : startsOperand items = true) : EndsUnary items := by
  match items with
  | .punctuation c joint :: items =>
    have hc : c = '-' ∨ c = '~' := by
      unfold startsOperand at h
      split at h
      · next heq => cases heq
      · next heq => cases heq
      · next heq => exact .inl (Item.punctuation.inj (List.cons_eq_cons.mp heq).1).1
      · next heq =>
        cases heq
        exact .inr (of_decide_eq_true h)
      · next heq => cases heq
      · cases h
    obtain rfl | rfl := hc <;> exact ⟨rfl, rfl⟩
  | .group _ :: _ | .integer _ :: _ | .name _ :: _ => exact ⟨rfl, rfl⟩
  | [] | .other :: _ => cases h

theorem Derives.startsOperand_append (h : Derives k ts r) (vs : List Token) :
    startsOperand (Item.ofTokens (ts ++ vs)) = true := by
  induction h generalizing vs with
  | factor h ih | word h ih | last h ih | unnegated h ih | once h ih | bare h ih => exact ih vs
  | or hl hr ih | and hl hr ih | concat hl hr ih | star h ih | plus h ih | optional h ih =>
    rw [List.append_assoc]
    exact ih _
  | not h | notAgain h | zero | group h => rfl
  | empty => exact isLabelName_e
  | label h => exact h

/-- An operand that takes operators begins with no complement. -/
theorem Derives.not_startsWith_append (h : Derives k ts r) (hk : k = .atom ∨ k = .postfixed)
    (vs : List Token) : startsWith '~' (Item.ofTokens (ts ++ vs)) = false := by
  induction h generalizing vs with
  | bare h ih => exact ih (.inl rfl) vs
  | star h ih | plus h ih | optional h ih =>
    rw [List.append_assoc]
    exact ih hk _
  | zero | empty | label h | group h => rfl
  | _ => obtain hk | hk := hk <;> cases hk

/-- The parser of the kind takes the phrase whole, unless what follows goes on with it. Where the
tree nests to the left, it goes on with the tree as its left operand. -/
def Phrase.Taken : Phrase → List Token → Regex Symbol → Prop
  | .expression, us, r => ∀ vs x rest, EndsSequence (Item.ofTokens vs) →
      startsWith '&' (Item.ofTokens vs) = false →
      Takes (parseOperands '|' .or parseAnd r (Item.ofTokens vs)) x rest →
      Takes (parseOr (Item.ofTokens (us ++ vs))) x rest
  | .conjunction, us, r => ∀ vs x rest, EndsSequence (Item.ofTokens vs) →
      Takes (parseOperands '&' .and parseConcat r (Item.ofTokens vs)) x rest →
      Takes (parseAnd (Item.ofTokens (us ++ vs))) x rest
  | .sequence, us, r => ∀ vs, EndsSequence (Item.ofTokens vs) →
      Takes (parseConcat (Item.ofTokens (us ++ vs))) r (Item.ofTokens vs)
  | .unary, us, r => ∀ vs, EndsUnary (Item.ofTokens vs) →
      Takes (parseUnary (Item.ofTokens (us ++ vs))) r (Item.ofTokens vs)
  | .negated, us, r => ∀ vs, startsSeparator (Item.ofTokens vs) = false →
      Takes (parseComplement (Item.ofTokens (us ++ vs))) r (Item.ofTokens vs)
  | .postfixed, us, r => ∀ vs, startsSeparator (Item.ofTokens vs) = false →
      ∃ a mid, Takes (parseAtom (Item.ofTokens (us ++ vs))) a mid ∧
        (applyPostfixes a mid).1 = (applyPostfixes r (Item.ofTokens vs)).1
  | .atom, us, r => ∀ vs, startsSeparator (Item.ofTokens vs) = false →
      Takes (parseAtom (Item.ofTokens (us ++ vs))) r (Item.ofTokens vs)

theorem Phrase.Taken.whole_conjunction (h : Phrase.Taken .conjunction us r)
    (he : EndsSequence (Item.ofTokens vs)) (hand : startsWith '&' (Item.ofTokens vs) = false) :
    Takes (parseAnd (Item.ofTokens (us ++ vs))) r (Item.ofTokens vs) :=
  h vs r _ he ((takes_parseOperands_of_not_startsWith hand).mpr ⟨rfl, rfl⟩)

theorem Phrase.Taken.whole_expression (h : Phrase.Taken .expression ts r) :
    Takes (parseOr (Item.ofTokens ts)) r [] := by
  have ht : Takes (parseOperands '|' .or parseAnd r (Item.ofTokens [])) r [] :=
    (takes_parseOperands_of_not_startsWith rfl).mpr ⟨rfl, rfl⟩
  have := h [] r [] ⟨⟨rfl, rfl⟩, rfl⟩ rfl ht
  rwa [List.append_nil] at this

theorem Phrase.Taken.operator {c : Char} {joint : Bool} {op : Postfix}
    (h : Phrase.Taken .postfixed ts r) (hop : Postfix.ofChar? c = some op) :
    Phrase.Taken .postfixed (ts ++ [.punctuation c joint]) (op.apply r) := by
  intro vs hvs
  have hc : startsSeparator (Item.ofTokens (.punctuation c joint :: vs)) = false := by
    unfold startsSeparator
    split
    · next heq =>
      obtain ⟨rfl, -⟩ := Item.punctuation.inj (List.cons_eq_cons.mp heq).1
      cases hop
    · rfl
  obtain ⟨a, mid, ht, hp⟩ := h _ hc
  rw [List.append_assoc]
  exact ⟨a, mid, ht, hp.trans (applyPostfixes_cons hop)⟩

theorem segments_complete {names : List String} (h : Segments us names)
    (hvs : startsSeparator (Item.ofTokens vs) = false) :
    Takes (segments (Item.ofTokens (us ++ vs))) names (Item.ofTokens vs) := by
  induction h with
  | nil => exact (takes_segments_of_not_separator hvs).mpr ⟨rfl, rfl⟩
  | cons hseg _ ih => exact takes_segments.mpr ⟨hseg, _, ih, rfl⟩

/-- Each rule hands the front of the tokens to the parsers of its parts. -/
theorem Derives.taken (h : Derives k ts r) : k.Taken ts r := by
  induction h with
  | factor h ih =>
    intro vs x rest he hand ht
    exact takes_parseChain.mpr ⟨_, _, ih.whole_conjunction he hand, ht⟩
  -- the tree nests to the left, so the left operand is taken together with what follows it
  | or hl hr ihl ihr =>
    intro vs x rest he hand ht
    rw [List.append_assoc]
    exact ihl _ x rest ⟨⟨rfl, rfl⟩, rfl⟩ rfl
      (takes_parseOperands.mpr ⟨_, _, ihr.whole_conjunction he hand, ht⟩)
  | word h ih =>
    intro vs x rest he ht
    exact takes_parseChain.mpr ⟨_, _, ih vs he, ht⟩
  | and hl hr ihl ihr =>
    intro vs x rest he ht
    rw [List.append_assoc]
    exact ihl _ x rest ⟨⟨rfl, rfl⟩, rfl⟩ (takes_parseOperands.mpr ⟨_, _, ihr vs he, ht⟩)
  | last h ih =>
    intro vs he
    refine takes_parseConcat.mpr ⟨_, _, ih vs he.1, ?_⟩
    rw [if_neg (ne_true_of_eq_false he.2)]
    exact ⟨rfl, rfl⟩
  | concat hl hr ihl ihr =>
    intro vs he
    have hs := hr.startsOperand_append vs
    rw [List.append_assoc]
    refine takes_parseConcat.mpr ⟨_, _, ihl _ (endsUnary_of_startsOperand hs), ?_⟩
    rw [if_pos hs]
    exact ⟨_, ihr vs he, rfl⟩
  | not h ih =>
    intro vs he
    refine (takes_parseUnary_of_complement rfl).mpr ⟨?_, he.2⟩
    exact takes_parseComplement.mpr ⟨_, ih vs he.1, rfl⟩
  | unnegated h ih =>
    intro vs he
    obtain ⟨a, mid, ht, hp⟩ := ih vs he.1
    refine (takes_parseUnary_of_not_complement (h.not_startsWith_append (.inr rfl) vs)).mpr
      ⟨a, mid, ht, ?_⟩
    rw [hp, applyPostfixes_of_no_operator he.2]
  | notAgain h ih =>
    intro vs hvs
    exact takes_parseComplement.mpr ⟨_, ih vs hvs, rfl⟩
  | once h ih =>
    intro vs hvs
    rw [parseComplement_of_not_complement (h.not_startsWith_append (.inl rfl) vs)]
    exact ih vs hvs
  | bare h ih =>
    intro vs hvs
    exact ⟨_, _, ih vs hvs, rfl⟩
  | star h ih => exact ih.operator (rfl : Postfix.ofChar? '*' = some .star)
  | plus h ih => exact ih.operator (rfl : Postfix.ofChar? '+' = some .plus)
  | optional h ih => exact ih.operator (rfl : Postfix.ofChar? '?' = some .optional)
  | zero =>
    intro vs _
    exact takes_parseAtom_integer.mpr ⟨rfl, rfl, rfl⟩
  | empty =>
    intro vs hvs
    exact takes_parseAtom_name.mpr ⟨isLabelName_e, [], segments_complete .nil hvs, rfl⟩
  | label h hs hne =>
    intro vs hvs
    exact takes_parseAtom_name.mpr ⟨h, _, segments_complete hs hvs, ofSegments_of_ne hne⟩
  | group h ih =>
    intro vs _
    exact takes_parseAtom_group.mpr ⟨takes_parseItems.mpr ih.whole_expression, rfl⟩

theorem ofTokens_eq_ok_iff : ofTokens ts = .ok r ↔ Derives .expression ts r :=
  ⟨derives_of_parseItems, fun h => takes_parseItems.mpr h.taken.whole_expression⟩

/-- Tokens are read exactly if they are an expression of the grammar, and as its only tree. -/
theorem ofTokens_grammatical (tokens : List Token) :
    ((∃ r, ofTokens tokens = .ok r) ↔ ∃ r, Derives .expression tokens r) ∧
      ∀ r, ofTokens tokens = .ok r →
        Derives .expression tokens r ∧ ∀ r', Derives .expression tokens r' → r' = r := by
  refine ⟨exists_congr fun r => ofTokens_eq_ok_iff, ?_⟩
  intro r h
  refine ⟨ofTokens_eq_ok_iff.mp h, ?_⟩
  intro r' h'
  exact Except.ok.inj ((ofTokens_eq_ok_iff.mpr h').symm.trans h)

/-- Juxtaposition binds closer than `|`, and no operator follows the operand of `~`. -/
theorem ofTokens_grammatical_precedence :
    Derives .expression [.identifier "A", .punctuation '|' false, .identifier "B",
        .identifier "C", .punctuation '*' false]
      (.or (.symbol ⟨"A"⟩) (.concat (.symbol ⟨"B"⟩) (.star (.symbol ⟨"C"⟩)))) ∧
    ¬∃ r, Derives .expression [.punctuation '~' false, .identifier "A", .punctuation '*' false] r := by
  have hread : ofTokens [.identifier "A", .punctuation '|' false, .identifier "B",
      .identifier "C", .punctuation '*' false] =
        .ok (.or (.symbol ⟨"A"⟩) (.concat (.symbol ⟨"B"⟩) (.star (.symbol ⟨"C"⟩)))) := by decide +kernel
  have hrefused : ofTokens [.punctuation '~' false, .identifier "A", .punctuation '*' false] =
      .error (.ambiguous .star) := by decide +kernel
  refine ⟨((ofTokens_grammatical _).2 _ hread).1, ?_⟩
  rw [← (ofTokens_grammatical _).1, hrefused]
  exact nofun
end NameResolution.Regex

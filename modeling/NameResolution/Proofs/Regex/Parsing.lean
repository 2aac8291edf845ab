import NameResolution.Proofs.Outcome
import NameResolution.Regex.Parser

namespace NameResolution.Regex

section
variable {α β γ : Type} {P : α × List Item → Prop} {Q : β × List Item → Prop}

/-- A parser takes `a` off the front and leaves `rest`. -/
def Takes (e : Except ParseError { p : α × List Item // P p }) (a : α) (rest : List Item) : Prop :=
  ∃ h, e = .ok ⟨(a, rest), h⟩

theorem Takes.length_lt {items rest : List Item} {a : α} {e : Parsed α items}
    (h : Takes e a rest) : rest.length < items.length := by
  obtain ⟨hlt, -⟩ := h
  exact hlt

theorem takes_bind_iff {e : Except ParseError { p // P p }}
    {f : { p // P p } → Except ParseError { p // Q p }} {b : β} {rest : List Item}
    {G : α → List Item → Prop} (hf : ∀ a mid h, Takes (f ⟨(a, mid), h⟩) b rest ↔ G a mid) :
    Takes (e >>= f) b rest ↔ ∃ a mid, Takes e a mid ∧ G a mid := by
  constructor
  · rintro ⟨h, he⟩
    obtain ⟨⟨⟨a, mid⟩, ha⟩, he, hb⟩ := bind_eq_ok_iff.mp he
    exact ⟨a, mid, ⟨ha, he⟩, (hf a mid ha).mp ⟨h, hb⟩⟩
  · rintro ⟨a, mid, ⟨ha, he⟩, hG⟩
    obtain ⟨h, hb⟩ := (hf a mid ha).mpr hG
    exact ⟨h, bind_eq_ok_iff.mpr ⟨_, he, hb⟩⟩

theorem takes_ok_iff {p : { p // P p }} {a : α} {rest : List Item} :
    Takes (.ok p) a rest ↔ p.1 = (a, rest) := by
  constructor
  · rintro ⟨h, he⟩
    exact congrArg Subtype.val (Except.ok.inj he)
  · intro h
    obtain ⟨q, hq⟩ := p
    subst h
    exact ⟨hq, rfl⟩

theorem takes_pure_iff {p : { p // P p }} {a : α} {rest : List Item} :
    Takes (pure p) a rest ↔ p.1 = (a, rest) := takes_ok_iff

/-- What is taken may be changed, if what is left is kept. -/
theorem takes_map_iff {e : Except ParseError { p // P p }}
    {f : { p // P p } → Except ParseError { p // Q p }} {g : α → β} {b : β} {rest : List Item}
    (hf : ∀ a mid h, ∃ h', f ⟨(a, mid), h⟩ = .ok ⟨(g a, mid), h'⟩) :
    Takes (e >>= f) b rest ↔ ∃ a, Takes e a rest ∧ g a = b := by
  have hread : ∀ a mid h, Takes (f ⟨(a, mid), h⟩) b rest ↔ g a = b ∧ mid = rest := by
    intro a mid h
    obtain ⟨h', heq⟩ := hf a mid h
    rw [heq, takes_ok_iff, Prod.mk.injEq]
  rw [takes_bind_iff hread]
  constructor
  · rintro ⟨a, mid, ha, hb, rfl⟩
    exact ⟨a, ha, hb⟩
  · rintro ⟨a, ha, hb⟩
    exact ⟨a, rest, ha, hb, rfl⟩

theorem takes_keep_iff {Q : α × List Item → Prop} {e : Except ParseError { p // P p }}
    {f : { p // P p } → Except ParseError { p // Q p }} {a : α} {rest : List Item}
    (hf : ∀ a mid h, ∃ h', f ⟨(a, mid), h⟩ = .ok ⟨(a, mid), h'⟩) :
    Takes (e >>= f) a rest ↔ Takes e a rest := by
  rw [takes_map_iff (g := id) hf]
  simp

theorem not_takes_error {x : ParseError} {a : α} {rest : List Item} :
    ¬Takes (.error x : Except ParseError { p // P p }) a rest := nofun

end

variable {items rest : List Item} {r : Regex Symbol}

def startsWith (c : Char) : List Item → Bool
  | .punctuation d _ :: _ => d = c
  | _ => false

def startsSeparator : List Item → Bool
  | .punctuation ':' true :: .punctuation ':' _ :: _ => true
  | _ => false

theorem takes_parseUnary_of_complement (h : startsWith '~' items = true) :
    Takes (parseUnary items) r rest ↔
      Takes (parseComplement items) r rest ∧ leadingOperator? rest = none := by
  have hc : startsComplement items = true := h
  rw [parseUnary, if_pos hc]
  refine (takes_bind_iff (G := fun r' mid =>
    leadingOperator? mid = none ∧ r' = r ∧ mid = rest) fun r' mid h => ?_).trans ?_
  · dsimp only
    cases leadingOperator? mid with
    | some op => exact iff_of_false not_takes_error nofun
    | none => simp [takes_ok_iff]
  · constructor
    · rintro ⟨r', mid, ht, hm, rfl, rfl⟩
      exact ⟨ht, hm⟩
    · rintro ⟨ht, hm⟩
      exact ⟨r, rest, ht, hm, rfl, rfl⟩

theorem takes_parseUnary_of_not_complement (h : startsWith '~' items = false) :
    Takes (parseUnary items) r rest ↔
      ∃ r' mid, Takes (parseAtom items) r' mid ∧ (applyPostfixes r' mid).1 = (r, rest) := by
  have hc : startsComplement items = false := h
  rw [parseUnary, if_neg (ne_true_of_eq_false hc)]
  exact takes_bind_iff fun r' mid h => takes_pure_iff

theorem takes_parseConcat : Takes (parseConcat items) r rest ↔
    ∃ l mid, Takes (parseUnary items) l mid ∧
      if startsOperand mid then ∃ s, Takes (parseConcat mid) s rest ∧ .concat l s = r
      else l = r ∧ mid = rest := by
  rw [parseConcat]
  refine takes_bind_iff fun l mid h => ?_
  dsimp only
  split
  · exact takes_map_iff fun s mid' h' => ⟨_, rfl⟩
  · rw [takes_pure_iff, Prod.mk.injEq]

section Operands

variable {op : Char} {node : Regex Symbol → Regex Symbol → Regex Symbol}
  {operand : (items : List Item) → Parsed (Regex Symbol) items} {l : Regex Symbol}

theorem takes_parseOperands {joint : Bool} :
    Takes (parseOperands op node operand l (.punctuation op joint :: items)) r rest ↔
      ∃ s mid, Takes (operand items) s mid ∧
        Takes (parseOperands op node operand (node l s) mid) r rest := by
  rw [parseOperands, if_pos rfl]
  refine takes_bind_iff fun s mid h => ?_
  exact takes_keep_iff fun s mid' h' => ⟨_, rfl⟩

theorem takes_parseOperands_of_not_startsWith (h : startsWith op items = false) :
    Takes (parseOperands op node operand l items) r rest ↔ l = r ∧ items = rest := by
  unfold parseOperands
  split
  · next c joint items =>
    rw [if_neg (by simpa [startsWith] using h), takes_ok_iff, Prod.mk.injEq]
  · rw [takes_ok_iff, Prod.mk.injEq]

theorem takes_parseChain : Takes (parseChain op node operand items) r rest ↔
    ∃ l mid, Takes (operand items) l mid ∧
      Takes (parseOperands op node operand l mid) r rest := by
  rw [parseChain]
  refine takes_bind_iff fun l mid h => ?_
  exact takes_keep_iff fun s mid' h' => ⟨_, rfl⟩

end Operands

theorem takes_parseComplement {joint : Bool} :
    Takes (parseComplement (.punctuation '~' joint :: items)) r rest ↔
      ∃ s, Takes (parseComplement items) s rest ∧ .complement s = r := by
  rw [parseComplement]
  exact takes_map_iff fun s mid h' => ⟨_, rfl⟩

theorem parseComplement_of_not_complement (h : startsWith '~' items = false) :
    parseComplement items = parseAtom items := by
  unfold parseComplement
  split
  · simp [startsWith] at h
  · rfl

theorem applyPostfixes_cons {c : Char} {joint : Bool} {op : Postfix}
    (h : Postfix.ofChar? c = some op) :
    (applyPostfixes r (.punctuation c joint :: items)).1 = (applyPostfixes (op.apply r) items).1 := by
  rw [applyPostfixes]
  split
  · next op' h' =>
    obtain rfl := Option.some.inj (h.symm.trans h')
    rfl
  · next h' => simp [h] at h'

theorem applyPostfixes_of_no_operator (h : leadingOperator? items = none) :
    (applyPostfixes r items).1 = (r, items) := by
  unfold applyPostfixes
  split
  · next c joint items =>
    rw [leadingOperator?] at h
    split
    · next op h' => simp [h] at h'
    · rfl
  · rfl

theorem takes_segments {joint : Bool} {name : String} {names : List String} :
    Takes (segments (.punctuation ':' true :: .punctuation ':' joint :: .name name :: items)) names
        rest ↔
      isSegment name = true ∧
        ∃ names', Takes (segments items) names' rest ∧ name :: names' = names := by
  rw [segments]
  split
  · next h =>
    simp only [h, true_and]
    exact takes_map_iff fun s mid h' => ⟨_, rfl⟩
  · next h => simp [h, not_takes_error]

theorem takes_segments_of_not_separator {names : List String} (h : startsSeparator items = false) :
    Takes (segments items) names rest ↔ [] = names ∧ items = rest := by
  unfold segments
  split
  · simp [startsSeparator] at h
  · rw [takes_ok_iff, Prod.mk.injEq]

theorem not_takes_segments {joint : Bool} {names : List String}
    (h : ∀ name items', items ≠ .name name :: items') :
    ¬Takes (segments (.punctuation ':' true :: .punctuation ':' joint :: items)) names rest := by
  cases items with
  | nil =>
    rw [segments]
    exact not_takes_error
  | cons item items =>
    cases item with
    | name s => exact absurd rfl (h s items)
    | _ =>
      rw [segments]
      · exact not_takes_error
      · nofun
      · exact h

theorem isLabelName_e : isLabelName "e" = true := by decide +kernel

theorem ofSegments_of_ne {names : List String} (h : names ≠ ["e"]) :
    ofSegments names = .symbol ⟨"::".intercalate names⟩ := by
  unfold ofSegments
  split
  · exact absurd rfl h
  · rfl

theorem takes_parseAtom_name {name : String} :
    Takes (parseAtom (.name name :: items)) r rest ↔
      isLabelName name = true ∧
        ∃ names, Takes (segments items) names rest ∧ ofSegments (name :: names) = r := by
  rw [parseAtom]
  split
  · next h =>
    simp only [h, true_and]
    exact takes_map_iff fun s mid h' => ⟨_, rfl⟩
  · next h => simp [h, not_takes_error]

theorem takes_parseAtom_integer {value : Nat} :
    Takes (parseAtom (.integer value :: items)) r rest ↔
      value = 0 ∧ .emptySet = r ∧ items = rest := by
  rw [parseAtom]
  split
  · next h => simp [h, takes_ok_iff]
  · next h => simp [h, not_takes_error]

theorem takes_parseAtom_group {body : Except ParseError (Regex Symbol)} :
    Takes (parseAtom (.group body :: items)) r rest ↔ body = .ok r ∧ items = rest := by
  rw [parseAtom]
  cases body with
  | ok s => exact (takes_pure_iff (p := ⟨(s, items), _⟩)).trans (by simp)
  | error x => exact iff_of_false not_takes_error nofun

theorem not_takes_parseAtom_punctuation {c : Char} {joint : Bool} :
    ¬Takes (parseAtom (.punctuation c joint :: items)) r rest := by
  by_cases hneg : ∃ value tail, c = '-' ∧ items = .integer value :: tail
  · obtain ⟨value, tail, rfl, rfl⟩ := hneg
    rw [parseAtom]
    exact not_takes_error
  · rw [parseAtom]
    · exact not_takes_error
    · exact fun value tail hi hc => hneg ⟨value, tail, hc, hi⟩

theorem takes_parseItems {leftOver : ParseError} :
    parseItems leftOver items = .ok r ↔ Takes (parseOr items) r [] := by
  rw [parseItems, bind_eq_ok_iff]
  constructor
  · rintro ⟨⟨⟨r', mid⟩, h⟩, he, hr⟩
    cases mid with
    | nil =>
      obtain rfl : r' = r := Except.ok.inj hr
      exact ⟨h, he⟩
    | cons item mid => cases hr
  · rintro ⟨h, he⟩
    exact ⟨_, he, rfl⟩

namespace Item

theorem exists_of_ofTokens_eq_punctuation {ts : List Token} {c : Char} {joint : Bool}
    (h : ofTokens ts = .punctuation c joint :: items) :
    ∃ us, ts = .punctuation c joint :: us ∧ ofTokens us = items := by
  match ts with
  | .punctuation _ _ :: us =>
    simp only [ofTokens, ofToken, List.cons.injEq, Item.punctuation.injEq] at h
    obtain ⟨⟨rfl, rfl⟩, rfl⟩ := h
    exact ⟨us, rfl, rfl⟩
  | .identifier _ :: _ | .integer _ _ :: _ | .literal _ :: _ | .group .parenthesis _ :: _
  | .group .bracket _ :: _ | .group .brace _ :: _ => simp [ofTokens, ofToken] at h

theorem exists_of_ofTokens_eq_name {ts : List Token} {name : String}
    (h : ofTokens ts = .name name :: items) :
    ∃ us, ts = .identifier name :: us ∧ ofTokens us = items := by
  match ts with
  | .identifier _ :: us =>
    simp only [ofTokens, ofToken, List.cons.injEq, Item.name.injEq] at h
    obtain ⟨rfl, rfl⟩ := h
    exact ⟨us, rfl, rfl⟩
  | .punctuation _ _ :: _ | .integer _ _ :: _ | .literal _ :: _ | .group .parenthesis _ :: _
  | .group .bracket _ :: _ | .group .brace _ :: _ => simp [ofTokens, ofToken] at h

end Item

theorem exists_of_startsWith {c : Char} {ts : List Token} (h : startsWith c (Item.ofTokens ts) = true) :
    ∃ joint us, ts = .punctuation c joint :: us := by
  unfold startsWith at h
  split at h
  · next d joint items heq =>
    obtain ⟨us, rfl, -⟩ := Item.exists_of_ofTokens_eq_punctuation heq
    exact ⟨joint, us, by rw [of_decide_eq_true h]⟩
  · cases h

theorem exists_of_startsSeparator {ts : List Token} (h : startsSeparator (Item.ofTokens ts) = true) :
    ∃ joint us, ts = .punctuation ':' true :: .punctuation ':' joint :: us := by
  unfold startsSeparator at h
  split at h
  · next joint items heq =>
    obtain ⟨us, rfl, hus⟩ := Item.exists_of_ofTokens_eq_punctuation heq
    obtain ⟨vs, rfl, -⟩ := Item.exists_of_ofTokens_eq_punctuation hus
    exact ⟨joint, vs, rfl⟩
  · cases h

theorem exists_of_leadingOperator? {ts : List Token} {op : Postfix}
    (h : leadingOperator? (Item.ofTokens ts) = some op) :
    ∃ c joint us, ts = .punctuation c joint :: us ∧ Postfix.ofChar? c = some op := by
  unfold leadingOperator? at h
  split at h
  · next c joint items heq =>
    obtain ⟨us, rfl, -⟩ := Item.exists_of_ofTokens_eq_punctuation heq
    exact ⟨c, joint, us, rfl, h⟩
  · cases h

end NameResolution.Regex

import NameResolution.Proofs.Regex.Grammar
import NameResolution.Proofs.Regex.Parsing

namespace NameResolution.Regex

variable {items rest : List Item} {ts us vs : List Token} {l r : Regex Symbol}

/-- A phrase stands first among the tokens, and the items are those of the tokens after it. -/
def Begins (k : Phrase) (ts : List Token) (r : Regex Symbol) (rest : List Item) : Prop :=
  ∃ us vs, ts = us ++ vs ∧ rest = Item.ofTokens vs ∧ Derives k us r

theorem Begins.imp {k k' : Phrase} (hk : ∀ us, Derives k us r → Derives k' us r)
    (h : Begins k ts r rest) : Begins k' ts r rest := by
  obtain ⟨us, vs, hts, hrest, hd⟩ := h
  exact ⟨us, vs, hts, hrest, hk us hd⟩

def GroupsDerived (ts : List Token) : Prop :=
  ∀ us, .group .parenthesis us ∈ ts → ∀ r,
    parseItems .unclosedGroup (Item.ofTokens us) = .ok r → Derives .expression us r

theorem GroupsDerived.of_append (h : GroupsDerived (us ++ vs)) : GroupsDerived vs :=
  fun ws hws => h ws (List.mem_append_right us hws)

theorem GroupsDerived.of_cons {t : Token} (h : GroupsDerived (t :: ts)) : GroupsDerived ts :=
  fun ws hws => h ws (List.mem_cons_of_mem t hws)

theorem takes_segments_cases {names : List String}
    (h : Takes (segments (Item.ofTokens ts)) names rest) :
    (names = [] ∧ rest = Item.ofTokens ts) ∨
      ∃ joint name us names', ts = .punctuation ':' true :: .punctuation ':' joint ::
          .identifier name :: us ∧
        names = name :: names' ∧ isSegment name = true ∧
        Takes (segments (Item.ofTokens us)) names' rest := by
  cases hs : startsSeparator (Item.ofTokens ts) with
  | false =>
    obtain ⟨hnames, hrest⟩ := (takes_segments_of_not_separator hs).mp h
    exact .inl ⟨hnames.symm, hrest.symm⟩
  | true =>
    obtain ⟨joint, us, rfl⟩ := exists_of_startsSeparator hs
    by_cases hn : ∃ name items, Item.ofTokens us = .name name :: items
    · obtain ⟨name, items, hn⟩ := hn
      obtain ⟨us, rfl, -⟩ := Item.exists_of_ofTokens_eq_name hn
      obtain ⟨hseg, names', ht, heq⟩ := takes_segments.mp h
      exact .inr ⟨joint, name, us, names', rfl, heq.symm, hseg, ht⟩
    · exact absurd h (not_takes_segments fun name items heq => hn ⟨name, items, heq⟩)

theorem segments_sound {names : List String}
    (h : Takes (segments (Item.ofTokens ts)) names rest) :
    ∃ us vs, ts = us ++ vs ∧ rest = Item.ofTokens vs ∧ Segments us names := by
  induction names generalizing ts with
  | nil =>
    obtain ⟨-, hrest⟩ | ⟨_, _, _, _, _, hnames, _⟩ := takes_segments_cases h
    · exact ⟨[], ts, rfl, hrest, .nil⟩
    · cases hnames
  | cons name names ih =>
    obtain ⟨hnames, -⟩ | ⟨joint, name', us, names', rfl, hnames, hseg, ht⟩ :=
      takes_segments_cases h
    · cases hnames
    · obtain ⟨rfl, rfl⟩ := List.cons_eq_cons.mp hnames
      obtain ⟨vs, ws, rfl, hrest, hs⟩ := ih ht
      exact ⟨_ :: _ :: _ :: vs, ws, rfl, hrest, .cons hseg hs⟩

theorem derives_ofSegments {name : String} {names : List String} (h : isLabelName name = true)
    (hs : Segments ts names) : Derives .atom (.identifier name :: ts) (ofSegments (name :: names)) := by
  by_cases he : name :: names = ["e"]
  · obtain ⟨rfl, rfl⟩ := List.cons_eq_cons.mp he
    cases hs
    exact .empty
  · rw [ofSegments_of_ne he]
    exact .label h hs he

theorem atom_sound (hg : GroupsDerived ts) (h : Takes (parseAtom (Item.ofTokens ts)) r rest) :
    Begins .atom ts r rest := by
  match ts with
  | [] => exact absurd h not_takes_error
  | .identifier name :: ts =>
    obtain ⟨hname, names, hs, rfl⟩ := takes_parseAtom_name.mp h
    obtain ⟨us, vs, rfl, hrest, hs⟩ := segments_sound hs
    exact ⟨.identifier name :: us, vs, rfl, hrest, derives_ofSegments hname hs⟩
  | .punctuation _ _ :: _ => exact absurd h not_takes_parseAtom_punctuation
  | .integer text value :: ts =>
    obtain ⟨rfl, rfl, hrest⟩ := takes_parseAtom_integer.mp h
    exact ⟨[.integer text 0], ts, rfl, hrest.symm, .zero⟩
  | .group .parenthesis us :: ts =>
    obtain ⟨hbody, hrest⟩ := takes_parseAtom_group.mp h
    exact ⟨[.group .parenthesis us], ts, rfl, hrest.symm,
      .group (hg us List.mem_cons_self r hbody)⟩
  | .literal _ :: _ | .group .bracket _ :: _ | .group .brace _ :: _ =>
    exact absurd h not_takes_error

theorem complement_sound (hg : GroupsDerived ts)
    (h : Takes (parseComplement (Item.ofTokens ts)) r rest) : Begins .negated ts r rest := by
  induction ts generalizing r with
  | nil =>
    rw [parseComplement_of_not_complement rfl] at h
    exact (atom_sound hg h).imp fun us => .once
  | cons t ts ih =>
    cases hc : startsWith '~' (Item.ofTokens (t :: ts)) with
    | false =>
      rw [parseComplement_of_not_complement hc] at h
      exact (atom_sound hg h).imp fun us => .once
    | true =>
      obtain ⟨joint, us, heq⟩ := exists_of_startsWith hc
      obtain ⟨rfl, rfl⟩ := List.cons_eq_cons.mp heq
      obtain ⟨s, hs, rfl⟩ := takes_parseComplement.mp h
      obtain ⟨us, vs, rfl, hrest, hd⟩ := ih hg.of_cons hs
      exact ⟨.punctuation '~' joint :: us, vs, rfl, hrest, .notAgain hd⟩

theorem Derives.operator {c : Char} {joint : Bool} {op : Postfix} (hop : Postfix.ofChar? c = some op)
    (h : Derives .postfixed ts r) :
    Derives .postfixed (ts ++ [.punctuation c joint]) (op.apply r) := by
  unfold Postfix.ofChar? at hop
  split at hop <;> cases hop
  · exact .star h
  · exact .plus h
  · exact .optional h

theorem postfixes_sound (hd : Derives .postfixed us l)
    (h : (applyPostfixes l (Item.ofTokens vs)).1 = (r, rest)) :
    Begins .postfixed (us ++ vs) r rest := by
  induction vs generalizing us l with
  | nil =>
    obtain ⟨rfl, rfl⟩ := Prod.mk.inj ((applyPostfixes_of_no_operator rfl).symm.trans h)
    exact ⟨us, [], rfl, rfl, hd⟩
  | cons v vs ih =>
    cases hop : leadingOperator? (Item.ofTokens (v :: vs)) with
    | none =>
      obtain ⟨rfl, rfl⟩ := Prod.mk.inj ((applyPostfixes_of_no_operator hop).symm.trans h)
      exact ⟨us, v :: vs, rfl, rfl, hd⟩
    | some op =>
      obtain ⟨c, joint, ws, heq, hop⟩ := exists_of_leadingOperator? hop
      obtain ⟨rfl, rfl⟩ := List.cons_eq_cons.mp heq
      rw [List.append_cons]
      exact ih (hd.operator hop) ((applyPostfixes_cons hop).symm.trans h)

theorem unary_sound (hg : GroupsDerived ts) (h : Takes (parseUnary (Item.ofTokens ts)) r rest) :
    Begins .unary ts r rest := by
  cases hc : startsWith '~' (Item.ofTokens ts) with
  | true =>
    obtain ⟨ht, -⟩ := (takes_parseUnary_of_complement hc).mp h
    obtain ⟨joint, us, rfl⟩ := exists_of_startsWith hc
    obtain ⟨s, hs, rfl⟩ := takes_parseComplement.mp ht
    obtain ⟨us, vs, rfl, hrest, hd⟩ := complement_sound hg.of_cons hs
    exact ⟨.punctuation '~' joint :: us, vs, rfl, hrest, .not hd⟩
  | false =>
    obtain ⟨l, mid, ht, hp⟩ := (takes_parseUnary_of_not_complement hc).mp h
    obtain ⟨us, vs, rfl, rfl, hd⟩ := atom_sound hg ht
    exact (postfixes_sound (.bare hd) hp).imp fun us => .unnegated

theorem concat_sound {ts : List Token} {r : Regex Symbol} (hg : GroupsDerived ts)
    (h : Takes (parseConcat (Item.ofTokens ts)) r rest) : Begins .sequence ts r rest := by
  obtain ⟨l, mid, ht, hmid⟩ := takes_parseConcat.mp h
  have hlt := ht.length_lt
  obtain ⟨us, vs, rfl, rfl, hl⟩ := unary_sound hg ht
  split at hmid
  · obtain ⟨s, hs, rfl⟩ := hmid
    obtain ⟨ws, xs, rfl, hrest, hr⟩ := concat_sound hg.of_append hs
    exact ⟨us ++ ws, xs, (List.append_assoc us ws xs).symm, hrest, .concat hl hr⟩
  · obtain ⟨rfl, rfl⟩ := hmid
    exact ⟨us, vs, rfl, rfl, .last hl⟩
termination_by (Item.ofTokens ts).length

section Chain

variable {k k' : Phrase} {op : Char} {node : Regex Symbol → Regex Symbol → Regex Symbol}
  {operand : (items : List Item) → Parsed (Regex Symbol) items}

theorem operands_sound
    (hnode : ∀ {us vs joint l r}, Derives k us l → Derives k' vs r →
      Derives k (us ++ .punctuation op joint :: vs) (node l r))
    (hoperand : ∀ {ts r rest}, GroupsDerived ts → Takes (operand (Item.ofTokens ts)) r rest →
      Begins k' ts r rest)
    (hl : Derives k us l) (hg : GroupsDerived vs)
    (h : Takes (parseOperands op node operand l (Item.ofTokens vs)) r rest) :
    Begins k (us ++ vs) r rest := by
  -- on the number of items that are left, of which every operand takes some
  induction hn : (Item.ofTokens vs).length using Nat.strongRecOn generalizing us vs l with
  | _ n ih =>
    subst hn
    cases hop : startsWith op (Item.ofTokens vs) with
    | false =>
      obtain ⟨rfl, rfl⟩ := (takes_parseOperands_of_not_startsWith hop).mp h
      exact ⟨us, vs, rfl, rfl, hl⟩
    | true =>
      obtain ⟨joint, ws, rfl⟩ := exists_of_startsWith hop
      obtain ⟨s, mid, hs, ht⟩ := takes_parseOperands.mp h
      have hlt := Nat.lt_succ_of_lt hs.length_lt
      obtain ⟨ws, xs, rfl, rfl, hr⟩ := hoperand hg.of_cons hs
      have hlr : Derives k (us ++ .punctuation op joint :: ws) (node l s) := hnode hl hr
      have hbegins := ih _ hlt hlr hg.of_cons.of_append ht rfl
      rwa [List.append_assoc, List.cons_append] at hbegins

theorem chain_sound
    (hone : ∀ {us r}, Derives k' us r → Derives k us r)
    (hnode : ∀ {us vs joint l r}, Derives k us l → Derives k' vs r →
      Derives k (us ++ .punctuation op joint :: vs) (node l r))
    (hoperand : ∀ {ts r rest}, GroupsDerived ts → Takes (operand (Item.ofTokens ts)) r rest →
      Begins k' ts r rest)
    (hg : GroupsDerived ts) (h : Takes (parseChain op node operand (Item.ofTokens ts)) r rest) :
    Begins k ts r rest := by
  obtain ⟨l, mid, hl, ht⟩ := takes_parseChain.mp h
  obtain ⟨us, vs, rfl, rfl, hd⟩ := hoperand hg hl
  exact operands_sound hnode hoperand (hone hd) hg.of_append ht

end Chain

theorem expression_sound (hg : GroupsDerived ts) (h : Takes (parseOr (Item.ofTokens ts)) r rest) :
    Begins .expression ts r rest :=
  chain_sound .factor .or (chain_sound .word .and concat_sound) hg h

/-- By induction on the depth of the groups. -/
theorem derives_of_parseItems {leftOver : ParseError} {ts : List Token} {r : Regex Symbol}
    (h : parseItems leftOver (Item.ofTokens ts) = .ok r) : Derives .expression ts r := by
  have hg : GroupsDerived ts := fun us hus s hs => derives_of_parseItems hs
  obtain ⟨us, vs, rfl, hnil, hd⟩ := expression_sound hg (takes_parseItems.mp h)
  cases vs with
  | nil => rwa [List.append_nil]
  | cons v vs => cases hnil
termination_by sizeOf ts
decreasing_by
  have := List.sizeOf_lt_of_mem hus
  simp only [Token.group.sizeOf_spec] at this
  omega

end NameResolution.Regex

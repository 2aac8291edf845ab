import NameResolution.Label
import NameResolution.Proofs.Automaton.Renaming

namespace NameResolution

variable {τ : Type}

namespace Alphabet

variable [DecidableEq τ]

theorem symbols_foldl_push {alphabet : Alphabet τ} {l : List τ}
    (h : (alphabet.symbols ++ l).Nodup) :
    (l.foldl push alphabet).symbols = alphabet.symbols ++ l := by
  induction l generalizing alphabet with
  | nil => exact (List.append_nil _).symm
  | cons a l ih =>
    have hnew : a ∉ alphabet.symbols := fun ha =>
      List.disjoint_of_nodup_append h ha List.mem_cons_self
    have hpush : (alphabet.push a).symbols = alphabet.symbols ++ [a] := by
      rw [push, dif_neg hnew]
    rw [List.foldl_cons, ih, hpush, List.append_assoc]
    · rfl
    · rwa [hpush, List.append_assoc]

theorem symbols_ofList {l : List τ} (h : l.Nodup) : (ofList l).symbols = l :=
  symbols_foldl_push (show (empty.symbols ++ l).Nodup from h)

end Alphabet

namespace Regex

variable {lookup : String → Option τ}

/-- The computation looks symbols up one after another and ends at the first one without a value. -/
inductive Asks {α : Type} (lookup : String → Option τ) (symbols : List Symbol)
    (c : ExceptT UnknownSymbol (StateM (List String)) α) (p : α → Prop) : Prop
  | found (x : α) (hvalue : ∀ a ∈ symbols, (lookup a.name).isSome = true) (hx : p x)
      (hrun : ∀ asked, c.run.run asked = (.ok x, asked ++ symbols.map Symbol.name))
  | missing (before : List Symbol) (a : Symbol) (after : List Symbol)
      (hsymbols : symbols = before ++ a :: after)
      (hbefore : ∀ b ∈ before, (lookup b.name).isSome = true) (ha : lookup a.name = none)
      (hrun : ∀ asked, c.run.run asked =
        (.error ⟨a.name⟩, asked ++ (before ++ [a]).map Symbol.name))

section Lookups

variable {α β : Type} {p : α → Prop} {q : β → Prop} {symbols further : List Symbol}

theorem asks_pure {x : α} (hx : p x) : Asks lookup [] (pure x) p :=
  .found x (fun _ h => absurd h List.not_mem_nil) hx fun asked =>
    congrArg (Except.ok x, ·) (List.append_nil asked).symm

theorem run_bind (c : ExceptT UnknownSymbol (StateM (List String)) α)
    (k : α → ExceptT UnknownSymbol (StateM (List String)) β) (asked : List String) :
    (c >>= k).run.run asked =
      match c.run.run asked with
      | (.ok x, asked) => (k x).run.run asked
      | (.error e, asked) => (.error e, asked) := by
  rw [ExceptT.run_bind, StateT.run_bind]
  cases c.run.run asked with
  | mk result asked => cases result <;> rfl

theorem Asks.bind {c : ExceptT UnknownSymbol (StateM (List String)) α}
    {k : α → ExceptT UnknownSymbol (StateM (List String)) β} (h : Asks lookup symbols c p)
    (hk : ∀ x, p x → Asks lookup further (k x) q) :
    Asks lookup (symbols ++ further) (c >>= k) q := by
  cases h with
  | missing before a after hsymbols hbefore ha hrun =>
    refine .missing before a (after ++ further) (by simp [hsymbols]) hbefore ha fun asked => ?_
    rw [run_bind, hrun]
  | found x hvalue hx hrun =>
    cases hk x hx with
    | found y hvalue' hy hrun' =>
      refine .found y (List.forall_mem_append.mpr ⟨hvalue, hvalue'⟩) hy fun asked => ?_
      rw [run_bind, hrun, List.map_append, ← List.append_assoc]
      exact hrun' _
    | missing before a after hsymbols hbefore ha hrun' =>
      refine .missing (symbols ++ before) a after (by simp [hsymbols])
        (List.forall_mem_append.mpr ⟨hvalue, hbefore⟩) ha fun asked => ?_
      rw [run_bind, hrun, List.append_assoc symbols, List.map_append, ← List.append_assoc]
      exact hrun' _

theorem asks_lookUp (a : Symbol) :
    Asks lookup [a] (lookUp lookup a) fun value => lookup a.name = some value := by
  cases h : lookup a.name with
  | none =>
    refine .missing [] a [] rfl (fun _ h => absurd h List.not_mem_nil) h fun asked => ?_
    rw [lookUp, h]
    rfl
  | some value =>
    refine .found value (by simp [h]) rfl fun asked => ?_
    rw [lookUp, h]
    rfl

/-- One computation, then a node over its result. -/
theorem Asks.unary {c : ExceptT UnknownSymbol (StateM (List String)) α} {node : α → β}
    (h : Asks lookup symbols c p) (hnode : ∀ x, p x → q (node x)) :
    Asks lookup symbols (do return node (← c)) q := by
  have hbind : Asks lookup (symbols ++ []) (do return node (← c)) q :=
    h.bind fun x hx => asks_pure (hnode x hx)
  rwa [List.append_nil] at hbind

/-- Two computations, then a node over both results. -/
theorem Asks.binary {γ : Type} {s : γ → Prop} {c : ExceptT UnknownSymbol (StateM (List String)) α}
    {d : ExceptT UnknownSymbol (StateM (List String)) β} {node : α → β → γ}
    (h : Asks lookup symbols c p) (h' : Asks lookup further d q)
    (hnode : ∀ x y, p x → q y → s (node x y)) :
    Asks lookup (symbols ++ further) (do let x ← c; let y ← d; return node x y) s :=
  h.bind fun x hx => h'.unary fun y hy => hnode x y hx hy

/-- The symbols of an expression are looked up from left to right. -/
theorem asks_mapM (r : Regex Symbol) :
    Asks lookup r.symbols (r.mapM (lookUp lookup)) fun resolved : Regex τ =>
      resolved.map some = r.map fun a => lookup a.name := by
  induction r with
  | emptyString | emptySet => exact asks_pure rfl
  | symbol a => exact (asks_lookUp a).unary fun value hvalue => congrArg symbol hvalue.symm
  | star r ih => exact ih.unary fun _ h => congrArg star h
  | complement r ih => exact ih.unary fun _ h => congrArg complement h
  | or l r ihl ihr => exact ihl.binary ihr fun _ _ hl hr => congrArg₂ or hl hr
  | and l r ihl ihr => exact ihl.binary ihr fun _ _ hl hr => congrArg₂ and hl hr
  | concat l r ihl ihr => exact ihl.binary ihr fun _ _ hl hr => congrArg₂ concat hl hr

end Lookups

/-- The first symbol without a value stands at one place only. -/
theorem eq_of_first_missing {before before' after after' : List Symbol} {a a' : Symbol}
    (h : before ++ a :: after = before' ++ a' :: after')
    (hbefore : ∀ b ∈ before, (lookup b.name).isSome = true) (ha : lookup a.name = none)
    (hbefore' : ∀ b ∈ before', (lookup b.name).isSome = true) (ha' : lookup a'.name = none) :
    before = before' ∧ a = a' := by
  induction before generalizing before' with
  | nil =>
    cases before' with
    | nil => exact ⟨rfl, (List.cons.inj h).1⟩
    | cons b before' =>
      obtain ⟨rfl, -⟩ := List.cons.inj h
      have hvalue := hbefore' a List.mem_cons_self
      rw [ha] at hvalue
      nomatch hvalue
  | cons b before ih =>
    obtain ⟨hb, hbefore⟩ := List.forall_mem_cons.mp hbefore
    cases before' with
    | nil =>
      obtain ⟨rfl, -⟩ := List.cons.inj h
      rw [ha'] at hb
      nomatch hb
    | cons b' before' =>
      obtain ⟨rfl, htail⟩ := List.cons.inj h
      obtain ⟨rfl, rfl⟩ := ih htail hbefore (List.forall_mem_cons.mp hbefore').2
      exact ⟨rfl, rfl⟩

end Regex

def Alphabet.values [DecidableEq τ] (alphabet : Alphabet Symbol) (lookup : String → Option τ) :
    Alphabet τ :=
  .ofList (alphabet.symbols.filterMap fun a => lookup a.name)

section Values

variable {lookup : String → Option τ} {alphabet : Alphabet Symbol} [DecidableEq τ]

theorem Alphabet.map_some_values (hvalues : ∀ a ∈ alphabet, (lookup a.name).isSome = true)
    (hinj : ∀ a ∈ alphabet, ∀ b ∈ alphabet, lookup a.name = lookup b.name → a = b) :
    (alphabet.values lookup).symbols.map some = alphabet.symbols.map fun a => lookup a.name := by
  have hmap : (alphabet.symbols.filterMap fun a => lookup a.name).map some =
      alphabet.symbols.map fun a => lookup a.name := by
    rw [List.map_filterMap]
    refine List.filterMap_eq_map_iff_forall_eq_some.mpr fun a ha => ?_
    obtain ⟨value, hvalue⟩ := Option.isSome_iff_exists.mp (hvalues a ha)
    rw [hvalue]
    rfl
  have hnodup : (alphabet.symbols.map fun a => lookup a.name).Nodup :=
    alphabet.nodup.map_on hinj
  rw [values, symbols_ofList (List.Nodup.of_map some (hmap ▸ hnodup)), hmap]

theorem Automaton.length_shape {σ : Type} (automaton : Automaton σ) :
    automaton.shape.length = automaton.size := List.length_ofFn

/-- Where the symbols of an alphabet have values, different symbols different ones, the automaton of
the resolved expression over the values differs in its symbols and expressions alone. -/
theorem Regex.compile?_values {r : Regex Symbol} {resolved : Regex τ}
    (hresolved : resolved.map some = r.map fun a => lookup a.name) (hr : r.Over alphabet)
    (hvalues : ∀ a ∈ alphabet, (lookup a.name).isSome = true)
    (hinj : ∀ a ∈ alphabet, ∀ b ∈ alphabet, lookup a.name = lookup b.name → a = b) :
    ∃ automaton automaton', r.compile? alphabet = .ok automaton ∧
      resolved.compile? (alphabet.values lookup) = .ok automaton' ∧
      automaton'.size = automaton.size ∧ automaton'.initial.val = automaton.initial.val ∧
      automaton'.shape = automaton.shape := by
  -- Both expressions become one over the optional values.
  let optional : Alphabet (Option τ) :=
    ⟨(alphabet.values lookup).symbols.map some,
      (alphabet.values lookup).nodup.map (Option.some_injective τ)⟩
  have hleft : alphabet.Renamed (fun a => lookup a.name) optional :=
    Alphabet.map_some_values hvalues hinj
  have hright : (alphabet.values lookup).Renamed some optional := rfl
  have hover : (resolved.map some).Over optional := hresolved ▸ over_map hleft hr
  have hr' : resolved.Over (alphabet.values lookup) := by
    intro value hvalue
    have hmem := hover (some value) (by rw [symbols_map]; exact List.mem_map_of_mem hvalue)
    obtain ⟨value', hvalue', heq⟩ := List.mem_map.mp hmem
    exact Option.some.inj heq ▸ hvalue'
  have hshape : (resolved.compile _ hr').shape = (r.compile alphabet hr).shape := by
    rw [← shape_map hright hr' hover]
    revert hover
    rw [hresolved]
    exact shape_map hleft hr
  refine ⟨_, _, compile?_eq_ok hr, compile?_eq_ok hr', ?_, rfl, hshape⟩
  rw [← Automaton.length_shape, hshape, Automaton.length_shape]

end Values

/-- Resolving fails exactly if a symbol has no value, at the first such symbol, and looks up no
symbol after it. If it succeeds, it has looked up all symbols in order; and over an alphabet whose
symbols have values, different symbols different ones, the automaton of the resolved expression has
the states of the automaton of the expression. -/
theorem Regex.resolveSymbols_commutes [DecidableEq τ] (lookup : String → Option τ)
    (r : Regex Symbol) :
    (∀ e asked, r.resolveSymbols lookup = (.error e, asked) ↔
      ∃ before a after, r.symbols = before ++ a :: after ∧
        (∀ b ∈ before, (lookup b.name).isSome = true) ∧ lookup a.name = none ∧
        e = ⟨a.name⟩ ∧ asked = (before ++ [a]).map Symbol.name) ∧
    ((∃ e, (r.resolveSymbols lookup).1 = .error e) ↔ ∃ a ∈ r.symbols, lookup a.name = none) ∧
    ∀ resolved asked, r.resolveSymbols lookup = (.ok resolved, asked) →
      resolved.map some = r.map (fun a => lookup a.name) ∧ asked = r.symbols.map Symbol.name ∧
      ∀ alphabet : Alphabet Symbol, r.Over alphabet →
        (∀ a ∈ alphabet, (lookup a.name).isSome = true) →
        (∀ a ∈ alphabet, ∀ b ∈ alphabet, lookup a.name = lookup b.name → a = b) →
        (alphabet.values lookup).symbols.map some = alphabet.symbols.map (fun a => lookup a.name) ∧
        ∃ automaton automaton', r.compile? alphabet = .ok automaton ∧
          resolved.compile? (alphabet.values lookup) = .ok automaton' ∧
          automaton'.size = automaton.size ∧ automaton'.initial.val = automaton.initial.val ∧
          automaton'.shape = automaton.shape := by
  have hasks : Asks lookup r.symbols (r.mapM (lookUp lookup)) _ := asks_mapM r
  -- either all symbols have values, or the first one without a value ends the run
  cases hasks with
  | found resolved hvalue hresolved hrun =>
    have hrun : r.resolveSymbols lookup = (.ok resolved, r.symbols.map Symbol.name) := hrun []
    have hnone {a : Symbol} (ha : a ∈ r.symbols) : lookup a.name ≠ none :=
      Option.isSome_iff_ne_none.mp (hvalue a ha)
    refine ⟨fun e asked => ⟨fun h => ?_, ?_⟩, ⟨?_, ?_⟩, fun resolved' asked h => ?_⟩
    · nomatch hrun.symm.trans h
    · rintro ⟨before, a, after, hsymbols, -, ha, -, -⟩
      exact absurd ha (hnone (by simp [hsymbols]))
    · rintro ⟨e, he⟩
      rw [hrun] at he
      nomatch he
    · rintro ⟨a, hmem, ha⟩
      exact absurd ha (hnone hmem)
    · cases hrun.symm.trans h
      exact ⟨hresolved, rfl, fun alphabet hr hvalues hinj =>
        ⟨Alphabet.map_some_values hvalues hinj, compile?_values hresolved hr hvalues hinj⟩⟩
  | missing before a after hsymbols hbefore ha hrun =>
    have hrun : r.resolveSymbols lookup = (.error ⟨a.name⟩, (before ++ [a]).map Symbol.name) :=
      hrun []
    refine ⟨fun e asked => ⟨fun h => ?_, ?_⟩, ⟨fun _ => ?_, fun _ => ?_⟩,
      fun resolved asked h => ?_⟩
    · cases hrun.symm.trans h
      exact ⟨before, a, after, hsymbols, hbefore, ha, rfl, rfl⟩
    · rintro ⟨before', a', after', hsymbols', hbefore', ha', rfl, rfl⟩
      obtain ⟨rfl, rfl⟩ :=
        eq_of_first_missing (hsymbols.symm.trans hsymbols') hbefore ha hbefore' ha'
      exact hrun
    · exact ⟨a, by simp [hsymbols], ha⟩
    · exact ⟨⟨a.name⟩, by rw [hrun]⟩
    · nomatch hrun.symm.trans h

/-- Imports after lexical parents, over an alphabet that lists imports first. -/
theorem Regex.resolveSymbols_commutes_labels :
    let lookup : String → Option EdgeLabel := Label.ofName?
    let r : Regex Symbol := concat (star (symbol ⟨"Lex"⟩)) (symbol ⟨"Imp"⟩)
    let alphabet : Alphabet Symbol := ⟨[⟨"Imp"⟩, ⟨"Lex"⟩], by decide⟩
    ∃ resolved, r.resolveSymbols lookup = (.ok resolved, ["Lex", "Imp"]) ∧
      ∃ automaton automaton', r.compile? alphabet = .ok automaton ∧
        resolved.compile? ⟨[.importing, .lexical], by decide⟩ = .ok automaton' ∧
        automaton'.shape = automaton.shape := by
  intro lookup r alphabet
  obtain ⟨-, -, hok⟩ := resolveSymbols_commutes lookup r
  have hrun : r.resolveSymbols lookup =
      (.ok (concat (star (symbol .lexical)) (symbol .importing)), ["Lex", "Imp"]) := by rfl
  obtain ⟨-, -, hcommutes⟩ := hok _ _ hrun
  obtain ⟨-, automaton, automaton', hcompile, hcompile', -, -, hshape⟩ :=
    hcommutes alphabet (by decide) (by decide) (by decide)
  exact ⟨_, hrun, automaton, automaton', hcompile, hcompile', hshape⟩

end NameResolution

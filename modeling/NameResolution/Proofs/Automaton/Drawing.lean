import NameResolution.Proofs.Automaton.GraphvizText
import NameResolution.Symbol

namespace NameResolution

open Dot

universe u
variable {σ : Type u}

namespace Automaton

variable {name : σ → String} {automaton : Automaton σ} {i k : Fin automaton.size} {id : String}

theorem stateId_injective : Function.Injective stateId := by
  intro k l h
  have htext := congrArg String.toList h
  rw [toList_stateId, toList_stateId] at htext
  have hnumber := congrArg (Nat.ofDigitChars 10 · 0) (List.append_cancel_left htext)
  simpa [Nat.toString_eq_ofList_toDigits] using hnumber

/-- The lines of the first state hold the node of the second one. -/
def Mentions (automaton : Automaton σ) (i k : Fin automaton.size) : Prop :=
  i = k ∨ ∃ j, automaton.target i j = k

section Statements

theorem bare_statements : ∀ s ∈ statements name automaton i, s.Bare := by
  simp [statements, Statement.Bare]

theorem given_statements :
    (statements name automaton i).flatMap Statement.given = attributes name automaton i := by
  simp [statements, Statement.given, List.flatMap_map]

theorem edges_statements : (statements name automaton i).flatMap Statement.edges =
    (List.finRange automaton.alphabet.size).map (transition name automaton i) := by
  rw [statements, List.flatMap_cons, List.flatMap_cons, List.flatMap_map, List.map_eq_flatMap]
  rfl

theorem mem_ids_statements : id ∈ (statements name automaton i).flatMap Statement.ids ↔
    ∃ k, automaton.Mentions i k ∧ id = stateId k := by
  simp only [statements, Statement.ids, List.flatMap_cons, List.flatMap_map, List.nil_append,
    List.mem_append, List.mem_flatMap, List.mem_cons, List.not_mem_nil, or_false,
    List.mem_finRange, true_and, Mentions]
  constructor
  · rintro (rfl | ⟨j, rfl | rfl⟩)
    · exact ⟨i, .inl rfl, rfl⟩
    · exact ⟨i, .inl rfl, rfl⟩
    · exact ⟨_, .inr ⟨j, rfl⟩, rfl⟩
  · rintro ⟨k, rfl | ⟨j, rfl⟩, rfl⟩
    · exact .inl rfl
    · exact .inr ⟨j, .inr rfl⟩

theorem inherited?_statements {defaults : Attributes}
    (h : id ∈ (statements name automaton i).flatMap Statement.ids) :
    inherited? id defaults (statements name automaton i) =
      some (defaults ++ attributes name automaton i) := by
  have hfirst : id ∉ (Statement.defaults (attributes name automaton i)).ids := List.not_mem_nil
  rw [statements, inherited?, if_neg hfirst]
  apply inherited?_of_constant
  · simp [Statement.given]
  · simpa [statements, Statement.ids] using h

end Statements

section Inheritance

/-- The node of a state inherits the attributes of all states up to the first that mentions it. -/
theorem inherited?_stateId {l before after : List (Fin automaton.size)}
    (hl : l = before ++ i :: after) (hbefore : ∀ x ∈ before, ¬automaton.Mentions x k)
    (hi : automaton.Mentions i k) :
    inherited? (stateId k) [] (l.flatMap (statements name automaton)) =
      some ((before ++ [i]).flatMap (attributes name automaton)) := by
  have hnone : stateId k ∉ (before.flatMap (statements name automaton)).flatMap Statement.ids := by
    intro hid
    rw [List.flatMap_assoc] at hid
    obtain ⟨x, hx, hid⟩ := List.mem_flatMap.mp hid
    obtain ⟨k', hmentions, heq⟩ := mem_ids_statements.mp hid
    obtain rfl : k = k' := Fin.ext (stateId_injective heq)
    exact hbefore x hx hmentions
  have hfirst : stateId k ∈ (statements name automaton i).flatMap Statement.ids :=
    mem_ids_statements.mpr ⟨k, hi, rfl⟩
  rw [hl, List.flatMap_append, List.flatMap_cons, inherited?_append, inherited?_eq_none hnone,
    inherited?_append, inherited?_statements hfirst, List.flatMap_assoc]
  simp only [given_statements, List.nil_append, List.flatMap_append, List.flatMap_cons,
    List.flatMap_nil, List.append_nil]
  rfl

/-- The first state with a property, and the states before it. -/
theorem exists_first {n : ℕ} {p : Fin n → Prop} {k : Fin n} (h : p k) :
    ∃ i before after, List.finRange n = before ++ i :: after ∧ p i ∧ (∀ x ∈ before, ¬p x) ∧
      ∀ x, x ∈ before ↔ x < i := by
  classical
  have hsome : ((List.finRange n).find? fun x => decide (p x)).isSome = true :=
    List.find?_isSome.mpr ⟨k, List.mem_finRange k, decide_eq_true h⟩
  obtain ⟨i, hi⟩ := Option.isSome_iff_exists.mp hsome
  obtain ⟨hp, before, after, hsplit, hbefore⟩ := List.find?_eq_some_iff_append.mp hi
  refine ⟨i, before, after, hsplit, of_decide_eq_true hp, fun x hx => by simpa using hbefore x hx,
    fun x => ?_⟩
  have hsorted := List.pairwise_lt_finRange n
  rw [hsplit, List.pairwise_append, List.pairwise_cons] at hsorted
  obtain ⟨-, ⟨hafter, -⟩, hless⟩ := hsorted
  constructor
  · exact fun hx => hless x hx i List.mem_cons_self
  · intro hx
    have hmem : x ∈ before ++ i :: after := hsplit ▸ List.mem_finRange x
    rw [List.mem_append, List.mem_cons] at hmem
    obtain hmem | rfl | hmem := hmem
    · exact hmem
    · exact absurd hx (lt_irrefl x)
    · exact absurd hx (lt_asymm (hafter x hmem))

theorem value?_attributes :
    value? (attributes name automaton i) "label" = some ((automaton.residual i).render name) ∧
    value? (attributes name automaton i) "shape" =
      (if (automaton.states.get i).accepting then some "doublecircle" else none) ∧
    value? (attributes name automaton i) "color" =
      (if !(automaton.states.get i).live then some "grey" else none) ∧
    value? (attributes name automaton i) "style" =
      if decide (i = automaton.initial) then some "bold" else none := by
  unfold attributes attributeList
  cases (automaton.states.get i).accepting <;> cases (automaton.states.get i).live <;>
    cases decide (i = automaton.initial) <;> exact ⟨rfl, rfl, rfl, rfl⟩

end Inheritance

section Graphs

/-- A node is labelled as the first state that mentions it, a double circle or grey if this state or
one before it accepts or is stuck, and bold if the initial state is not after it. The edges are the
transitions. -/
structure Draws (name : σ → String) (automaton : Automaton σ) (graph : Graph) : Prop where
  node (k : Fin automaton.size) : ∃ i, automaton.Mentions i k ∧ (∀ x < i, ¬automaton.Mentions x k) ∧
    ∃ as, graph.node? (stateId k) = some as ∧
      value? as "label" = some ((automaton.residual i).render name) ∧
      (value? as "shape" = some "doublecircle" ↔
        ∃ x ≤ i, (automaton.states.get x).accepting = true) ∧
      (value? as "color" = some "grey" ↔ ∃ x ≤ i, (automaton.states.get x).live = false) ∧
      (value? as "style" = some "bold" ↔ automaton.initial ≤ i)
  only {id : String} {as : Attributes} (h : graph.node? id = some as) :
    ∃ k : Fin automaton.size, id = stateId k
  edges : graph.edges = (List.finRange automaton.size).flatMap fun i =>
    (List.finRange automaton.alphabet.size).map (transition name automaton i)

/-- Each node is labelled as its state, a double circle if the state accepts, grey if it is stuck
and bold if it is initial, and only then. The edges are the transitions, labelled with the
symbols. -/
structure Denotes (name : σ → String) (automaton : Automaton σ) (graph : Graph) : Prop where
  node (k : Fin automaton.size) : ∃ as, graph.node? (stateId k) = some as ∧
    value? as "label" = some ((automaton.residual k).render name) ∧
    (value? as "shape" = some "doublecircle" ↔ (automaton.states.get k).accepting = true) ∧
    (value? as "color" = some "grey" ↔ (automaton.states.get k).live = false) ∧
    (value? as "style" = some "bold" ↔ k = automaton.initial)
  edges : (graph.edges.map fun e => (e.source, e.target, value? e.attributes "label")).Perm
    ((List.finRange automaton.size).flatMap fun i : Fin automaton.size =>
      (List.finRange automaton.alphabet.size).map fun j : Fin automaton.alphabet.size =>
        (stateId i, stateId (automaton.target i j), some (name (automaton.alphabet.symbols.get j))))

theorem draws_performAll : Draws name automaton (Graph.empty.performAll
    ((List.finRange automaton.size).flatMap (statements name automaton))) := by
  have hbare :
      ∀ s ∈ (List.finRange automaton.size).flatMap (statements name automaton), s.Bare := by
    intro s hs
    obtain ⟨i, -, hs⟩ := List.mem_flatMap.mp hs
    exact bare_statements s hs
  refine ⟨fun k => ?_, fun {id as} h => ?_, ?_⟩
  -- the node is created by the first state that mentions it, with all attributes given so far
  · obtain ⟨i, before, after, hl, hi, hbefore, hless⟩ :=
      exists_first (p := fun x => automaton.Mentions x k) (.inl rfl)
    have hmem (x : Fin automaton.size) : x ∈ before ++ [i] ↔ x ≤ i := by
      rw [List.mem_append, hless, List.mem_singleton, le_iff_lt_or_eq]
    refine ⟨i, hi, fun x hx => hbefore x ((hless x).mpr hx),
      (before ++ [i]).flatMap (attributes name automaton), ?_, ?_, ?_, ?_, ?_⟩
    · rw [Graph.node?_performAll hbare]
      exact inherited?_stateId hl hbefore hi
    · rw [List.flatMap_append, value?_append, List.flatMap_singleton, value?_attributes.1]
      rfl
    · rw [value?_flatMap_eq_some_iff fun x => value?_attributes.2.1]
      simp only [hmem]
    · rw [value?_flatMap_eq_some_iff fun x => value?_attributes.2.2.1]
      simp only [hmem, Bool.not_eq_true']
    · rw [value?_flatMap_eq_some_iff fun x => value?_attributes.2.2.2]
      simp only [hmem, decide_eq_true_eq, exists_eq_right]
  · rw [Graph.node?_performAll hbare] at h
    by_contra hnone
    -- no statement mentions another node
    have hid : id ∉ ((List.finRange automaton.size).flatMap
        (statements name automaton)).flatMap Statement.ids := by
      intro hid
      rw [List.flatMap_assoc] at hid
      obtain ⟨i, -, hid⟩ := List.mem_flatMap.mp hid
      obtain ⟨k, -, heq⟩ := mem_ids_statements.mp hid
      exact hnone ⟨k, heq⟩
    rw [inherited?_eq_none hid] at h
    nomatch h
  · rw [Graph.edges_performAll hbare, List.flatMap_assoc]
    simp only [edges_statements]
    rfl

/-- A graph that shows the automaton in this way is the automaton exactly if it has one state. -/
theorem Draws.denotes_iff {graph : Graph} (h : Draws name automaton graph)
    (hinitial : automaton.initial.val = 0) :
    Denotes name automaton graph ↔ automaton.size = 1 := by
  constructor
  · intro hdenotes
    by_contra hsize
    -- The second state is drawn bold, since the initial one comes before all that mention it.
    have hpos : 0 < automaton.size := automaton.initial.pos
    let second : Fin automaton.size := ⟨1, by omega⟩
    obtain ⟨i, -, -, as, has, -, -, -, hstyle⟩ := h.node second
    obtain ⟨as', has', -, -, -, hstyle'⟩ := hdenotes.node second
    cases has.symm.trans has'
    have hbold : automaton.initial ≤ i := Fin.le_def.mpr (by omega)
    have heq : second = automaton.initial := hstyle'.mp (hstyle.mpr hbold)
    have hval := congrArg Fin.val heq
    rw [hinitial] at hval
    exact absurd hval one_ne_zero
  · intro hsize
    have hall (x y : Fin automaton.size) : x = y := Fin.ext (by omega)
    refine ⟨fun k => ?_, ?_⟩
    · obtain ⟨i, -, -, as, has, hlabel, hshape, hcolor, hstyle⟩ := h.node k
      obtain rfl := hall i k
      have hexists (p : Fin automaton.size → Prop) : (∃ x ≤ i, p x) ↔ p i :=
        ⟨fun ⟨x, _, hx⟩ => hall x i ▸ hx, fun hi => ⟨i, le_refl i, hi⟩⟩
      rw [hexists] at hshape hcolor
      refine ⟨as, has, hlabel, hshape, hcolor, hstyle.trans ?_⟩
      exact ⟨fun _ => hall _ _, fun _ => Fin.le_def.mpr (by omega)⟩
    · rw [h.edges, List.map_flatMap]
      simp only [List.map_map]
      exact List.Perm.refl _

section Compiled

variable [DecidableEq σ] {regex : Regex σ} {alphabet : Alphabet σ}

theorem exists_draws_compile (h : regex.Over alphabet)
    (hname : ∀ a ∈ alphabet, isPlain false (name a).toList = true) :
    ∃ graph, read? ((regex.compile alphabet h).graphviz name) = some graph ∧
      Draws name (regex.compile alphabet h) graph := by
  have hsymbols (i : Fin (regex.compile alphabet h).size) :
      ((regex.compile alphabet h).residual i).Over alphabet := by
    rw [Regex.residual_compile]
    exact Regex.over_of_reachable h (mem_explore.mp (List.get_mem _ _))
  exact ⟨_, read?_graphviz hname hsymbols, draws_performAll⟩

/-- A symbol is read back from between double quotes exactly if its text is plain. If the texts of
all symbols are, then the text of an automaton describes a graph. Its edges are the transitions, but
its nodes look like the first states that mention them, and this graph is the automaton exactly if
that has a single state. -/
theorem denotes_graphviz_iff {automaton : Automaton σ}
    (hcompile : regex.compile? alphabet = .ok automaton) (name : σ → String) :
    (∀ a, Scans (.quoted []) ((name a).toList ++ ['"']) [.quoted (name a)] .between ↔
      isPlain false (name a).toList = true) ∧
    ((∀ a ∈ alphabet, isPlain false (name a).toList = true) →
      ∃ graph, read? (automaton.graphviz name) = some graph ∧ Draws name automaton graph ∧
        (Denotes name automaton graph ↔ automaton.size = 1)) := by
  obtain ⟨h, rfl⟩ := Regex.exists_over_of_compile? hcompile
  refine ⟨fun a => ?_, fun hname => ?_⟩
  · rw [← scans_quoted_iff, String.ofList_toList]
  · obtain ⟨graph, hread, hdraws⟩ := exists_draws_compile h hname
    exact ⟨graph, hread, hdraws, hdraws.denotes_iff rfl⟩

/-- Repetitions of a symbol whose text has an escaped backslash. -/
theorem denotes_graphviz_iff_backslash :
    let regex : Regex Symbol := .star (.symbol ⟨"\\\\"⟩)
    let alphabet : Alphabet Symbol := ⟨[⟨"\\\\"⟩], by decide⟩
    ∃ automaton graph, regex.compile? alphabet = .ok automaton ∧
      read? (automaton.graphviz Symbol.name) = some graph ∧
      (Denotes Symbol.name automaton graph ↔ automaton.size = 1) := by
  intro regex alphabet
  have hcompile := Regex.compile?_eq_ok (show regex.Over alphabet by decide)
  obtain ⟨-, hplain⟩ := denotes_graphviz_iff hcompile Symbol.name
  obtain ⟨graph, hread, -, hdenotes⟩ := hplain (by decide +kernel)
  exact ⟨_, graph, hcompile, hread, hdenotes⟩

/-- The text of the automaton of a single symbol describes another graph. -/
theorem not_denotes_graphviz_symbol :
    let regex : Regex Symbol := .symbol ⟨"A"⟩
    let alphabet : Alphabet Symbol := ⟨[⟨"A"⟩], by decide⟩
    ∃ automaton graph, regex.compile? alphabet = .ok automaton ∧
      read? (automaton.graphviz Symbol.name) = some graph ∧
      ¬Denotes Symbol.name automaton graph := by
  intro regex alphabet
  have h : regex.Over alphabet := by decide
  obtain ⟨graph, hread, hdraws⟩ : ∃ graph,
      read? ((regex.compile alphabet h).graphviz Symbol.name) = some graph ∧
        Draws Symbol.name (regex.compile alphabet h) graph :=
    exists_draws_compile h (by decide +kernel)
  refine ⟨_, graph, Regex.compile?_eq_ok h, hread, fun hdenotes => ?_⟩
  have hsize := (hdraws.denotes_iff rfl).mp hdenotes
  -- With one state the symbol would lead back to it, but something else remains after the symbol.
  have hderive := Regex.residual_target h (regex.compile alphabet h).initial ⟨0, Nat.one_pos⟩
  have hsame : (regex.compile alphabet h).target (regex.compile alphabet h).initial
      ⟨0, Nat.one_pos⟩ = (regex.compile alphabet h).initial := Fin.ext (by omega)
  rw [hsame, Regex.residual_initial] at hderive
  have hempty : (Regex.symbol ⟨"A"⟩ : Regex Symbol) = .emptyString := hderive
  nomatch hempty

end Compiled

end Graphs

end Automaton

end NameResolution

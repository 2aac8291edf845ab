import NameResolution.Automaton.Graphviz
import NameResolution.Proofs.Automaton.Representation
import NameResolution.Proofs.Dot.Graph

namespace NameResolution

open Dot

universe u
variable {σ : Type u}

theorem Regex.isPlain_render {name : σ → String} {r : Regex σ}
    (h : ∀ a ∈ r.symbols, isPlain false (name a).toList = true) :
    isPlain false (r.render name).toList = true := by
  induction r with
  | emptyString | emptySet =>
    rw [render]
    rfl
  | symbol a => exact h a List.mem_cons_self
  | star r ih | complement r ih =>
    simp only [render, String.toList_append]
    exact isPlain_append (isPlain_append rfl (ih h)) rfl
  | or l r ihl ihr | and l r ihl ihr =>
    obtain ⟨hl, hr⟩ := List.forall_mem_append.mp h
    simp only [render, String.toList_append]
    have hleft := ihl hl
    have hright := ihr hr
    exact isPlain_append (isPlain_append (isPlain_append (isPlain_append rfl hleft) rfl) hright) rfl
  | concat l r ihl ihr =>
    obtain ⟨hl, hr⟩ := List.forall_mem_append.mp h
    simp only [render, String.toList_append]
    exact isPlain_append (isPlain_append (ihl hl) rfl) (ihr hr)

namespace Automaton

section Statements

def stateId (i : ℕ) : String := "id" ++ toString i

/-- The attributes of a state in its text, after the label. -/
def attributeText (accepting live initial : Bool) : String :=
  (if accepting then ", shape=doublecircle" else "") ++ (if live then "" else ", color=grey") ++
    (if initial then ", style=bold" else "")

def attributeTokens (accepting live initial : Bool) : List Token :=
  let shape : List Token := [.sign ',', .word "shape", .sign '=', .word "doublecircle"]
  let color : List Token := [.sign ',', .word "color", .sign '=', .word "grey"]
  let style : List Token := [.sign ',', .word "style", .sign '=', .word "bold"]
  (if accepting then shape else []) ++ (if live then [] else color) ++
    (if initial then style else []) ++ [.sign ']']

def attributeList (label : String) (accepting live initial : Bool) : Attributes :=
  ("label", label) :: ((if accepting then [("shape", "doublecircle")] else []) ++
    (if live then [] else [("color", "grey")]) ++ (if initial then [("style", "bold")] else []))

variable (name : σ → String) (automaton : Automaton σ)

def attributes (i : Fin automaton.size) : Attributes :=
  attributeList ((automaton.residual i).render name) (automaton.states.get i).accepting
    (automaton.states.get i).live (decide (i = automaton.initial))

def transition (i : Fin automaton.size) (j : Fin automaton.alphabet.size) : Edge :=
  ⟨stateId i, stateId (automaton.target i j), [("label", name (automaton.alphabet.symbols.get j))]⟩

def statements (i : Fin automaton.size) : List Statement :=
  .defaults (attributes name automaton i) :: .node (stateId i) [] ::
    (List.finRange automaton.alphabet.size).map fun j =>
      .edge (stateId i) (stateId (automaton.target i j))
        [("label", name (automaton.alphabet.symbols.get j))]

end Statements

section Reading

variable {name : σ → String} {automaton : Automaton σ}

theorem toList_stateId (k : ℕ) : (stateId k).toList = "id".toList ++ (toString k).toList :=
  String.toList_append

theorem isWordChar_of_mem_toString {k : ℕ} {c : Char} (hc : c ∈ (toString k).toList) :
    isWordChar c = true := by
  rw [Nat.toString_eq_repr, Nat.toList_repr] at hc
  have hdigit : c.isDigit = true := Nat.isDigit_of_mem_toDigits (by decide) (by decide) hc
  simp [isWordChar, Char.isAlphanum, hdigit]

theorem scans_number {w : List Char} (k : ℕ) :
    Scans (.word w) (toString k).toList [] (.word (w ++ (toString k).toList)) :=
  scans_word fun _ => isWordChar_of_mem_toString

theorem identifier?_stateId (k : ℕ) : (Token.word (stateId k)).identifier? = some (stateId k) := by
  have hall : ∀ keyword ∈ keywords, keyword.toList.head? ≠ some 'i' := by decide +kernel
  have hkeyword :
      ¬keywords.contains (String.ofList ((stateId k).toList.map Char.toLower)) = true := by
    intro h
    apply hall _ (List.contains_iff_mem.mp h)
    rw [String.toList_ofList, toList_stateId]
    rfl
  rw [Token.identifier?, if_neg hkeyword]

theorem identifier?_word {w : String}
    (h : w ∈ ["label", "shape", "color", "style", "doublecircle", "grey", "bold"]) :
    (Token.word w).identifier? = some w := by
  have hall : ∀ w ∈ ["label", "shape", "color", "style", "doublecircle", "grey", "bold"],
      (Token.word w).identifier? = some w := by decide +kernel
  exact hall w h

theorem identifier?_quoted {text : String} : (Token.quoted text).identifier? = some text := rfl

/-- A state before another statement. -/
theorem statement?_node {k : ℕ} {rest : List Token} (h : Starts rest) :
    statement? (.word (stateId k) :: rest) = some (.node (stateId k) [], rest) := by
  match rest with
  | [] => simp [statement?, identifier?_stateId]
  | t :: rest =>
    obtain ⟨harrow, hbracket⟩ := h t rfl
    simp [statement?, identifier?_stateId, harrow, hbracket]

theorem statement?_edge {k l : ℕ} {label : String} {rest : List Token} :
    statement? (.word (stateId k) :: .arrow :: .word (stateId l) :: .sign '[' :: .word "label" ::
      .sign '=' :: .quoted label :: .sign ']' :: rest) =
      some (.edge (stateId k) (stateId l) [("label", label)], rest) := by
  have hlabel := identifier?_word (List.mem_cons_self : "label" ∈ _)
  simp [statement?, attributes?, identifier?_stateId, identifier?_quoted, hlabel]

theorem scans_stateId (k : ℕ) :
    Scans .between (stateId k).toList [] (.word (stateId k).toList) := by
  rw [toList_stateId]
  have hid : Scans .between "id".toList [] (.word "id".toList) := by rfl
  exact hid.append (scans_number k)

theorem describes_edge {k l : ℕ} {label : String} (h : isPlain false label.toList = true) :
    Describes
      (stateId k ++ " -> id" ++ toString l ++ " [label=\"" ++ label ++ "\"]" ++ "\n").toList
      [.edge (stateId k) (stateId l) [("label", label)]] := by
  have harrow : Scans (.word (stateId k).toList) " -> id".toList
      [.word (String.ofList (stateId k).toList), .arrow] (.word "id".toList) := by rfl
  have htarget := scans_number (w := "id".toList) l
  rw [← toList_stateId] at htarget
  have hbracket : Scans (.word (stateId l).toList) " [label=\"".toList
      [.word (String.ofList (stateId l).toList), .sign '[', .word "label", .sign '=']
      (.quoted []) := by rfl
  have hlabel : Scans (.quoted []) label.toList [] (.quoted label.toList) :=
    scans_inside (show isPlain false _ = true from h)
  have hclose : Scans (.quoted label.toList) ("\"]".toList ++ "\n".toList)
      [.quoted (String.ofList label.toList), .sign ']'] .between := by rfl
  have hscan := (scans_stateId k).append (harrow.append (htarget.append (hbracket.append
    (hlabel.append hclose))))
  simp only [String.ofList_toList, List.nil_append, List.cons_append] at hscan
  simp only [String.toList_append, List.append_assoc]
  refine ⟨_, hscan, fun rest _ => ⟨?_, fun more hmore => ?_⟩⟩
  · simp [Starts]
  · exact statements?_cons statement?_edge (by simp; omega) (by simp) hmore

theorem scans_attributes (text : List Char) (accepting live initial : Bool) :
    Scans (.quoted text) ("\"" ++ attributeText accepting live initial ++ "] id").toList
      (.quoted (String.ofList text) :: attributeTokens accepting live initial)
      (.word "id".toList) := by
  cases accepting <;> cases live <;> cases initial <;> rfl

theorem attributes?_attributeTokens (label : String) (accepting live initial : Bool)
    (rest : List Token) :
    attributes? (.word "label" :: .sign '=' :: .quoted label ::
        (attributeTokens accepting live initial ++ rest)) =
      some (attributeList label accepting live initial, rest) := by
  cases accepting <;> cases live <;> cases initial <;>
    simp [attributeTokens, attributeList, attributes?, identifier?_word, identifier?_quoted]

theorem describes_node {k : ℕ} {label : String} (accepting live initial : Bool)
    (h : isPlain false label.toList = true) :
    Describes ("node[label=\"" ++ label ++ "\"" ++ attributeText accepting live initial ++ "] " ++
        stateId k ++ "\n").toList
      [.defaults (attributeList label accepting live initial), .node (stateId k) []] := by
  -- each piece is scanned from the mode in which the piece before it ends
  have hopen : Scans .between "node[label=\"".toList
      [.word "node", .sign '[', .word "label", .sign '='] (.quoted []) := by rfl
  have hlabel : Scans (.quoted []) label.toList [] (.quoted label.toList) :=
    scans_inside (show isPlain false _ = true from h)
  have hattributes := scans_attributes label.toList accepting live initial
  have hnumber := scans_number (w := "id".toList) k
  rw [← toList_stateId] at hnumber
  have hend : Scans (.word (stateId k).toList) "\n".toList
      [.word (String.ofList (stateId k).toList)] .between := by rfl
  have hscan := hopen.append (hlabel.append (hattributes.append (hnumber.append hend)))
  have hbracket : ("] id" : String) = "] " ++ "id" := rfl
  rw [hbracket] at hscan
  simp only [String.toList_append, List.append_assoc, String.ofList_toList, List.nil_append]
    at hscan
  simp only [String.toList_append, List.append_assoc, toList_stateId]
  refine ⟨_, hscan, fun rest hrest => ⟨by simp [Starts], fun more hmore => ?_⟩⟩
  have hnode : statements? (.word (stateId k) :: rest) = some (.node (stateId k) [] :: more) :=
    statements?_cons (statement?_node hrest) (by simp) (by simp) hmore
  have hdefaults := attributes?_attributeTokens label accepting live initial
    (.word (stateId k) :: rest)
  refine statements?_cons ?_ ?_ (by simp) hnode
  · simp [statement?, hdefaults]
  · simp
    omega

theorem escapeQuotes_of_isPlain {text : String} (h : isPlain false text.toList = true) :
    escapeQuotes text = text := by
  have hid : text.toList.flatMap (fun c => if c = '"' then ['\\', '"'] else [c]) = text.toList := by
    refine (List.flatMap_congr fun c hc => ?_).trans (List.flatMap_singleton' _)
    rw [if_neg]
    rintro rfl
    exact not_mem_of_isPlain h hc
  rw [escapeQuotes, hid, String.ofList_toList]

theorem zip_next (i : Fin automaton.size) :
    automaton.alphabet.symbols.zip (automaton.states.get i).next.toList =
      (List.finRange automaton.alphabet.size).map fun j : Fin automaton.alphabet.size =>
        (automaton.alphabet.symbols.get j, automaton.target i j) := by
  apply List.ext_getElem
  · simp [Alphabet.size]
  · intro n h h'
    rw [List.getElem_zip, List.getElem_map, List.getElem_finRange]
    rfl

theorem stateLines_eq (i : Fin automaton.size) :
    stateLines name automaton i =
      ("node[label=\"" ++ escapeQuotes ((automaton.residual i).render name) ++ "\"" ++
        attributeText (automaton.states.get i).accepting (automaton.states.get i).live
          (decide (i = automaton.initial)) ++ "] " ++ stateId i) ::
      (List.finRange automaton.alphabet.size).map fun j =>
        stateId i ++ " -> id" ++ toString (automaton.target i j).val ++ " [label=\"" ++
          name (automaton.alphabet.symbols.get j) ++ "\"]" := by
  have hedges := congrArg (List.map fun p : σ × Fin automaton.size =>
    stateId i ++ " -> id" ++ toString p.2.val ++ " [label=\"" ++ name p.1 ++ "\"]") (zip_next i)
  simp only [attributeText, decide_eq_true_eq]
  exact congrArg _ (hedges.trans List.map_map)

/-- The lines of a state are read as its statements. -/
theorem describes_stateLines (i : Fin automaton.size)
    (hname : ∀ a ∈ automaton.alphabet, isPlain false (name a).toList = true)
    (hlabel : isPlain false ((automaton.residual i).render name).toList = true) :
    Describes ((stateLines name automaton i).flatMap fun line => (line ++ "\n").toList)
      (statements name automaton i) := by
  have hnode := describes_node (k := i) (automaton.states.get i).accepting
    (automaton.states.get i).live (decide (i = automaton.initial)) hlabel
  have hedges : Describes ((List.finRange automaton.alphabet.size).flatMap fun j =>
      (stateId i ++ " -> id" ++ toString (automaton.target i j).val ++ " [label=\"" ++
        name (automaton.alphabet.symbols.get j) ++ "\"]" ++ "\n").toList)
      ((List.finRange automaton.alphabet.size).flatMap fun j =>
        [.edge (stateId i) (stateId (automaton.target i j))
          [("label", name (automaton.alphabet.symbols.get j))]]) :=
    describes_flatMap fun j _ => describes_edge (hname _ (List.get_mem _ _))
  have happend := hnode.append hedges
  rw [← List.map_eq_flatMap] at happend
  rw [stateLines_eq, escapeQuotes_of_isPlain hlabel, List.flatMap_cons, List.flatMap_map]
  exact happend

/-- The text is read as the statements of all states. -/
theorem read?_graphviz (hname : ∀ a ∈ automaton.alphabet, isPlain false (name a).toList = true)
    (hsymbols : ∀ i, (automaton.residual i).Over automaton.alphabet) :
    read? (automaton.graphviz name) = some (Graph.empty.performAll
      ((List.finRange automaton.size).flatMap (statements name automaton))) := by
  have hstates : Describes ((List.finRange automaton.size).flatMap fun i =>
      (stateLines name automaton i).flatMap fun line => (line ++ "\n").toList)
      ((List.finRange automaton.size).flatMap (statements name automaton)) :=
    describes_flatMap fun i _ => describes_stateLines i hname
      (Regex.isPlain_render fun a ha => hname a (hsymbols i a ha))
  refine read?_of_describes ?_ hstates
  simp only [graphviz, String.toList_join, List.map_append, List.map_cons, List.map_flatMap,
    List.flatMap_append, List.flatMap_cons, List.flatMap_assoc, List.flatMap_map,
    List.append_assoc]
  rfl

end Reading

end Automaton

end NameResolution

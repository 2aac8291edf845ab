import NameResolution.Proofs.Dot.Text

namespace NameResolution.Dot

/-- Names and values; of several values for one name the last one counts. -/
abbrev Attributes := List (String × String)

def value? (attributes : Attributes) (name : String) : Option String :=
  attributes.reverse.lookup name

inductive Statement where
  | defaults (attributes : Attributes)
  | node (id : String) (attributes : Attributes)
  | edge (source target : String) (attributes : Attributes)

def keywords : List String := ["node", "edge", "graph", "digraph", "subgraph", "strict"]

def Token.identifier? : Token → Option String
  | word text => if keywords.contains (String.ofList (text.toList.map Char.toLower)) then none
    else some text
  | quoted text => some text
  | arrow => none
  | sign _ => none

def attributes? : List Token → Option (Attributes × List Token)
  | .sign ']' :: ts => some ([], ts)
  | name :: .sign '=' :: value :: .sign ',' :: ts => do
    let (attributes, rest) ← attributes? ts
    return ((← name.identifier?, ← value.identifier?) :: attributes, rest)
  | name :: .sign '=' :: value :: .sign ']' :: ts => do
    return ([(← name.identifier?, ← value.identifier?)], ts)
  | _ => none

def statement? : List Token → Option (Statement × List Token)
  | .word "node" :: .sign '[' :: ts => do
    let (attributes, rest) ← attributes? ts
    return (.defaults attributes, rest)
  | source :: .arrow :: target :: .sign '[' :: ts => do
    let (attributes, rest) ← attributes? ts
    return (.edge (← source.identifier?) (← target.identifier?) attributes, rest)
  | source :: .arrow :: target :: ts => do
    return (.edge (← source.identifier?) (← target.identifier?) [], ts)
  | id :: .sign '[' :: ts => do
    let (attributes, rest) ← attributes? ts
    return (.node (← id.identifier?) attributes, rest)
  | id :: ts => do return (.node (← id.identifier?) [], ts)
  | [] => none

def statements? (tokens : List Token) : Option (List Statement) :=
  if tokens = [.sign '\x7d'] then some [] else
  match statement? tokens with
  | some (statement, rest) =>
    if rest.length < tokens.length then (statements? rest).map (statement :: ·) else none
  | none => none
termination_by tokens.length

def digraph? : List Token → Option (List Statement)
  | .word "digraph" :: .sign '\x7b' :: ts => statements? ts
  | _ => none

structure Edge where
  source : String
  target : String
  attributes : Attributes

/-- The default attributes of nodes, and the nodes and edges so far. -/
structure Graph where
  defaults : Attributes
  nodes : List (String × Attributes)
  edges : List Edge

namespace Graph

def empty : Graph := ⟨[], [], []⟩

def node? (graph : Graph) (id : String) : Option Attributes := graph.nodes.lookup id

/-- Creates the node, unless it exists. -/
def mention (graph : Graph) (id : String) : Graph :=
  if (graph.node? id).isSome then graph
  else { graph with nodes := graph.nodes ++ [(id, graph.defaults)] }

def extend (graph : Graph) (id : String) (attributes : Attributes) : Graph :=
  { graph with nodes := graph.nodes.map fun (id', attributes') =>
      (id', if id' = id then attributes' ++ attributes else attributes') }

def perform (graph : Graph) : Statement → Graph
  | .defaults attributes => { graph with defaults := graph.defaults ++ attributes }
  | .node id attributes => (graph.mention id).extend id attributes
  | .edge source target attributes =>
    let graph := (graph.mention source).mention target
    { graph with edges := graph.edges ++ [⟨source, target, attributes⟩] }

def performAll (graph : Graph) (statements : List Statement) : Graph :=
  statements.foldl perform graph

end Graph

def read? (text : String) : Option Graph := do
  let statements ← digraph? (← tokens? text)
  return Graph.empty.performAll statements

section Attributes

variable {as bs : Attributes} {name : String}

theorem value?_append : value? (as ++ bs) name = (value? bs name).or (value? as name) := by
  rw [value?, List.reverse_append, List.lookup_append]
  rfl

/-- One value, given by some of several lists. -/
theorem value?_flatMap {α : Type} {f : α → Attributes} {value : String} {p : α → Bool}
    (h : ∀ x, value? (f x) name = if p x then some value else none) (l : List α) :
    value? (l.flatMap f) name = if l.any p then some value else none := by
  induction l with
  | nil => rfl
  | cons x l ih =>
    rw [List.flatMap_cons, value?_append, ih, h, List.any_cons]
    cases p x <;> cases l.any p <;> rfl

theorem value?_flatMap_eq_some_iff {α : Type} {f : α → Attributes} {value : String} {p : α → Bool}
    (h : ∀ x, value? (f x) name = if p x then some value else none) {l : List α} :
    value? (l.flatMap f) name = some value ↔ ∃ x ∈ l, p x = true := by
  rw [value?_flatMap h, ← List.any_eq_true]
  cases l.any p <;> simp

end Attributes

section Reading

variable {ts rest : List Token} {s : List Char} {statements more : List Statement}

def Starts (ts : List Token) : Prop := ∀ t ∈ ts.head?, t ≠ .arrow ∧ t ≠ .sign '['

theorem statements?_cons {statement : Statement} (h : statement? ts = some (statement, rest))
    (hlength : rest.length < ts.length) (hbrace : ts ≠ [.sign '\x7d'])
    (hmore : statements? rest = some more) : statements? ts = some (statement :: more) := by
  rw [statements?, if_neg hbrace, h]
  simp only [if_pos hlength, hmore, Option.map_some]

/-- The characters are read as these statements, whatever statements follow. -/
def Describes (s : List Char) (statements : List Statement) : Prop :=
  ∃ ts, Scans .between s ts .between ∧ ∀ rest, Starts rest → Starts (ts ++ rest) ∧
    ∀ more, statements? rest = some more → statements? (ts ++ rest) = some (statements ++ more)

theorem describes_nil : Describes [] [] := ⟨[], rfl, fun _ h => ⟨h, fun _ h => h⟩⟩

theorem Describes.append {t : List Char} {statements' : List Statement}
    (h : Describes s statements) (h' : Describes t statements') :
    Describes (s ++ t) (statements ++ statements') := by
  obtain ⟨ts, hscan, hread⟩ := h
  obtain ⟨us, hscan', hread'⟩ := h'
  refine ⟨ts ++ us, hscan.append hscan', fun rest hrest => ?_⟩
  obtain ⟨hstarts', hmore'⟩ := hread' rest hrest
  obtain ⟨hstarts, hmore⟩ := hread (us ++ rest) hstarts'
  rw [List.append_assoc]
  exact ⟨hstarts, fun more h => by rw [hmore _ (hmore' more h), List.append_assoc]⟩

theorem describes_flatMap {α : Type} {l : List α} {f : α → List Char} {g : α → List Statement}
    (h : ∀ x ∈ l, Describes (f x) (g x)) : Describes (l.flatMap f) (l.flatMap g) := by
  induction l with
  | nil => exact describes_nil
  | cons x l ih =>
    obtain ⟨hx, hl⟩ := List.forall_mem_cons.mp h
    exact hx.append (ih hl)

theorem read?_of_describes {text : String}
    (htext : text.toList = "digraph \x7b\n".toList ++ (s ++ "\x7d\n".toList))
    (h : Describes s statements) : read? text = some (Graph.empty.performAll statements) := by
  obtain ⟨ts, hscan, hread⟩ := h
  have hopen : Scans .between "digraph \x7b\n".toList [.word "digraph", .sign '\x7b'] .between :=
    rfl
  have hclose : Scans .between "\x7d\n".toList [.sign '\x7d'] .between := rfl
  have htokens :
      tokens? text = some (.word "digraph" :: .sign '\x7b' :: (ts ++ [.sign '\x7d'])) := by
    apply tokens?_of_scans
    rw [htext]
    exact hopen.append (hscan.append hclose)
  have hempty : statements? [.sign '\x7d'] = some [] := by rw [statements?, if_pos rfl]
  have hstatements := (hread [.sign '\x7d'] (by simp [Starts])).2 [] hempty
  rw [List.append_nil] at hstatements
  rw [read?, htokens]
  simp [digraph?, hstatements]

end Reading

section Performing

variable {graph : Graph} {id : String} {statement : Statement} {statements more : List Statement}

namespace Statement

def given : Statement → Attributes
  | defaults attributes => attributes
  | node _ _ => []
  | edge _ _ _ => []

def ids : Statement → List String
  | defaults _ => []
  | node id _ => [id]
  | edge source target _ => [source, target]

def edges : Statement → List Edge
  | defaults _ => []
  | node _ _ => []
  | edge source target attributes => [⟨source, target, attributes⟩]

/-- The statement gives no attributes to a single node. -/
def Bare : Statement → Prop
  | defaults _ => True
  | node _ attributes => attributes = []
  | edge _ _ _ => True

end Statement

/-- The default attributes where the node is first mentioned. -/
def inherited? (id : String) (defaults : Attributes) : List Statement → Option Attributes
  | [] => none
  | statement :: statements =>
    if id ∈ statement.ids then some defaults
    else inherited? id (defaults ++ statement.given) statements

theorem inherited?_append {defaults : Attributes} :
    inherited? id defaults (statements ++ more) = (inherited? id defaults statements).or
      (inherited? id (defaults ++ statements.flatMap Statement.given) more) := by
  induction statements generalizing defaults with
  | nil => rw [List.flatMap_nil, List.append_nil]; rfl
  | cons statement statements ih =>
    rw [List.cons_append, inherited?, inherited?, ih, List.flatMap_cons, ← List.append_assoc]
    split <;> rfl

theorem inherited?_eq_none {defaults : Attributes}
    (h : id ∉ statements.flatMap Statement.ids) : inherited? id defaults statements = none := by
  induction statements generalizing defaults with
  | nil => rfl
  | cons statement statements ih =>
    rw [List.flatMap_cons, List.mem_append, not_or] at h
    rw [inherited?, if_neg h.1, ih h.2]

theorem inherited?_of_constant {defaults : Attributes} (h : ∀ s ∈ statements, s.given = [])
    (hid : id ∈ statements.flatMap Statement.ids) :
    inherited? id defaults statements = some defaults := by
  induction statements with
  | nil => cases hid
  | cons statement statements ih =>
    obtain ⟨hgiven, hrest⟩ := List.forall_mem_cons.mp h
    rw [inherited?, hgiven, List.append_nil]
    split
    · rfl
    · next hfirst =>
      rw [List.flatMap_cons, List.mem_append] at hid
      exact ih hrest (hid.resolve_left hfirst)

namespace Graph

@[simp] theorem defaults_mention : (graph.mention id).defaults = graph.defaults := by
  unfold mention
  split <;> rfl

@[simp] theorem edges_mention : (graph.mention id).edges = graph.edges := by
  unfold mention
  split <;> rfl

theorem node?_mention {id' : String} : (graph.mention id).node? id' =
    (graph.node? id').or (if id' = id then some graph.defaults else none) := by
  unfold mention
  split
  · next h =>
    obtain ⟨attributes, hid⟩ := Option.isSome_iff_exists.mp h
    by_cases heq : id' = id
    · rw [heq, hid]; rfl
    · rw [if_neg heq, Option.or_none]
  · by_cases heq : id' = id
    · simp [node?, List.lookup_append, heq]
    · have hne : (id' == id) = false := beq_false_of_ne heq
      simp [node?, List.lookup_append, heq, List.lookup_cons, hne]

@[simp] theorem extend_nil : graph.extend id [] = graph := by
  simp [extend]

theorem defaults_perform (h : statement.Bare) :
    (graph.perform statement).defaults = graph.defaults ++ statement.given := by
  cases statement with
  | defaults => rfl
  | node id attributes =>
    obtain rfl : attributes = [] := h
    simp [perform, Statement.given]
  | edge => simp [perform, Statement.given]

theorem edges_perform (h : statement.Bare) :
    (graph.perform statement).edges = graph.edges ++ statement.edges := by
  cases statement with
  | defaults => simp [perform, Statement.edges]
  | node id attributes =>
    obtain rfl : attributes = [] := h
    simp [perform, Statement.edges]
  | edge => simp [perform, Statement.edges]

theorem node?_perform (h : statement.Bare) : (graph.perform statement).node? id =
    (graph.node? id).or (if id ∈ statement.ids then some graph.defaults else none) := by
  cases statement with
  | defaults => simp [perform, Statement.ids, node?]
  | node id' attributes =>
    obtain rfl : attributes = [] := h
    simp [perform, Statement.ids, node?_mention]
  | edge source target attributes =>
    have hnode : (graph.perform (.edge source target attributes)).node? id =
        ((graph.mention source).mention target).node? id := rfl
    rw [hnode, node?_mention, node?_mention, defaults_mention, Option.or_assoc]
    by_cases hs : id = source
    · by_cases ht : id = target <;> simp [Statement.ids, hs]
    · simp [Statement.ids, hs]

theorem performAll_cons :
    graph.performAll (statement :: statements) = (graph.perform statement).performAll statements :=
  rfl

theorem edges_performAll (h : ∀ s ∈ statements, s.Bare) :
    (graph.performAll statements).edges = graph.edges ++ statements.flatMap Statement.edges := by
  induction statements generalizing graph with
  | nil => exact (List.append_nil _).symm
  | cons statement statements ih =>
    obtain ⟨hfirst, hrest⟩ := List.forall_mem_cons.mp h
    rw [performAll_cons, ih hrest, edges_perform hfirst, List.flatMap_cons, List.append_assoc]

/-- A node keeps the default attributes with which it was created. -/
theorem node?_performAll (h : ∀ s ∈ statements, s.Bare) : (graph.performAll statements).node? id =
    (graph.node? id).or (inherited? id graph.defaults statements) := by
  induction statements generalizing graph with
  | nil => exact Option.or_none.symm
  | cons statement statements ih =>
    obtain ⟨hfirst, hrest⟩ := List.forall_mem_cons.mp h
    rw [performAll_cons, ih hrest, node?_perform hfirst, defaults_perform hfirst, Option.or_assoc,
      inherited?]
    split <;> rfl

end Graph

end Performing

end NameResolution.Dot

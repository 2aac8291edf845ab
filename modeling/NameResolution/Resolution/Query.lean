import NameResolution.Automaton.Matcher
import NameResolution.Path.Join
import NameResolution.ScopeGraph
import NameResolution.Multimap.Lemmas

namespace NameResolution

variable {L : Type} [DecidableEq L] [Label L]

structure Query (L : Type) [DecidableEq L] [Label L] where
  graph : ScopeGraph L
  automaton : Automaton L
  /-- Where every search starts, also that for an import. -/
  start : Matcher automaton
  /-- Whether a declaration fits a reference. -/
  fits : Occurrence → Occurrence → Bool

def Occurrence.sameName (reference declaration : Occurrence) : Bool :=
  reference.name == declaration.name

namespace ScopeGraph

def targets (graph : ScopeGraph L) : List Scope :=
  graph.edges.pairs.map (·.2) ++ graph.associations.pairs.map (·.2)

/-- The targets that a path has not visited. -/
def unvisited (graph : ScopeGraph L) (scopes : SortedSet Scope) : Nat :=
  graph.targets.countP (· ∉ scopes)

/-- The references outside a set. -/
def inactive (graph : ScopeGraph L) (active : SortedSet Occurrence) : Nat :=
  graph.homes.countP (·.1 ∉ active)

variable {graph : ScopeGraph L}

theorem mem_targets_of_edge {source target : Scope} {label : L}
    (h : target ∈ graph.edgesFrom source label) : target ∈ graph.targets :=
  List.mem_append_left _ (List.mem_map.mpr ⟨_, Multimap.mem_pairs.mpr h, rfl⟩)

theorem mem_targets_of_association {declaration : Occurrence} {target : Scope}
    (h : target ∈ graph.associatedWith declaration) : target ∈ graph.targets :=
  List.mem_append_right _ (List.mem_map.mpr ⟨_, Multimap.mem_pairs.mpr h, rfl⟩)

theorem countP_lt_countP {α : Type} {p q : α → Bool} {l : List α} {x : α} (hx : x ∈ l)
    (hp : p x = false) (hq : q x = true) (h : ∀ y, p y = true → q y = true) :
    l.countP p < l.countP q := by
  induction l with
  | nil => cases hx
  | cons y ys ih =>
    have hle : ys.countP p ≤ ys.countP q := List.countP_mono_left fun z _ => h z
    rcases List.mem_cons.mp hx with rfl | hx
    · rw [List.countP_cons_of_neg (by simp [hp]), List.countP_cons_of_pos hq]
      omega
    · have := ih hx
      simp only [List.countP_cons]
      cases hy : p y
      · simp only [Bool.false_eq_true, if_false]
        split <;> omega
      · simp only [if_true, h y hy]
        omega

/-- A set with a new target leaves fewer unvisited. -/
theorem unvisited_lt {scopes scopes' : SortedSet Scope} {target : Scope}
    (hmem : target ∈ graph.targets) (hold : target ∉ scopes) (hnew : target ∈ scopes')
    (h : ∀ s ∈ scopes, s ∈ scopes') : graph.unvisited scopes' < graph.unvisited scopes :=
  countP_lt_countP hmem (by simpa using hnew) (by simpa using hold) fun s hs => by
    simp only [decide_eq_true_eq] at *
    exact fun hs' => hs (h s hs')

/-- A step to a scope off the path leaves fewer targets unvisited. -/
theorem unvisited_lt_of_join {p p' : ReferencePath L} {step : ScopePath L}
    (hmem : step.target ∈ graph.targets) (h : p.join step = .ok p')
    (hold : step.target ∉ p.scopes) : graph.unvisited p'.scopes < graph.unvisited p.scopes :=
  unvisited_lt hmem hold ((Path.mem_scopes_of_join h).mpr (.inr step.target_mem))
    fun _ hs => (Path.mem_scopes_of_join h).mpr (.inl hs)

/-- A set with a new reference leaves fewer inactive. -/
theorem inactive_lt {active active' : SortedSet Occurrence} {reference : Occurrence} {scope : Scope}
    (hhome : graph.scopeOf? reference = some scope) (hold : reference ∉ active)
    (hnew : reference ∈ active') (h : ∀ o ∈ active, o ∈ active') :
    graph.inactive active' < graph.inactive active := by
  obtain ⟨l, r, hsplit, -⟩ := List.lookup_eq_some_iff.mp hhome
  have hmem : (reference, scope) ∈ graph.homes := by simp [hsplit]
  exact countP_lt_countP hmem (by simpa using hnew) (by simpa using hold) fun o ho => by
    simp only [decide_eq_true_eq] at *
    exact fun ho' => ho (h _ ho')

end ScopeGraph

namespace Query

variable (q : Query L)

/-- The resolutions that end in the scope where `path` does, in the order of declarations. -/
def endings (path : ReferencePath L) (m : Matcher q.automaton) : List (ResolutionPath L) :=
  if m.accepting then
    (q.graph.declarationsOf path.target).toList.filterMap fun d =>
      if q.fits path.start d then (path.join (.ofDeclaration path.target d)).toOption else none
  else []

end Query

end NameResolution

import NameResolution.Path.Join

namespace NameResolution

variable {L : Type}

def Step.path : Step L → ScopePath L
  | edge source label target => .edge source label target
  | named source label resolution target => .named source label resolution target

namespace SortedSet

variable {α : Type} [Ord α] [Std.TransOrd α] [Std.LawfulEqOrd α]

theorem union_singleton {s : SortedSet α} {x : α} (h : x ∈ s) : s.union (singleton x) = s := by
  apply ext
  intro y
  simp only [mem_union, mem_singleton, or_iff_left_iff_imp]
  rintro rfl
  exact h

theorem union_insert_singleton {s : SortedSet α} {x y : α} (h : x ∈ s) :
    s.union ((singleton x).insert y) = s.insert y := by
  apply ext
  intro z
  simp only [mem_union, mem_insert, mem_singleton]
  constructor
  · rintro (hz | rfl | rfl)
    · exact .inr hz
    · exact .inl rfl
    · exact .inr h
  · rintro (rfl | hz)
    · exact .inr (.inl rfl)
    · exact .inl hz

end SortedSet

attribute [ext] Path

namespace Path

def after (p : ReferencePath L) (step : Step L) : ReferencePath L where
  start := p.start
  stop := ()
  source := p.source
  target := step.target
  steps := p.steps ++ [step]
  joins := p.joins + 1
  visits := p.visits + 1
  scopes := p.scopes.insert step.target
  references := p.references.union step.path.references
  source_mem := SortedSet.mem_insert.mpr (.inr p.source_mem)
  target_mem := SortedSet.mem_insert.mpr (.inl rfl)
  scopes_le_visits :=
    Nat.le_trans SortedSet.size_insert_le (Nat.succ_le_succ p.scopes_le_visits)

def afterAll (p : ReferencePath L) (steps : List (Step L)) : ReferencePath L :=
  steps.foldl after p

def declaring (p : ReferencePath L) (declaration : Occurrence) : ResolutionPath L :=
  { p with stop := declaration, joins := p.joins + 1 }

/-- No scope is visited twice. -/
def Simple (p : ReferencePath L) : Prop := p.visits = p.scopes.size

variable {p p' : ReferencePath L} {step : Step L} {steps : List (Step L)}

@[simp] theorem start_afterAll : (p.afterAll steps).start = p.start := by
  unfold afterAll
  induction steps generalizing p with
  | nil => rfl
  | cons step steps ih => exact ih

@[simp] theorem source_afterAll : (p.afterAll steps).source = p.source := by
  unfold afterAll
  induction steps generalizing p with
  | nil => rfl
  | cons step steps ih => exact ih

@[simp] theorem steps_afterAll : (p.afterAll steps).steps = p.steps ++ steps := by
  unfold afterAll
  induction steps generalizing p with
  | nil => simp
  | cons step steps ih =>
    have hrest : (steps.foldl after (p.after step)).steps = (p.steps ++ [step]) ++ steps := ih
    simpa using hrest

section Ends

variable {declaration reference : Occurrence} {scope : Scope}

@[simp] theorem start_declaring : (p.declaring declaration).start = p.start := rfl

@[simp] theorem source_declaring : (p.declaring declaration).source = p.source := rfl

@[simp] theorem steps_declaring : (p.declaring declaration).steps = p.steps := rfl

@[simp] theorem start_ofReference :
    (ofReference reference scope : ReferencePath L).start = reference := rfl

@[simp] theorem source_ofReference :
    (ofReference reference scope : ReferencePath L).source = scope := rfl

@[simp] theorem steps_ofReference : (ofReference reference scope : ReferencePath L).steps = [] :=
  rfl

end Ends

/-- A resolution that a step is taken by is part of the path. -/
theorem sizeOf_lt_of_named_mem {r resolution : ResolutionPath L} {source target : Scope} {label : L}
    (h : Step.named source label resolution target ∈ r.steps) : sizeOf resolution < sizeOf r := by
  have hlt := List.sizeOf_lt_of_mem h
  cases r
  simp only [Path.mk.sizeOf_spec, Step.named.sizeOf_spec] at *
  omega

theorem references_subset_afterAll {o : Occurrence} (h : o ∈ p.references) :
    o ∈ (p.afterAll steps).references := by
  unfold afterAll
  induction steps generalizing p with
  | nil => exact h
  | cons step steps ih => exact ih (SortedSet.mem_union.mpr (.inl h))

theorem ofReference_simple (reference : Occurrence) (scope : Scope) :
    (ofReference reference scope : ReferencePath L).Simple := rfl

theorem Simple.after (h : p.Simple) (hnew : step.target ∉ p.scopes) : (p.after step).Simple := by
  show p.visits + 1 = (p.scopes.insert step.target).size
  rw [SortedSet.size_insert_of_not_mem hnew, h]

theorem scopes_path : step.path.scopes = (SortedSet.singleton step.source).insert step.target := by
  cases step <;> rfl

theorem visits_path : step.path.visits = 2 := by
  cases step <;> rfl

theorem source_path : step.path.source = step.source := by
  cases step <;> rfl

theorem target_path : step.path.target = step.target := by
  cases step <;> rfl

theorem steps_path : step.path.steps = [step] := by
  cases step <;> rfl

theorem joins_path : step.path.joins = 0 := by
  cases step <;> rfl

/-- Ends that meet can be joined unless that adds a visit but no scope. -/
theorem exists_join {σ A B : Type} {l : Path σ A Unit} {r : Path σ Unit B}
    (hmeet : l.target = r.source)
    (h : l.visits + r.visits - 1 ≤ (l.scopes.union r.scopes).size) : ∃ p, l.join r = .ok p := by
  unfold join
  rw [dif_neg (not_not_intro hmeet)]
  dsimp only
  rw [if_neg (Nat.not_lt.mpr h)]
  exact ⟨_, rfl⟩

theorem eq_after_of_join (h : p.join step.path = .ok p') : p' = p.after step := by
  have hmeet := ends_meet h
  rw [source_path] at hmeet
  obtain ⟨hstart, -, hsource, htarget, hsteps, hjoins, hvisits, hscopes, hreferences, -⟩ :=
    join_ok h
  rw [target_path] at htarget
  rw [steps_path] at hsteps
  rw [joins_path] at hjoins
  rw [visits_path] at hvisits
  rw [scopes_path, ← hmeet, SortedSet.union_insert_singleton p.target_mem] at hscopes
  exact Path.ext hstart rfl hsource htarget hsteps hjoins hvisits hscopes hreferences

/-- A step can be taken exactly if it goes on from the end of the path to a scope off the path. -/
theorem join_path_eq_ok_iff (h : p.Simple) :
    p.join step.path = .ok p' ↔
      step.source = p.target ∧ step.target ∉ p.scopes ∧ p' = p.after step := by
  constructor
  · intro hjoin
    have hmeet := ends_meet hjoin
    have hnew := target_not_mem_of_join hjoin
      (by simp [scopes_path, source_path, target_path, or_comm]) visits_path
    rw [source_path] at hmeet
    rw [target_path] at hnew
    exact ⟨hmeet.symm, hnew, eq_after_of_join hjoin⟩
  · rintro ⟨hmeet, hnew, rfl⟩
    -- one more scope for one more visit, so the join is no cycle
    have hsize : p.visits + step.path.visits - 1 ≤ (p.scopes.union step.path.scopes).size := by
      rw [scopes_path, hmeet, SortedSet.union_insert_singleton p.target_mem,
        SortedSet.size_insert_of_not_mem hnew, visits_path, h]
      omega
    obtain ⟨p', hp'⟩ := exists_join (by rw [source_path, hmeet]) hsize
    rw [hp', eq_after_of_join hp']

/-- Every declaration of the last scope can be added at the end. -/
theorem join_ofDeclaration (h : p.Simple) (declaration : Occurrence) :
    p.join (.ofDeclaration p.target declaration) = .ok (p.declaring declaration) := by
  have hscopes : p.scopes.union (SortedSet.singleton p.target) = p.scopes :=
    SortedSet.union_singleton p.target_mem
  have hsize : p.visits + 1 - 1 ≤ (p.scopes.union (SortedSet.singleton p.target)).size := by
    rw [hscopes, h]
    omega
  obtain ⟨p', hp'⟩ := exists_join (r := .ofDeclaration p.target declaration) rfl hsize
  obtain ⟨hstart, hstop, hsource, htarget, hsteps, hjoins, hvisits, hscopes', hreferences, -⟩ :=
    join_ok hp'
  replace hsteps : p'.steps = p.steps := hsteps.trans (List.append_nil _)
  replace hscopes' : p'.scopes = p.scopes := hscopes'.trans hscopes
  have heq : p' = p.declaring declaration :=
    Path.ext hstart hstop hsource htarget hsteps hjoins hvisits hscopes' hreferences
  rw [hp', heq]

end Path

end NameResolution

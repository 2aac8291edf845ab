import NameResolution.Path.Basic

namespace NameResolution.Path

variable {σ A B : Type}

inductive JoinError where
  /-- The left path does not end where the right one starts. -/
  | scopeMismatch (left right : Scope)
  /-- The join would visit each of these scopes more than once. -/
  | cyclic (scopes : List Scope)

/-- The text of an error. No scope stands out if several would be visited again. -/
def JoinError.message? : JoinError → Option String
  | scopeMismatch left right => some
    ("cannot join a path ending in " ++ left.render ++ " to a path starting in " ++ right.render)
  | cyclic [scope] => some ("path would visit " ++ scope.render ++ " more than once")
  | cyclic _ => none

/-- The scopes on both paths other than the junction, or the junction if there are none. -/
def revisited (l : Path σ A Unit) (r : Path σ Unit B) : List Scope :=
  match l.scopes.toList.filter fun s => s ≠ l.target ∧ s ∈ r.scopes with
  | [] => [l.target]
  | scopes => scopes

/-- One path followed by another; the junction is the only position that they share. -/
def join (l : Path σ A Unit) (r : Path σ Unit B) : Except JoinError (Path σ A B) :=
  if h : l.target ≠ r.source then .error (.scopeMismatch l.target r.source)
  else
    let scopes := l.scopes.union r.scopes
    let visits := l.visits + r.visits - 1
    if scopes.size < visits then .error (.cyclic (l.revisited r))
    else .ok {
      start := l.start
      stop := r.stop
      source := l.source
      target := r.target
      steps := l.steps ++ r.steps
      joins := l.joins + 1 + r.joins
      visits := visits
      scopes := scopes
      references := l.references.union r.references
      source_mem := SortedSet.mem_union.mpr (.inl l.source_mem)
      target_mem := SortedSet.mem_union.mpr (.inr r.target_mem)
      scopes_le_visits := by
        have hr : l.target ∈ r.scopes := Decidable.not_not.mp h ▸ r.source_mem
        have := SortedSet.size_union_lt l.target_mem hr
        have := l.scopes_le_visits
        have := r.scopes_le_visits
        show scopes.size ≤ l.visits + r.visits - 1
        simp only [scopes]
        omega }

theorem ends_meet {l : Path σ A Unit} {r : Path σ Unit B} {p : Path σ A B}
    (h : l.join r = .ok p) : l.target = r.source := by
  unfold join at h
  split at h
  · cases h
  · next hm => exact Decidable.not_not.mp hm

theorem join_ok {l : Path σ A Unit} {r : Path σ Unit B} {p : Path σ A B} (h : l.join r = .ok p) :
    p.start = l.start ∧ p.stop = r.stop ∧ p.source = l.source ∧ p.target = r.target ∧
      p.steps = l.steps ++ r.steps ∧ p.joins = l.joins + 1 + r.joins ∧
      p.visits = l.visits + r.visits - 1 ∧ p.scopes = l.scopes.union r.scopes ∧
      p.references = l.references.union r.references ∧ p.visits ≤ p.scopes.size := by
  unfold join at h
  split at h
  · cases h
  · dsimp only at h
    split at h
    · cases h
    · next hv =>
      cases h
      exact ⟨rfl, rfl, rfl, rfl, rfl, rfl, rfl, rfl, rfl, Nat.not_lt.mp hv⟩

/-- A join that takes one step reaches a scope that was not visited before. -/
theorem target_not_mem_of_join {l : Path σ A Unit} {r : Path σ Unit B} {p : Path σ A B}
    (h : l.join r = .ok p) (hr : ∀ s ∈ r.scopes, s = r.source ∨ s = r.target)
    (hv : r.visits = 2) : r.target ∉ l.scopes := by
  intro hmem
  have hmeet := ends_meet h
  obtain ⟨-, -, -, -, -, -, hvisits, hscopes, -, hle⟩ := join_ok h
  have hsame : p.scopes.size ≤ l.scopes.size := by
    rw [hscopes]
    refine SortedSet.size_le_of_subset fun s hs => ?_
    rcases SortedSet.mem_union.mp hs with hs | hs
    · exact hs
    · rcases hr s hs with e | e
      · exact e ▸ hmeet ▸ l.target_mem
      · exact e ▸ hmem
  have := l.scopes_le_visits
  omega

theorem target_not_mem_of_join_edge {L : Type} {p q : ReferencePath L} {source target : Scope}
    {label : L} (h : p.join (.edge source label target) = .ok q) : target ∉ p.scopes := by
  refine target_not_mem_of_join h (fun s hs => ?_) rfl
  simpa [edge, single, or_comm] using hs

theorem target_not_mem_of_join_named {L : Type} {p q : ReferencePath L} {source target : Scope}
    {label : L} {r : ResolutionPath L} (h : p.join (.named source label r target) = .ok q) :
    target ∉ p.scopes := by
  refine target_not_mem_of_join h (fun s hs => ?_) rfl
  simpa [named, single, or_comm] using hs

theorem mem_scopes_of_join {l : Path σ A Unit} {r : Path σ Unit B} {p : Path σ A B} {s : Scope}
    (h : l.join r = .ok p) : s ∈ p.scopes ↔ s ∈ l.scopes ∨ s ∈ r.scopes := by
  rw [(join_ok h).2.2.2.2.2.2.2.1, SortedSet.mem_union]

end NameResolution.Path

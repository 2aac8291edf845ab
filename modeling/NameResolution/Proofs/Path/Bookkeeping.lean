import Mathlib.Data.List.Perm.Subperm
import NameResolution.Path.Text
import NameResolution.Proofs.Path.Bracketing

namespace NameResolution

variable {L : Type} {a b : End}

instance (a : End) : Endpoint a.Value where
  occurrence? :=
    match a with
    | .scope => fun _ => none
    | .occurrence => some

theorem SortedSet.nodup_of_length_le_size {α : Type} [Ord α] [Std.TransOrd α] [Std.LawfulEqOrd α]
    {s : SortedSet α} {l : List α} (h : ∀ x ∈ s, x ∈ l) (hle : l.length ≤ s.size) : l.Nodup :=
  ((s.nodup_toList.subperm h).perm_of_length_le hle).nodup_iff.mp s.nodup_toList

namespace Path

/-- Each step starts where the one before it ends, the first at one scope and the last ending at the
other. -/
def Chains : Scope → List (Step L) → Scope → Prop
  | s, [], t => s = t
  | s, step :: steps, t => step.source = s ∧ Chains step.target steps t

theorem Chains.append {s t u : Scope} {steps steps' : List (Step L)} (h : Chains s steps t)
    (h' : Chains t steps' u) : Chains s (steps ++ steps') u := by
  induction steps generalizing s with
  | nil => exact h ▸ h'
  | cons step steps ih => exact ⟨h.1, ih h.2⟩

section Consistency

variable {A B : Type} [Endpoint A]

structure Consistent (p : Path (Step L) A B) : Prop where
  chains : Chains p.source p.steps p.target
  visits : p.visits = p.steps.length + 1
  scopes : ∀ s, s ∈ p.scopes ↔ s = p.source ∨ ∃ step ∈ p.steps, step.target = s
  references : ∀ o, o ∈ p.references ↔ p.reference? = some o ∨
    ∃ source label resolution target,
      .named source label resolution target ∈ p.steps ∧ o ∈ resolution.references

theorem consistent_stay {start : A} {scope : Scope} {references : SortedSet Occurrence} {stop : B}
    (h : ∀ o, o ∈ references ↔ Endpoint.occurrence? start = some o) :
    Consistent (stay start scope references stop : Path (Step L) A B) where
  chains := rfl
  visits := rfl
  scopes := by simp [stay]
  references := by simp [stay, reference?, h]

theorem consistent_single (step : Step L) {references : SortedSet Occurrence}
    (h : ∀ o, o ∈ references ↔ ∃ source label resolution target,
      .named source label resolution target = step ∧ o ∈ resolution.references) :
    Consistent (single step.source step references step.target) where
  chains := ⟨rfl, rfl⟩
  visits := rfl
  scopes := by simp [single, eq_comm, or_comm]
  references := by simp [single, reference?, Endpoint.occurrence?, h]

theorem IsJoin.consistent {l : Path (Step L) A Unit} {r : Path (Step L) Unit B}
    {p : Path (Step L) A B} (h : IsJoin l r p) (hl : Consistent l) (hr : Consistent r) :
    Consistent p where
  chains := by
    rw [h.source, h.steps, h.target]
    exact hl.chains.append (h.meet ▸ hr.chains)
  visits := by
    rw [h.visits, hl.visits, hr.visits, h.steps, List.length_append]
    omega
  scopes := by
    intro s
    -- the paths meet, so the source of the right one is a scope of the left one
    have hsource : r.source = l.source ∨ ∃ step ∈ l.steps, step.target = r.source :=
      (hl.scopes r.source).mp (h.meet ▸ l.target_mem)
    rw [h.scopes, SortedSet.mem_union, hl.scopes, hr.scopes, h.source, h.steps]
    simp only [List.mem_append, or_and_right, exists_or]
    grind
  references := by
    intro o
    have hreference : p.reference? = l.reference? := congrArg Endpoint.occurrence? h.start
    have hnone : r.reference? = none := rfl
    rw [h.references, SortedSet.mem_union, hl.references, hr.references, h.steps, hreference, hnone]
    simp only [List.mem_append, or_and_right, exists_or]
    grind

/-- A path that visits as many scopes as there are positions on it visits none of them twice. -/
theorem Consistent.nodup {p : Path (Step L) A B} (h : Consistent p)
    (hacyclic : p.visits ≤ p.scopes.size) : (p.source :: p.steps.map Step.target).Nodup := by
  apply SortedSet.nodup_of_length_le_size (s := p.scopes)
  · intro s hs
    simpa using (h.scopes s).mp hs
  · simpa [h.visits] using hacyclic

end Consistency

/-- The paths without joins. -/
inductive Atom (L : Type) : End → End → Type
  | empty (s : Scope) : Atom L .scope .scope
  | edge (s : Scope) (l : L) (t : Scope) : Atom L .scope .scope
  | named (s : Scope) (l : L) (p : ResolutionPath L) (t : Scope) : Atom L .scope .scope
  | ofReference (o : Occurrence) (s : Scope) : Atom L .occurrence .scope
  | ofDeclaration (s : Scope) (o : Occurrence) : Atom L .scope .occurrence

namespace Atom

def path {a b : End} : Atom L a b → Between L a b
  | empty s => Path.empty s
  | edge s l t => Path.edge s l t
  | named s l p t => Path.named s l p t
  | ofReference o s => Path.ofReference o s
  | ofDeclaration s o => Path.ofDeclaration s o

def step? {a b : End} : Atom L a b → Option (Step L)
  | edge s l t => some (.edge s l t)
  | named s l p t => some (.named s l p t)
  | _ => none

theorem steps_path (atom : Atom L a b) : atom.path.steps = atom.step?.toList := by
  cases atom <;> rfl

theorem joins_path (atom : Atom L a b) : atom.path.joins = 0 := by
  cases atom <;> rfl

theorem consistent_path (atom : Atom L a b) : Consistent atom.path := by
  cases atom with
  | empty s => exact consistent_stay fun o => iff_of_false SortedSet.not_mem_empty nofun
  | edge s l t =>
    exact consistent_single (.edge s l t) (by simp [SortedSet.not_mem_empty])
  | named s l p t => exact consistent_single (.named s l p t) (by simp)
  | ofReference o s =>
    refine consistent_stay fun o' => SortedSet.mem_singleton.trans ?_
    exact ⟨fun h => h ▸ rfl, fun h => (Option.some.inj h).symm⟩
  | ofDeclaration s o => exact consistent_stay fun o => iff_of_false SortedSet.not_mem_empty nofun

end Atom

/-- The paths that a path was built from and that are still to be gone through, the next one
first. -/
abbrev Pending (L : Type) := List (Σ a b : End, Bracketing (Atom L) a b)

namespace Bracketing

def size {P : End → End → Type} {a b : End} : Bracketing P a b → Nat
  | piece _ => 1
  | join l r => l.size + r.size + 1

def steps {a b : End} : Bracketing (Atom L) a b → List (Step L)
  | piece atom => atom.step?.toList
  | join l r => l.steps ++ r.steps

end Bracketing

namespace Pending

def size : Pending L → Nat
  | [] => 0
  | c :: rest => c.2.2.size + size rest

def next? : Pending L → Option (Step L × Pending L)
  | [] => none
  | ⟨_, _, .piece atom⟩ :: rest =>
    match atom.step? with
    | some step => some (step, rest)
    | none => next? rest
  | ⟨_, _, .join l r⟩ :: rest => next? (⟨_, _, l⟩ :: ⟨_, _, r⟩ :: rest)
termination_by pending => pending.size
decreasing_by
  all_goals simp only [size, Bracketing.size]; omega

/-- Taking the next step until there is none gives these steps. -/
inductive Yields : Pending L → List (Step L) → Prop
  | done {pending : Pending L} (h : pending.next? = none) : Yields pending []
  | step {pending rest : Pending L} {step : Step L} {steps : List (Step L)}
      (h : pending.next? = some (step, rest)) (hrest : Yields rest steps) :
      Yields pending (step :: steps)

theorem Yields.of_next?_eq {pending pending' : Pending L} {steps : List (Step L)}
    (h : Yields pending' steps) (heq : pending.next? = pending'.next?) : Yields pending steps := by
  cases h with
  | done h => exact .done (heq.trans h)
  | step h hrest => exact .step (heq.trans h) hrest

theorem yields_steps (pending : Pending L) :
    Yields pending (pending.flatMap fun c => c.2.2.steps) := by
  match pending with
  | [] => exact .done (by rw [next?])
  | ⟨_, _, .piece atom⟩ :: rest =>
    have hrest := yields_steps rest
    rw [List.flatMap_cons, Bracketing.steps]
    cases hstep : atom.step? with
    | some step => exact .step (by rw [next?, hstep]) hrest
    | none => exact hrest.of_next?_eq (by rw [next?, hstep])
  | ⟨_, _, .join l r⟩ :: rest =>
    have hparts := yields_steps (⟨_, _, l⟩ :: ⟨_, _, r⟩ :: rest)
    rw [List.flatMap_cons, List.flatMap_cons, ← List.append_assoc] at hparts
    rw [List.flatMap_cons, Bracketing.steps]
    exact hparts.of_next?_eq (by rw [next?])
termination_by pending.size
decreasing_by
  all_goals simp only [size, Bracketing.size]; omega

end Pending

namespace Bracketing

theorem steps_of_build {c : Bracketing (Atom L) a b} {p : Between L a b}
    (h : (c.map Atom.path).build = .ok p) : p.steps = c.steps := by
  induction c with
  | piece atom =>
    obtain rfl := Except.ok.inj h
    exact atom.steps_path
  | join l r hl hr =>
    obtain ⟨q, q', hq, hq', hp⟩ := build_join_eq_ok_iff.mp h
    rw [steps, (isJoin_of_join hp).steps, hl hq, hr hq']

theorem joins_of_build {c : Bracketing (Atom L) a b} {p : Between L a b}
    (h : (c.map Atom.path).build = .ok p) : p.joins = c.joins := by
  induction c with
  | piece atom =>
    obtain rfl := Except.ok.inj h
    exact atom.joins_path
  | join l r hl hr =>
    obtain ⟨q, q', hq, hq', hp⟩ := build_join_eq_ok_iff.mp h
    rw [joins, (isJoin_of_join hp).joins, hl hq, hr hq']

theorem consistent_of_build {c : Bracketing (Atom L) a b} {p : Between L a b}
    (h : (c.map Atom.path).build = .ok p) : Consistent p := by
  induction c with
  | piece atom =>
    obtain rfl := Except.ok.inj h
    exact atom.consistent_path
  | join l r hl hr =>
    obtain ⟨q, q', hq, hq', hp⟩ := build_join_eq_ok_iff.mp h
    exact (isJoin_of_join hp).consistent (hl hq) (hr hq')

theorem acyclic_of_build {c : Bracketing (Atom L) a b} {p : Between L a b}
    (h : (c.map Atom.path).build = .ok p) (hjoins : 0 < c.joins) : p.visits ≤ p.scopes.size := by
  cases c with
  | piece atom => exact absurd hjoins (Nat.lt_irrefl 0)
  | join l r =>
    obtain ⟨q, q', -, -, hp⟩ := build_join_eq_ok_iff.mp h
    exact (isJoin_of_join hp).acyclic

/-- A path that is built by joins from paths without joins: its steps are those that are met when its
pieces are gone through, and they lead from its source to its target. There is one more visit than
there are steps, the scopes are the source and the targets of the steps, and the references are the
one that the path starts at, if any, and those that the resolutions on its way go through. If there
is a join at all then no scope is visited twice. -/
theorem build_bookkeeping {c : Bracketing (Atom L) a b} {p : Between L a b}
    (h : (c.map Atom.path).build = .ok p) :
    Pending.Yields [⟨a, b, c⟩] p.steps ∧ Chains p.source p.steps p.target ∧
      p.visits = p.steps.length + 1 ∧
      (∀ s, s ∈ p.scopes ↔ s = p.source ∨ ∃ step ∈ p.steps, step.target = s) ∧
      (∀ o, o ∈ p.references ↔ p.reference? = some o ∨
        ∃ source label resolution target,
          .named source label resolution target ∈ p.steps ∧ o ∈ resolution.references) ∧
      p.joins = c.joins ∧ (0 < c.joins → (p.source :: p.steps.map Step.target).Nodup) := by
  have hconsistent := consistent_of_build h
  refine ⟨?_, hconsistent.chains, hconsistent.visits, hconsistent.scopes, hconsistent.references,
    joins_of_build h, fun hjoins => hconsistent.nodup (acyclic_of_build h hjoins)⟩
  have hyields := Pending.yields_steps [⟨a, b, c⟩]
  rw [List.flatMap_singleton, ← steps_of_build h] at hyields
  exact hyields

def throughImport : Bracketing (Atom Char) .occurrence .occurrence :=
  .join (.piece (.ofReference ⟨"x", 2⟩ ⟨0⟩))
    (.join (.piece (.named ⟨0⟩ 'I' ((Path.ofReference ⟨"M", 1⟩ ⟨0⟩).declaring ⟨"M", 0⟩) ⟨1⟩))
      (.piece (.ofDeclaration ⟨1⟩ ⟨"x", 3⟩)))

theorem build_bookkeeping_throughImport :
    ∃ p, (throughImport.map Atom.path).build = .ok p ∧ 0 < throughImport.joins ∧
      p.references.toList = [⟨"M", 1⟩, ⟨"x", 2⟩] ∧
      Pending.Yields [⟨_, _, throughImport⟩] p.steps ∧ Chains p.source p.steps p.target ∧
      p.visits = p.steps.length + 1 ∧ (p.source :: p.steps.map Step.target).Nodup := by
  have hbuild : ∃ p, (throughImport.map Atom.path).build = .ok p := ⟨_, rfl⟩
  obtain ⟨p, hp⟩ := hbuild
  obtain ⟨hyields, hchains, hvisits, -, -, -, hnodup⟩ := build_bookkeeping hp
  have hjoins : 0 < throughImport.joins := by decide
  refine ⟨p, hp, hjoins, ?_, hyields, hchains, hvisits, hnodup hjoins⟩
  obtain rfl := Except.ok.inj hp
  decide

end Bracketing

end Path

end NameResolution

import NameResolution.Proofs.Outcome
import NameResolution.Proofs.Path.Sameness
import NameResolution.Proofs.Path.Steps

namespace NameResolution

theorem SortedSet.union_assoc {α : Type} [Ord α] [Std.TransOrd α] [Std.LawfulEqOrd α]
    (s t u : SortedSet α) : (s.union t).union u = s.union (t.union u) := by
  apply SortedSet.ext
  intro x
  simp only [SortedSet.mem_union, or_assoc]

/-- What stands at an end of a path: a scope alone, or an occurrence in it. -/
inductive End where
  | scope
  | occurrence

def End.Value : End → Type
  | scope => Unit
  | occurrence => Occurrence

instance (a : End) : DecidableEq a.Value :=
  match a with
  | .scope => inferInstanceAs (DecidableEq Unit)
  | .occurrence => inferInstanceAs (DecidableEq Occurrence)

namespace Path

section Joins

variable {σ A B : Type} {l : Path σ A Unit} {m : Path σ Unit Unit} {r : Path σ Unit B}

structure IsJoin (l : Path σ A Unit) (r : Path σ Unit B) (p : Path σ A B) : Prop where
  meet : l.target = r.source
  acyclic : p.visits ≤ p.scopes.size
  start : p.start = l.start
  stop : p.stop = r.stop
  source : p.source = l.source
  target : p.target = r.target
  steps : p.steps = l.steps ++ r.steps
  joins : p.joins = l.joins + 1 + r.joins
  visits : p.visits = l.visits + r.visits - 1
  scopes : p.scopes = l.scopes.union r.scopes
  references : p.references = l.references.union r.references

theorem isJoin_of_join {p : Path σ A B} (h : l.join r = .ok p) : IsJoin l r p := by
  obtain ⟨hstart, hstop, hsource, htarget, hsteps, hjoins, hvisits, hscopes, hreferences,
    hacyclic⟩ := join_ok h
  exact ⟨ends_meet h, hacyclic, hstart, hstop, hsource, htarget, hsteps, hjoins, hvisits, hscopes,
    hreferences⟩

theorem IsJoin.unique {p p' : Path σ A B} (h : IsJoin l r p) (h' : IsJoin l r p') : p = p' :=
  Path.ext (h.start.trans h'.start.symm) (h.stop.trans h'.stop.symm)
    (h.source.trans h'.source.symm) (h.target.trans h'.target.symm)
    (h.steps.trans h'.steps.symm) (h.joins.trans h'.joins.symm) (h.visits.trans h'.visits.symm)
    (h.scopes.trans h'.scopes.symm) (h.references.trans h'.references.symm)

theorem join_eq_ok_iff {p : Path σ A B} : l.join r = .ok p ↔ IsJoin l r p := by
  constructor
  · exact isJoin_of_join
  · intro h
    obtain ⟨p', hp'⟩ := exists_join h.meet (h.visits ▸ h.scopes ▸ h.acyclic)
    rw [hp', (isJoin_of_join hp').unique h]

theorem visits_pos (p : Path σ A B) : 0 < p.visits :=
  Nat.lt_of_lt_of_le (List.length_pos_of_mem p.source_mem) p.scopes_le_visits

theorem isJoin_assoc {lm : Path σ A Unit} {mr : Path σ Unit B} {p : Path σ A B}
    (hlm : IsJoin l m lm) (hmr : IsJoin m r mr) : IsJoin lm r p ↔ IsJoin l mr p := by
  have hstart : lm.start = l.start := hlm.start
  have hstop : mr.stop = r.stop := hmr.stop
  have hmeetl : lm.target = r.source := hlm.target.trans hmr.meet
  have hmeetr : l.target = mr.source := hlm.meet.trans hmr.source.symm
  have hsteps : lm.steps ++ r.steps = l.steps ++ mr.steps := by
    rw [hlm.steps, hmr.steps, List.append_assoc]
  have hjoins : lm.joins + 1 + r.joins = l.joins + 1 + mr.joins := by
    rw [hlm.joins, hmr.joins]
    omega
  -- each junction is counted twice, and the middle path visits at least one scope
  have hvisits : lm.visits + r.visits - 1 = l.visits + mr.visits - 1 := by
    have := m.visits_pos
    rw [hlm.visits, hmr.visits]
    omega
  have hscopes : lm.scopes.union r.scopes = l.scopes.union mr.scopes := by
    rw [hlm.scopes, hmr.scopes, SortedSet.union_assoc]
  have hreferences : lm.references.union r.references = l.references.union mr.references := by
    rw [hlm.references, hmr.references, SortedSet.union_assoc]
  constructor
  · intro h
    exact ⟨hmeetr, h.acyclic, h.start.trans hstart, h.stop.trans hstop.symm,
      h.source.trans hlm.source, h.target.trans hmr.target.symm, h.steps.trans hsteps,
      h.joins.trans hjoins, h.visits.trans hvisits, h.scopes.trans hscopes,
      h.references.trans hreferences⟩
  · intro h
    exact ⟨hmeetl, h.acyclic, h.start.trans hstart.symm, h.stop.trans hstop,
      h.source.trans hlm.source.symm, h.target.trans hmr.target, h.steps.trans hsteps.symm,
      h.joins.trans hjoins.symm, h.visits.trans hvisits.symm, h.scopes.trans hscopes.symm,
      h.references.trans hreferences.symm⟩

/-- What is joined on the left cannot make up for a scope that is visited twice further on. -/
theorem exists_join_right {lm : Path σ A Unit} {p : Path σ A B} (hlm : IsJoin l m lm)
    (hp : IsJoin lm r p) : ∃ mr, IsJoin m r mr := by
  have hshared : l.target ∈ m.scopes.union r.scopes :=
    SortedSet.mem_union.mpr (.inl (hlm.meet ▸ m.source_mem))
  have hlt := SortedSet.size_union_lt l.target_mem hshared
  have hsize := hp.acyclic
  rw [hp.visits, hlm.visits, hp.scopes, hlm.scopes, SortedSet.union_assoc] at hsize
  have hle : m.visits + r.visits - 1 ≤ (m.scopes.union r.scopes).size := by
    have := l.scopes_le_visits
    have := m.visits_pos
    omega
  obtain ⟨mr, hmr⟩ := exists_join (hlm.target.symm.trans hp.meet) hle
  exact ⟨mr, isJoin_of_join hmr⟩

theorem exists_join_left {mr : Path σ Unit B} {p : Path σ A B} (hmr : IsJoin m r mr)
    (hp : IsJoin l mr p) : ∃ lm, IsJoin l m lm := by
  have hshared : m.target ∈ l.scopes.union m.scopes :=
    SortedSet.mem_union.mpr (.inr m.target_mem)
  have hlt := SortedSet.size_union_lt hshared (hmr.meet ▸ r.source_mem)
  have hsize := hp.acyclic
  rw [hp.visits, hmr.visits, hp.scopes, hmr.scopes, ← SortedSet.union_assoc] at hsize
  have hle : l.visits + m.visits - 1 ≤ (l.scopes.union m.scopes).size := by
    have := r.scopes_le_visits
    have := m.visits_pos
    omega
  obtain ⟨lm, hlm⟩ := exists_join (hp.meet.trans hmr.source) hle
  exact ⟨lm, isJoin_of_join hlm⟩

theorem join_assoc {p : Path σ A B} :
    (∃ lm, l.join m = .ok lm ∧ lm.join r = .ok p) ↔
      ∃ mr, m.join r = .ok mr ∧ l.join mr = .ok p := by
  simp only [join_eq_ok_iff]
  constructor
  · rintro ⟨lm, hlm, hp⟩
    obtain ⟨mr, hmr⟩ := exists_join_right hlm hp
    exact ⟨mr, hmr, (isJoin_assoc hlm hmr).mp hp⟩
  · rintro ⟨mr, hmr, hp⟩
    obtain ⟨lm, hlm⟩ := exists_join_left hmr hp
    exact ⟨lm, hlm, (isJoin_assoc hlm hmr).mpr hp⟩

end Joins

/-- The four kinds of paths by what stands at their ends. -/
abbrev Between (L : Type) (a b : End) := Path (Step L) a.Value b.Value

/-- Pieces in a row, with ends that fit by kind. -/
inductive Sequence (P : End → End → Type) (a : End) : End → Type
  | single {b : End} (p : P a b) : Sequence P a b
  | snoc {b : End} (s : Sequence P a .scope) (p : P .scope b) : Sequence P a b

/-- Pieces that are joined two at a time, in an order that brackets give. -/
inductive Bracketing (P : End → End → Type) : End → End → Type
  | piece {a b : End} (p : P a b) : Bracketing P a b
  | join {a b : End} (l : Bracketing P a .scope) (r : Bracketing P .scope b) : Bracketing P a b

variable {P Q : End → End → Type} {L : Type} {a b : End}

namespace Sequence

def append (s : Sequence P a .scope) {b : End} : Sequence P .scope b → Sequence P a b
  | single p => snoc s p
  | snoc t p => snoc (s.append t) p

def build {b : End} : Sequence (Between L) a b → Except JoinError (Between L a b)
  | single p => .ok p
  | snoc s p => do
    let q ← s.build
    q.join p

end Sequence

namespace Bracketing

def pieces {a b : End} : Bracketing P a b → Sequence P a b
  | piece p => .single p
  | join l r => l.pieces.append r.pieces

def map (f : {a b : End} → P a b → Q a b) {a b : End} : Bracketing P a b → Bracketing Q a b
  | piece p => piece (f p)
  | join l r => join (l.map f) (r.map f)

def joins {a b : End} : Bracketing P a b → Nat
  | piece _ => 0
  | join l r => l.joins + 1 + r.joins

def build {a b : End} : Bracketing (Between L) a b → Except JoinError (Between L a b)
  | piece p => .ok p
  | join l r => do
    let p ← l.build
    let q ← r.build
    p.join q

theorem build_join_eq_ok_iff {l : Bracketing (Between L) a .scope}
    {r : Bracketing (Between L) .scope b} {p : Between L a b} :
    (join l r).build = .ok p ↔
      ∃ (q : Between L a .scope) (q' : Between L .scope b),
        l.build = .ok q ∧ r.build = .ok q' ∧ q.join q' = .ok p := by
  rw [build]
  simp only [bind_eq_ok_iff, exists_and_left]

end Bracketing

namespace Sequence

theorem build_snoc_eq_ok_iff {s : Sequence (Between L) a .scope} {q : Between L .scope b}
    {p : Between L a b} :
    (snoc s q).build = .ok p ↔ ∃ q' : Between L a .scope, s.build = .ok q' ∧ q'.join q = .ok p := by
  rw [build, bind_eq_ok_iff]

theorem build_append_eq_ok_iff {s : Sequence (Between L) a .scope}
    {t : Sequence (Between L) .scope b} {p : Between L a b} :
    (s.append t).build = .ok p ↔
      ∃ (q : Between L a .scope) (q' : Between L .scope b),
        s.build = .ok q ∧ t.build = .ok q' ∧ q.join q' = .ok p := by
  induction t with
  | single q => simp [append, build, bind_eq_ok_iff]
  | snoc t q ih =>
    rw [append, build_snoc_eq_ok_iff]
    simp only [ih, build_snoc_eq_ok_iff]
    constructor
    · rintro ⟨y, ⟨r, r', hr, hr', hy⟩, hp⟩
      obtain ⟨x, hx, hp⟩ := join_assoc.mp ⟨y, hy, hp⟩
      exact ⟨r, x, hr, ⟨r', hr', hx⟩, hp⟩
    · rintro ⟨r, x, hr, ⟨r', hr', hx⟩, hp⟩
      obtain ⟨y, hy, hp⟩ := join_assoc.mpr ⟨x, hx, hp⟩
      exact ⟨y, ⟨r, r', hr, hr', hy⟩, hp⟩

end Sequence

theorem Bracketing.build_eq_ok_iff {c : Bracketing (Between L) a b} {p : Between L a b} :
    c.build = .ok p ↔ c.pieces.build = .ok p := by
  induction c with
  | piece q => rfl
  | join l r hl hr =>
    rw [build_join_eq_ok_iff, pieces, Sequence.build_append_eq_ok_iff]
    simp only [hl, hr]

variable [DecidableEq L]

/-- Two ways to bracket the same pieces: if all joins of one succeed then so do all joins of the
other, and they lead to equal paths with the same joins, scopes, references and steps. -/
theorem Bracketing.build_assoc {c d : Bracketing (Between L) a b} (h : c.pieces = d.pieces) :
    ((∃ p, c.build = .ok p) ↔ ∃ q, d.build = .ok q) ∧
      ∀ p q, c.build = .ok p → d.build = .ok q →
        (p == q) = true ∧ p.joins = q.joins ∧ p.scopes = q.scopes ∧ p.references = q.references ∧
          p.steps = q.steps := by
  have hsame : ∀ p, c.build = .ok p ↔ d.build = .ok p := by
    intro p
    rw [build_eq_ok_iff, h, build_eq_ok_iff]
  constructor
  · exact exists_congr hsame
  · intro p q hp hq
    obtain rfl : p = q := Except.ok.inj (((hsame p).mp hp).symm.trans hq)
    exact ⟨beq_self p, rfl, rfl, rfl, rfl⟩

def fromReference : Bracketing (Between Char) .occurrence .occurrence :=
  .join (.join (.join (.piece (ofReference ⟨"x", 0⟩ ⟨0⟩)) (.piece (edge ⟨0⟩ 'P' ⟨1⟩)))
    (.piece (edge ⟨1⟩ 'P' ⟨2⟩))) (.piece (ofDeclaration ⟨2⟩ ⟨"x", 1⟩))

def fromDeclaration : Bracketing (Between Char) .occurrence .occurrence :=
  .join (.piece (ofReference ⟨"x", 0⟩ ⟨0⟩))
    (.join (.join (.piece (edge ⟨0⟩ 'P' ⟨1⟩)) (.piece (edge ⟨1⟩ 'P' ⟨2⟩)))
      (.piece (ofDeclaration ⟨2⟩ ⟨"x", 1⟩)))

theorem Bracketing.build_assoc_twoEdges :
    fromReference.pieces = fromDeclaration.pieces ∧
      ∃ p q, fromReference.build = .ok p ∧ fromDeclaration.build = .ok q ∧ p.joins = 3 ∧
        (p == q) = true ∧ p.joins = q.joins ∧ p.scopes = q.scopes ∧ p.references = q.references ∧
          p.steps = q.steps := by
  refine ⟨rfl, _, _, rfl, rfl, rfl, ?_⟩
  exact (Bracketing.build_assoc (c := fromReference) (d := fromDeclaration) rfl).2 _ _ rfl rfl

end Path

end NameResolution

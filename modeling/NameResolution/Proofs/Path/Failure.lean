import Mathlib.Data.List.Nodup
import NameResolution.Proofs.Path.Bookkeeping

namespace NameResolution

/-- A list of as many elements as the set that they make up repeats none of them. -/
theorem SortedSet.length_le_size_iff {α : Type} [Ord α] [Std.TransOrd α] [Std.LawfulEqOrd α]
    {s : SortedSet α} {l : List α} (h : ∀ x, x ∈ s ↔ x ∈ l) : l.length ≤ s.size ↔ l.Nodup := by
  constructor
  · exact nodup_of_length_le_size fun x hx => (h x).mp hx
  · exact fun hnodup => hnodup.length_le_of_subset fun x hx => (h x).mpr hx

theorem not_nodup_iff_exists_count {α : Type} [DecidableEq α] {l : List α} :
    ¬l.Nodup ↔ ∃ x, 2 ≤ l.count x := by
  simp only [List.nodup_iff_count_le_one, not_forall, Nat.not_le]
  rfl

namespace Path

variable {L A B : Type} {s : Scope}

def itinerary (p : Path (Step L) A B) : List Scope := p.source :: p.steps.map Step.target

/-- The scopes along one path and then along another one, whose source is the junction. -/
def journey (l : Path (Step L) A Unit) (r : Path (Step L) Unit B) : List Scope :=
  l.itinerary ++ r.itinerary.tail

section Outcome

variable {σ : Type} {l : Path σ A Unit} {r : Path σ Unit B}

theorem join_of_ne (h : l.target ≠ r.source) :
    l.join r = .error (.scopeMismatch l.target r.source) := dif_pos h

theorem join_of_lt (hmeet : l.target = r.source)
    (h : (l.scopes.union r.scopes).size < l.visits + r.visits - 1) :
    l.join r = .error (.cyclic (l.revisited r)) := by
  unfold join
  rw [dif_neg (not_not_intro hmeet)]
  exact if_pos h

/-- The scopes that an error can name: those that both paths visit away from the junction, or else
the junction. -/
theorem mem_revisited_iff :
    s ∈ l.revisited r ↔
      (s ≠ l.target ∧ s ∈ l.scopes ∧ s ∈ r.scopes) ∨
        s = l.target ∧ ∀ s' ∈ l.scopes, s' ∈ r.scopes → s' = l.target := by
  have hfilter : ∀ s', s' ∈ (l.scopes.toList.filter fun s => s ≠ l.target ∧ s ∈ r.scopes) ↔
      s' ≠ l.target ∧ s' ∈ l.scopes ∧ s' ∈ r.scopes := by
    intro s'
    rw [List.mem_filter, decide_eq_true_iff, SortedSet.mem_toList]
    exact and_left_comm
  unfold revisited
  split
  · next hnil =>
    -- only the junction can be on both paths
    have hnone : ∀ s' ∈ l.scopes, s' ∈ r.scopes → s' = l.target := by
      intro s' hl hr
      by_contra hne
      exact List.not_mem_nil (hnil ▸ (hfilter s').mpr ⟨hne, hl, hr⟩)
    rw [List.mem_singleton]
    constructor
    · exact fun hs => .inr ⟨hs, hnone⟩
    · rintro (⟨hne, hl, hr⟩ | ⟨hs, -⟩)
      · exact hnone s hl hr
      · exact hs
  · next hne =>
    rw [hfilter]
    refine ⟨.inl, fun h => h.resolve_right fun ⟨_, hnone⟩ => hne ?_⟩
    apply List.eq_nil_iff_forall_not_mem.mpr
    intro s' hs'
    obtain ⟨hne', hl, hr⟩ := (hfilter s').mp hs'
    exact hne' (hnone s' hl hr)

theorem revisited_ne_nil (l : Path σ A Unit) (r : Path σ Unit B) : l.revisited r ≠ [] := by
  unfold revisited
  split
  · exact List.cons_ne_nil _ _
  · next hne => exact hne

end Outcome

section Consistency

variable [Endpoint A] {p : Path (Step L) A B} {l : Path (Step L) A Unit}
  {r : Path (Step L) Unit B}

theorem Consistent.mem_scopes_iff (h : Consistent p) : s ∈ p.scopes ↔ s ∈ p.itinerary := by
  rw [h.scopes, itinerary, List.mem_cons, List.mem_map]

theorem Consistent.length_itinerary (h : Consistent p) : p.itinerary.length = p.visits := by
  rw [h.visits, itinerary, List.length_cons, List.length_map]

theorem length_journey (hl : Consistent l) (hr : Consistent r) :
    (l.journey r).length = l.visits + r.visits - 1 := by
  rw [journey, List.length_append, List.length_tail, hl.length_itinerary, hr.length_itinerary]
  exact (Nat.add_sub_assoc r.visits_pos _).symm

theorem mem_union_scopes_iff (hl : Consistent l) (hr : Consistent r) (hmeet : l.target = r.source) :
    s ∈ l.scopes.union r.scopes ↔ s ∈ l.journey r := by
  have hsource : r.source ∈ l.itinerary := hmeet ▸ hl.mem_scopes_iff.mp l.target_mem
  rw [SortedSet.mem_union, hl.mem_scopes_iff, hr.mem_scopes_iff, journey, List.mem_append]
  constructor
  · rintro (hs | hs)
    · exact .inl hs
    · rcases List.mem_cons.mp hs with rfl | hs
      · exact .inl hsource
      · exact .inr hs
  · exact Or.imp_right (List.mem_of_mem_tail ·)

/-- There are as many scopes as visits exactly if no scope is visited twice. -/
theorem visits_le_size_iff (hl : Consistent l) (hr : Consistent r) (hmeet : l.target = r.source) :
    l.visits + r.visits - 1 ≤ (l.scopes.union r.scopes).size ↔ (l.journey r).Nodup := by
  rw [← length_journey hl hr]
  exact SortedSet.length_le_size_iff fun s => mem_union_scopes_iff hl hr hmeet

/-- No scope but that of both ends is visited twice. -/
def RepeatsOnlyEnds (p : Path (Step L) A B) : Prop :=
  ∀ s, 2 ≤ p.itinerary.count s → s = p.source ∧ s = p.target

/-- A scope that both paths visit is visited again after the junction, unless it is the junction. -/
theorem count_journey_of_shared (hl : Consistent l) (hr : Consistent r)
    (hmeet : l.target = r.source) (hne : s ≠ l.target) (hsl : s ∈ l.scopes) (hsr : s ∈ r.scopes) :
    2 ≤ (l.journey r).count s := by
  have hleft : 0 < l.itinerary.count s := List.count_pos_iff.mpr (hl.mem_scopes_iff.mp hsl)
  have hright : 0 < r.itinerary.tail.count s := by
    rw [List.count_pos_iff]
    exact (List.mem_cons.mp (hr.mem_scopes_iff.mp hsr)).resolve_left (hmeet ▸ hne)
  rw [journey, List.count_append]
  exact Nat.add_le_add hleft hright

/-- If the paths visit a scope twice then they do so with every scope that the error can name. -/
theorem count_of_mem_revisited (hl : Consistent l) (hr : Consistent r) (hlr : l.RepeatsOnlyEnds)
    (hrr : r.RepeatsOnlyEnds) (hmeet : l.target = r.source)
    (htwice : ∃ s, 2 ≤ (l.journey r).count s) (hs : s ∈ l.revisited r) :
    2 ≤ (l.journey r).count s := by
  rcases mem_revisited_iff.mp hs with ⟨hne, hsl, hsr⟩ | ⟨rfl, hnone⟩
  · exact count_journey_of_shared hl hr hmeet hne hsl hsr
  obtain ⟨s, hcount⟩ := htwice
  by_cases hjunction : s = l.target
  · exact hjunction ▸ hcount
  exfalso
  -- only the junction is on both paths, so the other scope is visited twice by one of them
  have hright : r.itinerary.tail.count s ≤ r.itinerary.count s :=
    List.Sublist.count_le s (List.tail_sublist _)
  rw [journey, List.count_append] at hcount
  by_cases hsl : s ∈ l.scopes
  · have hsr : r.itinerary.count s = 0 := by
      rw [List.count_eq_zero, ← hr.mem_scopes_iff]
      exact fun hsr => hjunction (hnone s hsl hsr)
    exact hjunction (hlr s (by omega)).2
  · have hsl' : l.itinerary.count s = 0 := by
      rwa [List.count_eq_zero, ← hl.mem_scopes_iff]
    exact hjunction (hmeet ▸ (hrr s (by omega)).1)

/-- Whether paths whose ends meet have a join, and what comes out. -/
theorem join_of_meet (hl : Consistent l) (hr : Consistent r) (hmeet : l.target = r.source) :
    ((∃ s, 2 ≤ (l.journey r).count s) ∧ l.join r = .error (.cyclic (l.revisited r))) ∨
      (¬∃ s, 2 ≤ (l.journey r).count s) ∧
        ∃ p, l.join r = .ok p ∧ p.joins = l.joins + 1 + r.joins := by
  by_cases hnodup : (l.journey r).Nodup
  · obtain ⟨p, hp⟩ := exists_join hmeet ((visits_le_size_iff hl hr hmeet).mpr hnodup)
    refine .inr ⟨fun htwice => not_nodup_iff_exists_count.mpr htwice hnodup, p, hp, ?_⟩
    exact (isJoin_of_join hp).joins
  · have hlt := Nat.lt_of_not_le (mt (visits_le_size_iff hl hr hmeet).mp hnodup)
    exact .inl ⟨not_nodup_iff_exists_count.mp hnodup, join_of_lt hmeet hlt⟩

end Consistency

namespace Bracketing

variable {a b : End}

/-- Only a loop visits a scope twice, and it is no join. -/
theorem repeatsOnlyEnds_of_build {c : Bracketing (Atom L) a b} {p : Between L a b}
    (h : (c.map Atom.path).build = .ok p) : p.RepeatsOnlyEnds := by
  intro s hs
  cases c with
  | join l r =>
    have hjoins : 0 < (join l r).joins := by
      rw [joins]
      omega
    have hnodup : p.itinerary.Nodup := (consistent_of_build h).nodup (acyclic_of_build h hjoins)
    exact absurd hnodup (not_nodup_iff_exists_count.mpr ⟨s, hs⟩)
  | piece atom =>
    obtain rfl := Except.ok.inj h
    have hpair {x y : Scope} (h : 2 ≤ [x, y].count s) : s = x ∧ s = y := by
      simp only [List.count_cons, List.count_nil] at h
      grind
    have hlone {x : Scope} (h : 2 ≤ [x].count s) : False :=
      Nat.not_succ_le_self 1 (Nat.le_trans h List.count_le_length)
    cases atom with
    | edge | named => exact hpair hs
    | empty | ofReference | ofDeclaration => exact (hlone hs).elim

/-- The join of two paths is refused exactly if their ends do not meet or some scope is visited twice
on the way along both. In the first case the error names the two ends, in the second case it can name
no scope but those that are visited twice, and at least one. Otherwise the join is made and counts
one more than the joins of both paths. -/
theorem join_outcome {c : Bracketing (Atom L) a .scope} {d : Bracketing (Atom L) .scope b}
    {l : Between L a .scope} {r : Between L .scope b} (hl : (c.map Atom.path).build = .ok l)
    (hr : (d.map Atom.path).build = .ok r) :
    (l.target ≠ r.source → l.join r = .error (.scopeMismatch l.target r.source)) ∧
      (l.target = r.source →
        ((∃ scopes, l.join r = .error (.cyclic scopes)) ↔ ∃ s, 2 ≤ (l.journey r).count s) ∧
        (∀ scopes, l.join r = .error (.cyclic scopes) →
          scopes ≠ [] ∧ ∀ s ∈ scopes, 2 ≤ (l.journey r).count s) ∧
        ((¬∃ s, 2 ≤ (l.journey r).count s) →
          ∃ p, l.join r = .ok p ∧ p.joins = l.joins + 1 + r.joins)) := by
  refine ⟨join_of_ne, fun hmeet => ?_⟩
  have hcl := consistent_of_build hl
  have hcr := consistent_of_build hr
  rcases join_of_meet hcl hcr hmeet with ⟨htwice, hjoin⟩ | ⟨hnone, p, hp, hjoins⟩
  · refine ⟨iff_of_true ⟨_, hjoin⟩ htwice, fun scopes hscopes => ?_, fun h => absurd htwice h⟩
    obtain rfl : l.revisited r = scopes :=
      JoinError.cyclic.inj (Except.error.inj (hjoin.symm.trans hscopes))
    exact ⟨revisited_ne_nil l r, fun s => count_of_mem_revisited hcl hcr
      (repeatsOnlyEnds_of_build hl) (repeatsOnlyEnds_of_build hr) hmeet htwice⟩
  · refine ⟨iff_of_false ?_ hnone, fun scopes hscopes => ?_, fun _ => ⟨p, hp, hjoins⟩⟩
    · rintro ⟨scopes, hscopes⟩
      cases hp.symm.trans hscopes
    · cases hp.symm.trans hscopes

def outward : Bracketing (Atom Char) .occurrence .scope :=
  .join (.piece (.ofReference ⟨"x", 0⟩ ⟨0⟩)) (.piece (.edge ⟨0⟩ 'P' ⟨1⟩))

def homeward : Bracketing (Atom Char) .scope .scope :=
  .join (.piece (.edge ⟨1⟩ 'P' ⟨2⟩)) (.piece (.edge ⟨2⟩ 'P' ⟨0⟩))

theorem join_outcome_return :
    ∃ l r, (outward.map Atom.path).build = .ok l ∧ (homeward.map Atom.path).build = .ok r ∧
      l.target = r.source ∧ l.join r = .error (.cyclic [⟨0⟩]) ∧ 2 ≤ (l.journey r).count ⟨0⟩ := by
  refine ⟨_, _, rfl, rfl, rfl, rfl, ?_⟩
  obtain ⟨-, houtcome⟩ := join_outcome (c := outward) (d := homeward) rfl rfl
  obtain ⟨-, hnamed, -⟩ := houtcome rfl
  exact (hnamed _ rfl).2 _ (.head _)

end Bracketing

end Path

end NameResolution

import Mathlib.Logic.Relation
import NameResolution.Unifier.Binding
import NameResolution.Unifier.Substitution

namespace NameResolution

/-- `s` is all of `t` or a part of it. -/
def Term.Within : Term → Term → Prop := Relation.ReflTransGen fun s t => s ∈ t.children

theorem Term.within_iff {s t : Term} : s.Within t ↔ t = s ∨ ∃ c ∈ t.children, s.Within c := by
  unfold Within
  rw [Relation.ReflTransGen.cases_tail_iff]
  simp only [and_comm]

theorem forall_reflTransGen_iff {α : Type} {r : α → α → Prop} {p : α → Prop} {a : α} :
    (∀ b, Relation.ReflTransGen r b a → p b) ↔
      p a ∧ ∀ c, r c a → ∀ b, Relation.ReflTransGen r b c → p b := by
  constructor
  · exact fun h => ⟨h a .refl, fun c hc b hb => h b (hb.tail hc)⟩
  · rintro ⟨ha, hstep⟩ b hb
    rcases Relation.ReflTransGen.cases_tail hb with rfl | ⟨c, hbc, hca⟩
    · exact ha
    · exact hstep c hca b hbc

theorem Term.forall_within_iff {t : Term} {p : Term → Prop} :
    (∀ s : Term, s.Within t → p s) ↔ p t ∧ ∀ c ∈ t.children, ∀ s : Term, s.Within c → p s :=
  forall_reflTransGen_iff

namespace Unifier

variable {u : Unifier} {s t r : Term}

/-- `s` is met in `t`: `t` leads to it along bindings and into parts of unbound terms. -/
def Meets (u : Unifier) : Term → Term → Prop := Relation.ReflTransGen u.bindings.Below

theorem below_iff_of_bound (h : u.next? t = some r) : u.bindings.Below s t ↔ s = r := by
  constructor
  · intro hs
    cases hs with
    | bound hs => exact Option.some.inj (hs.symm.trans h)
    | child hn _ => cases hn.symm.trans h
  · rintro rfl
    exact .bound h

theorem below_iff_of_unbound (h : u.next? t = none) : u.bindings.Below s t ↔ s ∈ t.children := by
  constructor
  · intro hs
    cases hs with
    | bound hs => cases hs.symm.trans h
    | child _ hs => exact hs
  · exact .child h

theorem meets_of_bound (h : u.next? t = some r) : u.Meets s t ↔ t = s ∨ u.Meets s r := by
  unfold Meets
  rw [Relation.ReflTransGen.cases_tail_iff]
  simp only [below_iff_of_bound h, exists_eq_right]

theorem meets_of_unbound (h : u.next? t = none) :
    u.Meets s t ↔ t = s ∨ ∃ c ∈ t.children, u.Meets s c := by
  unfold Meets
  rw [Relation.ReflTransGen.cases_tail_iff]
  simp only [below_iff_of_unbound h, and_comm]

theorem ne_of_not_meets (h : ¬u.Meets s t) : t ≠ s := by
  rintro rfl
  exact h .refl

theorem meets_walk (u : Unifier) (t : Term) : u.Meets (u.walk t) t := by
  induction t using u.induction with
  | bound t s ht ih =>
    rw [walk_of_bound ht]
    exact (meets_of_bound ht).mpr (.inr ih)
  | unbound t ht =>
    rw [walk_of_unbound ht]
    exact .refl

theorem ne_term_of_bound {key : Key} (hkey : u.lookup key = none) (ht : u.next? t = some r) :
    t ≠ key.term := by
  rintro rfl
  rw [next?_term, hkey] at ht
  cases ht

/-- The occurs check finds a key that is not bound exactly where it is met. -/
theorem occurs_iff_meets {key : Key} (hkey : u.lookup key = none) :
    u.occurs key t = true ↔ u.Meets key.term t := by
  induction t using u.induction with
  | bound t r ht ih =>
    have hne : t ≠ key.term := ne_term_of_bound hkey ht
    rw [occurs_of_bound ht, meets_of_bound ht, ih]
    simp only [hne, false_or]
  | unbound t ht ih =>
    rw [occurs_of_unbound ht, meets_of_unbound ht]
    have hchildren : (∃ c ∈ t.children, u.occurs key c = true) ↔
        ∃ c ∈ t.children, u.Meets key.term c :=
      exists_congr fun c => and_congr_right (ih c)
    rw [hchildren]

theorem children_image (h : u.next? t = none) : (u.image t).children = t.children.map u.image := by
  rw [image_of_unbound h]
  exact Term.children_withChildren (List.length_map _)

/-- The parts of the image of a term are the images of the unbound terms met in it. -/
theorem within_image_iff :
    r.Within (u.image t) ↔ ∃ s, u.Meets s t ∧ u.next? s = none ∧ u.image s = r := by
  induction t using u.induction with
  | bound t t' ht ih =>
    rw [image_of_bound ht, ih]
    refine exists_congr fun s => and_congr_left fun ⟨hs, _⟩ => ?_
    have hne : t ≠ s := by
      rintro rfl
      cases hs.symm.trans ht
    rw [meets_of_bound ht]
    simp only [hne, false_or]
  | unbound t ht ih =>
    rw [Term.within_iff, children_image ht]
    constructor
    · rintro (hr | ⟨c', hc', hr⟩)
      · exact ⟨t, .refl, ht, hr⟩
      · obtain ⟨c, hc, rfl⟩ := List.mem_map.mp hc'
        obtain ⟨s, hs, hrest⟩ := (ih c hc).mp hr
        exact ⟨s, (meets_of_unbound ht).mpr (.inr ⟨c, hc, hs⟩), hrest⟩
    · rintro ⟨s, hs, hn, rfl⟩
      rcases (meets_of_unbound ht).mp hs with rfl | ⟨c, hc, hs⟩
      · exact .inl rfl
      · exact .inr ⟨_, List.mem_map_of_mem hc, (ih c hc).mpr ⟨s, hs, hn, rfl⟩⟩

/-- A term without bound parts is its own image. -/
theorem image_eq_self (h : ∀ s, s.Within t → u.next? s = none) : u.image t = t := by
  induction t using u.induction with
  | bound t s ht => cases ht.symm.trans (h t .refl)
  | unbound t ht ih =>
    have hchild : ∀ c ∈ t.children, u.image c = c :=
      fun c hc => ih c hc fun s hs => h s (hs.tail hc)
    rw [image_of_unbound ht, List.map_congr_left hchild, List.map_id', t.withChildren_children]

theorem run_visit_of_bound (h : u.next? t = some r) (tasks : List Task) (finished : List Term) :
    u.run (.visit t :: tasks) finished = u.run (.visit r :: tasks) finished := by
  rw [run]
  split
  · next r' hr => rw [h, Option.some.injEq] at hr; rw [hr]
  · next hr => rw [h] at hr; cases hr

theorem run_visit_of_unbound (h : u.next? t = none) (tasks : List Task) (finished : List Term) :
    u.run (.visit t :: tasks) finished =
      u.run (t.children.map .visit ++ .rebuild t :: tasks) finished := by
  rw [run]
  split
  · next r hr => rw [h] at hr; cases hr
  · rfl

/-- The parts of a term are taken from the stack in the order in which they were visited. -/
theorem run_rebuild {args finished : List Term} (h : args.length = t.children.length)
    (tasks : List Task) :
    u.run (.rebuild t :: tasks) (args.reverse ++ finished) =
      u.run tasks (t.withChildren args :: finished) := by
  have hlength : args.reverse.length = t.children.length := args.length_reverse.trans h
  rw [run, List.take_left' hlength, List.drop_left' hlength, List.reverse_reverse]

/-- A visit leaves the image of its term on the stack of finished terms. -/
theorem run_visit (t : Term) (tasks : List Task) (finished : List Term) :
    u.run (.visit t :: tasks) finished = u.run tasks (u.image t :: finished) := by
  induction t using u.induction generalizing tasks finished with
  | bound t r ht ih => rw [run_visit_of_bound ht, image_of_bound ht, ih]
  | unbound t ht ih =>
    have hvisits : ∀ (l : List Term) (finished : List Term), l ⊆ t.children →
        u.run (l.map .visit ++ .rebuild t :: tasks) finished =
          u.run (.rebuild t :: tasks) ((l.map u.image).reverse ++ finished) := by
      intro l
      induction l with
      | nil => exact fun _ _ => rfl
      | cons c l ihl =>
        intro finished hl
        obtain ⟨hc, hl⟩ := List.cons_subset.mp hl
        rw [List.map_cons, List.cons_append, ih c hc, ihl _ hl, List.map_cons,
          List.reverse_cons, List.append_assoc]
        rfl
    rw [run_visit_of_unbound ht, hvisits _ _ (List.Subset.refl _),
      run_rebuild (List.length_map _), image_of_unbound ht]

theorem substitute_eq_image (u : Unifier) (t : Term) : u.substitute t = u.image t := by
  unfold substitute
  rw [run_visit, run]
  rfl

end Unifier

end NameResolution

import NameResolution.Proofs.Path.Failure

namespace NameResolution

variable {L : Type} {a b : End}

section Outlines

/-- What remains of a step without the bookkeeping of the resolution that it is taken by. -/
inductive Outline (L : Type) where
  | edge (source : Scope) (label : L) (target : Scope)
  | named (source : Scope) (label : L) (target : Scope) (reference declaration : Occurrence)
      (first last : Scope) (steps : List (Outline L))

mutual

def Step.outline : Step L → Outline L
  | .edge source label target => .edge source label target
  | .named source label ⟨reference, declaration, first, last, steps, _, _, _, _, _, _, _⟩ target =>
    .named source label target reference declaration first last (outlines steps)

def outlines : List (Step L) → List (Outline L)
  | [] => []
  | step :: steps => step.outline :: outlines steps

end

theorem outlines_eq_map (steps : List (Step L)) : outlines steps = steps.map Step.outline := by
  induction steps with
  | nil => rw [outlines, List.map_nil]
  | cons step steps ih => rw [outlines, List.map_cons, ih]

theorem Step.outline_named {source target : Scope} {label : L} (p : ResolutionPath L) :
    (Step.named source label p target).outline =
      .named source label target p.start p.stop p.source p.target (p.steps.map Step.outline) := by
  cases p
  rw [Step.outline, outlines_eq_map]

theorem sizeOf_steps_lt_of_named_mem {steps : List (Step L)} {source target : Scope} {label : L}
    {p : ResolutionPath L} (h : Step.named source label p target ∈ steps) :
    sizeOf p.steps < sizeOf steps := by
  have hlt := List.sizeOf_lt_of_mem h
  cases p
  simp only [Path.mk.sizeOf_spec, Step.named.sizeOf_spec] at *
  omega

variable [DecidableEq L]

mutual

theorem Step.outline_eq_of_same :
    (step step' : Step L) → step.same step' = true → step.outline = step'.outline
  | .edge _ _ _, .edge _ _ _, h => by
    simp only [Step.same, Bool.and_eq_true, decide_eq_true_eq] at h
    obtain ⟨⟨rfl, rfl⟩, rfl⟩ := h
    rfl
  | .named _ _ p _, .named _ _ p' _, h => by
    simp only [Step.same, Bool.and_eq_true, decide_eq_true_eq] at h
    obtain ⟨⟨⟨rfl, rfl⟩, rfl⟩, hsame⟩ := h
    obtain ⟨hstart, hstop, hsource, htarget, hsteps⟩ := outline_eq_of_sameResolution p p' hsame
    rw [Step.outline_named, Step.outline_named, hstart, hstop, hsource, htarget, hsteps]
  | .edge _ _ _, .named _ _ _ _, h => by cases h
  | .named _ _ _ _, .edge _ _ _, h => by cases h

theorem outline_eq_of_sameResolution :
    (p p' : ResolutionPath L) → sameResolution p p' = true →
      p.start = p'.start ∧ p.stop = p'.stop ∧ p.source = p'.source ∧ p.target = p'.target ∧
        p.steps.map Step.outline = p'.steps.map Step.outline
  | ⟨_, _, _, _, steps, _, _, _, _, _, _, _⟩, p', h => by
    simp only [sameResolution, Bool.and_eq_true, decide_eq_true_eq] at h
    obtain ⟨⟨⟨⟨⟨⟨hstart, hstop⟩, hsource⟩, htarget⟩, -⟩, -⟩, hsteps⟩ := h
    exact ⟨hstart, hstop, hsource, htarget, outlines_eq_of_sameSteps steps p'.steps hsteps⟩

theorem outlines_eq_of_sameSteps :
    (steps steps' : List (Step L)) → sameSteps steps steps' = true →
      steps.map Step.outline = steps'.map Step.outline
  | [], [], _ => rfl
  | step :: steps, step' :: steps', h => by
    rw [sameSteps, Bool.and_eq_true] at h
    rw [List.map_cons, List.map_cons, Step.outline_eq_of_same step step' h.1,
      outlines_eq_of_sameSteps steps steps' h.2]
  | [], _ :: _, h => by cases h
  | _ :: _, [], h => by cases h

end

/-- Steps with one outline are the same as soon as this holds of the resolutions that they are taken
by. -/
theorem Step.same_of_outline_eq {step step' : Step L} (h : step.outline = step'.outline)
    (hsame : ∀ source label target p p', step = .named source label p target →
      step' = .named source label p' target → p.start = p'.start → p.stop = p'.stop →
        p.source = p'.source → p.target = p'.target →
          p.steps.map Step.outline = p'.steps.map Step.outline → sameResolution p p' = true) :
    step.same step' = true := by
  cases step with
  | edge source label target =>
    cases step' with
    | edge source' label' target' =>
      cases h
      exact Step.same_self _
    | named source' label' p' target' =>
      rw [Step.outline_named] at h
      cases h
  | named source label p target =>
    rw [Step.outline_named] at h
    cases step' with
    | edge source' label' target' => cases h
    | named source' label' p' target' =>
      rw [Step.outline_named] at h
      obtain ⟨rfl, rfl, rfl, hstart, hstop, hsource, htarget, hsteps⟩ := Outline.named.inj h
      have hp := hsame _ _ _ p p' rfl rfl hstart hstop hsource htarget hsteps
      simp [Step.same, hp]

theorem sameSteps_of_outlines_eq {steps steps' : List (Step L)}
    (h : steps.map Step.outline = steps'.map Step.outline)
    (hsame : ∀ source label target p p', .named source label p target ∈ steps →
      .named source label p' target ∈ steps' → p.start = p'.start → p.stop = p'.stop →
        p.source = p'.source → p.target = p'.target →
          p.steps.map Step.outline = p'.steps.map Step.outline → sameResolution p p' = true) :
    sameSteps steps steps' = true := by
  induction steps generalizing steps' with
  | nil =>
    obtain rfl := List.map_eq_nil_iff.mp h.symm
    rw [sameSteps]
  | cons step steps ih =>
    cases steps' with
    | nil => cases h
    | cons step' steps' =>
      obtain ⟨hstep, hsteps⟩ := List.cons_eq_cons.mp h
      rw [sameSteps, Bool.and_eq_true]
      constructor
      · apply Step.same_of_outline_eq hstep
        rintro source label target p p' rfl rfl
        exact hsame source label target p p' List.mem_cons_self List.mem_cons_self
      · apply ih hsteps
        intro source label target p p' hp hp'
        exact hsame source label target p p' (List.mem_cons_of_mem _ hp) (List.mem_cons_of_mem _ hp')

end Outlines

section SameSteps

variable [DecidableEq L] {steps steps' further further' : List (Step L)}

theorem sameSteps_iff_forall₂ :
    sameSteps steps steps' = true ↔ List.Forall₂ (fun s t => Step.same s t = true) steps steps' := by
  induction steps generalizing steps' with
  | nil => cases steps' <;> simp [sameSteps]
  | cons step steps ih => cases steps' <;> simp [sameSteps, ih]

theorem Step.target_eq_of_same {step step' : Step L} (h : step.same step' = true) :
    step.target = step'.target := by
  cases step <;> cases step' <;> simp_all [Step.same, Step.target]

theorem targets_eq_of_sameSteps (h : sameSteps steps steps' = true) :
    steps.map Step.target = steps'.map Step.target := by
  rw [sameSteps_iff_forall₂] at h
  induction h with
  | nil => rfl
  | cons hstep _ ih => rw [List.map_cons, List.map_cons, Step.target_eq_of_same hstep, ih]

theorem sameSteps_append (h : sameSteps steps steps' = true)
    (hfurther : sameSteps further further' = true) :
    sameSteps (steps ++ further) (steps' ++ further') = true := by
  rw [sameSteps_iff_forall₂] at *
  exact List.rel_append h hfurther

/-- The step is taken by a resolution that goes through the reference. -/
def Step.Refers (step : Step L) (o : Occurrence) : Prop :=
  ∃ source label resolution target,
    .named source label resolution target = step ∧ o ∈ resolution.references

theorem Step.refers_iff_of_same {step step' : Step L} {o : Occurrence}
    (h : step.same step' = true) : step.Refers o ↔ step'.Refers o := by
  cases step <;> cases step' <;> simp_all [Step.same, sameResolution_eq_beq, beq_eq_and, Step.Refers]

theorem refers_iff_of_sameSteps {o : Occurrence} (h : sameSteps steps steps' = true) :
    (∃ step ∈ steps, step.Refers o) ↔ ∃ step ∈ steps', step.Refers o := by
  rw [sameSteps_iff_forall₂] at h
  induction h with
  | nil => rfl
  | cons hstep _ ih => simp only [List.exists_mem_cons_iff, Step.refers_iff_of_same hstep, ih]

end SameSteps

namespace Path

section Answers

variable [DecidableEq L]

mutual

/-- What a comparison of two paths can answer. It may answer at once that they are equal if they are
one object; two objects are compared part by part, whether or not their parts agree. -/
inductive Compares : {a b : End} → Between L a b → Between L a b → Bool → Prop
  | identical {a b : End} (p : Between L a b) : Compares p p true
  | parts {a b : End} {p q : Between L a b} {answer : Bool}
      (h : ComparesSteps p.steps q.steps answer) :
      Compares p q (p.start = q.start && p.stop = q.stop && p.source = q.source &&
        p.target = q.target && p.scopes = q.scopes && p.references = q.references && answer)

inductive ComparesSteps : List (Step L) → List (Step L) → Bool → Prop
  | nil : ComparesSteps [] [] true
  | longer {s : Step L} {ss : List (Step L)} : ComparesSteps (s :: ss) [] false
  | shorter {t : Step L} {ts : List (Step L)} : ComparesSteps [] (t :: ts) false
  | cons {s t : Step L} {ss ts : List (Step L)} {answer rest : Bool}
      (h : ComparesStep s t answer) (hrest : ComparesSteps ss ts rest) :
      ComparesSteps (s :: ss) (t :: ts) (answer && rest)

inductive ComparesStep : Step L → Step L → Bool → Prop
  | edge {s s' t t' : Scope} {l l' : L} :
      ComparesStep (.edge s l t) (.edge s' l' t') (s = s' && l = l' && t = t')
  | named {s s' t t' : Scope} {l l' : L} {p p' : ResolutionPath L} {answer : Bool}
      (h : Compares (a := .occurrence) (b := .occurrence) p p' answer) :
      ComparesStep (.named s l p t) (.named s' l' p' t') (s = s' && l = l' && t = t' && answer)
  | edgeNamed {s s' t t' : Scope} {l l' : L} {p : ResolutionPath L} :
      ComparesStep (.edge s l t) (.named s' l' p t') false
  | namedEdge {s s' t t' : Scope} {l l' : L} {p : ResolutionPath L} :
      ComparesStep (.named s l p t) (.edge s' l' t') false

end

mutual

theorem Compares.eq_beq :
    {a b : End} → {p q : Between L a b} → {answer : Bool} → Compares p q answer →
      answer = (p == q)
  | _, _, _, _, _, .identical p => (beq_self p).symm
  | _, _, _, _, _, .parts h => by rw [h.eq_sameSteps, beq_eq_and]

theorem ComparesSteps.eq_sameSteps :
    {ss ts : List (Step L)} → {answer : Bool} → ComparesSteps ss ts answer →
      answer = sameSteps ss ts
  | _, _, _, .nil => by rw [sameSteps]
  | _, _, _, .longer => rfl
  | _, _, _, .shorter => rfl
  | _, _, _, .cons h hrest => by rw [sameSteps, h.eq_same, hrest.eq_sameSteps]

theorem ComparesStep.eq_same :
    {s t : Step L} → {answer : Bool} → ComparesStep s t answer → answer = s.same t
  | _, _, _, .edge => by rw [Step.same]
  | _, _, _, .named h => by
    rw [Step.same, sameResolution_eq_beq, h.eq_beq]
    rfl
  | _, _, _, .edgeNamed => rfl
  | _, _, _, .namedEdge => rfl

end

mutual

theorem comparesStep_same : (s t : Step L) → ComparesStep s t (s.same t)
  | .edge _ _ _, .edge _ _ _ => by
    rw [Step.same]
    exact .edge
  | .named _ _ p _, .named _ _ p' _ => by
    rw [Step.same]
    exact .named (compares_sameResolution p p')
  | .edge _ _ _, .named _ _ _ _ => .edgeNamed
  | .named _ _ _ _, .edge _ _ _ => .namedEdge

theorem compares_sameResolution :
    (p p' : ResolutionPath L) →
      Compares (a := .occurrence) (b := .occurrence) p p' (sameResolution p p')
  | ⟨_, _, _, _, steps, _, _, _, _, _, _, _⟩, p' => .parts (comparesSteps_sameSteps steps p'.steps)

theorem comparesSteps_sameSteps : (ss ts : List (Step L)) → ComparesSteps ss ts (sameSteps ss ts)
  | [], [] => by
    rw [sameSteps]
    exact .nil
  | s :: ss, t :: ts => by
    rw [sameSteps]
    exact .cons (comparesStep_same s t) (comparesSteps_sameSteps ss ts)
  | _ :: _, [] => .longer
  | [], _ :: _ => .shorter

end

/-- Which paths are told to be equal because they are one object makes no difference. -/
theorem compares_iff {p q : Between L a b} {answer : Bool} :
    Compares p q answer ↔ answer = (p == q) := by
  constructor
  · exact Compares.eq_beq
  · rintro rfl
    rw [beq_eq_and]
    exact .parts (comparesSteps_sameSteps p.steps q.steps)

end Answers

/-- The path is built by joins from paths without joins, and so are all resolutions that its steps are
taken by. -/
inductive Built : {a b : End} → Between L a b → Prop
  | atom {a b : End} (atom : Atom L a b)
      (h : ∀ source label p target, atom.step? = some (.named source label p target) →
        Built (a := .occurrence) (b := .occurrence) p) : Built atom.path
  | join {a b : End} {l : Between L a .scope} {r : Between L .scope b} {p : Between L a b}
      (hl : Built l) (hr : Built r) (h : l.join r = .ok p) : Built p

theorem beq_eq_true_iff [DecidableEq L] {p q : Between L a b} :
    (p == q) = true ↔ p.start = q.start ∧ p.stop = q.stop ∧ p.source = q.source ∧
      p.target = q.target ∧ p.scopes = q.scopes ∧ p.references = q.references ∧
        sameSteps p.steps q.steps = true := by
  simp only [beq_eq_and, Bool.and_eq_true, decide_eq_true_eq, and_assoc]

theorem IsJoin.beq [DecidableEq L] {l l' : Between L a .scope} {r r' : Between L .scope b}
    {p p' : Between L a b} (h : IsJoin l r p) (h' : IsJoin l' r' p') (hleft : (l == l') = true)
    (hright : (r == r') = true) : (p == p') = true := by
  obtain ⟨hstart, -, hsource, -, hscopes, hreferences, hsteps⟩ := beq_eq_true_iff.mp hleft
  obtain ⟨-, hstop, -, htarget, hscopes', hreferences', hsteps'⟩ := beq_eq_true_iff.mp hright
  refine beq_eq_true_iff.mpr ⟨?_, ?_, ?_, ?_, ?_, ?_, ?_⟩
  · rw [h.start, h'.start, hstart]
  · rw [h.stop, h'.stop, hstop]
  · rw [h.source, h'.source, hsource]
  · rw [h.target, h'.target, htarget]
  · rw [h.scopes, h'.scopes, hscopes, hscopes']
  · rw [h.references, h'.references, hreferences, hreferences']
  · rw [h.steps, h'.steps]
    exact sameSteps_append hsteps hsteps'

namespace Built

variable {p q : Between L a b} {l l' : Between L a .scope} {r r' : Between L .scope b}

theorem consistent (h : Built p) : Consistent p := by
  induction h with
  | atom atom => exact atom.consistent_path
  | join _ _ h ihl ihr => exact (isJoin_of_join h).consistent ihl ihr

theorem of_named_mem (h : Built p) {source target : Scope} {label : L} {resolution : ResolutionPath L}
    (hmem : .named source label resolution target ∈ p.steps) :
    Built (a := .occurrence) (b := .occurrence) resolution := by
  induction h with
  | atom atom h =>
    rw [Atom.steps_path, Option.mem_toList] at hmem
    exact h _ _ _ _ hmem
  | join _ _ h ihl ihr =>
    rw [(isJoin_of_join h).steps, List.mem_append] at hmem
    exact hmem.elim ihl ihr

variable [DecidableEq L]

/-- The scopes and references of a path follow from its ends and steps. -/
theorem bookkeeping_eq (hp : Built p) (hq : Built q) (hstart : p.start = q.start)
    (hsource : p.source = q.source) (hsteps : sameSteps p.steps q.steps = true) :
    p.scopes = q.scopes ∧ p.references = q.references := by
  constructor
  · apply SortedSet.ext
    intro s
    rw [hp.consistent.mem_scopes_iff, hq.consistent.mem_scopes_iff, itinerary, itinerary, hsource,
      targets_eq_of_sameSteps hsteps]
  · apply SortedSet.ext
    intro o
    have hreference : p.reference? = q.reference? := congrArg Endpoint.occurrence? hstart
    have hrefers : ∀ steps : List (Step L), (∃ source label resolution target,
        .named source label resolution target ∈ steps ∧ o ∈ resolution.references) ↔
          ∃ step ∈ steps, step.Refers o := by
      intro steps
      unfold Step.Refers
      grind
    rw [hp.consistent.references, hq.consistent.references, hreference, hrefers, hrefers,
      refers_iff_of_sameSteps hsteps]

/-- The resolutions inside are told apart by their outlines alone, since they are built as well. -/
theorem sameSteps_of_outlines {a b : End} {p q : Between L a b} (hp : Built p) (hq : Built q)
    (h : p.steps.map Step.outline = q.steps.map Step.outline) :
    sameSteps p.steps q.steps = true := by
  apply sameSteps_of_outlines_eq h
  intro source label target r r' hr hr' hstart hstop hsource htarget hsteps
  have hbuilt := hp.of_named_mem hr
  have hbuilt' := hq.of_named_mem hr'
  have hlt := sizeOf_steps_lt_of_named_mem hr
  have hsame := sameSteps_of_outlines hbuilt hbuilt' hsteps
  obtain ⟨hscopes, hreferences⟩ := hbuilt.bookkeeping_eq hbuilt' hstart hsource hsame
  simp [sameResolution_eq_beq, beq_eq_and, hstart, hstop, hsource, htarget, hscopes, hreferences,
    hsame]
termination_by sizeOf p.steps

theorem beq_iff (hp : Built p) (hq : Built q) :
    (p == q) = true ↔ p.start = q.start ∧ p.stop = q.stop ∧ p.source = q.source ∧
      p.target = q.target ∧ p.steps.map Step.outline = q.steps.map Step.outline := by
  rw [beq_eq_true_iff]
  constructor
  · rintro ⟨hstart, hstop, hsource, htarget, -, -, hsteps⟩
    exact ⟨hstart, hstop, hsource, htarget, outlines_eq_of_sameSteps _ _ hsteps⟩
  · rintro ⟨hstart, hstop, hsource, htarget, houtlines⟩
    have hsteps := hp.sameSteps_of_outlines hq houtlines
    obtain ⟨hscopes, hreferences⟩ := hp.bookkeeping_eq hq hstart hsource hsteps
    exact ⟨hstart, hstop, hsource, htarget, hscopes, hreferences, hsteps⟩

theorem equivalence (L : Type) [DecidableEq L] (a b : End) :
    Equivalence fun p q : { p : Between L a b // Built p } => (p.1 == q.1) = true where
  refl p := beq_self p.1
  symm {p q} h := by
    obtain ⟨hstart, hstop, hsource, htarget, hsteps⟩ := (p.2.beq_iff q.2).mp h
    exact (q.2.beq_iff p.2).mpr ⟨hstart.symm, hstop.symm, hsource.symm, htarget.symm, hsteps.symm⟩
  trans {p q r} h h' := by
    obtain ⟨hstart, hstop, hsource, htarget, hsteps⟩ := (p.2.beq_iff q.2).mp h
    obtain ⟨hstart', hstop', hsource', htarget', hsteps'⟩ := (q.2.beq_iff r.2).mp h'
    exact (p.2.beq_iff r.2).mpr ⟨hstart.trans hstart', hstop.trans hstop', hsource.trans hsource',
      htarget.trans htarget', hsteps.trans hsteps'⟩

theorem visits_eq_of_beq (hp : Built p) (hq : Built q) (h : (p == q) = true) :
    p.visits = q.visits := by
  obtain ⟨-, -, -, -, -, -, hsteps⟩ := beq_eq_true_iff.mp h
  rw [hp.consistent.visits, hq.consistent.visits, (sameSteps_iff_forall₂.mp hsteps).length_eq]

/-- Joins of equal paths end alike, in the error as well. -/
theorem join_congr (hl : Built l) (hl' : Built l') (hr : Built r) (hr' : Built r')
    (hleft : (l == l') = true) (hright : (r == r') = true) :
    (∃ e, l.join r = .error e ∧ l'.join r' = .error e) ∨
      ∃ p p', l.join r = .ok p ∧ l'.join r' = .ok p' ∧ (p == p') = true := by
  have hvisits := hl.visits_eq_of_beq hl' hleft
  have hvisits' := hr.visits_eq_of_beq hr' hright
  obtain ⟨-, -, -, htarget, hscopes, -, -⟩ := beq_eq_true_iff.mp hleft
  obtain ⟨-, -, hsource, -, hscopes', -, -⟩ := beq_eq_true_iff.mp hright
  have hrevisited : l'.revisited r' = l.revisited r := by
    unfold revisited
    rw [htarget, hscopes, hscopes']
  by_cases hmeet : l.target = r.source
  · have hmeet' : l'.target = r'.source := htarget ▸ hsource ▸ hmeet
    by_cases hle : l.visits + r.visits - 1 ≤ (l.scopes.union r.scopes).size
    · obtain ⟨p, hp⟩ := exists_join hmeet hle
      obtain ⟨p', hp'⟩ := exists_join hmeet' (hvisits ▸ hvisits' ▸ hscopes ▸ hscopes' ▸ hle)
      exact .inr ⟨p, p', hp, hp', (isJoin_of_join hp).beq (isJoin_of_join hp') hleft hright⟩
    · -- both joins name a scope of the same sets
      have hlt := Nat.lt_of_not_le hle
      refine .inl ⟨_, join_of_lt hmeet hlt, ?_⟩
      rw [← hrevisited]
      exact join_of_lt hmeet' (hvisits ▸ hvisits' ▸ hscopes ▸ hscopes' ▸ hlt)
  · have hmeet' : l'.target ≠ r'.source := htarget ▸ hsource ▸ hmeet
    refine .inl ⟨_, join_of_ne hmeet, ?_⟩
    rw [htarget, hsource]
    exact join_of_ne hmeet'

end Built

/-- Equality of paths does not depend on which of them are told to be equal because they are one
object. Built paths are equal exactly if they have the same ends and the same steps, the resolutions
of which are compared in the same way; this is an equivalence relation. Equal paths can stand for each
other in a join: both joins fail, with one error, or both lead to paths that are equal again. -/
theorem beq_stepwise [DecidableEq L] :
    (∀ {a b : End} (p q : Between L a b) (answer : Bool),
        Compares p q answer ↔ answer = (p == q)) ∧
      (∀ {a b : End} (p q : Between L a b), Built p → Built q →
        ((p == q) = true ↔ p.start = q.start ∧ p.stop = q.stop ∧ p.source = q.source ∧
          p.target = q.target ∧ p.steps.map Step.outline = q.steps.map Step.outline)) ∧
      (∀ a b : End,
        Equivalence fun p q : { p : Between L a b // Built p } => (p.1 == q.1) = true) ∧
      ∀ {a b : End} (l l' : Between L a .scope) (r r' : Between L .scope b), Built l → Built l' →
        Built r → Built r' → (l == l') = true → (r == r') = true →
          (∃ e, l.join r = .error e ∧ l'.join r' = .error e) ∨
            ∃ p p', l.join r = .ok p ∧ l'.join r' = .ok p' ∧ (p == p') = true :=
  ⟨fun _ _ _ => compares_iff, fun _ _ hp hq => hp.beq_iff hq, Built.equivalence L,
    fun _ _ _ _ hl hl' hr hr' => hl.join_congr hl' hr hr'⟩

def inPlace : ResolutionPath Char := (ofReference ⟨"M", 1⟩ ⟨0⟩).declaring ⟨"M", 0⟩

def roundabout : ResolutionPath Char := { inPlace with joins := 2 }

def entering (resolution : ResolutionPath Char) : Between Char .scope .scope :=
  named ⟨0⟩ 'I' resolution ⟨1⟩

theorem beq_stepwise_roundabout :
    Built (entering inPlace) ∧ Built (entering roundabout) ∧
      entering inPlace ≠ entering roundabout ∧
      (entering inPlace == entering roundabout) = true ∧
      ∃ p p', (ofReference ⟨"x", 2⟩ ⟨0⟩).join (entering inPlace) = .ok p ∧
        (ofReference ⟨"x", 2⟩ ⟨0⟩).join (entering roundabout) = .ok p' ∧ (p == p') = true := by
  have hreference (name : String) (position : Nat) :
      Built (a := .occurrence) (b := .scope) (ofReference ⟨name, position⟩ ⟨0⟩ : ReferencePath Char) :=
    .atom (.ofReference ⟨name, position⟩ ⟨0⟩) nofun
  have hdeclaration : Built (a := .scope) (b := .occurrence)
      (ofDeclaration ⟨0⟩ ⟨"M", 0⟩ : DeclarationPath Char) :=
    .atom (.ofDeclaration ⟨0⟩ ⟨"M", 0⟩) nofun
  have hempty : Built (a := .scope) (b := .scope) (empty ⟨0⟩ : ScopePath Char) :=
    .atom (.empty ⟨0⟩) nofun
  have hentering {p : ResolutionPath Char} (h : Built (a := .occurrence) (b := .occurrence) p) :
      Built (entering p) := by
    apply Built.atom (.named ⟨0⟩ 'I' p ⟨1⟩)
    rintro _ _ _ _ heq
    cases heq
    exact h
  have hin : Built (entering inPlace) := hentering (.join (hreference "M" 1) hdeclaration rfl)
  have hround : Built (entering roundabout) :=
    hentering (.join (.join (hreference "M" 1) hempty rfl) hdeclaration rfl)
  obtain ⟨-, hbeq, -, hjoin⟩ := beq_stepwise (L := Char)
  have hsame : (entering inPlace == entering roundabout) = true := by
    refine (hbeq _ _ hin hround).mpr ⟨rfl, rfl, rfl, rfl, ?_⟩
    simp [entering, named, single, Step.outline_named, inPlace, roundabout, declaring]
  refine ⟨hin, hround, ?_, hsame, ?_⟩
  · intro heq
    have hsteps := congrArg Path.steps heq
    cases hsteps
  · obtain ⟨e, he, -⟩ | hok := hjoin _ _ _ _ (hreference "x" 2) (hreference "x" 2) hin hround
      (beq_self _) hsame
    · cases he
    · exact hok

end Path

end NameResolution

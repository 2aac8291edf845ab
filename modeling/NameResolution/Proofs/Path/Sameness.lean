import NameResolution.Path.Equality

namespace NameResolution

variable {L A B : Type} [DecidableEq L] [DecidableEq A] [DecidableEq B]

theorem beq_steps (steps steps' : List (Step L)) : (steps == steps') = sameSteps steps steps' := by
  induction steps generalizing steps' with
  | nil =>
    cases steps' with
    | nil => rfl
    | cons => rfl
  | cons step steps ih =>
    cases steps' with
    | nil => rfl
    | cons step' steps' =>
      rw [List.cons_beq_cons, ih, sameSteps]
      rfl

theorem beq_eq_and (p p' : Path (Step L) A B) :
    (p == p') = (decide (p.start = p'.start) && decide (p.stop = p'.stop) &&
      decide (p.source = p'.source) && decide (p.target = p'.target) &&
        decide (p.scopes = p'.scopes) && decide (p.references = p'.references) &&
          sameSteps p.steps p'.steps) := by
  rw [← beq_steps]
  rfl

theorem sameResolution_eq_beq (p p' : ResolutionPath L) : sameResolution p p' = (p == p') := by
  rw [beq_eq_and]
  cases p
  rfl

theorem ends_and_steps_of_beq {p p' : ResolutionPath L} (h : (p == p') = true) :
    p.start = p'.start ∧ p.stop = p'.stop ∧ p.source = p'.source ∧
      sameSteps p.steps p'.steps = true := by
  rw [beq_eq_and] at h
  simp only [Bool.and_eq_true, decide_eq_true_eq] at h
  obtain ⟨⟨⟨⟨⟨⟨hstart, hstop⟩, hsource⟩, -⟩, -⟩, -⟩, hsteps⟩ := h
  exact ⟨hstart, hstop, hsource, hsteps⟩

omit [DecidableEq A] [DecidableEq B] in
theorem Step.beq_edge {source source' target target' : Scope} {label label' : L} :
    (Step.edge source label target == .edge source' label' target') =
      (decide (source = source') && decide (label = label') && decide (target = target')) := by
  show Step.same _ _ = _
  rw [Step.same]

theorem Step.beq_named {source source' target target' : Scope} {label label' : L}
    {p p' : ResolutionPath L} :
    (Step.named source label p target == .named source' label' p' target') =
      (decide (source = source') && decide (label = label') && decide (target = target') &&
        p == p') := by
  show Step.same _ _ = _
  rw [Step.same, sameResolution_eq_beq]

theorem Step.label_eq_of_beq {step step' : Step L} (h : (step == step') = true) :
    step.label = step'.label := by
  cases step with
  | edge =>
    cases step' with
    | edge =>
      simp only [Step.beq_edge, Bool.and_eq_true, decide_eq_true_eq] at h
      exact h.1.2
    | named => cases h
  | named =>
    cases step' with
    | edge => cases h
    | named =>
      simp only [Step.beq_named, Bool.and_eq_true, decide_eq_true_eq] at h
      exact h.1.1.2

theorem Step.eq_of_same {step step' : Step L} (h : step.same step' = true)
    (heq : ∀ source label resolution target resolution',
      step = .named source label resolution target →
        step' = .named source label resolution' target →
          sameResolution resolution resolution' = true → resolution = resolution') :
    step = step' := by
  cases step with
  | edge source label target =>
    cases step' with
    | edge source' label' target' =>
      simp only [Step.same, Bool.and_eq_true, decide_eq_true_eq] at h
      obtain ⟨⟨rfl, rfl⟩, rfl⟩ := h
      rfl
    | named => cases h
  | named source label resolution target =>
    cases step' with
    | edge => cases h
    | named source' label' resolution' target' =>
      simp only [Step.same, Bool.and_eq_true, decide_eq_true_eq] at h
      obtain ⟨⟨⟨rfl, rfl⟩, rfl⟩, hsame⟩ := h
      rw [heq _ _ resolution _ resolution' rfl rfl hsame]

theorem eq_of_sameSteps {steps steps' : List (Step L)} (h : sameSteps steps steps' = true)
    (heq : ∀ source label resolution target resolution',
      .named source label resolution target ∈ steps →
        .named source label resolution' target ∈ steps' →
          sameResolution resolution resolution' = true → resolution = resolution') :
    steps = steps' := by
  induction steps generalizing steps' with
  | nil =>
    cases steps' with
    | nil => rfl
    | cons => cases h
  | cons step steps ih =>
    cases steps' with
    | nil => cases h
    | cons step' steps' =>
      rw [sameSteps, Bool.and_eq_true] at h
      have hstep : step = step' := by
        apply Step.eq_of_same h.1
        rintro source label resolution target resolution' rfl rfl
        exact heq source label resolution target resolution' List.mem_cons_self List.mem_cons_self
      have hsteps : steps = steps' := by
        apply ih h.2
        intro source label resolution target resolution' hmem hmem'
        exact heq source label resolution target resolution' (List.mem_cons_of_mem _ hmem)
          (List.mem_cons_of_mem _ hmem')
      rw [hstep, hsteps]

mutual

theorem Step.same_self : (step : Step L) → step.same step = true
  | .edge _ _ _ => by simp [Step.same]
  | .named _ _ resolution _ => by simp [Step.same, sameResolution_self resolution]

theorem sameResolution_self : (p : ResolutionPath L) → sameResolution p p = true
  | ⟨_, _, _, _, steps, _, _, _, _, _, _, _⟩ => by simp [sameResolution, sameSteps_self steps]

theorem sameSteps_self : (steps : List (Step L)) → sameSteps steps steps = true
  | [] => by rw [sameSteps]
  | step :: steps => by rw [sameSteps, step.same_self, sameSteps_self steps, Bool.and_self]

end

theorem beq_self (p : Path (Step L) A B) : (p == p) = true := by
  simp [beq_eq_and, sameSteps_self]

end NameResolution

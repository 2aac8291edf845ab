import Mathlib
import NameResolution.Automaton.Matcher

namespace NameResolution

universe u
variable {σ : Type u} [DecidableEq σ]

def Regex.deriveAll (alphabet : Alphabet σ) (r : Regex σ) (word : List σ) : Regex σ :=
  word.foldl (fun r a => derive alphabet a r) r

/-- The automaton of some expression over some alphabet. -/
def Automaton.Compiled (automaton : Automaton σ) : Prop :=
  ∃ (regex : Regex σ) (alphabet : Alphabet σ) (h : regex.Over alphabet),
    automaton = regex.compile alphabet h

theorem Regex.compile?_eq_ok {regex : Regex σ} {alphabet : Alphabet σ} (h : regex.Over alphabet) :
    regex.compile? alphabet = .ok (regex.compile alphabet h) := dif_pos h

/-- The list of all derivatives, in the order of exploration, makes the compiled automaton. -/
theorem Regex.compile_eq_ofStates {regex : Regex σ} {alphabet : Alphabet σ} {h : regex.Over alphabet}
    {states : List (Regex σ)} (hstates : regex.residuals alphabet h = states)
    (initial : Fin states.length) (hinitial : initial.val = 0)
    (closed : ∀ r ∈ states, ∀ a ∈ alphabet, derive alphabet a r ∈ states) :
    regex.compile alphabet h = .ofStates regex states initial closed := by
  subst hstates
  rw [compile]
  congr 1
  exact Fin.ext hinitial.symm

theorem Regex.exists_over_of_compile? {regex : Regex σ} {alphabet : Alphabet σ}
    {automaton : Automaton σ} (hcompile : regex.compile? alphabet = .ok automaton) :
    ∃ h : regex.Over alphabet, automaton = regex.compile alphabet h := by
  unfold compile? at hcompile
  split at hcompile
  · next h =>
    cases hcompile
    exact ⟨h, rfl⟩
  · cases hcompile

/-- What remains of an expression over the alphabet is over the alphabet. -/
theorem Regex.over_of_reachable {regex : Regex σ} {alphabet : Alphabet σ} (h : regex.Over alphabet)
    {r : Regex σ} (hr : Reachable (derivatives alphabet) (normalize alphabet regex) r) :
    r.Over alphabet := by
  induction hr with
  | refl => exact over_normalize h
  | step _ hy ih =>
    obtain ⟨a, -, rfl⟩ := List.mem_map.mp hy
    exact over_derive a ih

def Regex.transitions (regex : Regex σ) {alphabet : Alphabet σ} (h : regex.Over alphabet) :
    Vector (Vector (Fin (regex.residuals alphabet h).length) alphabet.size)
      (regex.residuals alphabet h).length :=
  Automaton.table (regex.residuals alphabet h) fun _ hr _ ha => derive_mem_residuals h hr ha

namespace Matcher

@[simp] theorem matchAll?_nil {automaton : Automaton σ} (m : Matcher automaton) :
    m.matchAll? [] = .ok m := rfl

theorem matchAll?_cons {automaton : Automaton σ} (m : Matcher automaton) (a : σ) (word : List σ) :
    m.matchAll? (a :: word) = (m.step? a).bind (·.matchAll? word) := rfl

theorem matchAll?_cons_eq_ok_iff {automaton : Automaton σ} {m m' : Matcher automaton} {a : σ}
    {word : List σ} :
    m.matchAll? (a :: word) = .ok m' ↔
      ∃ h : a ∈ automaton.alphabet, (m.step a h).matchAll? word = .ok m' := by
  rw [matchAll?_cons]
  unfold step?
  split
  · next h => simp [h, Except.bind]
  · next h => simp [h, Except.bind]

variable {regex : Regex σ} {alphabet : Alphabet σ} {h : regex.Over alphabet}

def index (m : Matcher (regex.compile alphabet h)) : Fin (regex.residuals alphabet h).length :=
  m.state

theorem current_compile (m : Matcher (regex.compile alphabet h)) :
    m.current =
      { residual := (regex.residuals alphabet h).get m.index
        accepting := ((regex.residuals alphabet h).get m.index).nullable
        live := decide (some m.index ∈ explore (Automaton.finitelyReachable_backward
          (fun i => ((regex.residuals alphabet h).get i).nullable) (regex.transitions h)))
        next := (regex.transitions h).get m.index } :=
  Vector.getElem_ofFn _

theorem residual_eq_get (m : Matcher (regex.compile alphabet h)) :
    m.residual = (regex.residuals alphabet h).get m.index :=
  congrArg State.residual (current_compile m)

theorem accepting_eq_nullable (m : Matcher (regex.compile alphabet h)) :
    m.accepting = m.residual.nullable := by
  rw [residual_eq_get]
  exact congrArg State.accepting (current_compile m)

theorem stuck_compile (m : Matcher (regex.compile alphabet h)) :
    m.stuck = !decide (some m.index ∈ explore (Automaton.finitelyReachable_backward
      (fun i => ((regex.residuals alphabet h).get i).nullable) (regex.transitions h))) :=
  congrArg Bool.not (congrArg State.live (current_compile m))

theorem index_step (m : Matcher (regex.compile alphabet h)) {a : σ} (ha : a ∈ alphabet) :
    (m.step a ha).index = ((regex.transitions h).get m.index).get
      ⟨alphabet.position a, Alphabet.position_lt ha⟩ :=
  congrArg (fun next => Vector.get next ⟨alphabet.position a, Alphabet.position_lt ha⟩)
    (congrArg State.next (current_compile m))

theorem residual_start : (regex.compile alphabet h).start.residual = regex.normalize alphabet := by
  rw [residual_eq_get]
  have hhead : (regex.residuals alphabet h).head? = some (regex.normalize alphabet) := head?_explore
  rw [List.head?_eq_getElem?] at hhead
  exact (List.getElem?_eq_some_iff.mp hhead).2

theorem get_transitions (i : Fin (regex.residuals alphabet h).length)
    (j : Fin alphabet.size) :
    (regex.residuals alphabet h).get (((regex.transitions h).get i).get j) =
      ((regex.residuals alphabet h).get i).derive alphabet (alphabet.symbols.get j) := by
  -- the table holds positions, and the expression at the position of a derivative is that derivative
  have hcell : ((regex.transitions h).get i).get j =
      ⟨(regex.residuals alphabet h).idxOf
        (((regex.residuals alphabet h).get i).derive alphabet (alphabet.symbols.get j)), _⟩ :=
    (congrArg (Vector.get · j) (Vector.getElem_ofFn _)).trans (Vector.getElem_ofFn _)
  rw [hcell]
  exact List.getElem_idxOf _

theorem residual_step (m : Matcher (regex.compile alphabet h)) {a : σ} (ha : a ∈ alphabet) :
    (m.step a ha).residual = m.residual.derive alphabet a := by
  have hsymbol : alphabet.symbols.get ⟨alphabet.position a, Alphabet.position_lt ha⟩ = a :=
    List.getElem_idxOf _
  rw [residual_eq_get, residual_eq_get, index_step, get_transitions]
  exact congrArg (Regex.derive alphabet · _) hsymbol

/-- A word over the alphabet leads to a matcher with what remains after the word. -/
theorem exists_matchAll? (m : Matcher (regex.compile alphabet h)) {word : List σ}
    (hword : ∀ a ∈ word, a ∈ alphabet) :
    ∃ m', m.matchAll? word = .ok m' ∧ m'.residual = m.residual.deriveAll alphabet word := by
  induction word generalizing m with
  | nil => exact ⟨m, rfl, rfl⟩
  | cons a word ih =>
    have ⟨ha, hrest⟩ := List.forall_mem_cons.mp hword
    obtain ⟨m', hm', hresidual⟩ := ih (m.step a ha) hrest
    refine ⟨m', matchAll?_cons_eq_ok_iff.mpr ⟨ha, hm'⟩, ?_⟩
    rw [hresidual, residual_step]
    rfl

end Matcher

end NameResolution

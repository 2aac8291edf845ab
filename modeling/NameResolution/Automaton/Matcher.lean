import NameResolution.Automaton.Basic

namespace NameResolution

universe u
variable {σ : Type u}

structure Matcher (automaton : Automaton σ) where
  state : Fin automaton.size
  deriving DecidableEq

def Automaton.start (automaton : Automaton σ) : Matcher automaton := ⟨automaton.initial⟩

namespace Matcher

variable {automaton : Automaton σ}

def current (m : Matcher automaton) : State σ automaton.size automaton.alphabet.size :=
  automaton.states[m.state]

/-- The symbols consumed so far form a match. -/
def accepting (m : Matcher automaton) : Bool := m.current.accepting

/-- No continuation forms a match. -/
def stuck (m : Matcher automaton) : Bool := !m.current.live

def residual (m : Matcher automaton) : Regex σ := m.current.residual

def branches (m : Matcher automaton) : List (σ × Matcher automaton) :=
  automaton.alphabet.symbols.zip (m.current.next.toList.map .mk)

variable [DecidableEq σ]

def step (m : Matcher automaton) (a : σ) (h : a ∈ automaton.alphabet) : Matcher automaton :=
  ⟨m.current.next.get ⟨automaton.alphabet.position a, Alphabet.position_lt h⟩⟩

def step? (m : Matcher automaton) (a : σ) : Except (OutsideAlphabet σ) (Matcher automaton) :=
  if h : a ∈ automaton.alphabet then .ok (m.step a h) else .error ⟨[a], automaton.alphabet⟩

def matchAll? (m : Matcher automaton) (word : List σ) :
    Except (OutsideAlphabet σ) (Matcher automaton) :=
  word.foldlM step? m

/-- Whether a word completes a match; the symbols after a stuck position are not looked at. -/
def accepts? (m : Matcher automaton) : List σ → Except (OutsideAlphabet σ) Bool
  | [] => .ok m.accepting
  | a :: word => do
    let m' ← m.step? a
    if m'.stuck then return false
    m'.accepts? word

omit [DecidableEq σ] in
def render (symbol : σ → String) (m : Matcher automaton) : String :=
  "RegexMatcher \x7b state: " ++ toString m.state.val ++ ", regex: " ++
    m.residual.renderTree symbol ++ " \x7d"

end Matcher

end NameResolution

import NameResolution.Automaton.Basic

namespace NameResolution.Automaton

universe u
variable {σ : Type u}

def escapeQuotes (text : String) : String :=
  String.ofList (text.toList.flatMap fun c => if c = '"' then ['\\', '"'] else [c])

/-- The node statement of state `i` and one edge statement for each symbol. -/
def stateLines (name : σ → String) (automaton : Automaton σ) (i : Fin automaton.size) :
    List String :=
  let state := automaton.states[i]
  let attributes :=
    (if state.accepting then ", shape=doublecircle" else "") ++
    (if state.live then "" else ", color=grey") ++
    (if i = automaton.initial then ", style=bold" else "")
  let id := "id" ++ toString i.val
  let node := "node[label=\"" ++ escapeQuotes (state.residual.render name) ++ "\"" ++ attributes ++
    "] " ++ id
  node :: (automaton.alphabet.symbols.zip state.next.toList).map fun (a, j) =>
    id ++ " -> id" ++ toString j.val ++ " [label=\"" ++ name a ++ "\"]"

def graphviz (name : σ → String) (automaton : Automaton σ) : String :=
  let lines := "digraph \x7b" :: (List.finRange automaton.size).flatMap (stateLines name automaton)
    ++ ["\x7d"]
  String.join (lines.map (· ++ "\n"))

end NameResolution.Automaton

import ByteRegex.Nfa.Basic

/-!
# Drawings of automata

The text of an automaton in the DOT language, with one line for each mark of a state and for each
transition. The start is marked by a box and an accepting state by two outlines.
-/

namespace ByteRegex.Nfa

namespace Dot

def line (text : String) : String := "\t" ++ text ++ ";\n"

def stateLine (q : Nat) (style : String) : String :=
  line (toString q ++ " [" ++ style ++ "]")

def edgeLine (q : Nat) (symbol : Symbol) (target : Nat) : String :=
  line (toString q ++ " -> " ++ toString target ++ " [label=\"" ++ symbol.label ++ "\"]")

def stateLines (q : Nat) (s : State) : List String :=
  (if s.isStart then [stateLine q "shape=box"] else []) ++
  (if s.isAccept then [stateLine q "peripheries=2"] else []) ++
  s.transitions.toList.map fun e => edgeLine q e.1 e.2

end Dot

def dot (a : Nfa) : String :=
  "digraph nfa \x7b\n" ++ Dot.line "rankdir=LR" ++
    String.join (a.numbered.flatMap fun e => Dot.stateLines e.2 e.1) ++ "\x7d\n"

/-- Whether the drawing fits into a buffer of `capacity` bytes. -/
def dotFits (a : Nfa) (capacity : Nat) : Bool := decide (a.dot.utf8ByteSize ≤ capacity)

end ByteRegex.Nfa

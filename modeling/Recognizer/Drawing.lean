import Recognizer.Dfa.Basic
import Recognizer.Nfa.Basic

/-!
# Drawings

An automaton as a graph in the DOT language, drawn from left to right: a point leads to the initial
state, final states have a double circle, and every edge carries its label.
-/

namespace Recognizer

set_option autoImplicit false

namespace Drawing

/-! ## Statements -/

def escaped (cs : List Char) : List Char :=
  cs.flatMap fun c => if c = '\\' ∨ c = '"' then ['\\', c] else [c]

def number (s : State) : List Char := Nat.toDigits 10 s

def labelled (cs : List Char) : List Char :=
  "label = \"".toList ++ escaped cs ++ "\"];".toList

def node (s : State) (isFinal : Bool) (label : List Char) : List Char :=
  '\t' :: number s ++ " [shape = ".toList ++
    (if isFinal then "doublecircle".toList else "circle".toList) ++ ", ".toList ++ labelled label

def edge (t : Transition) : List Char :=
  '\t' :: number t.source ++ " -> ".toList ++ number t.target ++ " [".toList ++
    labelled t.label.text

def lines (ss : List (List Char)) : List Char := List.intercalate ['\n'] ss

/-! ## Graphs -/

def graph (name : String) (initial : State) (nodes edges : List (List Char)) : List Char :=
  "digraph ".toList ++ name.toList ++ " \x7b\n\trankdir = LR;\n\tstart [shape = point];\n".toList ++
    "\tstart -> ".toList ++ number initial ++ ";\n".toList ++
    lines nodes ++ '\n' :: lines edges ++ "\n\x7d\n".toList

end Drawing

open Drawing

/-- States are labelled with their numbers. -/
def Nfa.drawing (N : Nfa) : String :=
  let nodes := N.states.toList.map fun s => node s (N.finals.contains s) (number s)
  String.ofList (graph "nfa" N.initial nodes (N.transitions.map edge))

/-- States are labelled with their members, where these are known. -/
def Dfa.drawing (D : Dfa) : String :=
  let nodes := D.states.toList.map fun s => node s (D.isFinal s) (D.label s).toList
  String.ofList (graph "dfa" D.start nodes (D.transitions.map edge))

end Recognizer

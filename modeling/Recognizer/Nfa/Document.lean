import Recognizer.Document.Listing
import Recognizer.Error
import Recognizer.Nfa.Basic

/-!
# Automata with silent moves as documents

An automaton is written as a listing with numbered states, its whole alphabet included. Reading one
settles the alphabet first, then the symbols of the edges in their order, and asks last whether all
states in use are declared.
-/

namespace Recognizer.Nfa

set_option autoImplicit false

open Document (Edge Listing Spelling)

/-! ## Writing -/

def toEdge (t : Transition) : Edge State :=
  ⟨t.source, t.target, t.label.symbol?.map Char.toString⟩

def toListing (N : Nfa) : Listing State where
  states := N.states.toList
  alphabet := some (Document.symbolTexts N.alphabet)
  initial := N.initial
  finals := N.finals.toList
  edges := N.transitions.map toEdge

/-! ## Reading -/

/-- The label of an edge, whose symbol must be in the alphabet. -/
def edgeLabel (A : Alphabet) (symbol : Option String) : Except Flaw Label :=
  match symbol with
  | none => .ok .silent
  | some text => do
    let c ← Document.symbol text
    if c ∈ A then return .symbol c else throw (.foreignSymbol c)

def addEdge (A : Alphabet) (N : Nfa) (e : Edge State) : Except Flaw Nfa := do
  let l ← edgeLabel A e.symbol
  return N.addTransition ⟨e.source, l, e.target⟩

def ofListing (d : Listing State) : Except Flaw Nfa := do
  let A ← d.symbols
  let N := build d.initial (d.states.map .state ++ A.toList.map .symbol)
  let N ← d.edges.foldlM (addEdge A) N
  let N := d.finals.foldl addFinal N
  N.check
  return N

/-! ## Texts -/

def text (N : Nfa) : String := N.toListing.text Spelling.number

def read (i : Text.Input) : Except Error Nfa := do
  let d ← (Listing.read Spelling.number i).mapError .json
  (ofListing d).mapError .automaton

end Recognizer.Nfa

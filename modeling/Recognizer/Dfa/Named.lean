import Recognizer.Dfa.Basic
import Recognizer.Document.Table
import Recognizer.Error

/-!
# Deterministic automata with named states

State `i` is called by the `i`-th name, and by its own number where there is no such name. As a
document, such an automaton is a table of names.
-/

namespace Recognizer

set_option autoImplicit false

structure Dfa.Named where
  dfa : Dfa
  names : List String := []
deriving DecidableEq

namespace Dfa.Named

open Document (Table)

def name (D : Dfa.Named) (s : State) : String := D.names[s]?.getD s.repr

/-! ## Writing -/

def enter (D : Dfa.Named) (rows : OrderedMap String (OrderedMap String String))
    (m : (State × Symbol) × State) : OrderedMap String (OrderedMap String String) :=
  rows.update (D.name m.1.1) fun row => (row.getD ∅).insert m.1.2.toString (D.name m.2)

def toTable (D : Dfa.Named) : Table where
  states := D.dfa.states.toList.map D.name
  alphabet := Document.symbolTexts D.dfa.alphabet
  initial := D.name D.dfa.start
  finals := D.dfa.finals.toList.map D.name
  rows := D.dfa.moves.entries.foldl D.enter ∅

/-! ## Reading -/

def locate (names : List String) (x : String) : Except Flaw State :=
  Document.locate Text.quoted names x

def addEntry (names : List String) (s : State) (D : Dfa) (e : String × String) :
    Except Flaw Dfa := do
  let c ← Document.symbol e.1
  let t ← locate names e.2
  D.addTransition s c t

/-- The source of a row is looked up even if the row is empty. -/
def addRow (names : List String) (D : Dfa) (r : String × OrderedMap String String) :
    Except Flaw Dfa := do
  let s ← locate names r.1
  r.2.entries.foldlM (addEntry names s) D

def addFinal (names : List String) (D : Dfa) (x : String) : Except Flaw Dfa := do
  let s ← locate names x
  return D.addFinal s

def ofTable (d : Table) : Except Flaw Dfa.Named := do
  Document.declare Text.quoted d.states
  let A ← Document.alphabet d.alphabet
  let start ← locate d.states d.initial
  let D := (List.range d.states.length).foldl Dfa.addState { start, alphabet := A }
  let D ← d.rows.entries.foldlM (addRow d.states) D
  let D ← d.finals.foldlM (addFinal d.states) D
  D.check
  return ⟨D, d.states⟩

/-! ## Texts -/

def text (D : Dfa.Named) : String := D.toTable.text

def read (i : Text.Input) : Except Error Dfa.Named := do
  let d ← (Table.read i).mapError .json
  (ofTable d).mapError .automaton

end Dfa.Named

end Recognizer

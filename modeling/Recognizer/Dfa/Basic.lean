import Recognizer.Flaw
import Recognizer.OrderedMap
import Recognizer.Text.Basic

/-!
# Deterministic automata

At most one transition leaves a state on a symbol, and its symbol is in the alphabet: an addition
that would break this is refused and changes nothing. A missing transition is no defect. Transitions
stand in the order in which they were first added.
-/

namespace Recognizer

set_option autoImplicit false

structure Dfa where
  start : State
  alphabet : Alphabet
  states : StateSet := ∅
  finals : StateSet := ∅
  moves : OrderedMap (State × Symbol) State := ∅
  /-- The states of another automaton that each state stands for, if they are known. -/
  members : Option (List StateSet) := none
deriving DecidableEq

namespace Dfa

/-! ## Edits -/

inductive Edit
  | state (s : State)
  | final (s : State)
  | transition (s : State) (c : Symbol) (t : State)
deriving DecidableEq

def addState (D : Dfa) (s : State) : Dfa := { D with states := D.states.insert s }

def addFinal (D : Dfa) (s : State) : Dfa := { D with finals := D.finals.insert s }

/-- A transition that is there already may be added again. -/
def addTransition (D : Dfa) (s : State) (c : Symbol) (t : State) : Except Flaw Dfa :=
  if c ∉ D.alphabet then .error (.foreignSymbol c)
  else
    match D.moves.get? (s, c) with
    | some u => if u = t then .ok D else .error (.conflict s c)
    | none => .ok { D with moves := D.moves.insert (s, c) t }

def edit (D : Dfa) : Edit → Except Flaw Dfa
  | .state s => .ok (D.addState s)
  | .final s => .ok (D.addFinal s)
  | .transition s c t => D.addTransition s c t

/-- The automaton after an edit, which is the same one if the edit is refused. -/
def editOrKeep (D : Dfa) (e : Edit) : Dfa := (D.edit e).toOption.getD D

/-- The automaton that a list of edits makes of an empty one, refused edits left out. -/
def build (A : Alphabet) (start : State) (es : List Edit) : Dfa :=
  es.foldl editOrKeep { start, alphabet := A }

/-! ## Views -/

def next? (D : Dfa) (s : State) (c : Symbol) : Option State := D.moves.get? (s, c)

def isFinal (D : Dfa) (s : State) : Bool := D.finals.contains s

def moveTransition (m : (State × Symbol) × State) : Transition := ⟨m.1.1, .symbol m.1.2, m.2⟩

def transitions (D : Dfa) : List Transition := D.moves.entries.map moveTransition

def members? (D : Dfa) (s : State) : Option StateSet := D.members.bind (·[s]?)

/-- The members of a state, or its own number where they are not known. -/
def membersOrSelf (D : Dfa) (s : State) : List State :=
  match D.members? s with
  | some S => S.toList
  | none => [s]

/-- The members of a state between brackets, or its own number where they are not known. -/
def label (D : Dfa) (s : State) : String :=
  match D.members? s with
  | some S => Text.bracketed S.toList
  | none => s.repr

/-! ## Defects -/

def moveDefect? (D : Dfa) (m : (State × Symbol) × State) : Option Flaw :=
  if m.1.1 ∉ D.states ∨ m.2 ∉ D.states then some (.endpoint m.1.1 m.2)
  else if m.1.2 ∉ D.alphabet then some (.foreignSymbol m.1.2)
  else none

/-- The start, then the smallest final state, then the first transition that uses something which is
not declared. -/
def defect? (D : Dfa) : Option Flaw :=
  if D.start ∉ D.states then some (.initial D.start)
  else
    match D.finals.toList.find? (· ∉ D.states) with
    | some s => some (.final s)
    | none => D.moves.entries.findSome? D.moveDefect?

def check (D : Dfa) : Except Flaw Unit :=
  match D.defect? with
  | some m => .error m
  | none => .ok ()

end Dfa

end Recognizer

import Recognizer.Dfa.Basic

/-!
# Runs of deterministic automata

A run reads a word from the left and keeps every state it visits. It stops where a symbol is foreign
to the alphabet or leads nowhere; a word read to its end is accepted in a final state.
-/

namespace Recognizer

set_option autoImplicit false

inductive Rejection
  | foreign (c : Symbol)
  | stuck (s : State) (c : Symbol)
  | notFinal (s : State)
deriving DecidableEq

def Rejection.text : Rejection → String
  | foreign c => "symbol " ++ Text.quotedChar c ++ " is not in the alphabet"
  | stuck s c => "no transition from state " ++ s.repr ++ " on " ++ Text.quotedChar c
  | notFinal s => "state " ++ s.repr ++ " is not final"

structure Run where
  path : List State
  rejection : Option Rejection
deriving DecidableEq

namespace Run

def accepted (r : Run) : Bool := r.rejection.isNone

def last? (r : Run) : Option State := r.path.getLast?

/-- The run that passes through `s` before `r`. -/
def through (s : State) (r : Run) : Run := { r with path := s :: r.path }

end Run

namespace Dfa

/-- The run on a word from any state. A foreign symbol is noticed before a missing transition. -/
def runFrom (D : Dfa) (s : State) : List Symbol → Run
  | [] => ⟨[s], if D.isFinal s then none else some (.notFinal s)⟩
  | c :: w =>
    if c ∉ D.alphabet then ⟨[s], some (.foreign c)⟩
    else
      match D.next? s c with
      | none => ⟨[s], some (.stuck s c)⟩
      | some t => (runFrom D t w).through s

def run (D : Dfa) (w : List Symbol) : Run := D.runFrom D.start w

end Dfa

end Recognizer

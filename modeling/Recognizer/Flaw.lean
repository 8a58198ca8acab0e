import Recognizer.State
import Recognizer.Text.Quoted

/-!
# What is wrong with an automaton

The reasons for which an automaton, or a document that describes one, is turned down.
-/

namespace Recognizer

set_option autoImplicit false

inductive Flaw
  | initial (s : State)
  | final (s : State)
  /-- A transition leaves or enters a state that is not declared. -/
  | endpoint (source target : State)
  | foreignSymbol (c : Symbol)
  /-- A text that stands for a symbol has not exactly one character. -/
  | notSymbol (text : String)
  /-- Transitions of a deterministic automaton disagree. -/
  | conflict (s : State) (c : Symbol)
  /-- A transition of a deterministic automaton has no symbol. -/
  | silentMove (source target : State)
  | repeatedName (name : String)
  | unknownName (name : String)
deriving DecidableEq

namespace Flaw

open Text (quoted quotedChar)

/-- States are named by their numbers, symbols and texts by their quoted forms. -/
def detail : Flaw → String
  | initial s => "initial state " ++ s.repr ++ " is not declared"
  | final s => "final state " ++ s.repr ++ " is not declared"
  | endpoint s t =>
    "transition " ++ s.repr ++ " -> " ++ t.repr ++ " uses an undeclared state"
  | foreignSymbol c => "symbol " ++ quotedChar c ++ " is not in the alphabet"
  | notSymbol text => "symbol must be a single character, found " ++ quoted text
  | conflict s c =>
    "state " ++ s.repr ++ " has several transitions on " ++ quotedChar c
  | silentMove s t =>
    "epsilon transition " ++ s.repr ++ " -> " ++ t.repr ++ " in a deterministic automaton"
  | repeatedName name => "state " ++ quoted name ++ " is declared more than once"
  | unknownName name => "state " ++ quoted name ++ " is not declared"

end Flaw

end Recognizer

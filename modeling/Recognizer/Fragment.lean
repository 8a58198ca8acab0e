import Recognizer.Expr.Basic
import Recognizer.Expr.Defect
import Recognizer.Nfa.Basic

/-!
# From expressions to automata

Each part of an expression becomes a fragment with one entry and one exit, over states drawn from a
supply that never hands out the same number twice. The supply stays where a failed build left it.
-/

namespace Recognizer

set_option autoImplicit false

structure Fragment where
  states : List State
  initial : State
  final : State
  transitions : List Transition
deriving DecidableEq

/-- A computation that draws states from a supply, of which the next unused number is known. -/
abbrev Build (α : Type) := ExceptT Expr.Defect (StateM State) α

namespace Fragment

def fresh : Build State := modifyGet fun n => (n, n + 1)

/-- Two new states with no transition between them. -/
def bare : Build Fragment := do
  let initial ← fresh
  let final ← fresh
  return ⟨[initial, final], initial, final, []⟩

def connect (f : Fragment) (l : Label) (s t : State) : Fragment :=
  { f with transitions := f.transitions ++ [⟨s, l, t⟩] }

/-- Takes over the states and transitions of `g`; entry and exit stay. -/
def merge (f g : Fragment) : Fragment :=
  { f with states := f.states ++ g.states, transitions := f.transitions ++ g.transitions }

/-- Makes `g` one more way from the entry of `f` to its exit. -/
def branch (f g : Fragment) : Fragment :=
  ((f.connect .silent f.initial g.initial).connect .silent g.final f.final).merge g

def append (f g : Fragment) : Fragment :=
  ({ f.connect .silent f.final g.initial with final := g.final }).merge g

/-- Makes `g` a way from the entry of `f` to its exit that may be gone any number of times. -/
def loop (f g : Fragment) : Fragment :=
  let entered := f.connect .silent f.initial g.initial
  let repeated := entered.connect .silent g.final g.initial
  let left := repeated.connect .silent g.final f.final
  (left.connect .silent f.initial f.final).merge g

end Fragment

namespace Expr

open Fragment

mutual

def fragment : Expr → Build Fragment
  | literal c => do
    let f ← Fragment.bare
    return f.connect (.symbol c) f.initial f.final
  | alternation [] => throw .emptyAlternation
  | alternation (x :: xs) => do
    let f ← Fragment.bare
    branches f (x :: xs)
  | sequence [] => throw .emptySequence
  | sequence (x :: xs) => do
    let f ← fragment x
    followers f xs
  | star x => do
    let f ← Fragment.bare
    let g ← fragment x
    return f.loop g

def branches (f : Fragment) : List Expr → Build Fragment
  | [] => return f
  | x :: xs => do
    let g ← fragment x
    branches (f.branch g) xs

def followers (f : Fragment) : List Expr → Build Fragment
  | [] => return f
  | x :: xs => do
    let g ← fragment x
    followers (f.append g) xs

end

/-- The fragment of an expression over a supply whose next number is `next`, and what is next then. -/
def fragmentFrom (x : Expr) (next : State) : Except Defect Fragment × State :=
  (fragment x).run.run next

end Expr

/-- Declares every state, then every transition, then the exit as the only final state. -/
def Fragment.toNfa (f : Fragment) : Nfa :=
  Nfa.build f.initial <|
    f.states.map .state ++ f.transitions.map .transition ++ [.final f.final]

/-- The automaton of an expression; its alphabet is the symbols that occur in it. -/
def Expr.compile (x : Expr) : Except Expr.Defect Nfa := (x.fragmentFrom 0).1.map Fragment.toNfa

end Recognizer

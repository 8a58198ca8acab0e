import Recognizer.SortedSet

/-!
# Symbols and labels

What words and the edges of automata are made of. A label is a symbol or silent, and the silent label
comes before every symbol.
-/

namespace Recognizer

set_option autoImplicit false

abbrev Symbol := Char

/-- The symbols a word may use, in ascending order. -/
abbrev Alphabet := SortedSet Symbol

def Alphabet.ofString (s : String) : Alphabet := SortedSet.ofList s.toList

def Alphabet.toString (A : Alphabet) : String := String.ofList A.toList

inductive Label
  /-- Passed without reading anything. -/
  | silent
  | symbol (c : Symbol)
deriving DecidableEq, Inhabited

namespace Label

def isSilent : Label → Bool
  | silent => true
  | symbol _ => false

def symbol? : Label → Option Symbol
  | silent => none
  | symbol c => some c

def ofOption : Option Symbol → Label
  | none => silent
  | some c => symbol c

def text : Label → List Char
  | silent => ['ε']
  | symbol c => [c]

instance : Ranked Label where
  rank
    | silent => 0
    | symbol c => Ranked.rank c + 1
  rank_inj {a b} h := by
    cases a <;> cases b
    · rfl
    · exact absurd h (by simp)
    · exact absurd h (by simp)
    · exact congrArg symbol (Ranked.rank_inj (Nat.succ.inj h))

/-- Ascending, with repeats kept. -/
def sort (ls : List Label) : List Label :=
  ls.mergeSort fun a b => Ranked.rank a ≤ Ranked.rank b

end Label

end Recognizer

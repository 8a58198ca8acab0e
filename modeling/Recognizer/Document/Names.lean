import Recognizer.Flaw
import Recognizer.Text.Basic

/-!
# Names in documents

Symbols are written as texts of one character. States may be written by any kind of name; then every
name is declared once, and its place in the declaration is the number of its state.
-/

namespace Recognizer.Document

set_option autoImplicit false

/-! ## Symbols -/

def symbol (text : String) : Except Flaw Symbol :=
  match Text.onlyChar? text with
  | some c => .ok c
  | none => .error (.notSymbol text)

def alphabet (texts : List String) : Except Flaw Alphabet := do
  let cs ← texts.mapM symbol
  return SortedSet.ofList cs

def symbolTexts (A : Alphabet) : List String := A.toList.map Char.toString

/-! ## States -/

variable {S : Type} [DecidableEq S]

/-- The first name that occurs in `seen` or before itself. -/
def firstRepeat? (seen : List S) : List S → Option S
  | [] => none
  | x :: xs => if x ∈ seen then some x else firstRepeat? (x :: seen) xs

def declare (shown : S → String) (names : List S) : Except Flaw Unit :=
  match firstRepeat? [] names with
  | some x => .error (.repeatedName (shown x))
  | none => .ok ()

def locate (shown : S → String) (names : List S) (x : S) : Except Flaw State :=
  match names.idxOf? x with
  | some i => .ok i
  | none => .error (.unknownName (shown x))

end Recognizer.Document

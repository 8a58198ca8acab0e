import Recognizer.Json.Basic
import Recognizer.Decimal.Shortest

/-!
# Writing JSON

Two layouts of the same text: compact, with no blank at all, and indented by two spaces a level,
where an empty list or object stays on its line.
-/

namespace Recognizer.Json

set_option autoImplicit false

/-! ## Scalars -/

/-- Positional up to sixteen places before the point and four zeros after it; exponents have a sign
always. -/
def floatLayout : Decimal.Layout := { widest := 16, deepest := 5, signed := true }

/-- A float always shows a point or an exponent, so it never reads as an integer. -/
def floatText (x : Float) : List Char :=
  let sign := if Binary.isNegative x then ['-'] else []
  if x == 0 then sign ++ ['0', '.', '0']
  else sign ++ (Binary.ofFloat x).shortest.render floatLayout

def hexPair (n : Nat) : List Char := [Nat.digitChar (n / 16), Nat.digitChar (n % 16)]

/-- Quotes, backslashes and controls are escaped, and nothing else. -/
def escapedChar (c : Char) : List Char :=
  match c with
  | '"' => ['\\', '"']
  | '\\' => ['\\', '\\']
  | '\x08' => ['\\', 'b']
  | '\x0c' => ['\\', 'f']
  | '\n' => ['\\', 'n']
  | '\r' => ['\\', 'r']
  | '\t' => ['\\', 't']
  | c => if c.toNat < 0x20 then ['\\', 'u', '0', '0'] ++ hexPair c.toNat else [c]

def stringText (s : String) : List Char := '"' :: s.toList.flatMap escapedChar ++ ['"']

/-! ## Compact layout -/

mutual

def compactText : Json → List Char
  | .null => ['n', 'u', 'l', 'l']
  | .bool true => ['t', 'r', 'u', 'e']
  | .bool false => ['f', 'a', 'l', 's', 'e']
  | .integer i => (Int.repr i).toList
  | .float x => floatText x
  | .string s => stringText s
  | .array xs => '[' :: compactElements true xs ++ [']']
  | .object ms => '\x7b' :: compactMembers true ms ++ ['\x7d']

/-- The elements, each but the very first behind a comma. -/
def compactElements (first : Bool) : List Json → List Char
  | [] => []
  | x :: xs => (if first then [] else [',']) ++ compactText x ++ compactElements false xs

def compactMembers (first : Bool) : List (String × Json) → List Char
  | [] => []
  | (k, v) :: ms =>
    (if first then [] else [',']) ++ stringText k ++ ':' :: compactText v ++ compactMembers false ms

end

def compact (j : Json) : String := String.ofList (compactText j)

/-! ## Indented layout -/

def newline (level : Nat) : List Char := '\n' :: List.replicate (2 * level) ' '

mutual

def prettyText (level : Nat) : Json → List Char
  | .array [] => ['[', ']']
  | .object [] => ['\x7b', '\x7d']
  | .array xs => '[' :: prettyElements (level + 1) true xs ++ newline level ++ [']']
  | .object ms => '\x7b' :: prettyMembers (level + 1) true ms ++ newline level ++ ['\x7d']
  | j => compactText j

def prettyElements (level : Nat) (first : Bool) : List Json → List Char
  | [] => []
  | x :: xs =>
    (if first then [] else [',']) ++ newline level ++ prettyText level x ++
      prettyElements level false xs

def prettyMembers (level : Nat) (first : Bool) : List (String × Json) → List Char
  | [] => []
  | (k, v) :: ms =>
    (if first then [] else [',']) ++ newline level ++ stringText k ++ ':' :: ' ' ::
      prettyText level v ++ prettyMembers level false ms

end

def pretty (j : Json) : String := String.ofList (prettyText 0 j)

end Recognizer.Json

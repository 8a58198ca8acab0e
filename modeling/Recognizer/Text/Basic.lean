/-!
# Small matters of text

Lists of numbers, texts of one character, and texts in bounded room.
-/

namespace Recognizer.Text

set_option autoImplicit false

/-- Numbers in decimal, with a comma and a blank between them. -/
def numbers (ns : List Nat) : List Char := List.intercalate [',', ' '] (ns.map (Nat.toDigits 10))

def bracketed (ns : List Nat) : String := String.ofList ('[' :: numbers ns ++ [']'])

def braced (ns : List Nat) : String := String.ofList ('\x7b' :: numbers ns ++ ['\x7d'])

def onlyChar? (s : String) : Option Char :=
  match s.toList with
  | [c] => some c
  | _ => none

/-- Whether a text fits into `room` bytes, or anywhere if there is no bound. -/
def fits (room : Option Nat) (s : String) : Bool := room.all (s.utf8ByteSize ≤ ·)

end Recognizer.Text

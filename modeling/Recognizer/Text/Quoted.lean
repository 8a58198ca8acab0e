import Recognizer.Text.Hidden

/-!
# Quoted forms of characters and texts

The form in which an error names a character or a text: between quotes, with the quote in use, the
backslash and every hidden character written as an escape.
-/

namespace Recognizer.Text

set_option autoImplicit false

/-- The character as it stands inside quotes of the kind `quote`. -/
def escaped (quote c : Char) : List Char :=
  match c with
  | '\n' => ['\\', 'n']
  | '\r' => ['\\', 'r']
  | '\t' => ['\\', 't']
  | '\x00' => ['\\', '0']
  | c =>
    if c = quote ∨ c = '\\' then ['\\', c]
    else if isHidden c then ['\\', 'u', '\x7b'] ++ Nat.toDigits 16 c.toNat ++ ['\x7d']
    else [c]

def quotedChar (c : Char) : String := String.ofList ('\'' :: escaped '\'' c ++ ['\''])

def quoted (s : String) : String := String.ofList ('"' :: s.toList.flatMap (escaped '"') ++ ['"'])

end Recognizer.Text

import Recognizer.State

/-!
# Regular expressions

Trees over literals of one symbol. An alternation or a sequence with nothing to choose from or to
follow has no meaning of its own; `Expr.complete` says that a tree holds none.
-/

namespace Recognizer

set_option autoImplicit false

inductive Expr
  | literal (c : Symbol)
  | alternation (xs : List Expr)
  | sequence (xs : List Expr)
  | star (x : Expr)
deriving Inhabited

namespace Expr

def ofWord (w : List Symbol) : Expr := sequence (w.map literal)

mutual

/-- No alternation and no sequence is empty. -/
def complete : Expr → Bool
  | literal _ => true
  | alternation xs => !xs.isEmpty && allComplete xs
  | sequence xs => !xs.isEmpty && allComplete xs
  | star x => complete x

def allComplete : List Expr → Bool
  | [] => true
  | x :: xs => complete x && allComplete xs

end

end Expr

end Recognizer

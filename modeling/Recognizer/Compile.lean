import Recognizer.Error
import Recognizer.Fragment
import Recognizer.Nfa.Subset

/-!
# From an expression to a deterministic automaton

The whole way at once. A symbol of the expression that is not in the alphabet can never be read; one
of the alphabet that is not in the expression leads nowhere.
-/

namespace Recognizer

set_option autoImplicit false

def Expr.recognizer (x : Expr) (A : Alphabet) : Except Error Dfa := do
  let N ← x.compile.mapError .expression
  (N.determinizeOver A).mapError .automaton

end Recognizer

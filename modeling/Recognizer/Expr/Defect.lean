import Recognizer.Json.Printer
import Recognizer.Text.Quoted

/-!
# What is wrong with an expression

The reasons for which an expression tree, or the JSON that describes one, is turned down.
-/

namespace Recognizer

set_option autoImplicit false

inductive Expr.Defect
  | emptyAlternation
  | emptySequence
  | starArity (found : Nat)
  | literalLength (text : String)
  | unknownOperator (name : String)
  /-- A value with the shape of no node. -/
  | shapelessNode (json : Json)
deriving Inhabited

namespace Expr.Defect

open Text (quoted)

/-- A malformed node is shown in its compact canonical form. -/
def detail : Defect → String
  | emptyAlternation => "alternation requires at least one argument"
  | emptySequence => "sequence requires at least one argument"
  | starArity n => "kleene star requires exactly one argument, found " ++ n.repr
  | literalLength text => "literal must be a single symbol, found " ++ quoted text
  | unknownOperator name => "unknown operator " ++ quoted name
  | shapelessNode j => "malformed expression node: " ++ j.canonical.compact

end Expr.Defect

end Recognizer

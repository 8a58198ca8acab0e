import Recognizer.Expr.Defect
import Recognizer.Flaw

/-!
# Errors

Everything that can keep an automaton from being built, read or saved.
-/

namespace Recognizer

set_option autoImplicit false

inductive StorageFault
  | notFound
  | full
deriving DecidableEq

inductive Error
  | expression (d : Expr.Defect)
  | automaton (m : Flaw)
  | json (f : Json.Fault)
  | storage (f : StorageFault)

namespace Error

instance : Coe Expr.Defect Error := ⟨expression⟩

instance : Coe Flaw Error := ⟨automaton⟩

/-- The text of an error; faults of texts and files are named by their kind alone. -/
def message? : Error → Option String
  | expression d => some ("invalid expression: " ++ d.detail)
  | automaton m => some ("malformed automaton: " ++ m.detail)
  | json _ => none
  | storage _ => none

end Error

end Recognizer

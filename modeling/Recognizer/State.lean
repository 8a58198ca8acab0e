import Recognizer.Label

/-!
# States and transitions
-/

namespace Recognizer

set_option autoImplicit false

abbrev State := Nat

abbrev StateSet := SortedSet State

structure Transition where
  source : State
  label : Label
  target : State
deriving DecidableEq, Inhabited

end Recognizer

import Recognizer.Json.Value
import Recognizer.OrderedMap

/-!
# Reading records and maps

A record is read from an object, whose fields come in any order, each at most once, among others that
are passed over; or from a list of all its fields in their own order. A map takes the last value of a
repeated key and keeps the key where it first stood.
-/

namespace Recognizer.Json

set_option autoImplicit false

/-! ## Fields of an object -/

/-- A field given a second time is refused before its value is looked at. -/
def once {α : Type} (known : Option α) (item : Reader α) : Reader (Option α) := do
  if known.isSome then throw .data
  colon
  return some (← item)

def passOver (n : Nat) : Reader Unit := do
  colon
  skip n n

/-- A field that must have been given by the end of the object. -/
def given {α : Type} : Option α → Reader α
  | some a => pure a
  | none => throw .data

/-- All members of an object, gathered in `s`. -/
def fields {σ : Type} (field : String → σ → Reader σ) (n : Nat) (s : σ) : Reader σ :=
  members stringRest field n true s

/-! ## Fields of a list -/

def position {α : Type} (first : Bool) (item : Reader α) : Reader α := do
  if ← nextElement first then item else throw .data

/-! ## Records and maps -/

def record {α : Type} (object list : Reader α) : Reader α := do
  blanks
  match ← get with
  | some '\x7b' :: rest => set rest; object
  | some '[' :: rest => set rest; list
  | _ => refuse

def mapOf {α : Type} (item : Reader α) (n : Nat) : Reader (OrderedMap String α) := do
  blanks
  match ← get with
  | some '\x7b' :: rest =>
    set rest
    let add (k : String) (m : OrderedMap String α) : Reader (OrderedMap String α) := do
      colon
      return m.insert k (← item)
    fields add n ∅
  | _ => refuse

end Recognizer.Json

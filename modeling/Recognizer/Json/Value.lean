import Recognizer.Json.Number

/-!
# Reading values

Three ways through the same grammar: `value` keeps what it reads, `skip` passes over a value nobody
asked for and looks only at its form, and the typed readers take one kind of value and refuse every
other. A refused scalar is still read to its end, so that a fault inside it comes first.
-/

namespace Recognizer.Json

set_option autoImplicit false

open Text (Input)

def startsNumber : Option Char → Bool
  | some c => c = '-' || c.isDigit
  | none => false

def scalar : Reader Json := do
  match ← get with
  | [] => throw .eof
  | some 'n' :: rest => set rest; word ['u', 'l', 'l']; return .null
  | some 't' :: rest => set rest; word ['r', 'u', 'e']; return .bool true
  | some 'f' :: rest => set rest; word ['a', 'l', 's', 'e']; return .bool false
  | some '"' :: rest => set rest; return .string (← stringRest)
  | u :: _ => if startsNumber u then return (← number).toJson else throw .grammar

/-- How many lists and objects a kept value may nest. -/
def maxDepth : Nat := 127

/-- A value with at most `depth` lists and objects inside one another, each of at most `n` items. -/
def value (n : Nat) : Nat → Reader Json
  | 0 => do
    blanks
    match ← get with
    | some '[' :: _ | some '\x7b' :: _ => throw .grammar
    | _ => scalar
  | depth + 1 => do
    blanks
    match ← get with
    | some '[' :: rest => set rest; return .array (← elements (value n depth) n true)
    | some '\x7b' :: rest =>
      set rest
      let add (k : String) (ms : List (String × Json)) : Reader (List (String × Json)) := do
        colon
        return (k, ← value n depth) :: ms
      return .object (← members stringRest add n true []).reverse
    | _ => scalar

/-! ## Passing over a value -/

def skip (n : Nat) : Nat → Reader Unit
  | 0 => throw .eof
  | depth + 1 => do
    blanks
    match ← get with
    | [] => throw .eof
    | some '[' :: rest =>
      set rest
      let _ ← elements (skip n depth) n true
    | some '\x7b' :: rest =>
      set rest
      let pass (_ _ : Unit) : Reader Unit := do
        colon
        skip n depth
      members skipString pass n true ()
    | some 'n' :: rest => set rest; word ['u', 'l', 'l']
    | some 't' :: rest => set rest; word ['r', 'u', 'e']
    | some 'f' :: rest => set rest; word ['a', 'l', 's', 'e']
    | some '"' :: rest => set rest; skipString
    | u :: _ => if startsNumber u then skipNumber else throw .grammar

/-! ## Values of one kind -/

def refuse {α : Type} : Reader α := do
  match ← get with
  | some '[' :: _ | some '\x7b' :: _ => throw .data
  | _ =>
    let _ ← scalar
    throw .data

def text : Reader String := do
  blanks
  match ← get with
  | some '"' :: rest => set rest; stringRest
  | _ => refuse

def natural (bound : Nat) : Reader Nat := do
  blanks
  match ← get with
  | u :: _ =>
    if startsNumber u then
      match ← number with
      | .integer i => if 0 ≤ i ∧ i < bound then return i.toNat else throw .data
      | .float _ => throw .data
    else refuse
  | [] => refuse

def listOf {α : Type} (item : Reader α) (n : Nat) : Reader (List α) := do
  blanks
  match ← get with
  | some '[' :: rest => set rest; elements item n true
  | _ => refuse

/-- `null`, or a value of the kind asked for. -/
def optional {α : Type} (item : Reader α) : Reader (Option α) := do
  blanks
  match ← get with
  | some 'n' :: rest => set rest; word ['u', 'l', 'l']; return none
  | _ => return some (← item)

/-! ## Whole texts -/

/-- Reads one value and then the end of the text. No reader takes more items than the text has
characters, so `r` is given one more than that. -/
def readWith {α : Type} (r : Nat → Reader α) (i : Input) : Except Fault α :=
  StateT.run' (do let a ← r (i.length + 1); finish; return a) i

def readWithin (depth : Nat) (i : Input) : Except Fault Json := readWith (value · depth) i

def read (i : Input) : Except Fault Json := readWithin maxDepth i

end Recognizer.Json

import Recognizer.Document.Listing

/-!
# Tables

The document form for deterministic automata with named states: for each state a row that says where
each symbol leads.
-/

namespace Recognizer.Document

set_option autoImplicit false

open Json (Reader)

structure Table where
  states : List String
  alphabet : List String
  initial : String
  finals : List String
  rows : OrderedMap String (OrderedMap String String)
deriving DecidableEq

namespace Table

/-! ## Writing -/

def rowJson (row : OrderedMap String String) : Json :=
  .object (row.entries.map fun e => (e.1, .string e.2))

def toJson (d : Table) : Json :=
  .object
    [("states", texts d.states), ("alphabet", texts d.alphabet),
      ("initial_state", .string d.initial), ("final_states", texts d.finals),
      ("transitions", .object (d.rows.entries.map fun e => (e.1, rowJson e.2)))]

def text (d : Table) : String := d.toJson.pretty

/-! ## Reading -/

structure Fields where
  states : Option (List String) := none
  alphabet : Option (List String) := none
  initial : Option String := none
  finals : Option (List String) := none
  rows : Option (OrderedMap String (OrderedMap String String)) := none

def rowsReader (n : Nat) : Reader (OrderedMap String (OrderedMap String String)) :=
  Json.mapOf (Json.mapOf Json.text n) n

def Fields.add (n : Nat) (key : String) (f : Fields) : Reader Fields := do
  match key with
  | "states" => return { f with states := ← Json.once f.states (Json.listOf Json.text n) }
  | "alphabet" => return { f with alphabet := ← Json.once f.alphabet (Json.listOf Json.text n) }
  | "initial_state" => return { f with initial := ← Json.once f.initial Json.text }
  | "final_states" => return { f with finals := ← Json.once f.finals (Json.listOf Json.text n) }
  | "transitions" => return { f with rows := ← Json.once f.rows (rowsReader n) }
  | _ => Json.passOver n; return f

/-- The rows may be left out, of an object and of a list. -/
def reader (n : Nat) : Reader Table :=
  Json.record
    (do
      let f ← Json.fields (Fields.add n) n {}
      return ⟨← Json.given f.states, ← Json.given f.alphabet, ← Json.given f.initial,
        ← Json.given f.finals, f.rows.getD ∅⟩)
    (do
      let states ← Json.position true (Json.listOf Json.text n)
      let alphabet ← Json.position false (Json.listOf Json.text n)
      let initial ← Json.position false Json.text
      let finals ← Json.position false (Json.listOf Json.text n)
      if ← Json.nextElement false then
        let rows ← rowsReader n
        Json.closeList
        return ⟨states, alphabet, initial, finals, rows⟩
      else return ⟨states, alphabet, initial, finals, ∅⟩)

def read (i : Text.Input) : Except Json.Fault Table := Json.readWith reader i

end Table

end Recognizer.Document

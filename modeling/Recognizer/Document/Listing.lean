import Recognizer.Document.Names
import Recognizer.Json.Printer
import Recognizer.Json.Record

/-!
# Listings

The document form that lists states and edges of an automaton. How a state is written is left open:
by its number, or by the numbers of its members.
-/

namespace Recognizer.Document

set_option autoImplicit false

open Json (Reader)

structure Edge (S : Type) where
  source : S
  target : S
  /-- No symbol makes a silent edge. -/
  symbol : Option String
deriving DecidableEq

structure Listing (S : Type) where
  states : List S
  /-- Where none is given, the symbols of the edges are meant. -/
  alphabet : Option (List String)
  initial : S
  finals : List S
  edges : List (Edge S)
deriving DecidableEq

/-! ## Spelling of states -/

structure Spelling (S : Type) where
  /-- Lists in a state have at most as many elements as the number says. -/
  read : Nat → Reader S
  write : S → Json

/-- Numbers of states stay below `2 ^ 32`. -/
def stateBound : Nat := 4294967296

def Spelling.number : Spelling State where
  read _ := Json.natural stateBound
  write s := .integer s

def Spelling.members : Spelling (List State) where
  read n := Json.listOf (Json.natural stateBound) n
  write ss := .array (ss.map Spelling.number.write)

variable {S : Type}

/-! ## Writing -/

def Edge.toJson (sp : Spelling S) (e : Edge S) : Json :=
  .object [("from", sp.write e.source), ("to", sp.write e.target),
    ("symbol", e.symbol.elim .null .string)]

def texts (ss : List String) : Json := .array (ss.map .string)

def Listing.toJson (sp : Spelling S) (d : Listing S) : Json :=
  .object <|
    [("states", .array (d.states.map sp.write))] ++
    (d.alphabet.map fun ss => ("alphabet", texts ss)).toList ++
    [("initial_state", sp.write d.initial),
      ("final_states", .array (d.finals.map sp.write)),
      ("transitions", .array (d.edges.map (Edge.toJson sp)))]

def Listing.text (sp : Spelling S) (d : Listing S) : String := (d.toJson sp).pretty

/-- The text of a listing where at most `room` bytes can be written. -/
def Listing.write (sp : Spelling S) (room : Option Nat) (d : Listing S) :
    Except Json.Fault String :=
  if Text.fits room (d.text sp) then .ok (d.text sp) else .error .write

/-! ## Reading edges -/

structure EdgeFields (S : Type) where
  source : Option S := none
  target : Option S := none
  symbol : Option (Option String) := none

def EdgeFields.add (sp : Spelling S) (n : Nat) (key : String) (f : EdgeFields S) :
    Reader (EdgeFields S) := do
  match key with
  | "from" => return { f with source := ← Json.once f.source (sp.read n) }
  | "to" => return { f with target := ← Json.once f.target (sp.read n) }
  | "symbol" => return { f with symbol := ← Json.once f.symbol (Json.optional Json.text) }
  | _ => Json.passOver n; return f

/-- The symbol may be left out of an object, but not of a list. -/
def Edge.reader (sp : Spelling S) (n : Nat) : Reader (Edge S) :=
  Json.record
    (do
      let f ← Json.fields (EdgeFields.add sp n) n {}
      return ⟨← Json.given f.source, ← Json.given f.target, f.symbol.getD none⟩)
    (do
      let source ← Json.position true (sp.read n)
      let target ← Json.position false (sp.read n)
      let symbol ← Json.position false (Json.optional Json.text)
      Json.closeList
      return ⟨source, target, symbol⟩)

/-! ## Reading listings -/

structure ListingFields (S : Type) where
  states : Option (List S) := none
  alphabet : Option (Option (List String)) := none
  initial : Option S := none
  finals : Option (List S) := none
  edges : Option (List (Edge S)) := none

def ListingFields.add (sp : Spelling S) (n : Nat) (key : String) (f : ListingFields S) :
    Reader (ListingFields S) := do
  match key with
  | "states" => return { f with states := ← Json.once f.states (Json.listOf (sp.read n) n) }
  | "alphabet" =>
    return { f with
      alphabet := ← Json.once f.alphabet (Json.optional (Json.listOf Json.text n)) }
  | "initial_state" => return { f with initial := ← Json.once f.initial (sp.read n) }
  | "final_states" => return { f with finals := ← Json.once f.finals (Json.listOf (sp.read n) n) }
  | "transitions" =>
    return { f with edges := ← Json.once f.edges (Json.listOf (Edge.reader sp n) n) }
  | _ => Json.passOver n; return f

/-- The alphabet may be left out of an object, but not of a list. -/
def Listing.reader (sp : Spelling S) (n : Nat) : Reader (Listing S) :=
  Json.record
    (do
      let f ← Json.fields (ListingFields.add sp n) n {}
      return ⟨← Json.given f.states, f.alphabet.getD none, ← Json.given f.initial,
        ← Json.given f.finals, ← Json.given f.edges⟩)
    (do
      let states ← Json.position true (Json.listOf (sp.read n) n)
      let alphabet ← Json.position false (Json.optional (Json.listOf Json.text n))
      let initial ← Json.position false (sp.read n)
      let finals ← Json.position false (Json.listOf (sp.read n) n)
      let edges ← Json.position false (Json.listOf (Edge.reader sp n) n)
      Json.closeList
      return ⟨states, alphabet, initial, finals, edges⟩)

def Listing.read (sp : Spelling S) (i : Text.Input) : Except Json.Fault (Listing S) :=
  Json.readWith (Listing.reader sp) i

/-! ## Alphabet -/

def Listing.symbols (d : Listing S) : Except Flaw Alphabet :=
  match d.alphabet with
  | some ss => Document.alphabet ss
  | none => Document.alphabet (d.edges.filterMap Edge.symbol)

end Recognizer.Document

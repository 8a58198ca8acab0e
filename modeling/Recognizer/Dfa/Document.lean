import Recognizer.Dfa.Basic
import Recognizer.Document.Listing
import Recognizer.Error

/-!
# Deterministic automata as listings

Two spellings of the states. With numbers, states keep their numbers and their members are lost. With
member lists, a list stands for the set it holds, sets are declared once each and numbered in the
order of their declaration, and the members are kept.
-/

namespace Recognizer.Dfa

set_option autoImplicit false

open Document (Edge Listing Spelling)

/-! ## Writing -/

def toListingBy {S : Type} (name : State → S) (D : Dfa) : Listing S where
  states := D.states.toList.map name
  alphabet := some (Document.symbolTexts D.alphabet)
  initial := name D.start
  finals := D.finals.toList.map name
  edges := D.moves.entries.map fun m => ⟨name m.1.1, name m.2, some m.1.2.toString⟩

def toListing (D : Dfa) : Listing State := D.toListingBy id

def toMemberListing (D : Dfa) : Listing (List State) := D.toListingBy D.membersOrSelf

/-! ## Reading -/

section
variable {S : Type} (resolve : S → Except Flaw State)

def declareState (D : Dfa) (x : S) : Except Flaw Dfa := do
  let s ← resolve x
  return D.addState s

def declareFinal (D : Dfa) (x : S) : Except Flaw Dfa := do
  let s ← resolve x
  return D.addFinal s

/-- Both ends of an edge are resolved before its symbol is looked at. -/
def addEdge (D : Dfa) (e : Edge S) : Except Flaw Dfa := do
  let s ← resolve e.source
  let t ← resolve e.target
  match e.symbol with
  | none => throw (.silentMove s t)
  | some text =>
    let c ← Document.symbol text
    D.addTransition s c t

/-- The automaton of a listing whose states are turned into numbers by `resolve`. -/
def ofListingBy (d : Listing S) : Except Flaw Dfa := do
  let A ← d.symbols
  let start ← resolve d.initial
  let D ← d.states.foldlM (declareState resolve) { start, alphabet := A }
  let D ← d.edges.foldlM (addEdge resolve) D
  let D ← d.finals.foldlM (declareFinal resolve) D
  D.check
  return D

end

def ofListing (d : Listing State) : Except Flaw Dfa := ofListingBy .ok d

def shownMembers (S : StateSet) : String := Text.bracketed S.toList

def ofMemberListing (d : Listing (List State)) : Except Flaw Dfa := do
  let names := d.states.map SortedSet.ofList
  Document.declare shownMembers names
  let D ← ofListingBy (fun ss => Document.locate shownMembers names (SortedSet.ofList ss)) d
  return { D with members := some names }

/-! ## Texts -/

def text (D : Dfa) : String := D.toListing.text Spelling.number

def memberText (D : Dfa) : String := D.toMemberListing.text Spelling.members

def read (i : Text.Input) : Except Error Dfa := do
  let d ← (Listing.read Spelling.number i).mapError .json
  (ofListing d).mapError .automaton

def readMembers (i : Text.Input) : Except Error Dfa := do
  let d ← (Listing.read Spelling.members i).mapError .json
  (ofMemberListing d).mapError .automaton

end Recognizer.Dfa

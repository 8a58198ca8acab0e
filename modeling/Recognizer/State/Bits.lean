import Recognizer.Bits
import Recognizer.State

/-!
# Sets of states in rows of bits

A state is in a set when the bit with its number is on. A row that is too short for a state is grown,
and the length of a row says nothing about the set.
-/

namespace Recognizer

set_option autoImplicit false

/-- A set of states over any rows of bits. -/
structure BitSet (B : Type) where
  row : B

namespace BitSet

/-- Numbers of states stay below `2 ^ 32`, and the numbers of bits are cut down to them. -/
def bound : Nat := 4294967296

variable {B : Type} [BitRow B]

def empty : BitSet B := ⟨BitRow.empty⟩

def withRoom (room : Nat) : BitSet B := ⟨BitRow.ofLength room⟩

/-- Whether the state was new, and the set with it. -/
def insert (S : BitSet B) (s : State) : Option (Bool × BitSet B) := do
  let row := if BitRow.length S.row ≤ s then BitRow.grow S.row (s + 1) else S.row
  let (was, row) ← BitRow.put row s
  return (!was, ⟨row⟩)

def add (S : BitSet B) (s : State) : Option (BitSet B) := (S.insert s).map Prod.snd

def singleton (s : State) (room : Nat) : Option (BitSet B) := (withRoom room).add s

def insertAll (S : BitSet B) (ss : List State) : Option (BitSet B) := ss.foldlM add S

def ofList (ss : List State) : Option (BitSet B) := empty.insertAll ss

def union (S T : BitSet B) : BitSet B := ⟨BitRow.union S.row T.row⟩

def contains (S : BitSet B) (s : State) : Bool := BitRow.get S.row s

def isEmpty (S : BitSet B) : Bool := BitRow.isClear S.row

def size (S : BitSet B) : Nat := BitRow.count S.row

def toList (S : BitSet B) : List State := (BitRow.ones S.row).map (· % bound)

def meets (S T : BitSet B) : Bool := (BitRow.common S.row T.row).head?.isSome

def isSubset (S T : BitSet B) : Bool := S.toList.all T.contains

/-- Sets in rows of different lengths can be equal. -/
def equal (S T : BitSet B) : Bool := decide (S.toList = T.toList)

end BitSet

end Recognizer

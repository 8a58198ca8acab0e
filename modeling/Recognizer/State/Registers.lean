import Recognizer.State.Bits
import Recognizer.Text.Basic

/-!
# Sets of states in registers

A small machine over sets of states in rows of bits: commands make sets in named registers, change them
and ask about them. A register that was never made holds the empty set.
-/

namespace Recognizer

set_option autoImplicit false

abbrev Registers (B : Type) := List (String × BitSet B)

namespace Registers

inductive Command
  | new (r : String)
  | withCapacity (r : String) (room : Nat)
  | singleton (r : String) (s : State) (room : Nat)
  | ofList (r : String) (ss : List State)
  | copy (r q : String)
  | insert (r : String) (s : State)
  | insertAll (r : String) (ss : List State)
  | union (r q : String)
  | contains (r : String) (s : State)
  | isEmpty (r : String)
  | size (r : String)
  | meets (r q : String)
  | isSubset (r q : String)
  | equal (r q : String)
  | toList (r : String)
  | shown (r : String)
deriving DecidableEq

inductive Answer
  | flag (b : Bool)
  | number (n : Nat)
  | members (ss : List State)
  | text (s : String)
deriving DecidableEq

section
variable {B : Type} [BitRow B]

def get (R : Registers B) (r : String) : BitSet B := (R.lookup r).getD BitSet.empty

def set (R : Registers B) (r : String) (S : BitSet B) : Registers B := (r, S) :: R

/-- A register takes a set, whose members are the answer. -/
def put (R : Registers B) (r : String) (S : BitSet B) : Registers B × Answer :=
  (R.set r S, .members S.toList)

/-- The registers after a command, and its answer. An insertion answers whether the state was new. -/
def step (R : Registers B) : Command → Option (Registers B × Answer)
  | .new r => some (R.put r .empty)
  | .withCapacity r room => some (R.put r (.withRoom room))
  | .singleton r s room => (BitSet.singleton s room).map (R.put r)
  | .ofList r ss => (BitSet.ofList ss).map (R.put r)
  | .copy r q => some (R.put r (R.get q))
  | .insert r s => ((R.get r).insert s).map fun (isNew, S) => (R.set r S, .flag isNew)
  | .insertAll r ss => ((R.get r).insertAll ss).map (R.put r)
  | .union r q => some (R.put r ((R.get r).union (R.get q)))
  | .contains r s => some (R, .flag ((R.get r).contains s))
  | .isEmpty r => some (R, .flag (R.get r).isEmpty)
  | .size r => some (R, .number (R.get r).size)
  | .meets r q => some (R, .flag ((R.get r).meets (R.get q)))
  | .isSubset r q => some (R, .flag ((R.get r).isSubset (R.get q)))
  | .equal r q => some (R, .flag ((R.get r).equal (R.get q)))
  | .toList r => some (R, .members (R.get r).toList)
  | .shown r => some (R, .text (Text.braced (R.get r).toList))

/-- The registers after some commands, and the answers to all of them. -/
def run (R : Registers B) : List Command → Option (Registers B × List Answer)
  | [] => some (R, [])
  | c :: cs => do
    let (R, a) ← R.step c
    let (R, as) ← R.run cs
    return (R, a :: as)

/-- The answers to commands that can all be carried out. -/
def answers (R : Registers B) (cs : List Command) : List Answer :=
  ((R.run cs).map Prod.snd).getD []

end

end Registers

end Recognizer

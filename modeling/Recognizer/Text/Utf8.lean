/-!
# Bytes as characters

A byte string is read as the characters it encodes; a byte that belongs to no well-formed sequence
stands for itself, as `none`, so nothing is lost and what follows it is still read.
-/

namespace Recognizer.Text

set_option autoImplicit false

/-- What is left of a text: characters, and bytes that belong to none. -/
abbrev Input := List (Option Char)

def Input.ofString (s : String) : Input := s.toList.map some

/-- What the first byte of a sequence says: how many bytes follow, the bounds of the first of them,
and the bits it contributes. -/
structure Leader where
  following : Nat
  low : Nat := 0x80
  high : Nat := 0xBF
  bits : Nat

def Leader.ofByte? (b : Nat) : Option Leader :=
  if b < 0x80 then some { following := 0, bits := b }
  else if b < 0xC2 then none
  else if b < 0xE0 then some { following := 1, bits := b - 0xC0 }
  else if b = 0xE0 then some { following := 2, low := 0xA0, bits := 0 }
  else if b = 0xED then some { following := 2, high := 0x9F, bits := 0xD }
  else if b < 0xF0 then some { following := 2, bits := b - 0xE0 }
  else if b = 0xF0 then some { following := 3, low := 0x90, bits := 0 }
  else if b < 0xF4 then some { following := 3, bits := b - 0xF0 }
  else if b = 0xF4 then some { following := 3, high := 0x8F, bits := 4 }
  else none

/-- Adds `n` following bytes to the bits read so far, the first of them between `low` and `high`. -/
def follow (low high : Nat) : Nat → Nat → List UInt8 → Option Nat
  | 0, bits, _ => some bits
  | _ + 1, _, [] => none
  | n + 1, bits, b :: bs =>
    if low ≤ b.toNat ∧ b.toNat ≤ high then
      follow 0x80 0xBF n (bits * 64 + (b.toNat - 0x80)) bs
    else none

/-- The character whose sequence starts with `b`, and how many more bytes it takes. -/
def leading? (b : UInt8) (bs : List UInt8) : Option (Char × Nat) := do
  let l ← Leader.ofByte? b.toNat
  let code ← follow l.low l.high l.following l.bits bs
  return (Char.ofNat code, l.following)

def Input.ofBytes : List UInt8 → Input
  | [] => []
  | b :: bs =>
    match leading? b bs with
    | some (c, n) => some c :: Input.ofBytes (bs.drop n)
    | none => none :: Input.ofBytes bs
termination_by bs => bs.length
decreasing_by
  · simp only [List.length_drop, List.length_cons]
    omega
  · exact Nat.lt_succ_self _

end Recognizer.Text

/-!
# The shortest decimal that reads back

A positive double stands for every real that rounds to it. Of the decimals in that interval the one
with the fewest digits is written, of those the nearest to the double, and on a tie the even one.
-/

namespace Recognizer

set_option autoImplicit false

/-- The value `0.digits * 10 ^ point`, where `digits` has no zero at its end. -/
structure Decimal where
  digits : Nat
  point : Int
deriving DecidableEq

/-- The value `mantissa * 2 ^ exponent`; `narrow` when its lower neighbour is half as far away as
its upper one. -/
structure Binary where
  mantissa : Nat
  exponent : Int
  narrow : Bool
deriving DecidableEq

namespace Binary

/-- The leading bit of a mantissa, which is not stored. -/
def hidden : Nat := 4503599627370496

/-- The sign is the highest of the 64 bits. -/
def isNegative (x : Float) : Bool := 9223372036854775808 ≤ x.toBits.toNat

def ofFloat (x : Float) : Binary :=
  let bits : Nat := x.toBits.toNat
  let biased : Nat := bits / hidden % 2048
  let fraction : Nat := bits % hidden
  if biased = 0 then ⟨fraction, -1074, false⟩
  else ⟨fraction + hidden, (biased : Int) - 1075, fraction == 0 && 1 < biased⟩

/-! ## The interval, in quarters of the last binary place -/

def middle (b : Binary) : Nat := 4 * b.mantissa

def lower (b : Binary) : Nat := b.middle - if b.narrow then 1 else 2

def upper (b : Binary) : Nat := b.middle + 2

/-- What one quarter weighs, against `gridWeight` for one step of the decimal grid `10 ^ e`. -/
def quarterWeight (b : Binary) (e : Int) : Nat :=
  Nat.pow 10 (-e).toNat * Nat.pow 2 (b.exponent - 2).toNat

def gridWeight (b : Binary) (e : Int) : Nat :=
  Nat.pow 10 e.toNat * Nat.pow 2 (2 - b.exponent).toNat

/-- Whether `k * 10 ^ e` rounds to `b`. The ends do when the mantissa is even. -/
def holds (b : Binary) (e : Int) (k : Nat) : Bool :=
  let x := k * b.gridWeight e
  let lo := b.lower * b.quarterWeight e
  let hi := b.upper * b.quarterWeight e
  if b.mantissa % 2 = 0 then lo ≤ x && x ≤ hi else lo < x && x < hi

/-- How often `num` must be multiplied by ten to come within a factor of ten of `den`. -/
def zeros (den : Nat) : Nat → Nat → Nat
  | 0, _ => 0
  | n + 1, num => if den ≤ num * 10 then 0 else zeros den n (num * 10) + 1

/-- The `p` with `10 ^ (p - 1) ≤ b < 10 ^ p`. -/
def magnitude (b : Binary) : Int :=
  let num := b.middle * b.quarterWeight 0
  let den := b.gridWeight 0
  if den ≤ num then ((Nat.toDigits 10 (num / den)).length : Int)
  else -(zeros den (den.log2 + 1) num : Int)

/-- The better of the two points around `b` on the grid of step `10 ^ e`, if one rounds to `b`. -/
def onGrid? (b : Binary) (e : Int) : Option Nat :=
  let g := b.gridWeight e
  let v := b.middle * b.quarterWeight e
  let k := v / g
  let below := v - k * g
  let above := (k + 1) * g - v
  match b.holds e k, b.holds e (k + 1) with
  | true, true =>
    some <|
      if below < above then k
      else if above < below then k + 1
      else if k % 2 = 0 then k
      else k + 1
  | true, false => some k
  | false, true => some (k + 1)
  | false, false => none

def withDigits? (b : Binary) (n : Nat) : Option Decimal :=
  let p := b.magnitude
  (b.onGrid? (p - n)).map fun k => if k = Nat.pow 10 n then ⟨1, p + 1⟩ else ⟨k, p⟩

/-- Seventeen digits tell any two doubles apart. -/
def shortest (b : Binary) : Decimal := ((List.range' 1 17).findSome? b.withDigits?).getD ⟨0, 0⟩

end Binary

/-! ## Layout -/

namespace Decimal

/-- Where positional notation ends: at most `widest` digits before the point, and fewer than
`deepest` zeros after it before the first digit. -/
structure Layout where
  widest : Int
  deepest : Int
  /-- Whether an exponent that is not negative has a sign as well. -/
  signed : Bool

def exponentText (l : Layout) (e : Int) : List Char :=
  (if l.signed ∧ 0 ≤ e then ['+'] else []) ++ (Int.repr e).toList

def render (l : Layout) (d : Decimal) : List Char :=
  let ds := Nat.toDigits 10 d.digits
  if ds.length ≤ d.point ∧ d.point ≤ l.widest then
    ds ++ List.replicate (d.point - ds.length).toNat '0' ++ ['.', '0']
  else if 0 < d.point ∧ d.point ≤ l.widest then
    ds.take d.point.toNat ++ '.' :: ds.drop d.point.toNat
  else if -l.deepest < d.point ∧ d.point ≤ 0 then
    '0' :: '.' :: List.replicate (-d.point).toNat '0' ++ ds
  else
    let tail := ds.drop 1
    ds.take 1 ++ (if tail.isEmpty then [] else '.' :: tail) ++ 'e' :: exponentText l (d.point - 1)

end Decimal

end Recognizer

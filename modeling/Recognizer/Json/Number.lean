import Recognizer.Json.Reader

/-!
# Reading numbers

A number without point and exponent is an integer while it fits in 64 bits, with or without a sign;
minus zero and all other numbers are doubles. A double is found from the leading digits that fit in
64 bits and one power of ten, each rounded, so it is near the written number and not always nearest.
-/

namespace Recognizer.Json

set_option autoImplicit false

open Text (Input)

inductive Number
  | integer (i : Int)
  | float (x : Float)

def Number.toJson : Number → Json
  | .integer i => .integer i
  | .float x => .float x

/-! ## Digits -/

def digits : Input → List Nat × Input
  | some c :: rest =>
    if c.isDigit then
      let p := digits rest
      ((c.toNat - '0'.toNat) :: p.1, p.2)
    else ([], some c :: rest)
  | i => ([], i)

def takeDigits : Reader (List Nat) := do
  let p := digits (← get)
  set p.2
  return p.1

def valueOf (ds : List Nat) : Nat := ds.foldl (fun n d => n * 10 + d) 0

def maxWord : Nat := 18446744073709551615

/-- Appends digits to `n` while the result fits in 64 bits; also the digits left over. -/
def extend (n : Nat) : List Nat → Nat × List Nat
  | [] => (n, [])
  | d :: ds => if n * 10 + d ≤ maxWord then extend (n * 10 + d) ds else (n, d :: ds)

/-! ## Doubles -/

def powerOfTen (n : Nat) : Float := Float.ofScientific 1 false n

/-- `f * 10 ^ e`, none when it is too large. Powers below `10 ^ -308` are applied in steps. -/
def scaled? (f : Float) (e : Int) : Option Float :=
  if 308 < e then if f == 0 then some f else none
  else if 0 ≤ e then
    let x := f * powerOfTen e.toNat
    if x.isInf then none else some x
  else if -308 ≤ e then some (f / powerOfTen (-e).toNat)
  else if f == 0 then some f
  else scaled? (f / powerOfTen 308) (e + 308)
termination_by e.natAbs
decreasing_by omega

def double (negative : Bool) (significand : Nat) (e : Int) : Reader Number :=
  match scaled? significand.toUInt64.toFloat e with
  | some x => pure (.float (if negative then -x else x))
  | none => throw .grammar

/-! ## Numbers -/

def sign : Reader Bool := do
  match ← get with
  | some '-' :: rest => set rest; return true
  | _ => return false

def someDigits : Reader (List Nat) := do
  let ds ← takeDigits
  if ds.isEmpty then
    if (← get).isEmpty then throw .eof else throw .grammar
  return ds

/-- The digits of an integer, which start with a zero only if they are that zero. -/
def wholeDigits : Reader (List Nat) := do
  let ds ← someDigits
  match ds with
  | 0 :: _ :: _ => throw .grammar
  | _ => return ds

/-- Exponents are kept in 32 bits with a sign. -/
def maxExponent : Int := 2147483647

/-- The sign behind the letter of an exponent: minus is the only one that counts. -/
def exponentSign : Reader Bool := do
  match ← get with
  | some '+' :: rest => set rest; return false
  | some '-' :: rest => set rest; return true
  | _ => return false

def isExponentLetter : Option Char → Bool
  | some 'e' | some 'E' => true
  | _ => false

/-- An exponent, if there is one, ends a double that stands at `10 ^ e` so far. -/
def exponentPart (negative : Bool) (significand : Nat) (e : Int) : Reader Number := do
  let i ← get
  if i.head?.any isExponentLetter then
    set i.tail
    let down ← exponentSign
    let x : Int := valueOf (← someDigits)
    if maxExponent < x then
      if significand = 0 ∨ down then return .float (if negative then -0.0 else 0.0)
      else throw .grammar
    else
      let e' := if down then max (e - x) (-maxExponent - 1) else min (e + x) maxExponent
      double negative significand e'
  else double negative significand e

/-- A number without point and exponent, from the digits that fit in 64 bits. -/
def wholeNumber (negative : Bool) (n : Nat) : Number :=
  if !negative then .integer n
  else if 0 < n ∧ n ≤ maxWord / 2 + 1 then .integer (-n)
  else .float (-n.toUInt64.toFloat)

def number : Reader Number := do
  let negative ← sign
  let ds ← wholeDigits
  let (n, excess) := extend 0 ds
  match ← get with
  | some '.' :: rest =>
    set rest
    let fs ← someDigits
    let (m, left) := extend n fs
    exponentPart negative m ((excess.length : Int) - (fs.length - left.length))
  | i =>
    if excess.isEmpty && !i.head?.any isExponentLetter then return wholeNumber negative n
    else exponentPart negative n excess.length

/-! ## Numbers whose value is of no interest -/

/-- At least one digit. Here the end of the text is no reason of its own. -/
def skipDigits : Reader (List Nat) := do
  let ds ← takeDigits
  if ds.isEmpty then throw .grammar
  return ds

def skipExponent : Reader Unit := do
  let i ← get
  if i.head?.any isExponentLetter then
    set i.tail
    let _ ← exponentSign
    let _ ← skipDigits

def skipNumber : Reader Unit := do
  let _ ← sign
  match ← skipDigits with
  | 0 :: _ :: _ => throw .grammar
  | _ =>
    match ← get with
    | some '.' :: rest =>
      set rest
      let _ ← skipDigits
      skipExponent
    | _ => skipExponent

end Recognizer.Json

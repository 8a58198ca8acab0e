import Recognizer.Error
import Recognizer.Expr.Basic
import Recognizer.Json.Value
import Recognizer.Text.Basic

/-!
# Expressions written as JSON

A node is a literal when it is an object with a text under `simb`, else an operator when it has a
text under `op` and a list under `args`. The shape of every node is settled first (`Node.ofJson`);
then the tree is built from the leaves up (`Node.toExpr`), so of several defects the first one in
post-order is reported.
-/

namespace Recognizer

set_option autoImplicit false

namespace Expr

inductive Node
  | literal (text : String)
  | operator (name : String) (args : List Node)
  | malformed (json : Json)
deriving Inhabited

/-! ## Shapes -/

def Node.ofJson : Json → Node
  | .object ms =>
    match Json.field? "simb" ms with
    | some (.string text) => .literal text
    | _ =>
      match Json.field? "op" ms, _ : Json.field? "args" ms with
      | some (.string name), some (.array xs) =>
        .operator name (xs.attach.map fun x => Node.ofJson x.1)
      | _, _ => .malformed (.object ms)
  | j => .malformed j
termination_by j => sizeOf j
decreasing_by
  · next h =>
    have := Json.sizeOf_field?_lt h
    have := List.sizeOf_lt_of_mem x.2
    simp only [Json.object.sizeOf_spec, Json.array.sizeOf_spec] at *
    omega

/-- The shape of an outermost node whose members are taken as written: a repeated `simb` is no
literal, and a repeated `op` or `args` no operator. -/
def Node.ofWritten? : Json → Option Node
  | .object ms =>
    match Json.field? "simb" ms, Json.occurrences "simb" ms with
    | some (.string text), 1 => some (.literal text)
    | _, _ =>
      match Json.field? "op" ms, Json.field? "args" ms with
      | some (.string name), some (.array xs) =>
        if Json.occurrences "op" ms = 1 ∧ Json.occurrences "args" ms = 1 then
          some (.operator name (xs.map Node.ofJson))
        else none
      | _, _ => none
  | _ => none

/-! ## Trees -/

def assemble (name : String) (xs : List Expr) : Except Defect Expr :=
  if name = "alt" then if xs.isEmpty then .error .emptyAlternation else .ok (.alternation xs)
  else if name = "seq" then if xs.isEmpty then .error .emptySequence else .ok (.sequence xs)
  else if name = "kle" then
    match xs with
    | [x] => .ok (.star x)
    | _ => .error (.starArity xs.length)
  else .error (.unknownOperator name)

mutual

def Node.toExpr : Node → Except Defect Expr
  | .literal text =>
    match Text.onlyChar? text with
    | some c => .ok (.literal c)
    | none => .error (.literalLength text)
  | .operator name args => do
    let xs ← Node.allToExpr args
    assemble name xs
  | .malformed j => .error (.shapelessNode j)

def Node.allToExpr : List Node → Except Defect (List Expr)
  | [] => .ok []
  | n :: ns => do
    let x ← n.toExpr
    let xs ← Node.allToExpr ns
    return x :: xs

end

def ofJson (j : Json) : Except Defect Expr := (Node.ofJson j).toExpr

/-! ## Texts -/

def read (i : Text.Input) : Except Error Expr := do
  let j ← (Json.read i).mapError .json
  (ofJson j).mapError .expression

/-- Why an expression could not be read as one value among others. -/
inductive ValueFault
  | text (f : Json.Fault)
  /-- The outermost value has the shape of no node. -/
  | shapeless
  | defect (d : Defect)

namespace ValueFault

/-- Whatever is wrong with the expression itself is a matter of its data. -/
def category : ValueFault → Json.Fault
  | text f => f
  | shapeless => .data
  | defect _ => .data

def message? : ValueFault → Option String
  | text _ => none
  | shapeless => some "data did not match any variant of untagged enum RawExpr"
  | defect d => some d.detail

end ValueFault

/-- Reads an expression as one value of a text. Its own defects come before whatever follows it. -/
def readValue (i : Text.Input) : Except ValueFault Expr := do
  let (j, rest) ← (Json.value (i.length + 1) Json.maxDepth i).mapError .text
  match Node.ofWritten? j with
  | none => throw .shapeless
  | some node =>
    let x ← node.toExpr.mapError .defect
    let _ ← (Json.finish rest).mapError .text
    return x

end Expr

end Recognizer

import Recognizer.Expr.Defect
import Recognizer.Expr.Basic

/-!
# The nodes of an expression

Every node comes before its children, and these come from the left to the right. An alternation or a
sequence of nothing is a gap; an expression is complete when none of its nodes is one
(`Expr.complete_iff_findSome?_gap?`).
-/

namespace Recognizer.Expr

set_option autoImplicit false

mutual

def nodes : Expr → List Expr
  | literal c => [literal c]
  | alternation xs => alternation xs :: allNodes xs
  | sequence xs => sequence xs :: allNodes xs
  | star x => star x :: nodes x

def allNodes : List Expr → List Expr
  | [] => []
  | x :: xs => nodes x ++ allNodes xs

end

theorem allNodes_append (xs ys : List Expr) : allNodes (xs ++ ys) = allNodes xs ++ allNodes ys := by
  induction xs with
  | nil => rfl
  | cons x xs ih => rw [List.cons_append, allNodes, allNodes, ih, List.append_assoc]

/-- What is wrong with a node when its children are left aside. -/
def gap? : Expr → Option Defect
  | alternation [] => some .emptyAlternation
  | sequence [] => some .emptySequence
  | _ => none

theorem gap?_alternation_cons (x : Expr) (xs : List Expr) : (alternation (x :: xs)).gap? = none := rfl

theorem gap?_sequence_cons (x : Expr) (xs : List Expr) : (sequence (x :: xs)).gap? = none := rfl

theorem isSome_gap?_iff {x : Expr} :
    x.gap?.isSome = true ↔ x = alternation [] ∨ x = sequence [] := by
  unfold gap?
  split <;> simp_all

mutual

theorem complete_iff_findSome?_gap? : (x : Expr) →
    (x.complete = true ↔ x.nodes.findSome? gap? = none)
  | literal c => by simp [complete, nodes, gap?]
  | alternation [] => by simp [complete, nodes, allNodes, gap?]
  | alternation (x :: xs) => by
    simp [complete, nodes, gap?, allComplete_iff_findSome?_gap? (x :: xs)]
  | sequence [] => by simp [complete, nodes, allNodes, gap?]
  | sequence (x :: xs) => by
    simp [complete, nodes, gap?, allComplete_iff_findSome?_gap? (x :: xs)]
  | star x => by simp [complete, nodes, gap?, complete_iff_findSome?_gap? x]

theorem allComplete_iff_findSome?_gap? : (xs : List Expr) →
    (allComplete xs = true ↔ (allNodes xs).findSome? gap? = none)
  | [] => by simp [allComplete, allNodes]
  | x :: xs => by
    simp [allComplete, allNodes, complete_iff_findSome?_gap? x, allComplete_iff_findSome?_gap? xs]

end

end Recognizer.Expr

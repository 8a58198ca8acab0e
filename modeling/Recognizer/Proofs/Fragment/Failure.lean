import Recognizer.Proofs.Expr.Nodes
import Recognizer.Proofs.Fallible
import Recognizer.Proofs.Fragment.Build

/-!
# Builds that fail

The nodes of an expression are built in their order, each before its children, and what was built beside
a gap does not keep the build from failing. So a build fails with the first gap among the nodes, whatever
supply it draws from (`Expr.fault?_fragmentFrom`).
-/

namespace Recognizer

set_option autoImplicit false

theorem Build.fault?_andThen {α β : Type} (r : Except Expr.Defect α × State)
    (next : α → State → Except Expr.Defect β × State) {d : Option Expr.Defect}
    (h : ∀ a n, fault? (next a n).1 = d) : fault? (Build.andThen r next).1 = (fault? r.1).or d := by
  obtain ⟨x, n⟩ := r
  cases x with
  | error e => rfl
  | ok a => exact h a n

namespace Expr

open Fragment

mutual

theorem fault?_fragmentFrom : (x : Expr) → (n : State) →
    fault? (x.fragmentFrom n).1 = x.nodes.findSome? gap?
  | .literal c, n => rfl
  | .alternation [], n => rfl
  | .alternation (x :: xs), n => by
    rw [fragmentFrom_alternation, fault?_branchesFrom, nodes, List.findSome?_cons,
      gap?_alternation_cons]
  | .sequence [], n => rfl
  | .sequence (x :: xs), n => by
    rw [fragmentFrom_sequence, Build.fault?_andThen _ _ fun f k => fault?_followersFrom xs f k,
      fault?_fragmentFrom x, nodes, allNodes, List.findSome?_cons, gap?_sequence_cons,
      List.findSome?_append]
  | .star x, n => by
    have hloop : ∀ g k, fault? ((.ok ((bareFrom n).loop g), k) : Except Defect Fragment × State).1 =
        none := fun _ _ => rfl
    rw [fragmentFrom_star, Build.fault?_andThen _ _ hloop, fault?_fragmentFrom x, nodes,
      List.findSome?_cons]
    exact Option.or_none

theorem fault?_branchesFrom : (xs : List Expr) → (f : Fragment) → (n : State) →
    fault? (branchesFrom f xs n).1 = (allNodes xs).findSome? gap?
  | [], f, n => rfl
  | x :: xs, f, n => by
    rw [branchesFrom_cons, Build.fault?_andThen _ _ fun g k => fault?_branchesFrom xs _ k,
      fault?_fragmentFrom x, allNodes, List.findSome?_append]

theorem fault?_followersFrom : (xs : List Expr) → (f : Fragment) → (n : State) →
    fault? (followersFrom f xs n).1 = (allNodes xs).findSome? gap?
  | [], f, n => rfl
  | x :: xs, f, n => by
    rw [followersFrom_cons, Build.fault?_andThen _ _ fun g k => fault?_followersFrom xs _ k,
      fault?_fragmentFrom x, allNodes, List.findSome?_append]

end

theorem compile_eq_error_iff {x : Expr} {d : Defect} :
    x.compile = .error d ↔ x.nodes.findSome? gap? = some d := by
  rw [← fault?_fragmentFrom x 0, ← fault?_eq_some, compile, fault?_map]

end Expr

end Recognizer

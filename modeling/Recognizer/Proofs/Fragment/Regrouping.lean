import Recognizer.Compile
import Recognizer.Proofs.Fragment.Build

/-!
# Sequences grouped in different ways

Fragments are appended one to the next, and appending is associative down to the order of the transitions.
So a sequence inside a sequence may as well give its children to the outer one, from whatever state the
build starts and whether it fails or not (`Expr.fragmentFrom_sequence_group`). Expressions that differ in
nothing else (`Expr.Regrouped`) have the same automata.
-/

namespace Recognizer

set_option autoImplicit false

/-! ## Steps one after another -/

namespace Build

variable {α β γ : Type} (r : Except Expr.Defect α × State)

theorem andThen_assoc (next : α → State → Except Expr.Defect β × State)
    (last : β → State → Except Expr.Defect γ × State) :
    andThen (andThen r next) last = andThen r fun a n => andThen (next a n) last := by
  obtain ⟨x, n⟩ := r
  cases x <;> rfl

theorem andThen_return : (andThen r fun a n => (.ok a, n)) = r := by
  obtain ⟨x, n⟩ := r
  cases x <;> rfl

end Build

namespace Fragment

theorem append_assoc (f g h : Fragment) : (f.append g).append h = f.append (g.append h) := by
  simp [append, merge, connect]

end Fragment

namespace Expr

open Fragment

variable {x y : Expr} {xs ys zs : List Expr}

/-! ## Lists of children in two parts -/

theorem branchesFrom_append (f : Fragment) (xs ys : List Expr) (n : State) :
    branchesFrom f (xs ++ ys) n =
      Build.andThen (branchesFrom f xs n) fun g k => branchesFrom g ys k := by
  induction xs generalizing f n with
  | nil => rfl
  | cons x xs ih => simp only [List.cons_append, branchesFrom_cons, Build.andThen_assoc, ih]

theorem followersFrom_append (f : Fragment) (xs ys : List Expr) (n : State) :
    followersFrom f (xs ++ ys) n =
      Build.andThen (followersFrom f xs n) fun g k => followersFrom g ys k := by
  induction xs generalizing f n with
  | nil => rfl
  | cons x xs ih => simp only [List.cons_append, followersFrom_cons, Build.andThen_assoc, ih]

/-- What is put after `g` may first be put together with it, and then after `f`. -/
theorem followersFrom_append_fragment (f g : Fragment) (xs : List Expr) (n : State) :
    followersFrom (f.append g) xs n =
      Build.andThen (followersFrom g xs n) fun h k => (.ok (f.append h), k) := by
  induction xs generalizing g n with
  | nil => rfl
  | cons x xs ih => simp only [followersFrom_cons, Build.andThen_assoc, Fragment.append_assoc, ih]

theorem fragmentFrom_alternation_of_ne_nil (h : xs ≠ []) (n : State) :
    (alternation xs).fragmentFrom n = branchesFrom (bareFrom n) xs (n + 2) := by
  cases xs with
  | nil => exact absurd rfl h
  | cons x xs => exact fragmentFrom_alternation x xs n

theorem fragmentFrom_sequence_append (h : xs ≠ []) (zs : List Expr) (n : State) :
    (sequence (xs ++ zs)).fragmentFrom n =
      Build.andThen ((sequence xs).fragmentFrom n) fun f k => followersFrom f zs k := by
  cases xs with
  | nil => exact absurd rfl h
  | cons x xs =>
    simp only [List.cons_append, fragmentFrom_sequence, Build.andThen_assoc, followersFrom_append]

/-! ## Groups inside a sequence -/

theorem fragmentFrom_sequence_singleton (x : Expr) (n : State) :
    (sequence [x]).fragmentFrom n = x.fragmentFrom n := by
  rw [fragmentFrom_sequence]
  exact Build.andThen_return _

theorem followersFrom_group (f : Fragment) (h : ys ≠ []) (n : State) :
    followersFrom f [sequence ys] n = followersFrom f ys n := by
  cases ys with
  | nil => exact absurd rfl h
  | cons y ys =>
    simp only [followersFrom_cons, fragmentFrom_sequence, Build.andThen_assoc,
      followersFrom_append_fragment f, followersFrom_nil, Build.andThen_ok]

theorem fragmentFrom_sequence_group (xs zs : List Expr) (h : ys ≠ []) (n : State) :
    (sequence (xs ++ [sequence ys] ++ zs)).fragmentFrom n =
      (sequence (xs ++ ys ++ zs)).fragmentFrom n := by
  have hgroup : (sequence (xs ++ [sequence ys])).fragmentFrom n = (sequence (xs ++ ys)).fragmentFrom n := by
    cases xs with
    | nil => exact fragmentFrom_sequence_singleton _ n
    | cons x xs =>
      rw [fragmentFrom_sequence_append (List.cons_ne_nil x xs),
        fragmentFrom_sequence_append (List.cons_ne_nil x xs)]
      simp only [followersFrom_group _ h]
  rw [fragmentFrom_sequence_append (by simp), hgroup, ← fragmentFrom_sequence_append (by simp [h])]

/-! ## Groups anywhere in an expression -/

/-- The expressions differ only in how sequences are grouped, at whatever depth. -/
inductive Regrouped : Expr → Expr → Prop
  | refl (x : Expr) : Regrouped x x
  | symm {x y : Expr} : Regrouped x y → Regrouped y x
  | trans {x y z : Expr} : Regrouped x y → Regrouped y z → Regrouped x z
  | single (x : Expr) : Regrouped (sequence [x]) x
  | group (xs zs : List Expr) {ys : List Expr} : ys ≠ [] →
    Regrouped (sequence (xs ++ [sequence ys] ++ zs)) (sequence (xs ++ ys ++ zs))
  | alternation (xs zs : List Expr) {x y : Expr} : Regrouped x y →
    Regrouped (alternation (xs ++ x :: zs)) (alternation (xs ++ y :: zs))
  | sequence (xs zs : List Expr) {x y : Expr} : Regrouped x y →
    Regrouped (sequence (xs ++ x :: zs)) (sequence (xs ++ y :: zs))
  | star {x y : Expr} : Regrouped x y → Regrouped (star x) (star y)

theorem fragmentFrom_alternation_congr (xs zs : List Expr) (h : ∀ n, x.fragmentFrom n = y.fragmentFrom n)
    (n : State) : (alternation (xs ++ x :: zs)).fragmentFrom n =
      (alternation (xs ++ y :: zs)).fragmentFrom n := by
  rw [fragmentFrom_alternation_of_ne_nil (by simp), fragmentFrom_alternation_of_ne_nil (by simp)]
  simp only [branchesFrom_append, branchesFrom_cons, h]

theorem fragmentFrom_sequence_congr (xs zs : List Expr) (h : ∀ n, x.fragmentFrom n = y.fragmentFrom n)
    (n : State) : (sequence (xs ++ x :: zs)).fragmentFrom n = (sequence (xs ++ y :: zs)).fragmentFrom n := by
  cases xs with
  | nil => simp only [List.nil_append, fragmentFrom_sequence, h]
  | cons w xs =>
    simp only [List.cons_append, fragmentFrom_sequence, followersFrom_append, followersFrom_cons, h]

theorem Regrouped.fragmentFrom_eq (h : Regrouped x y) (n : State) :
    x.fragmentFrom n = y.fragmentFrom n := by
  induction h generalizing n with
  | refl x => rfl
  | symm _ ih => exact (ih n).symm
  | trans _ _ ih₁ ih₂ => exact (ih₁ n).trans (ih₂ n)
  | single x => exact fragmentFrom_sequence_singleton x n
  | group xs zs hys => exact fragmentFrom_sequence_group xs zs hys n
  | alternation xs zs _ ih => exact fragmentFrom_alternation_congr xs zs ih n
  | sequence xs zs _ ih => exact fragmentFrom_sequence_congr xs zs ih n
  | star _ ih => rw [fragmentFrom_star, fragmentFrom_star, ih]

/-- A group of children may be put into the sequence around it: the fragment is the same down to the order
of its states and transitions, or the failure is the same, and as many states are drawn from the supply.
So however sequences are grouped inside an expression, its automata are the same. -/
theorem fragmentFrom_regrouped :
    (∀ xs ys zs : List Expr, ys ≠ [] → ∀ n,
      (sequence (xs ++ [sequence ys] ++ zs)).fragmentFrom n =
        (sequence (xs ++ ys ++ zs)).fragmentFrom n) ∧
    ∀ x y, Regrouped x y → (∀ n, x.fragmentFrom n = y.fragmentFrom n) ∧ x.compile = y.compile ∧
      ∀ A, x.recognizer A = y.recognizer A := by
  refine ⟨fun xs ys zs hys n => fragmentFrom_sequence_group xs zs hys n, fun x y h => ?_⟩
  have hcompile : x.compile = y.compile := by
    rw [compile, compile, h.fragmentFrom_eq]
  refine ⟨h.fragmentFrom_eq, hcompile, fun A => ?_⟩
  rw [recognizer, recognizer, hcompile]

/-- The first two or the last two of three grouped under a star, and a build that fails inside a group. -/
theorem fragmentFrom_regrouped_nested :
    let x := star (sequence [sequence [literal 'a', literal 'b'], literal 'c'])
    let y := star (sequence [literal 'a', sequence [literal 'b', literal 'c']])
    (∀ n, x.fragmentFrom n = y.fragmentFrom n) ∧ x.compile = y.compile ∧
      (sequence ([literal 'a'] ++ [sequence [literal 'b', alternation []]] ++ [literal 'c'])).fragmentFrom 3 =
        (.error .emptyAlternation, 7) := by
  intro x y
  have hx : Regrouped x (star (sequence [literal 'a', literal 'b', literal 'c'])) :=
    .star (.group [] [literal 'c'] (by simp))
  have hy : Regrouped y (star (sequence [literal 'a', literal 'b', literal 'c'])) :=
    .star (.group [literal 'a'] [] (by simp))
  obtain ⟨hfragment, hcompile, -⟩ := fragmentFrom_regrouped.2 x y (hx.trans hy.symm)
  refine ⟨hfragment, hcompile, ?_⟩
  rw [fragmentFrom_regrouped.1 [literal 'a'] [literal 'b', alternation []] [literal 'c'] (by simp) 3]
  rfl

end Expr

end Recognizer

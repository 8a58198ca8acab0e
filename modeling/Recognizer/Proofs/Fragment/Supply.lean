import Mathlib.Algebra.GroupWithZero.Nat
import Mathlib.Data.List.TakeWhile
import Recognizer.Document.Listing
import Recognizer.Proofs.Fragment.Failure
import Recognizer.Proofs.Fragment.Shape

/-!
# What builds draw from the supply

A build draws one number after another and never goes back, even if it fails in the end
(`Build.Draws.eq_range'`). Literals, alternations and stars take two numbers each, sequences none, in the
order of the nodes and up to the first gap (`Expr.next_fragmentFrom`).
-/

namespace Recognizer

set_option autoImplicit false

/-! ## Numbers that are drawn -/

/-- `b.Draws n is`: if `n` is the next number when `b` starts, `b` draws the numbers `is`, in this order.
Nothing is drawn after a failure. -/
inductive Build.Draws : {α : Type} → Build α → State → List State → Prop
  | pure {α : Type} (a : α) (n : State) : Draws (Pure.pure a : Build α) n []
  | throw {α : Type} (d : Expr.Defect) (n : State) :
    Draws (MonadExcept.throw d : Build α) n []
  | fresh (n : State) : Draws Fragment.fresh n [n]
  | bind {α β : Type} {b : Build α} {k : α → Build β} {n m : State} {a : α} {is js : List State} :
    Draws b n is → b.run.run n = (.ok a, m) → Draws (k a) m js → Draws (b >>= k) n (is ++ js)
  | fail {α β : Type} {b : Build α} {k : α → Build β} {n m : State} {d : Expr.Defect}
    {is : List State} : Draws b n is → b.run.run n = (.error d, m) → Draws (b >>= k) n is

namespace Build

variable {α β : Type} {b : Build α} {n : State} {is : List State}

theorem Draws.eq_range' (h : b.Draws n is) :
    is = List.range' n is.length ∧ (b.run.run n).2 = n + is.length := by
  induction h with
  | pure => exact ⟨rfl, rfl⟩
  | throw => exact ⟨rfl, rfl⟩
  | fresh n => exact ⟨rfl, rfl⟩
  | @bind α β b k n m a is js _ hb _ ih₁ ih₂ =>
    rw [hb] at ih₁
    obtain rfl : m = n + is.length := ih₁.2
    refine ⟨?_, ?_⟩
    · rw [List.length_append, ← List.range'_append_1, ← ih₁.1, ← ih₂.1]
    · rw [run_bind, hb, andThen_ok, ih₂.2, List.length_append, Nat.add_assoc]
  | @fail α β b k n m d is _ hb ih =>
    rw [hb] at ih
    exact ⟨ih.1, by rw [run_bind, hb, andThen_error, ih.2]⟩

theorem exists_draws_bind {k : α → Build β} (hb : ∃ is, b.Draws n is)
    (hk : ∀ a m, ∃ js, (k a).Draws m js) : ∃ is, (b >>= k).Draws n is := by
  obtain ⟨is, h⟩ := hb
  cases e : b.run.run n with
  | mk r m =>
    cases r with
    | error d => exact ⟨is, h.fail e⟩
    | ok a =>
      obtain ⟨js, h'⟩ := hk a m
      exact ⟨is ++ js, h.bind e h'⟩

/-- How far the supply gets in two steps, if the second one always draws `k` numbers. -/
theorem next_andThen (r : Except Expr.Defect α × State)
    (next : α → State → Except Expr.Defect β × State) {k : Nat}
    (h : ∀ a n, (next a n).2 = n + k) :
    (andThen r next).2 = r.2 + if (fault? r.1).isNone then k else 0 := by
  obtain ⟨x, n⟩ := r
  cases x with
  | error d => rfl
  | ok a => exact h a n

end Build

namespace Expr

open Fragment

/-! ## Every build draws numbers one by one -/

theorem exists_draws_bare (n : State) : ∃ is, bare.Draws n is :=
  Build.exists_draws_bind ⟨_, .fresh n⟩ fun _ m =>
    Build.exists_draws_bind ⟨_, .fresh m⟩ fun _ m' => ⟨_, .pure _ m'⟩

mutual

theorem exists_draws_fragment : (x : Expr) → (n : State) → ∃ is, (fragment x).Draws n is
  | .literal c, n => by
    rw [fragment]
    exact Build.exists_draws_bind (exists_draws_bare n) fun _ m => ⟨_, .pure _ m⟩
  | .alternation [], n => by
    rw [fragment]
    exact ⟨_, .throw _ n⟩
  | .alternation (x :: xs), n => by
    rw [fragment]
    exact Build.exists_draws_bind (exists_draws_bare n) fun f m => exists_draws_branches (x :: xs) f m
  | .sequence [], n => by
    rw [fragment]
    exact ⟨_, .throw _ n⟩
  | .sequence (x :: xs), n => by
    rw [fragment]
    exact Build.exists_draws_bind (exists_draws_fragment x n) fun f m => exists_draws_followers xs f m
  | .star x, n => by
    rw [fragment]
    exact Build.exists_draws_bind (exists_draws_bare n) fun _ m =>
      Build.exists_draws_bind (exists_draws_fragment x m) fun _ m' => ⟨_, .pure _ m'⟩

theorem exists_draws_branches : (xs : List Expr) → (f : Fragment) → (n : State) →
    ∃ is, (branches f xs).Draws n is
  | [], f, n => by
    rw [branches]
    exact ⟨_, .pure f n⟩
  | x :: xs, f, n => by
    rw [branches]
    exact Build.exists_draws_bind (exists_draws_fragment x n) fun g m =>
      exists_draws_branches xs (f.branch g) m

theorem exists_draws_followers : (xs : List Expr) → (f : Fragment) → (n : State) →
    ∃ is, (followers f xs).Draws n is
  | [], f, n => by
    rw [followers]
    exact ⟨_, .pure f n⟩
  | x :: xs, f, n => by
    rw [followers]
    exact Build.exists_draws_bind (exists_draws_fragment x n) fun g m =>
      exists_draws_followers xs (f.append g) m

end

/-! ## How many numbers are drawn -/

/-- Whether a node has two states of its own. A sequence has those of its first and last child. -/
def hasStates : Expr → Bool
  | literal _ => true
  | alternation _ => true
  | sequence _ => false
  | star _ => true

def demand (x : Expr) : Nat := 2 * x.nodes.countP hasStates

/-- The states of the nodes before the first gap. -/
def drawn (xs : List Expr) : Nat := 2 * (xs.takeWhile (·.gap?.isNone)).countP hasStates

variable {x : Expr}

theorem drawn_cons (h : x.gap? = none) (xs : List Expr) :
    drawn (x :: xs) = (if x.hasStates then 2 else 0) + drawn xs := by
  unfold drawn
  rw [List.takeWhile_cons_of_pos (by simp [h]), List.countP_cons]
  split <;> omega

theorem drawn_cons_of_gap {d : Defect} (h : x.gap? = some d) (xs : List Expr) :
    drawn (x :: xs) = 0 := by
  unfold drawn
  rw [List.takeWhile_cons_of_neg (by simp [h])]
  rfl

/-- A gap among the first nodes keeps the others from drawing. -/
theorem drawn_append (xs ys : List Expr) :
    drawn (xs ++ ys) = drawn xs + if (xs.findSome? gap?).isNone then drawn ys else 0 := by
  induction xs with
  | nil => exact (Nat.zero_add _).symm
  | cons x xs ih =>
    cases h : x.gap? with
    | none => rw [List.cons_append, drawn_cons h, drawn_cons h, ih, List.findSome?_cons, h, Nat.add_assoc]
    | some d => rw [List.cons_append, drawn_cons_of_gap h, drawn_cons_of_gap h, List.findSome?_cons, h]; rfl

theorem drawn_le_demand (x : Expr) : drawn x.nodes ≤ x.demand :=
  Nat.mul_le_mul_left 2 (List.takeWhile_sublist _).countP_le

theorem drawn_of_complete (h : x.complete = true) : drawn x.nodes = x.demand := by
  have hn : ∀ y ∈ x.nodes, y.gap?.isNone = true := by
    have hn := List.findSome?_eq_none_iff.mp ((complete_iff_findSome?_gap? x).mp h)
    exact fun y hy => Option.isNone_iff_eq_none.mpr (hn y hy)
  rw [drawn, List.takeWhile_eq_self_iff.mpr hn, demand]

mutual

theorem next_fragmentFrom : (x : Expr) → (n : State) → (x.fragmentFrom n).2 = n + drawn x.nodes
  | .literal c, n => by
    rw [fragmentFrom_literal, nodes, drawn_cons rfl]
    rfl
  | .alternation [], n => by
    rw [nodes, drawn_cons_of_gap rfl]
    rfl
  | .alternation (x :: xs), n => by
    rw [fragmentFrom_alternation, next_branchesFrom, nodes, drawn_cons (gap?_alternation_cons x xs),
      Nat.add_assoc]
    rfl
  | .sequence [], n => by
    rw [nodes, drawn_cons_of_gap rfl]
    rfl
  | .sequence (x :: xs), n => by
    rw [fragmentFrom_sequence, Build.next_andThen _ _ fun f m => next_followersFrom xs f m,
      next_fragmentFrom x, fault?_fragmentFrom, nodes, drawn_cons (gap?_sequence_cons x xs), allNodes,
      drawn_append, Nat.add_assoc]
    exact congrArg (n + ·) (Nat.zero_add _).symm
  | .star x, n => by
    rw [fragmentFrom_star, Build.next_andThen _ _ fun g m => (Nat.add_zero m).symm,
      next_fragmentFrom x, nodes, drawn_cons rfl, ite_self, Nat.add_zero, Nat.add_assoc]
    rfl

theorem next_branchesFrom : (xs : List Expr) → (f : Fragment) → (n : State) →
    (branchesFrom f xs n).2 = n + drawn (allNodes xs)
  | [], f, n => rfl
  | x :: xs, f, n => by
    rw [branchesFrom_cons, Build.next_andThen _ _ fun g m => next_branchesFrom xs _ m,
      next_fragmentFrom x, fault?_fragmentFrom, allNodes, drawn_append, Nat.add_assoc]

theorem next_followersFrom : (xs : List Expr) → (f : Fragment) → (n : State) →
    (followersFrom f xs n).2 = n + drawn (allNodes xs)
  | [], f, n => rfl
  | x :: xs, f, n => by
    rw [followersFrom_cons, Build.next_andThen _ _ fun g m => next_followersFrom xs _ m,
      next_fragmentFrom x, fault?_fragmentFrom, allNodes, drawn_append, Nat.add_assoc]

end

theorem exists_fragmentFrom (h : x.complete = true) (n : State) :
    ∃ f, x.fragmentFrom n = (.ok f, n + x.demand) ∧ f.Proper n (n + x.demand) := by
  obtain ⟨f, m, e, hf⟩ := fragment_induction proper_joins x h n
  have hm := next_fragmentFrom x n
  rw [e, drawn_of_complete h] at hm
  dsimp only at hm
  subst hm
  exact ⟨f, e, hf⟩

theorem exists_fragmentFrom_error (h : x.complete = false) (n : State) :
    ∃ d, x.fragmentFrom n = (.error d, n + drawn x.nodes) := by
  have hgap : x.nodes.findSome? gap? ≠ none := fun hn => by
    rw [(complete_iff_findSome?_gap? x).mpr hn] at h
    cases h
  obtain ⟨d, hd⟩ := Option.ne_none_iff_exists'.mp hgap
  rw [← fault?_fragmentFrom x n, fault?_eq_some] at hd
  exact ⟨d, Prod.ext hd (next_fragmentFrom x n)⟩

end Expr

/-! ## Requests to one supply -/

/-- What is asked of a supply: a number, or all that it takes to build an expression. -/
inductive Request
  | number
  | build (x : Expr)

namespace Request

def Draws : Request → State → List State → Prop
  | number => Fragment.fresh.Draws
  | build x => x.fragment.Draws

def next : Request → State → State
  | number, n => (Fragment.fresh.run.run n).2
  | build x, n => (x.fragmentFrom n).2

/-- How many numbers a request takes, if it does not fail before. -/
def demand : Request → Nat
  | number => 1
  | build x => x.demand

variable {r : Request} {n : State} {is : List State}

theorem exists_draws (r : Request) (n : State) : ∃ is, r.Draws n is := by
  cases r with
  | number => exact ⟨_, .fresh n⟩
  | build x => exact x.exists_draws_fragment n

theorem Draws.eq_range' (h : r.Draws n is) : is = List.range' n is.length ∧ r.next n = n + is.length := by
  cases r with
  | number => exact Build.Draws.eq_range' h
  | build x => exact Build.Draws.eq_range' h

theorem next_le (r : Request) (n : State) : r.next n ≤ n + r.demand := by
  cases r with
  | number => exact Nat.le_refl _
  | build x =>
    rw [next, Expr.next_fragmentFrom]
    exact Nat.add_le_add_left x.drawn_le_demand n

end Request

/-- From `n` on, the requests draw the numbers `is` one after another, and `m` is the next number after
them. A request that fails does not keep those after it from being served. -/
inductive Served : State → List Request → List State → State → Prop
  | nil (n : State) : Served n [] [] n
  | cons {r : Request} {rs : List Request} {n m : State} {is js : List State} :
    r.Draws n is → Served (r.next n) rs js m → Served n (r :: rs) (is ++ js) m

namespace Served

variable {rs : List Request} {n m : State} {is : List State}

theorem exists_served (rs : List Request) (n : State) : ∃ is m, Served n rs is m := by
  induction rs generalizing n with
  | nil => exact ⟨[], n, .nil n⟩
  | cons r rs ih =>
    obtain ⟨is, h⟩ := r.exists_draws n
    obtain ⟨js, m, h'⟩ := ih (r.next n)
    exact ⟨is ++ js, m, .cons h h'⟩

theorem eq_range' (h : Served n rs is m) : is = List.range' n is.length ∧ m = n + is.length := by
  induction h with
  | nil n => exact ⟨rfl, rfl⟩
  | @cons r rs n m is js hr _ ih =>
    obtain ⟨his, hnext⟩ := hr.eq_range'
    rw [hnext] at ih
    rw [List.length_append]
    refine ⟨?_, ih.2.trans (Nat.add_assoc ..)⟩
    rw [← List.range'_append_1, ← his, ← ih.1]

theorem le_demand (h : Served n rs is m) : m ≤ n + (rs.map Request.demand).sum := by
  induction h with
  | nil n => exact Nat.le_refl _
  | @cons r rs n m is js _ _ ih =>
    have := r.next_le n
    rw [List.map_cons, List.sum_cons]
    lia

theorem eq_foldl (h : Served n rs is m) : m = rs.foldl (fun k r => r.next k) n := by
  induction h with
  | nil => rfl
  | cons _ _ ih => exact ih

end Served

/-- A complete expression takes two numbers for each literal, alternation and star in it. They are the
states of its fragment, which keeps to them. A build that fails has taken the numbers of the nodes before
the first gap. So whatever is asked of one supply, no number is drawn twice, whether builds fail or not; and
as long as all that is asked for fits below the bound for states, the supply does not reach the bound at
any draw. -/
theorem Expr.fragmentFrom_supply :
    (∀ (x : Expr) (s : State), x.complete = true → ∃ f,
      x.fragmentFrom s = (.ok f, s + x.demand) ∧ f.states = List.range' s x.demand ∧
      x.fragment.Draws s f.states ∧ f.initial = s ∧ f.final ≠ f.initial ∧ f.final ∈ f.states ∧
      ∀ t ∈ f.transitions, t.source ∈ f.states ∧ t.target ∈ f.states) ∧
    (∀ (x : Expr) (s : State), x.complete = false → ∃ d, x.fragmentFrom s =
      (.error d, s + 2 * (x.nodes.takeWhile (·.gap?.isNone)).countP hasStates)) ∧
    ∀ (rs : List Request) (s : State), (∃ is m, Served s rs is m) ∧
      ∀ is m, Served s rs is m → is.Nodup ∧ m = s + is.length ∧
        (s + (rs.map Request.demand).sum < Document.stateBound →
          ∀ i ∈ is, i + 1 < Document.stateBound) := by
  refine ⟨fun x s hx => ?_, fun x s hx => exists_fragmentFrom_error hx s, fun rs s =>
    ⟨Served.exists_served rs s, fun is m h => ?_⟩⟩
  · obtain ⟨f, e, hf⟩ := exists_fragmentFrom hx s
    have hstates : f.states = List.range' s x.demand := by
      rw [hf.states, Nat.add_sub_cancel_left]
    have hdraws : x.fragment.Draws s f.states := by
      obtain ⟨is, h⟩ := x.exists_draws_fragment s
      obtain ⟨his, hlen⟩ := h.eq_range'
      have hm : (x.fragment.run.run s).2 = s + x.demand := congrArg Prod.snd e
      rw [hm] at hlen
      rwa [hstates, Nat.add_left_cancel hlen, ← his]
    have hne : f.final ≠ f.initial := by
      have := hf.bounds
      lia
    refine ⟨f, e, hstates, hdraws, hf.initial, hne, hf.final_mem, fun t ht => ?_⟩
    have hs := hf.source t ht
    have ht := hf.target t ht
    exact ⟨hf.mem_states.mpr ⟨hs.1, hs.2.1⟩, hf.mem_states.mpr ⟨Nat.le_of_lt ht.1, ht.2⟩⟩
  · obtain ⟨his, hm⟩ := h.eq_range'
    refine ⟨his ▸ List.nodup_range', hm, fun hb i hi => ?_⟩
    have hm' := h.le_demand
    have hi' : i < s + is.length := (List.mem_range'_1.mp (his ▸ hi)).2
    lia

/-- Eight of the twelve numbers that the second expression could take are gone when its build fails. -/
theorem Expr.fragmentFrom_supply_gap :
    let x := sequence [star (literal 'a'), alternation [literal 'b', literal 'c']]
    let y := sequence [star (literal 'a'), alternation [literal 'b', sequence []], star (literal 'c')]
    let rs : List Request := [.number, .build y, .build x, .number]
    x.complete = true ∧ (∃ f, x.fragmentFrom 9 = (.ok f, 19) ∧ f.initial = 9) ∧
      y.complete = false ∧ (∃ d, y.fragmentFrom 1 = (.error d, 9)) ∧
      ∃ is, Served 0 rs is 20 ∧ is.Nodup ∧ 0 + (rs.map Request.demand).sum < Document.stateBound ∧
        ∀ i ∈ is, i + 1 < Document.stateBound := by
  intro x y rs
  have hx : x.complete = true := by rfl
  have hy : y.complete = false := by rfl
  obtain ⟨f, e, -, -, hf, -⟩ := fragmentFrom_supply.1 x 9 hx
  obtain ⟨⟨is, m, h⟩, hall⟩ := fragmentFrom_supply.2.2 rs 0
  obtain ⟨hnodup, -, hbound⟩ := hall is m h
  have hsum : 0 + (rs.map Request.demand).sum < Document.stateBound := by decide
  obtain rfl : m = 20 := h.eq_foldl
  exact ⟨hx, ⟨f, e, hf⟩, hy, fragmentFrom_supply.2.1 y 1 hy, is, h, hnodup, hsum, hbound hsum⟩

end Recognizer

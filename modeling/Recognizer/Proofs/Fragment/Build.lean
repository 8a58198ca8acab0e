import Recognizer.Fragment

/-!
# How fragments are built

The supply of states is opened here once and for all: what a build does is an equation between its
start and its end (`Expr.fragmentFrom_star`, `Expr.branchesFrom_cons`, …), and whatever every way of
joining fragments keeps holds of the fragment of every complete expression
(`Expr.fragment_induction`).
-/

namespace Recognizer

set_option autoImplicit false

/-! ## One step after another -/

/-- What is built next, unless something failed before. The supply is passed on either way. -/
def Build.andThen {α β : Type} (r : Except Expr.Defect α × State)
    (next : α → State → Except Expr.Defect β × State) : Except Expr.Defect β × State :=
  match r with
  | (.ok a, n) => next a n
  | (.error d, n) => (.error d, n)

@[simp] theorem Build.andThen_ok {α β : Type} (a : α) (n : State)
    (next : α → State → Except Expr.Defect β × State) :
    Build.andThen (.ok a, n) next = next a n := rfl

@[simp] theorem Build.andThen_error {α β : Type} (d : Expr.Defect) (n : State)
    (next : α → State → Except Expr.Defect β × State) :
    Build.andThen (.error d, n) next = (.error d, n) := rfl

theorem Build.run_bind {α β : Type} (m : Build α) (k : α → Build β) (n : State) :
    (m >>= k).run.run n = Build.andThen (m.run.run n) fun a n' => (k a).run.run n' := by
  show (ExceptT.bind m k : Build β) n = Build.andThen (m n) _
  simp only [ExceptT.bind, ExceptT.bindCont, ExceptT.mk, bind, StateT.bind]
  cases m n with
  | mk r n' => cases r <;> rfl

/-- The two states drawn from a supply whose next number is `n`. -/
def Fragment.bareFrom (n : State) : Fragment := ⟨[n, n + 1], n, n + 1, []⟩

namespace Expr

open Fragment

/-! ## What each build does -/

/-- The branches of `xs` added to `f`, over a supply whose next number is `next`. -/
def branchesFrom (f : Fragment) (xs : List Expr) (next : State) :
    Except Defect Fragment × State :=
  (branches f xs).run.run next

/-- The fragments of `xs` put after `f`, over a supply whose next number is `next`. -/
def followersFrom (f : Fragment) (xs : List Expr) (next : State) :
    Except Defect Fragment × State :=
  (followers f xs).run.run next

theorem fragmentFrom_literal (c : Symbol) (n : State) :
    (literal c).fragmentFrom n =
      (.ok ((bareFrom n).connect (.symbol c) n (n + 1)), n + 2) := rfl

theorem fragmentFrom_alternation (x : Expr) (xs : List Expr) (n : State) :
    (alternation (x :: xs)).fragmentFrom n = branchesFrom (bareFrom n) (x :: xs) (n + 2) := rfl

theorem fragmentFrom_sequence (x : Expr) (xs : List Expr) (n : State) :
    (sequence (x :: xs)).fragmentFrom n =
      Build.andThen (x.fragmentFrom n) fun f k => followersFrom f xs k := by
  rw [fragmentFrom, fragment, Build.run_bind]
  rfl

theorem fragmentFrom_star (x : Expr) (n : State) :
    (star x).fragmentFrom n =
      Build.andThen (x.fragmentFrom (n + 2)) fun g k => (.ok ((bareFrom n).loop g), k) := by
  rw [fragmentFrom, fragment, Build.run_bind]
  exact Build.run_bind (fragment x) (fun g => pure ((bareFrom n).loop g)) (n + 2)

theorem branchesFrom_nil (f : Fragment) (n : State) : branchesFrom f [] n = (.ok f, n) := rfl

theorem branchesFrom_cons (f : Fragment) (x : Expr) (xs : List Expr) (n : State) :
    branchesFrom f (x :: xs) n =
      Build.andThen (x.fragmentFrom n) fun g k => branchesFrom (f.branch g) xs k := by
  rw [branchesFrom, branches, Build.run_bind]
  rfl

theorem followersFrom_nil (f : Fragment) (n : State) : followersFrom f [] n = (.ok f, n) := rfl

theorem followersFrom_cons (f : Fragment) (x : Expr) (xs : List Expr) (n : State) :
    followersFrom f (x :: xs) n =
      Build.andThen (x.fragmentFrom n) fun g k => followersFrom (f.append g) xs k := by
  rw [followersFrom, followers, Build.run_bind]
  rfl

/-! ## Induction over builds -/

/-- `P x n f m` is to hold of the fragment `f` built for `x` from state `n` on, with `m` the next
state after it. An alternation of nothing stands for the two states that wait for a first branch. -/
structure Joins (P : Expr → State → Fragment → State → Prop) : Prop where
  literal : ∀ c n, P (.literal c) n ((bareFrom n).connect (.symbol c) n (n + 1)) (n + 2)
  bare : ∀ n, P (.alternation []) n (bareFrom n) (n + 2)
  branch : ∀ {xs x n f k g m}, x.complete = true → P (.alternation xs) n f k → P x k g m →
    P (.alternation (xs ++ [x])) n (f.branch g) m
  single : ∀ {x n f m}, x.complete = true → P x n f m → P (.sequence [x]) n f m
  append : ∀ {xs x n f k g m}, xs ≠ [] → x.complete = true → P (.sequence xs) n f k → P x k g m →
    P (.sequence (xs ++ [x])) n (f.append g) m
  star : ∀ {x n g m}, x.complete = true → P x (n + 2) g m →
    P (.star x) n ((bareFrom n).loop g) m

section
variable {P : Expr → State → Fragment → State → Prop}

mutual

theorem fragment_induction (hP : Joins P) : (x : Expr) → x.complete = true → (n : State) →
    ∃ f m, x.fragmentFrom n = (.ok f, m) ∧ P x n f m
  | .literal c, _, n => ⟨_, _, fragmentFrom_literal c n, hP.literal c n⟩
  | .alternation [], h, _ => by simp [complete] at h
  | .alternation (x :: xs), h, n => by
    have hxs : allComplete (x :: xs) = true := by
      rw [complete, Bool.and_eq_true] at h
      exact h.2
    exact branches_induction hP (x :: xs) hxs (hP.bare n)
  | .sequence [], h, _ => by simp [complete] at h
  | .sequence (x :: xs), h, n => by
    simp only [complete, allComplete, Bool.and_eq_true] at h
    obtain ⟨-, hx, hxs⟩ := h
    obtain ⟨f, k, e, hf⟩ := fragment_induction hP x hx n
    rw [fragmentFrom_sequence, e, Build.andThen_ok]
    exact followers_induction hP xs hxs (List.cons_ne_nil x []) (hP.single hx hf)
  | .star x, h, n => by
    rw [complete] at h
    obtain ⟨g, m, e, hg⟩ := fragment_induction hP x h (n + 2)
    exact ⟨_, m, by rw [fragmentFrom_star, e, Build.andThen_ok], hP.star h hg⟩

theorem branches_induction (hP : Joins P) {ys : List Expr} {n k : State} {f : Fragment} :
    (xs : List Expr) → allComplete xs = true → P (.alternation ys) n f k →
    ∃ f' m, branchesFrom f xs k = (.ok f', m) ∧ P (.alternation (ys ++ xs)) n f' m
  | [], _, hf => ⟨f, k, branchesFrom_nil f k, by rwa [List.append_nil]⟩
  | x :: xs, h, hf => by
    rw [allComplete, Bool.and_eq_true] at h
    obtain ⟨g, j, e, hg⟩ := fragment_induction hP x h.1 k
    obtain ⟨f', m, e', hf'⟩ := branches_induction hP xs h.2 (hP.branch h.1 hf hg)
    rw [List.append_assoc, List.singleton_append] at hf'
    exact ⟨f', m, by rw [branchesFrom_cons, e, Build.andThen_ok, e'], hf'⟩

theorem followers_induction (hP : Joins P) {ys : List Expr} {n k : State} {f : Fragment} :
    (xs : List Expr) → allComplete xs = true → ys ≠ [] → P (.sequence ys) n f k →
    ∃ f' m, followersFrom f xs k = (.ok f', m) ∧ P (.sequence (ys ++ xs)) n f' m
  | [], _, _, hf => ⟨f, k, followersFrom_nil f k, by rwa [List.append_nil]⟩
  | x :: xs, h, hys, hf => by
    rw [allComplete, Bool.and_eq_true] at h
    obtain ⟨g, j, e, hg⟩ := fragment_induction hP x h.1 k
    have hne : ys ++ [x] ≠ [] := by simp
    obtain ⟨f', m, e', hf'⟩ := followers_induction hP xs h.2 hne (hP.append hys h.1 hf hg)
    rw [List.append_assoc, List.singleton_append] at hf'
    exact ⟨f', m, by rw [followersFrom_cons, e, Build.andThen_ok, e'], hf'⟩

end

end

end Expr

end Recognizer

import Recognizer.Path
import Recognizer.Proofs.Fragment.Build

/-!
# The shape of fragments

A fragment keeps to the states it drew from the supply. Nothing in it enters its initial state and
nothing leaves its final one (`Fragment.Proper`), and each of its states lies on a way from the one
to the other (`Fragment.Threaded`).
-/

namespace Recognizer

set_option autoImplicit false

namespace Fragment

variable {f g : Fragment} {n k m s : State} {t : Transition}

/-! ## Transitions of joined fragments -/

theorem mem_transitions_connect {l : Label} {q r : State} :
    t ∈ (f.connect l q r).transitions ↔ t ∈ f.transitions ∨ t = ⟨q, l, r⟩ := by
  simp [connect]

theorem mem_transitions_branch :
    t ∈ (f.branch g).transitions ↔
      t ∈ f.transitions ∨ t = ⟨f.initial, .silent, g.initial⟩ ∨
        t = ⟨g.final, .silent, f.final⟩ ∨ t ∈ g.transitions := by
  simp [branch, merge, connect]

theorem mem_transitions_append :
    t ∈ (f.append g).transitions ↔
      t ∈ f.transitions ∨ t = ⟨f.final, .silent, g.initial⟩ ∨ t ∈ g.transitions := by
  simp [append, merge, connect]

theorem mem_transitions_loop :
    t ∈ ((bareFrom n).loop g).transitions ↔
      t = ⟨n, .silent, g.initial⟩ ∨ t = ⟨g.final, .silent, g.initial⟩ ∨
        t = ⟨g.final, .silent, n + 1⟩ ∨ t = ⟨n, .silent, n + 1⟩ ∨ t ∈ g.transitions := by
  simp [loop, merge, connect, bareFrom]

/-! ## States, entry and exit -/

/-- The fragment has exactly the states from `n` on and below `m`. It is entered at `n`, and neither
does a transition enter its initial state nor does one leave its final state. -/
structure Proper (f : Fragment) (n m : State) : Prop where
  states : f.states = List.range' n (m - n)
  initial : f.initial = n
  lt_final : n < f.final
  final_lt : f.final < m
  source : ∀ t ∈ f.transitions, n ≤ t.source ∧ t.source < m ∧ t.source ≠ f.final
  target : ∀ t ∈ f.transitions, n < t.target ∧ t.target < m

theorem Proper.bounds (hf : f.Proper n m) : f.initial = n ∧ n < f.final ∧ f.final < m :=
  ⟨hf.initial, hf.lt_final, hf.final_lt⟩

theorem Proper.mem_states (hf : f.Proper n m) : s ∈ f.states ↔ n ≤ s ∧ s < m := by
  have h := hf.bounds
  rw [hf.states, List.mem_range'_1]
  lia

theorem Proper.initial_mem (hf : f.Proper n m) : f.initial ∈ f.states := by
  have h := hf.bounds
  rw [hf.mem_states]
  lia

theorem Proper.final_mem (hf : f.Proper n m) : f.final ∈ f.states := by
  have h := hf.bounds
  rw [hf.mem_states]
  lia

/-- The states of neighbours are the states of both together. -/
theorem Proper.states_append (hf : f.Proper n k) (hg : g.Proper k m) :
    f.states ++ g.states = List.range' n (m - n) := by
  have h₁ := hf.bounds
  have h₂ := hg.bounds
  have hk : n + 1 * (k - n) = k := by lia
  have hm : k - n + (m - k) = m - n := by lia
  have h : _ = List.range' n (k - n + (m - k)) 1 := List.range'_append
  rw [hk, hm] at h
  rw [hf.states, hg.states, h]

theorem proper_bareFrom (n : State) : (bareFrom n).Proper n (n + 2) where
  states := by simp [bareFrom, List.range'_succ]
  initial := rfl
  lt_final := Nat.lt_succ_self n
  final_lt := Nat.lt_succ_self (n + 1)
  source := by simp [bareFrom]
  target := by simp [bareFrom]

theorem proper_literal (l : Label) (n : State) :
    ((bareFrom n).connect l n (n + 1)).Proper n (n + 2) := by
  have h := proper_bareFrom n
  refine ⟨h.states, h.initial, h.lt_final, h.final_lt, ?_, ?_⟩
  · intro t ht
    rcases mem_transitions_connect.mp ht with ht | rfl
    · exact h.source t ht
    · simp [connect, bareFrom]
  · intro t ht
    rcases mem_transitions_connect.mp ht with ht | rfl
    · exact h.target t ht
    · simp

theorem Proper.branch (hf : f.Proper n k) (hg : g.Proper k m) : (f.branch g).Proper n m := by
  have h₁ := hf.bounds
  have h₂ := hg.bounds
  refine ⟨hf.states_append hg, hf.initial, hf.lt_final, ?_, ?_, ?_⟩
  · show f.final < m
    lia
  · intro t ht
    show n ≤ t.source ∧ t.source < m ∧ t.source ≠ f.final
    rcases mem_transitions_branch.mp ht with ht | rfl | rfl | ht
    · have := hf.source t ht
      lia
    · simp only
      lia
    · simp only
      lia
    · have := hg.source t ht
      lia
  · intro t ht
    rcases mem_transitions_branch.mp ht with ht | rfl | rfl | ht
    · have := hf.target t ht
      lia
    · simp only
      lia
    · simp only
      lia
    · have := hg.target t ht
      lia

theorem Proper.append (hf : f.Proper n k) (hg : g.Proper k m) : (f.append g).Proper n m := by
  have h₁ := hf.bounds
  have h₂ := hg.bounds
  refine ⟨hf.states_append hg, hf.initial, ?_, hg.final_lt, ?_, ?_⟩
  · show n < g.final
    lia
  · intro t ht
    show n ≤ t.source ∧ t.source < m ∧ t.source ≠ g.final
    rcases mem_transitions_append.mp ht with ht | rfl | ht
    · have := hf.source t ht
      lia
    · simp only
      lia
    · have := hg.source t ht
      lia
  · intro t ht
    rcases mem_transitions_append.mp ht with ht | rfl | ht
    · have := hf.target t ht
      lia
    · simp only
      lia
    · have := hg.target t ht
      lia

theorem Proper.loop (hg : g.Proper (n + 2) m) : ((bareFrom n).loop g).Proper n m := by
  have h := hg.bounds
  refine ⟨(proper_bareFrom n).states_append hg, rfl, Nat.lt_succ_self n, ?_, ?_, ?_⟩
  · show n + 1 < m
    lia
  · intro t ht
    show n ≤ t.source ∧ t.source < m ∧ t.source ≠ n + 1
    rcases mem_transitions_loop.mp ht with rfl | rfl | rfl | rfl | ht
    iterate 4
      simp only
      lia
    have := hg.source t ht
    lia
  · intro t ht
    rcases mem_transitions_loop.mp ht with rfl | rfl | rfl | rfl | ht
    iterate 4
      simp only
      lia
    have := hg.target t ht
    lia

theorem proper_joins : Expr.Joins fun _ n f m => f.Proper n m where
  literal c n := proper_literal (.symbol c) n
  bare := proper_bareFrom
  branch _ hf hg := hf.branch hg
  single _ hf := hf
  append _ _ hf hg := hf.append hg
  star _ hg := hg.loop

/-! ## Ways from entry to exit -/

/-- The state lies on a path from the initial state to the final one. -/
def OnWay (f : Fragment) (s : State) : Prop :=
  (∃ v, Path f.transitions f.initial v s) ∧ ∃ w, Path f.transitions s w f.final

def Threaded (f : Fragment) : Prop := ∀ s ∈ f.states, f.OnWay s

/-- What is left to ask of a fragment that may still wait for its first branch. -/
def Open (f : Fragment) : Prop := ∀ s ∈ f.states, s = f.initial ∨ s = f.final ∨ f.OnWay s

theorem Threaded.open (hf : f.Threaded) : f.Open := fun s hs => Or.inr (Or.inr (hf s hs))

theorem open_bareFrom (n : State) : (bareFrom n).Open := by
  intro s hs
  rcases List.mem_cons.mp hs with rfl | hs
  · exact Or.inl rfl
  · exact Or.inr (Or.inl (List.mem_singleton.mp hs))

/-- The state lies on a way of some larger fragment that leads to a part and from it. -/
theorem OnWay.within {F : Fragment} (hs : g.OnWay s)
    (hsub : ∀ t ∈ g.transitions, t ∈ F.transitions)
    (hi : ∃ v, Path F.transitions F.initial v g.initial)
    (hf : ∃ w, Path F.transitions g.final w F.final) : F.OnWay s := by
  obtain ⟨⟨v, p⟩, w, q⟩ := hs
  obtain ⟨v', p'⟩ := hi
  obtain ⟨w', q'⟩ := hf
  exact ⟨⟨v' ++ v, p'.append (p.of_subset hsub)⟩, w ++ w', (q.of_subset hsub).append q'⟩

theorem threaded_literal (c : Symbol) (n : State) :
    ((bareFrom n).connect (.symbol c) n (n + 1)).Threaded := by
  have p : Path ((bareFrom n).connect (.symbol c) n (n + 1)).transitions n [c] (n + 1) :=
    .of_symbol (mem_transitions_connect.mpr (Or.inr rfl))
  intro s hs
  rcases List.mem_cons.mp hs with rfl | hs
  · exact ⟨⟨[], .nil _⟩, [c], p⟩
  · rw [List.mem_singleton] at hs
    subst hs
    exact ⟨⟨[c], p⟩, [], .nil _⟩

theorem Open.branch (hf : f.Open) (hg : g.Threaded) (hi : g.initial ∈ g.states) :
    (f.branch g).Threaded := by
  have mf : ∀ t ∈ f.transitions, t ∈ (f.branch g).transitions := fun t ht =>
    mem_transitions_branch.mpr (Or.inl ht)
  have mg : ∀ t ∈ g.transitions, t ∈ (f.branch g).transitions := fun t ht =>
    mem_transitions_branch.mpr (Or.inr (Or.inr (Or.inr ht)))
  have enter : Path (f.branch g).transitions f.initial [] g.initial :=
    .of_silent (mem_transitions_branch.mpr (Or.inr (Or.inl rfl)))
  have leave : Path (f.branch g).transitions g.final [] f.final :=
    .of_silent (mem_transitions_branch.mpr (Or.inr (Or.inr (Or.inl rfl))))
  have through : ∀ s ∈ g.states, (f.branch g).OnWay s := fun s hs =>
    (hg s hs).within mg ⟨[], enter⟩ ⟨[], leave⟩
  obtain ⟨-, w, q⟩ := through g.initial hi
  intro s hs
  rcases List.mem_append.mp hs with hs | hs
  · rcases hf s hs with rfl | rfl | h
    · exact ⟨⟨[], .nil _⟩, w, enter.append q⟩
    · exact ⟨⟨w, enter.append q⟩, [], .nil _⟩
    · exact h.within mf ⟨[], .nil _⟩ ⟨[], .nil _⟩
  · exact through s hs

theorem Threaded.append (hf : f.Threaded) (hg : g.Threaded) (hi : f.initial ∈ f.states)
    (he : g.final ∈ g.states) : (f.append g).Threaded := by
  have mf : ∀ t ∈ f.transitions, t ∈ (f.append g).transitions := fun t ht =>
    mem_transitions_append.mpr (Or.inl ht)
  have mg : ∀ t ∈ g.transitions, t ∈ (f.append g).transitions := fun t ht =>
    mem_transitions_append.mpr (Or.inr (Or.inr ht))
  have pass : Path (f.append g).transitions f.final [] g.initial :=
    .of_silent (mem_transitions_append.mpr (Or.inr (Or.inl rfl)))
  obtain ⟨-, v, p⟩ := hf f.initial hi
  obtain ⟨⟨w, q⟩, -⟩ := hg g.final he
  intro s hs
  rcases List.mem_append.mp hs with hs | hs
  · exact (hf s hs).within mf ⟨[], .nil _⟩ ⟨w, pass.append (q.of_subset mg)⟩
  · exact (hg s hs).within mg ⟨v ++ [], (p.of_subset mf).append pass⟩ ⟨[], .nil _⟩

theorem Threaded.loop (hg : g.Threaded) (n : State) : ((bareFrom n).loop g).Threaded := by
  have mg : ∀ t ∈ g.transitions, t ∈ ((bareFrom n).loop g).transitions := fun t ht =>
    mem_transitions_loop.mpr (Or.inr (Or.inr (Or.inr (Or.inr ht))))
  have enter : Path ((bareFrom n).loop g).transitions n [] g.initial :=
    .of_silent (mem_transitions_loop.mpr (Or.inl rfl))
  have leave : Path ((bareFrom n).loop g).transitions g.final [] (n + 1) :=
    .of_silent (mem_transitions_loop.mpr (Or.inr (Or.inr (Or.inl rfl))))
  have skip : Path ((bareFrom n).loop g).transitions n [] (n + 1) :=
    .of_silent (mem_transitions_loop.mpr (Or.inr (Or.inr (Or.inr (Or.inl rfl)))))
  intro s hs
  rcases List.mem_append.mp hs with hs | hs
  · rcases List.mem_cons.mp hs with rfl | hs
    · exact ⟨⟨[], .nil _⟩, [], skip⟩
    · rw [List.mem_singleton] at hs
      subst hs
      exact ⟨⟨[], skip⟩, [], .nil _⟩
  · exact (hg s hs).within mg ⟨[], enter⟩ ⟨[], leave⟩

theorem ne_alternation_nil {x : Expr} (hx : x.complete = true) : x ≠ .alternation [] := by
  rintro rfl
  simp [Expr.complete] at hx

theorem threaded_joins : Expr.Joins fun x n f m =>
    f.Proper n m ∧ f.Open ∧ (x ≠ .alternation [] → f.Threaded) where
  literal c n :=
    ⟨proper_joins.literal c n, (threaded_literal c n).open, fun _ => threaded_literal c n⟩
  bare n := ⟨proper_bareFrom n, open_bareFrom n, fun h => absurd rfl h⟩
  branch hx hf hg := by
    have h := hf.2.1.branch (hg.2.2 (ne_alternation_nil hx)) hg.1.initial_mem
    exact ⟨hf.1.branch hg.1, h.open, fun _ => h⟩
  single hx hf := ⟨hf.1, hf.2.1, fun _ => hf.2.2 (ne_alternation_nil hx)⟩
  append _ hx hf hg := by
    have h := (hf.2.2 Expr.noConfusion).append (hg.2.2 (ne_alternation_nil hx))
      hf.1.initial_mem hg.1.final_mem
    exact ⟨hf.1.append hg.1, h.open, fun _ => h⟩
  star {_ n _ _} hx hg := by
    have h := (hg.2.2 (ne_alternation_nil hx)).loop n
    exact ⟨hg.1.loop, h.open, fun _ => h⟩

end Fragment

end Recognizer

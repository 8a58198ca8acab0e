import Recognizer.Proofs.Fragment.Compiled
import Recognizer.Proofs.Fragment.Supply
import Recognizer.Proofs.Nfa.Order

/-!
# The size of fragments

A fragment has no transition twice, and how many there are is a sum over the nodes of the expression
(`Fragment.Exact`). Nothing is therefore lost where its automaton keeps sets of transitions
(`Expr.fragment_and_compile_shape`).
-/

namespace Recognizer

set_option autoImplicit false

/-! ## Counts over nodes -/

namespace Expr

variable {x : Expr} {xs : List Expr} {c : Symbol}

/-- How many transitions a node adds to those of its children: two for each choice, one between
neighbours in a sequence, and four around what is repeated. -/
def ownTransitions : Expr → Nat
  | literal _ => 1
  | alternation xs => 2 * xs.length
  | sequence xs => xs.length - 1
  | star _ => 4

def transitionCount (x : Expr) : Nat := (x.nodes.map ownTransitions).sum

theorem transitionCount_alternation_concat :
    (alternation (xs ++ [x])).transitionCount = (alternation xs).transitionCount + 2 + x.transitionCount := by
  simp only [transitionCount, nodes, allNodes_append, allNodes, List.append_nil, List.map_cons,
    List.map_append, List.sum_cons, List.sum_append, ownTransitions, List.length_append, List.length_singleton]
  omega

theorem transitionCount_sequence_singleton : (sequence [x]).transitionCount = x.transitionCount := by
  simp [transitionCount, nodes, allNodes, ownTransitions]

theorem transitionCount_sequence_concat (h : xs ≠ []) :
    (sequence (xs ++ [x])).transitionCount = (sequence xs).transitionCount + 1 + x.transitionCount := by
  have hpos := List.length_pos_iff.mpr h
  simp only [transitionCount, nodes, allNodes_append, allNodes, List.append_nil, List.map_cons,
    List.map_append, List.sum_cons, List.sum_append, ownTransitions, List.length_append, List.length_singleton]
  omega

theorem transitionCount_star : (star x).transitionCount = 4 + x.transitionCount := by
  simp [transitionCount, nodes, ownTransitions]

end Expr

/-! ## Transitions of joined fragments -/

namespace Fragment

variable {f g : Fragment} {n k m : State} {c : Symbol}

theorem transitions_branch : (f.branch g).transitions =
    f.transitions ++ ⟨f.initial, .silent, g.initial⟩ :: ⟨g.final, .silent, f.final⟩ :: g.transitions := by
  simp [branch, merge, connect]

theorem transitions_append :
    (f.append g).transitions = f.transitions ++ ⟨f.final, .silent, g.initial⟩ :: g.transitions := by
  simp [append, merge, connect]

theorem transitions_loop : ((bareFrom n).loop g).transitions =
    ⟨n, .silent, g.initial⟩ :: ⟨g.final, .silent, g.initial⟩ :: ⟨g.final, .silent, n + 1⟩ ::
      ⟨n, .silent, n + 1⟩ :: g.transitions := by
  simp [loop, merge, connect, bareFrom]

/-! ## No transition twice -/

theorem Proper.nodup_branch (hf : f.Proper n k) (hg : g.Proper k m) (nf : f.transitions.Nodup)
    (ng : g.transitions.Nodup) : (f.branch g).transitions.Nodup := by
  have h₁ := hf.bounds
  have h₂ := hg.bounds
  have enter : ⟨f.initial, .silent, g.initial⟩ ∉ g.transitions := fun h => by
    have := hg.source _ h
    dsimp only at this
    lia
  have leave : ⟨g.final, .silent, f.final⟩ ∉ g.transitions := fun h => (hg.source _ h).2.2 rfl
  have apart : (⟨f.initial, .silent, g.initial⟩ : Transition) ≠ ⟨g.final, .silent, f.final⟩ := fun h => by
    have := congrArg Transition.source h
    dsimp only at this
    lia
  rw [transitions_branch, List.nodup_append, List.nodup_cons, List.nodup_cons, List.mem_cons, not_or]
  refine ⟨nf, ⟨⟨apart, enter⟩, leave, ng⟩, ?_⟩
  rintro t ht u hu rfl
  have hs := hf.source t ht
  have ht := hf.target t ht
  rcases List.mem_cons.mp hu with rfl | hu
  · dsimp only at ht
    lia
  · rcases List.mem_cons.mp hu with rfl | hu
    · dsimp only at hs
      lia
    · have := hg.source t hu
      lia

theorem Proper.nodup_append (hf : f.Proper n k) (hg : g.Proper k m) (nf : f.transitions.Nodup)
    (ng : g.transitions.Nodup) : (f.append g).transitions.Nodup := by
  have h₁ := hf.bounds
  have h₂ := hg.bounds
  have pass : ⟨f.final, .silent, g.initial⟩ ∉ g.transitions := fun h => by
    have := hg.source _ h
    dsimp only at this
    lia
  rw [transitions_append, List.nodup_append, List.nodup_cons]
  refine ⟨nf, ⟨pass, ng⟩, ?_⟩
  rintro t ht u hu rfl
  have hs := hf.source t ht
  have ht := hf.target t ht
  rcases List.mem_cons.mp hu with rfl | hu
  · dsimp only at ht
    lia
  · have := hg.source t hu
    lia

theorem Proper.nodup_loop (hg : g.Proper (n + 2) m) (ng : g.transitions.Nodup) :
    ((bareFrom n).loop g).transitions.Nodup := by
  have h := hg.bounds
  have hnew : ∀ s t, t ≤ n + 2 → ⟨s, .silent, t⟩ ∉ g.transitions := fun s t ht hst => by
    have := hg.target _ hst
    dsimp only at this
    lia
  have hne : ∀ {s t s' t' : State}, s ≠ s' ∨ t ≠ t' →
      (⟨s, .silent, t⟩ : Transition) ≠ ⟨s', .silent, t'⟩ := by
    rintro s t s' t' hst e
    obtain ⟨rfl, -, rfl⟩ := Transition.mk.injEq .. ▸ e
    rcases hst with hs | ht
    · exact hs rfl
    · exact ht rfl
  rw [transitions_loop]
  simp only [List.nodup_cons, List.mem_cons, not_or]
  refine ⟨⟨hne ?_, hne ?_, hne ?_, hnew _ _ ?_⟩, ⟨hne ?_, hne ?_, hnew _ _ ?_⟩, ⟨hne ?_, hnew _ _ ?_⟩,
    hnew _ _ ?_, ng⟩ <;> lia

/-! ## All that is in a fragment -/

/-- The fragment has the transitions that the nodes of the expression ask for, none of them twice, and reads
the symbols of its literals. -/
structure Exact (x : Expr) (f : Fragment) : Prop where
  nodup : f.transitions.Nodup
  length : f.transitions.length = x.transitionCount
  symbols : ∀ c, (∃ t ∈ f.transitions, t.label = .symbol c) ↔ .literal c ∈ x.nodes

theorem exact_literal (c : Symbol) (n : State) :
    Exact (.literal c) ((bareFrom n).connect (.symbol c) n (n + 1)) where
  nodup := List.nodup_singleton _
  length := rfl
  symbols d := by simp [connect, bareFrom, Expr.nodes, eq_comm]

theorem exact_bareFrom (n : State) : Exact (.alternation []) (bareFrom n) where
  nodup := List.nodup_nil
  length := rfl
  symbols c := by simp [bareFrom, Expr.nodes, Expr.allNodes]

theorem Exact.branch {xs : List Expr} {x : Expr} (hf : f.Proper n k) (hg : g.Proper k m)
    (ef : Exact (.alternation xs) f) (eg : Exact x g) :
    Exact (.alternation (xs ++ [x])) (f.branch g) where
  nodup := hf.nodup_branch hg ef.nodup eg.nodup
  length := by
    rw [transitions_branch, Expr.transitionCount_alternation_concat, ← ef.length, ← eg.length,
      List.length_append, List.length_cons, List.length_cons]
    omega
  symbols c := by
    have hf := ef.symbols c
    have hg := eg.symbols c
    simp only [Expr.nodes, List.mem_cons, reduceCtorEq, false_or] at hf hg ⊢
    simp only [transitions_branch, Expr.allNodes_append, Expr.allNodes, List.append_nil,
      List.mem_append, List.mem_cons, or_and_right, exists_or, exists_eq_left, reduceCtorEq, false_or,
      hf, hg]

theorem Exact.single {x : Expr} (ef : Exact x f) : Exact (.sequence [x]) f where
  nodup := ef.nodup
  length := by rw [Expr.transitionCount_sequence_singleton, ef.length]
  symbols c := by simp [ef.symbols c, Expr.nodes, Expr.allNodes]

theorem Exact.append {xs : List Expr} {x : Expr} (hxs : xs ≠ []) (hf : f.Proper n k)
    (hg : g.Proper k m) (ef : Exact (.sequence xs) f) (eg : Exact x g) :
    Exact (.sequence (xs ++ [x])) (f.append g) where
  nodup := hf.nodup_append hg ef.nodup eg.nodup
  length := by
    rw [transitions_append, Expr.transitionCount_sequence_concat hxs, ← ef.length, ← eg.length,
      List.length_append, List.length_cons]
    omega
  symbols c := by
    have hf := ef.symbols c
    have hg := eg.symbols c
    simp only [Expr.nodes, List.mem_cons, reduceCtorEq, false_or] at hf hg ⊢
    simp only [transitions_append, Expr.allNodes_append, Expr.allNodes, List.append_nil,
      List.mem_append, List.mem_cons, or_and_right, exists_or, exists_eq_left, reduceCtorEq, false_or,
      hf, hg]

theorem Exact.loop {x : Expr} (hg : g.Proper (n + 2) m) (eg : Exact x g) :
    Exact (.star x) ((bareFrom n).loop g) where
  nodup := hg.nodup_loop eg.nodup
  length := by
    rw [transitions_loop, Expr.transitionCount_star, ← eg.length]
    simp only [List.length_cons]
    omega
  symbols c := by
    have hg := eg.symbols c
    simp only [transitions_loop, Expr.nodes, List.mem_cons, or_and_right, exists_or, exists_eq_left,
      reduceCtorEq, false_or, hg]

theorem exact_joins : Expr.Joins fun x n f m => f.Proper n m ∧ Exact x f where
  literal c n := ⟨proper_joins.literal c n, exact_literal c n⟩
  bare n := ⟨proper_bareFrom n, exact_bareFrom n⟩
  branch _ hf hg := ⟨hf.1.branch hg.1, hf.2.branch hf.1 hg.1 hg.2⟩
  single _ hf := ⟨hf.1, hf.2.single⟩
  append hxs _ hf hg := ⟨hf.1.append hg.1, hf.2.append hxs hf.1 hg.1 hg.2⟩
  star _ hg := ⟨hg.1.loop, hg.2.loop hg.1⟩

end Fragment

/-! ## The automaton of a fragment -/

namespace Fragment

variable {f : Fragment} {n m : State}

theorem transitions_toNfa_perm (hf : f.transitions.Nodup) : f.toNfa.transitions.Perm f.transitions :=
  (List.perm_ext_iff_of_nodup Nfa.nodup_transitions_build hf).mpr fun _ => mem_transitions_toNfa

theorem mem_alphabet_toNfa {c : Symbol} :
    c ∈ f.toNfa.alphabet ↔ ∃ t ∈ f.transitions, t.label = .symbol c := by
  simp [toNfa, Nfa.mem_alphabet_build]

theorem Proper.states_toNfa (hf : f.Proper 0 m) : f.toNfa.states.toList = List.range m := by
  have h : Ascending (List.range m) := List.pairwise_lt_range
  refine SortedSet.ascending_unique f.toNfa.states.ascending h fun s => ?_
  rw [SortedSet.mem_toList, mem_states_toNfa, hf.mem_states, List.mem_range]
  exact and_iff_right (Nat.zero_le s)

theorem finals_toNfa : f.toNfa.finals.toList = [f.final] := by
  have h : f.toNfa.finals = SortedSet.singleton f.final :=
    SortedSet.ext_mem fun s => by rw [mem_finals_toNfa, SortedSet.mem_singleton]
  rw [h]
  rfl

end Fragment

namespace Expr

variable {x : Expr}

theorem exists_exact (hx : x.complete = true) (n : State) : ∃ f, x.fragmentFrom n = (.ok f, n + x.demand) ∧
    f.Proper n (n + x.demand) ∧ f.Threaded ∧ Fragment.Exact x f := by
  obtain ⟨f, e, hf⟩ := exists_fragmentFrom hx n
  obtain ⟨f₁, m₁, e₁, -, ht, -⟩ := fragmentFrom_eq_ok hx n
  obtain ⟨f₂, m₂, e₂, -, he⟩ := fragment_induction Fragment.exact_joins x hx n
  rw [e] at e₁ e₂
  cases e₁
  cases e₂
  exact ⟨f, e, hf, ht, he⟩

/-- From whatever state a complete expression is built, nothing enters the initial state of its fragment and
nothing leaves the final one, every state is on a way between them, and there are just the transitions that
its nodes ask for, each once. Its automaton keeps them all, over the states from `0` on, and its alphabet
are the symbols of the literals. -/
theorem fragment_and_compile_shape (x : Expr) (hx : x.complete = true) :
    (∀ s, ∃ f, x.fragmentFrom s = (.ok f, s + x.demand) ∧ f.states = List.range' s x.demand ∧
      (∀ t ∈ f.transitions, t.target ≠ f.initial ∧ t.source ≠ f.final) ∧
      (∀ q ∈ f.states, f.OnWay q) ∧ f.transitions.Nodup ∧ f.transitions.length = x.transitionCount) ∧
    ∃ f N, x.fragmentFrom 0 = (.ok f, x.demand) ∧ x.compile = .ok N ∧ N.check = .ok () ∧
      N.states.toList = List.range x.demand ∧ N.initial = 0 ∧ N.finals.toList = [f.final] ∧
      N.transitions.Perm f.transitions ∧ N.transitionCount = x.transitionCount ∧
      ∀ c, c ∈ N.alphabet ↔ literal c ∈ x.nodes := by
  constructor
  · intro s
    obtain ⟨f, e, hf, ht, he⟩ := exists_exact hx s
    refine ⟨f, e, by rw [hf.states, Nat.add_sub_cancel_left], fun t ht => ?_, ht, he.nodup, he.length⟩
    have hs := hf.source t ht
    have ht := hf.target t ht
    rw [hf.initial]
    exact ⟨Nat.ne_of_gt ht.1, hs.2.2⟩
  · obtain ⟨f, e, hf, -, he⟩ := exists_exact hx 0
    rw [Nat.zero_add] at e hf
    have hperm := Fragment.transitions_toNfa_perm he.nodup
    refine ⟨f, f.toNfa, e, by rw [compile, e]; rfl, hf.check_toNfa, hf.states_toNfa,
      f.initial_toNfa.trans hf.initial, f.finals_toNfa, hperm, ?_, fun c => ?_⟩
    · rw [Nfa.transitionCount_eq_length, hperm.length_eq, he.length]
    · rw [Fragment.mem_alphabet_toNfa, he.symbols]

/-- Three choices under a star, two of them the same, and a sequence of one. -/
theorem fragment_and_compile_shape_repeated :
    let x := sequence [star (alternation [literal 'a', sequence [literal 'b'], literal 'a']), literal 'c']
    x.complete = true ∧ (∃ f, x.fragmentFrom 5 = (.ok f, 17) ∧ f.transitions.Nodup ∧
        f.transitions.length = 15 ∧ ∀ q ∈ f.states, f.OnWay q) ∧
      ∃ N, x.compile = .ok N ∧ N.states.toList = List.range 12 ∧ N.transitionCount = 15 ∧
        ∀ c, c ∈ N.alphabet ↔ literal c ∈ x.nodes := by
  intro x
  have hx : x.complete = true := by rfl
  obtain ⟨hall, f₀, N, -, hN, -, hstates, -, -, -, hcount, hsymbols⟩ := fragment_and_compile_shape x hx
  obtain ⟨f, e, -, -, hway, hnodup, hlength⟩ := hall 5
  exact ⟨hx, ⟨f, e, hnodup, hlength, hway⟩, N, hN, hstates, hcount, hsymbols⟩

end Expr

end Recognizer

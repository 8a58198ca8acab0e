import Recognizer.Nfa.Reach
import Recognizer.Proofs.Nfa.Exploration
import Recognizer.Proofs.Nfa.History

/-!
# Automata with the same content

The order in which an automaton was put together shows in the order of its transitions and in nothing
that is computed from their set: closures, steps and so the whole exploration are the same. Only the
transition that a failed check names may be another one (`Nfa.determinizeOver_sameContent`).
-/

namespace Recognizer

set_option autoImplicit false

/-! ## What an exploration does next -/

namespace Exploration

variable {N : Nfa} {cs : List Symbol} {e : Exploration} {q : State} {qs : List State}

theorem explore_nil (hw : e.waiting = []) : explore N cs e = .ok e := by
  rw [explore]
  split
  · rfl
  · next h =>
    rw [hw] at h
    cases h

theorem explore_unknown (hw : e.waiting = q :: qs) (hn : e.found[q]? = none) :
    explore N cs e = explore N cs e.take := by
  rw [explore]
  split
  · next h =>
    rw [hw] at h
    cases h
  · next h =>
    rw [hw] at h
    cases h
    rw [hn]

theorem explore_cons (hw : e.waiting = q :: qs) {S : StateSet} (hS : e.found[q]? = some S) :
    explore N cs e = visit N q S e.take cs >>= explore N cs := by
  rw [explore]
  split
  · next h =>
    rw [hw] at h
    cases h
  · next h =>
    rw [hw] at h
    cases h
    rw [hS]
    dsimp only
    split
    · next hv =>
      rw [hv]
      rfl
    · next hv =>
      rw [hv]
      rfl

end Exploration

namespace Nfa

/-- The same initial state and the same sets of states, final states, symbols and transitions. -/
structure SameContent (N M : Nfa) : Prop where
  initial : N.initial = M.initial
  states : N.states = M.states
  finals : N.finals = M.finals
  alphabet : N.alphabet = M.alphabet
  transitions : ∀ t, t ∈ N.transitions ↔ t ∈ M.transitions

/-- Neither the order of edits nor their repeats show in the content. -/
theorem sameContent_build (i : State) {es fs : List Edit} (h : ∀ e, e ∈ es ↔ e ∈ fs) :
    (build i es).SameContent (build i fs) where
  initial := by rw [initial_build, initial_build]
  states := SortedSet.ext_mem fun s => by rw [mem_states_build, mem_states_build, h]
  finals := SortedSet.ext_mem fun s => by rw [mem_finals_build, mem_finals_build, h]
  alphabet := SortedSet.ext_mem fun c => by simp only [mem_alphabet_build, h]
  transitions t := by rw [mem_transitions_build, mem_transitions_build, h]

namespace SameContent

variable {N M : Nfa}

/-! ## Sets of states -/

theorem targets_eq (h : N.SameContent M) (s : State) (l : Label) : N.targets s l = M.targets s l := by
  apply SortedSet.ext_mem
  intro t
  rw [← mem_transitions, ← mem_transitions, h.transitions]

theorem path_iff (h : N.SameContent M) {s t : State} {w : List Symbol} :
    Path N.transitions s w t ↔ Path M.transitions s w t :=
  ⟨fun p => p.of_subset fun t => (h.transitions t).mp,
    fun p => p.of_subset fun t => (h.transitions t).mpr⟩

theorem closure_eq (h : N.SameContent M) (S : StateSet) : N.closure S = M.closure S := by
  apply SortedSet.ext_mem
  intro t
  simp only [mem_closure, h.path_iff]

theorem step_eq (h : N.SameContent M) (S : StateSet) (c : Symbol) : N.step S c = M.step S c := by
  apply SortedSet.ext_mem
  intro t
  simp only [mem_step, h.targets_eq]

theorem successor_eq (h : N.SameContent M) (S : StateSet) (c : Symbol) :
    N.successor S c = M.successor S c := by
  unfold successor
  rw [h.step_eq, h.closure_eq]

/-! ## Explorations -/

theorem visit_eq (h : N.SameContent M) (q : State) (S : StateSet) (e : Exploration)
    (cs : List Symbol) : Exploration.visit N q S e cs = Exploration.visit M q S e cs := by
  have hf : Exploration.follow N q S = Exploration.follow M q S := by
    funext e c
    unfold Exploration.follow
    rw [h.successor_eq]
  unfold Exploration.visit
  rw [hf]

theorem explore_eq (h : N.SameContent M) (cs : List Symbol) (e : Exploration) :
    Exploration.explore N cs e = Exploration.explore M cs e := by
  fun_induction Exploration.explore N cs e with
  | case1 e hw => rw [Exploration.explore_nil hw]
  | case2 e q qs hw hn ih => rw [Exploration.explore_unknown hw hn, ih]
  | case3 e q qs hw S hS m hm =>
    rw [Exploration.explore_cons hw hS, ← h.visit_eq, hm]
    rfl
  | case4 e q qs hw S hS e₁ hm ih =>
    rw [Exploration.explore_cons hw hS, ← h.visit_eq, hm, ih]
    rfl

/-! ## Checks -/

/-- A check that fails blames the same initial or final state, or else a transition, which need not be
the same one. -/
theorem check_eq_or (h : N.SameContent M) :
    N.check = M.check ∨
      ∃ s t s' t', N.check = .error (.endpoint s t) ∧ M.check = .error (.endpoint s' t') := by
  unfold check defect?
  rw [← h.initial, ← h.states, ← h.finals]
  by_cases hi : N.initial ∈ N.states
  case neg =>
    simp only [if_pos hi]
    exact Or.inl trivial
  simp only [if_neg (not_not_intro hi)]
  cases N.finals.toList.find? (· ∉ N.states) with
  | some s => exact Or.inl rfl
  | none =>
    cases hn : N.transitions.find? fun t => t.source ∉ N.states ∨ t.target ∉ N.states with
    | none =>
      have hm : (M.transitions.find? fun t => t.source ∉ N.states ∨ t.target ∉ N.states) = none := by
        rw [List.find?_eq_none] at hn ⊢
        exact fun t ht => hn t ((h.transitions t).mpr ht)
      rw [hm]
      exact Or.inl rfl
    | some t =>
      cases hm : M.transitions.find? fun t => t.source ∉ N.states ∨ t.target ∉ N.states with
      | none =>
        have ht := List.find?_eq_none.mp hm t ((h.transitions t).mp (List.mem_of_find?_eq_some hn))
        exact absurd (List.find?_some hn) ht
      | some t' => exact Or.inr ⟨_, _, _, _, rfl, rfl⟩

/-! ## Determinization -/

theorem determinize_of_check (h : N.SameContent M) (hc : N.check = M.check) (A : Alphabet) :
    N.determinizeOver A = M.determinizeOver A := by
  have hfirst : Exploration.first N A = Exploration.first M A := by
    unfold Exploration.first
    rw [h.closure_eq, h.initial]
  have hfinish : ∀ e : Exploration, e.finish N = e.finish M := by
    intro e
    unfold Exploration.finish
    rw [h.finals]
  unfold determinizeOver
  simp only [hc, hfirst, h.explore_eq, hfinish]

end SameContent

theorem determinizeOver_of_check {N : Nfa} {m : Flaw} (h : N.check = .error m) (A : Alphabet) :
    N.determinizeOver A = .error m := by
  unfold determinizeOver
  rw [h]
  rfl

/-- What an automaton is determinized to depends on its content alone, down to the numbers of the
states, their members and the order of the transitions. So does the reason for which it is turned down,
unless a transition is to blame: then both are turned down for a transition. -/
theorem determinizeOver_sameContent {N M : Nfa} (h : N.SameContent M) (A : Alphabet) :
    (∃ D, N.determinizeOver A = .ok D ∧ M.determinizeOver A = .ok D) ∨
    (∃ m, N.determinizeOver A = .error m ∧ M.determinizeOver A = .error m) ∨
    ∃ s t s' t', N.determinizeOver A = .error (.endpoint s t) ∧
      M.determinizeOver A = .error (.endpoint s' t') := by
  rcases h.check_eq_or with hc | ⟨s, t, s', t', hN, hM⟩
  · have hd := h.determinize_of_check hc A
    cases hN : N.determinizeOver A with
    | ok D => exact Or.inl ⟨D, rfl, hd.symm.trans hN⟩
    | error m => exact Or.inr (Or.inl ⟨m, rfl, hd.symm.trans hN⟩)
  · exact Or.inr (Or.inr ⟨s, t, s', t', determinizeOver_of_check hN A, determinizeOver_of_check hM A⟩)

/-- One history and its reverse with an edit repeated, which list the transitions in different orders. -/
theorem determinizeOver_sameContent_reverse :
    let es := [Edit.state 0, .state 1, .state 2, .transition ⟨0, .symbol 'a', 2⟩,
      .transition ⟨0, .symbol 'a', 1⟩, .transition ⟨1, .silent, 0⟩, .transition ⟨0, .silent, 2⟩,
      .final 2]
    let N := build 0 es
    let M := build 0 (es.reverse ++ [.transition ⟨0, .symbol 'a', 1⟩])
    N.SameContent M ∧ N.transitions ≠ M.transitions ∧
      ∃ D, N.determinizeOver (Alphabet.ofString "ab") = .ok D ∧
        M.determinizeOver (Alphabet.ofString "ab") = .ok D := by
  intro es N M
  have h : N.SameContent M := by
    apply sameContent_build
    intro e
    simp only [List.mem_append, List.mem_reverse, List.mem_singleton]
    constructor
    · exact Or.inl
    · rintro (he | rfl)
      · exact he
      · decide
  have hN : N.check = .ok () := by rfl
  obtain ⟨D, -, hD, -⟩ := determinizeOver_eq_ok hN (Alphabet.ofString "ab")
  refine ⟨h, by decide, ?_⟩
  rcases determinizeOver_sameContent h (Alphabet.ofString "ab") with
    hok | ⟨m, hm, -⟩ | ⟨s, t, s', t', hm, -⟩
  · exact hok
  · rw [hD] at hm
    cases hm
  · rw [hD] at hm
    cases hm

end Nfa

end Recognizer

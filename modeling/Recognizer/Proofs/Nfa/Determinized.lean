import Mathlib.Algebra.Order.Ring.Nat
import Mathlib.Data.List.Perm.Subperm
import Recognizer.Proofs.Nfa.Numbering
import Recognizer.Proofs.Nfa.Simulation

/-!
# Determinized automata

Every set found is the set of some word, so it holds declared states only and is closed under silent
moves (`Nfa.isDeterminized_determinizeOver`), and there are no more sets than the declared states have
subsets. An automaton that passes its check is determinized in as many turns as there are sets, of which
none fails (`Nfa.determinizeOver_turns`).
-/

namespace Recognizer

set_option autoImplicit false

/-! ## Counting subsets -/

namespace SortedSet

variable {α : Type}

theorem length_sublists (xs : List α) : (sublists xs).length = 2 ^ xs.length := by
  induction xs with
  | nil => rfl
  | cons x xs ih =>
    rw [sublists, List.length_append, List.length_map, ih, List.length_cons, Nat.pow_succ]
    omega

/-- A set has more subsets than any list of different ones without the empty set. -/
theorem length_lt_two_pow [Ranked α] {s : SortedSet α} {ts : List (SortedSet α)} (hn : ts.Nodup)
    (he : ∅ ∉ ts) (hs : ∀ t ∈ ts, ∀ x ∈ t, x ∈ s) : ts.length < 2 ^ s.size := by
  have hnodup : ((∅ :: ts).map toList).Nodup :=
    (List.nodup_cons.mpr ⟨he, hn⟩).map fun _ _ => ext_toList
  have hsub : (∅ :: ts).map toList ⊆ s.subsets := by
    intro xs hxs
    obtain ⟨t, ht, rfl⟩ := List.mem_map.mp hxs
    rcases List.mem_cons.mp ht with rfl | ht
    · exact mem_subsets fun x hx => absurd hx (not_mem_empty x)
    · exact mem_subsets (hs t ht)
  have hle := (List.subperm_of_subset hnodup hsub).length_le
  rwa [List.length_map, List.length_cons, subsets, length_sublists] at hle

end SortedSet

namespace Nfa

variable {N : Nfa} {A : Alphabet} {found : List StateSet} {D : Dfa} {q r : State} {c : Symbol}
  {S : StateSet} {u : List Symbol} {s t : State}

/-! ## The sets of words -/

theorem mem_states_of_path {w : List Symbol} (hN : N.check = .ok ()) (p : Path N.transitions s w t)
    (hs : s ∈ N.states) : t ∈ N.states := by
  obtain ⟨-, -, hends⟩ := check_eq_ok.mp hN
  induction p with
  | nil => exact hs
  | silent m _ ih => exact ih (hends _ m).2
  | symbol m _ ih => exact ih (hends _ m).2

theorem mem_states_of_mem_after (hN : N.check = .ok ()) (hs : s ∈ N.after u) : s ∈ N.states :=
  mem_states_of_path hN (mem_after.mp hs) (check_eq_ok.mp hN).1

theorem after_closed (hs : s ∈ N.after u) (ht : ⟨s, .silent, t⟩ ∈ N.transitions) :
    t ∈ N.after u := by
  have p : N.Reads (u ++ []) t := (mem_after.mp hs).append (.of_silent ht)
  rw [List.append_nil] at p
  exact mem_after.mpr p

theorem mem_successor : t ∈ N.successor S c ↔
    ∃ s ∈ S, ∃ r, ⟨s, .symbol c, r⟩ ∈ N.transitions ∧ Path N.transitions r [] t := by
  rw [successor, mem_closure]
  constructor
  · rintro ⟨r, hr, p⟩
    obtain ⟨s, hs, m⟩ := mem_step.mp hr
    exact ⟨s, hs, r, mem_transitions.mpr m, p⟩
  · rintro ⟨s, hs, r, m, p⟩
    exact ⟨r, mem_step.mpr ⟨s, hs, mem_transitions.mp m⟩, p⟩

theorem successor_eq_empty : N.successor S c = ∅ ↔
    ¬ ∃ s ∈ S, ∃ t, ⟨s, .symbol c, t⟩ ∈ N.transitions := by
  constructor
  · rintro e ⟨s, hs, t, m⟩
    have ht : t ∈ N.successor S c := mem_successor.mpr ⟨s, hs, t, m, .nil t⟩
    rw [e] at ht
    exact SortedSet.not_mem_empty t ht
  · intro h
    apply SortedSet.ext_mem
    intro t
    simp only [SortedSet.not_mem_empty, iff_false]
    intro ht
    obtain ⟨s, hs, r, m, -⟩ := mem_successor.mp ht
    exact h ⟨s, hs, r, m⟩

namespace Powerset

theorem exists_after (h : N.Powerset A found D) (hn : Numbered D.moves.entries found.length)
    (hS : found[q]? = some S) : ∃ u, S = N.after u := by
  obtain ⟨u, p, ht⟩ := h.exists_leads hn (List.getElem?_eq_some_iff.mp hS).1
  have hu := (h.trace ht h.getElem?_start).1
  rw [hS] at hu
  exact ⟨u, Option.some.inj hu⟩

theorem size_states_lt (h : N.Powerset A found D) (hn : Numbered D.moves.entries found.length)
    (hN : N.check = .ok ()) : D.states.size < 2 ^ N.states.size := by
  have hsize : D.states.size = found.length := by
    rw [SortedSet.size, h.toList_states, List.length_range]
  rw [hsize]
  refine SortedSet.length_lt_two_pow h.chart.nodup h.chart.nonempty fun S hS s hs => ?_
  obtain ⟨q, hq⟩ := List.mem_iff_getElem?.mp hS
  obtain ⟨u, rfl⟩ := h.exists_after hn hq
  exact mem_states_of_mem_after hN hs

theorem exists_next?_iff (h : N.Powerset A found D) : (∃ r, D.next? q c = some r) ↔
    c ∈ A ∧ ∃ S, found[q]? = some S ∧ ∃ s ∈ S, ∃ t, ⟨s, .symbol c, t⟩ ∈ N.transitions := by
  constructor
  · rintro ⟨r, hr⟩
    obtain ⟨hq, hc, -⟩ := h.of_mem_moves (OrderedMap.get?_eq_some.mp hr)
    have hS : found[q]? = some found[q] := List.getElem?_eq_getElem hq
    refine ⟨hc, found[q], hS, ?_⟩
    by_contra hno
    rw [(h.next?_eq_none hS hc).mpr (successor_eq_empty.mpr hno)] at hr
    cases hr
  · rintro ⟨hc, S, hS, hs⟩
    rw [← Option.ne_none_iff_exists']
    intro hn
    exact successor_eq_empty.mp ((h.next?_eq_none hS hc).mp hn) hs

theorem of_next? (h : N.Powerset A found D) (hr : D.next? q c = some r) :
    ∃ S, found[q]? = some S ∧ found[r]? = some (N.successor S c) := by
  obtain ⟨hq, hc, -⟩ := h.of_mem_moves (OrderedMap.get?_eq_some.mp hr)
  have hS : found[q]? = some found[q] := List.getElem?_eq_getElem hq
  exact ⟨found[q], hS, (h.next?_eq_some hS hc).mp hr⟩

end Powerset

/-! ## What determinized automata are made of -/

/-- The states `0, …, n - 1` of `D` stand for different sets of states of `N`, and its transitions on
symbols of `A` lead to what these sets lead to. -/
structure IsDeterminized (N : Nfa) (A : Alphabet) (D : Dfa) (n : Nat) : Prop where
  check : D.check = .ok ()
  states : D.states.toList = List.range n
  start : D.start = 0
  alphabet : D.alphabet = A
  members : ∀ q, (∃ S, D.members? q = some S) ↔ q < n
  nonempty : ∀ q S, D.members? q = some S → S.toList ≠ []
  ascending : ∀ q S, D.members? q = some S → S.toList.Pairwise (· < ·)
  declared : ∀ q S, D.members? q = some S → ∀ s ∈ S, s ∈ N.states
  closed : ∀ q S, D.members? q = some S → ∀ s ∈ S, ∀ t, ⟨s, .silent, t⟩ ∈ N.transitions → t ∈ S
  distinct : ∀ q r S, D.members? q = some S → D.members? r = some S → q = r
  finals : ∀ q, q ∈ D.finals ↔ ∃ S, D.members? q = some S ∧ ∃ s ∈ S, s ∈ N.finals
  next : ∀ q c, (∃ r, D.next? q c = some r) ↔
    c ∈ A ∧ ∃ S, D.members? q = some S ∧ ∃ s ∈ S, ∃ t, ⟨s, .symbol c, t⟩ ∈ N.transitions
  target : ∀ q c r, D.next? q c = some r →
    ∃ S T, D.members? q = some S ∧ D.members? r = some T ∧ ∀ t, t ∈ T ↔
      ∃ s ∈ S, ∃ s', ⟨s, .symbol c, s'⟩ ∈ N.transitions ∧ Path N.transitions s' [] t

theorem Powerset.isDeterminized (h : N.Powerset A found D)
    (hn : Numbered D.moves.entries found.length) (hN : N.check = .ok ()) :
    N.IsDeterminized A D found.length where
  check := h.check_eq_ok
  states := h.toList_states
  start := h.chart.start
  alphabet := h.chart.alphabet
  members q := by
    simp only [h.members?_eq_some]
    exact ⟨fun ⟨S, hS⟩ => (List.getElem?_eq_some_iff.mp hS).1,
      fun hq => ⟨_, List.getElem?_eq_getElem hq⟩⟩
  nonempty q S hS e := by
    rw [h.members?_eq_some, SortedSet.ext_toList (t := ∅) e] at hS
    exact h.chart.nonempty (List.mem_of_getElem? hS)
  ascending q S _ := S.ascending
  declared q S hS s hs := by
    obtain ⟨u, rfl⟩ := h.exists_after hn (h.members?_eq_some.mp hS)
    exact mem_states_of_mem_after hN hs
  closed q S hS s hs t ht := by
    obtain ⟨u, rfl⟩ := h.exists_after hn (h.members?_eq_some.mp hS)
    exact after_closed hs ht
  distinct q r S hq hr := by
    rw [h.members?_eq_some, ← idxOf?_eq_some_iff_of_nodup h.chart.nodup] at hq hr
    exact Option.some.inj (hq.symm.trans hr)
  finals q := by
    simp only [h.members?_eq_some]
    exact h.finals q
  next q c := by
    simp only [h.members?_eq_some]
    exact h.exists_next?_iff
  target q c r hr := by
    simp only [h.members?_eq_some]
    obtain ⟨S, hS, hT⟩ := h.of_next? hr
    exact ⟨S, _, hS, hT, fun _ => mem_successor⟩

/-- An automaton that passes its check is determinized over any alphabet: to an automaton that passes its
own check and whose states `0, …, n - 1` stand for different, non-empty sets of declared states that
silent moves do not leave. -/
theorem isDeterminized_determinizeOver (hN : N.check = .ok ()) (A : Alphabet) :
    ∃ D n, N.determinizeOver A = .ok D ∧ N.IsDeterminized A D n := by
  obtain ⟨D, found, hD, h⟩ := determinizeOver_eq_ok hN A
  exact ⟨D, found.length, hD, h.isDeterminized (h.numbered hD) hN⟩

/-- Two ways into one set, and a set that is left by a symbol outside of the alphabet only. -/
theorem isDeterminized_determinizeOver_merging :
    let N := build 0 [.state 0, .state 1, .state 2, .transition ⟨0, .symbol 'a', 1⟩,
      .transition ⟨0, .symbol 'b', 2⟩, .transition ⟨2, .silent, 1⟩, .transition ⟨1, .silent, 2⟩,
      .transition ⟨1, .symbol 'c', 0⟩, .final 2]
    N.check = .ok () ∧ ∃ D n, N.determinizeOver (Alphabet.ofString "ab") = .ok D ∧
      N.IsDeterminized (Alphabet.ofString "ab") D n ∧ D.states.toList = [0, 1] := by
  intro N
  have hN : N.check = .ok () := by decide
  have hstates : (N.determinizeOver (Alphabet.ofString "ab")).map (·.states.toList) = .ok [0, 1] := by
    decide +kernel
  obtain ⟨D, n, hD, h⟩ := isDeterminized_determinizeOver hN (Alphabet.ofString "ab")
  rw [hD] at hstates
  exact ⟨hN, D, n, hD, h, Except.ok.inj hstates⟩

/-! ## How long it takes -/

/-- An automaton is turned down for what its check reports and for nothing else. Otherwise the turns come
to an end, none finds a number without a set or has a move refused, and each state is put into the queue
once and taken from it once; of states there are less than the declared ones have subsets. -/
theorem determinizeOver_turns (N : Nfa) (A : Alphabet) :
    (∀ m, N.determinizeOver A = .error m ↔ N.check = .error m) ∧
    (N.check = .ok () → ∃ D, N.determinizeOver A = .ok D ∧ D.states.size ≤ 2 ^ N.states.size - 1 ∧
      (∃ ts r, Exploration.Course N A.toList (.first N A) ts r) ∧
      ∀ ts r, Exploration.Course N A.toList (.first N A) ts r →
        (∃ e, r = .ok e ∧ e.finish N = D) ∧ (∀ t ∈ ts, t.IsVisit) ∧
        (Exploration.first N A).waiting ++ ts.flatMap Turn.queued = D.states.toList ∧
        ts.map Turn.taken = D.states.toList) := by
  refine ⟨fun m => ⟨fun hm => ?_, fun hm => determinizeOver_of_check hm A⟩, fun hN => ?_⟩
  · cases hc : N.check with
    | ok u =>
      obtain ⟨D, -, hD, -⟩ := determinizeOver_eq_ok hc A
      rw [hm] at hD
      cases hD
    | error m' =>
      have e := (determinizeOver_of_check hc A).symm.trans hm
      cases e
      rfl
  · obtain ⟨D, found, hD, h⟩ := determinizeOver_eq_ok hN A
    have hlt := h.size_states_lt (h.numbered hD) hN
    obtain ⟨ts, hts⟩ := Exploration.exists_course N A.toList (.first N A)
    refine ⟨D, hD, Nat.le_sub_one_of_lt hlt, ⟨ts, _, hts⟩, fun ts r hc => ?_⟩
    obtain ⟨e, rfl, -, hvisits, htaken, hqueued⟩ := (Exploration.sound_first N A).course hc
    rw [determinizeOver_of_check_ok hN, hc.eq_explore] at hD
    have he : e.finish N = D := Except.ok.inj hD
    have hrange : List.range' 0 (e.found.length - 0) = D.states.toList := by
      rw [h.found_eq he, h.toList_states, List.range_eq_range']
      rfl
    exact ⟨⟨e, rfl, he⟩, hvisits, hqueued.trans hrange, htaken.trans hrange⟩

/-- A set that is found again, and a transition to a state that is not declared. -/
theorem determinizeOver_turns_again :
    let N := build 0 [.state 0, .state 1, .transition ⟨0, .symbol 'a', 0⟩,
      .transition ⟨0, .symbol 'a', 1⟩, .transition ⟨1, .symbol 'b', 0⟩]
    let M := build 0 [.state 0, .transition ⟨0, .symbol 'a', 3⟩]
    M.determinizeOver (Alphabet.ofString "ab") = .error (.endpoint 0 3) ∧
      N.check = .ok () ∧ ∃ D ts r, N.determinizeOver (Alphabet.ofString "ab") = .ok D ∧
        Exploration.Course N (Alphabet.ofString "ab").toList (.first N (Alphabet.ofString "ab")) ts r ∧
        ts.map Turn.taken = [0, 1] ∧ D.states.size ≤ 2 ^ 2 - 1 := by
  intro N M
  have hM : M.check = .error (.endpoint 0 3) := by decide
  have hN : N.check = .ok () := by decide
  have hstates : (N.determinizeOver (Alphabet.ofString "ab")).map (·.states.toList) = .ok [0, 1] := by
    decide +kernel
  obtain ⟨D, hD, hsize, ⟨ts, r, hc⟩, hturns⟩ :=
    (determinizeOver_turns N (Alphabet.ofString "ab")).2 hN
  rw [hD] at hstates
  have htaken := (hturns ts r hc).2.2.2.trans (Except.ok.inj hstates)
  exact ⟨((determinizeOver_turns M _).1 _).mpr hM, hN, D, ts, r, hD, hc, htaken, hsize⟩

end Nfa

end Recognizer

import Recognizer.Proofs.Nfa.Exploration

/-!
# The make of automata over sets

The states of a determinized automaton are the numbers of its sets, all that it uses is declared, and no
two of its states have the same members.
-/

namespace Recognizer.Nfa

set_option autoImplicit false

variable {N : Nfa} {A : Alphabet} {found : List StateSet} {D : Dfa}

namespace Powerset

theorem start_lt (h : N.Powerset A found D) : D.start < found.length := by
  rw [h.chart.start]
  exact (List.getElem?_eq_some_iff.mp h.chart.head).1

theorem final_lt (h : N.Powerset A found D) {q : State} (hq : q ∈ D.finals) : q < found.length := by
  obtain ⟨S, hS, -⟩ := (h.finals q).mp hq
  exact (List.getElem?_eq_some_iff.mp hS).1

theorem of_mem_moves (h : N.Powerset A found D) {m : (State × Symbol) × State}
    (hm : m ∈ D.moves.entries) : m.1.1 < found.length ∧ m.1.2 ∈ A ∧ m.2 < found.length := by
  rw [h.chart.moves, List.mem_filterMap] at hm
  obtain ⟨⟨q, c⟩, hp, e⟩ := hm
  obtain ⟨t, ht, rfl⟩ := Option.map_eq_some_iff.mp e
  obtain ⟨hq, hc⟩ := Exploration.mem_rows.mp hp
  obtain ⟨S, -, hidx⟩ := Option.bind_eq_some_iff.mp ht
  have hlt := (List.getElem?_eq_some_iff.mp ((idxOf?_eq_some_iff_of_nodup h.chart.nodup).mp hidx)).1
  exact ⟨hq, hc, hlt⟩

theorem check_eq_ok (h : N.Powerset A found D) : D.check = .ok () := by
  have hmem : ∀ q, q < found.length → q ∈ D.states := fun q => (h.chart.states q).mpr
  rw [Dfa.check_eq_ok]
  refine ⟨⟨hmem _ h.start_lt, fun _ hq => hq, fun q hq => hmem q (h.final_lt hq), ?_, ?_⟩, ?_⟩
  · exact fun m hm => hmem _ (h.of_mem_moves hm).1
  · exact fun m hm => hmem _ (h.of_mem_moves hm).2.2
  · intro m hm
    rw [h.chart.alphabet]
    exact (h.of_mem_moves hm).2.1

theorem toList_states (h : N.Powerset A found D) : D.states.toList = List.range found.length := by
  refine SortedSet.ascending_unique D.states.ascending ?_ fun q => ?_
  · exact List.pairwise_lt_range
  · rw [SortedSet.mem_toList, h.chart.states, List.mem_range]

theorem countBelow_states (h : N.Powerset A found D) {q : State} (hq : q ∈ D.states) :
    D.states.countBelow q = q := by
  have hc := SortedSet.getElem?_countBelow hq
  rw [h.toList_states, List.getElem?_eq_some_iff] at hc
  obtain ⟨hlt, e⟩ := hc
  rwa [List.getElem_range] at e

theorem found_eq (h : N.Powerset A found D) {e : Exploration} (he : e.finish N = D) :
    e.found = found := by
  subst he
  exact Option.some.inj h.members

theorem members?_eq_some (h : N.Powerset A found D) {q : State} {S : StateSet} :
    D.members? q = some S ↔ found[q]? = some S := by
  rw [Dfa.members?, h.members, Option.bind_some]

theorem map_membersOrSelf (h : N.Powerset A found D) :
    D.states.toList.map D.membersOrSelf = found.map SortedSet.toList := by
  rw [h.toList_states]
  apply List.ext_getElem
  · simp
  · intro q hq _
    have hlt : q < found.length := by simpa using hq
    simp [Dfa.membersOrSelf, Dfa.members?, h.members, hlt]

end Powerset

theorem check_of_determinizeOver (h : N.determinizeOver A = .ok D) : N.check = .ok () := by
  cases hc : N.check with
  | ok u => rfl
  | error m =>
    unfold determinizeOver at h
    rw [hc] at h
    cases h

theorem exists_powerset (h : N.determinizeOver A = .ok D) : ∃ found, N.Powerset A found D := by
  obtain ⟨D', found, hD', hp⟩ := determinizeOver_eq_ok (check_of_determinizeOver h) A
  rw [h] at hD'
  cases hD'
  exact ⟨found, hp⟩

end Recognizer.Nfa

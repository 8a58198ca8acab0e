import Recognizer.Nfa.Subset
import Recognizer.Proofs.Dfa.Edits
import Recognizer.Proofs.Positions

/-!
# Charts of an exploration

While the sets of states that words lead to are explored, the sets found and the automaton over their
numbers are kept in step: for the pairs of a number and a symbol followed so far, and in their order,
the automaton has exactly the moves to the numbers of the successors (`Nfa.Chart`).
-/

namespace Recognizer

set_option autoImplicit false

/-! ## Charts -/

namespace Nfa

/-- The number of the set to which a symbol leads from the set with a given number. -/
def target? (N : Nfa) (found : List StateSet) (p : State × Symbol) : Option State :=
  found[p.1]?.bind fun S => found.idxOf? (N.successor S p.2)

/-- The automaton `D` over the numbers of the sets in `found` has followed the pairs in `done`. -/
structure Chart (N : Nfa) (A : Alphabet) (found : List StateSet) (done : List (State × Symbol))
    (D : Dfa) : Prop where
  head : found[0]? = some (N.closure (SortedSet.singleton N.initial))
  nodup : found.Nodup
  nonempty : ∅ ∉ found
  range : ∀ p ∈ done, p.1 < found.length
  closed : ∀ q c S, (q, c) ∈ done → found[q]? = some S → N.successor S c ≠ ∅ →
    N.successor S c ∈ found
  start : D.start = 0
  alphabet : D.alphabet = A
  states : ∀ q, q ∈ D.states ↔ q < found.length
  moves : D.moves.entries = done.filterMap fun p => (N.target? found p).map (p, ·)

namespace Chart

variable {N : Nfa} {A : Alphabet} {found : List StateSet} {done : List (State × Symbol)} {D : Dfa}
  {q t : State} {c : Symbol} {S T : StateSet}

theorem next?_of_mem (h : Chart N A found done D) (hp : (q, c) ∈ done) :
    D.next? q c = N.target? found (q, c) := by
  show OrderedMap.lookup (q, c) D.moves.entries = _
  rw [h.moves, OrderedMap.lookup_filterMap, if_pos hp]

theorem next?_of_not_mem (h : Chart N A found done D) (hp : (q, c) ∉ done) :
    D.next? q c = none := by
  show OrderedMap.lookup (q, c) D.moves.entries = _
  rw [h.moves, OrderedMap.lookup_filterMap, if_neg hp]

/-- A further set moves no number of those before it. -/
theorem target?_append (h : Chart N A found done D) (hT : T ≠ ∅) {p : State × Symbol}
    (hp : p ∈ done) : N.target? (found ++ [T]) p = N.target? found p := by
  obtain ⟨q, c⟩ := p
  have hq := h.range (q, c) hp
  unfold target?
  rw [List.getElem?_append_left hq, List.getElem?_eq_getElem hq]
  show (found ++ [T]).idxOf? _ = found.idxOf? _
  by_cases hs : N.successor found[q] c = ∅
  · have h₁ : ∅ ∉ found := h.nonempty
    have h₂ : ∅ ∉ found ++ [T] := by
      rw [List.mem_append, List.mem_singleton, not_or]
      exact ⟨h₁, fun e => hT e.symm⟩
    rw [hs, List.idxOf?_eq_none_iff.mpr h₁, List.idxOf?_eq_none_iff.mpr h₂]
  · exact idxOf?_append_of_mem (h.closed q c _ hp (List.getElem?_eq_getElem hq) hs)

/-! ### What following one symbol does to a chart -/

/-- Following one more pair appends its entry, if it has one, to the moves. -/
theorem extend (h : Chart N A found done D) (hS : found[q]? = some S)
    (hT : N.successor S c ≠ ∅ → N.successor S c ∈ found) {moves : OrderedMap (State × Symbol) State}
    (hm : moves.entries =
      D.moves.entries ++ ((N.target? found (q, c)).map ((q, c), ·)).toList) :
    Chart N A found (done ++ [(q, c)]) { D with moves := moves } := by
  have hq : q < found.length := (List.getElem?_eq_some_iff.mp hS).1
  refine ⟨h.head, h.nodup, h.nonempty, ?_, ?_, h.start, h.alphabet, h.states, ?_⟩
  · intro p hp
    rcases List.mem_append.mp hp with hp | hp
    · exact h.range p hp
    · rw [List.mem_singleton.mp hp]
      exact hq
  · intro q' c' S' hp hS' hne
    rcases List.mem_append.mp hp with hp | hp
    · exact h.closed q' c' S' hp hS' hne
    · cases List.mem_singleton.mp hp
      rw [hS] at hS'
      cases hS'
      exact hT hne
  · show moves.entries = _
    rw [hm, h.moves, List.filterMap_append]
    cases ht : N.target? found (q, c) <;> simp [ht]

theorem skip (h : Chart N A found done D) (hS : found[q]? = some S)
    (hT : N.successor S c = ∅) : Chart N A found (done ++ [(q, c)]) D := by
  have hn : N.target? found (q, c) = none := by
    unfold target?
    rw [hS, Option.bind_some, hT, List.idxOf?_eq_none_iff]
    exact h.nonempty
  have hm : D.moves.entries =
      D.moves.entries ++ ((N.target? found (q, c)).map ((q, c), ·)).toList := by
    rw [hn]
    exact (List.append_nil _).symm
  exact h.extend hS (fun hne => absurd hT hne) hm

theorem move (h : Chart N A found done D) (hp : (q, c) ∉ done) (hS : found[q]? = some S)
    (ht : found.idxOf? (N.successor S c) = some t) :
    Chart N A found (done ++ [(q, c)]) { D with moves := D.moves.insert (q, c) t } := by
  have hT : N.successor S c ∈ found :=
    List.mem_of_getElem? ((idxOf?_eq_some_iff_of_nodup h.nodup).mp ht)
  have hn : D.moves.get? (q, c) = none := h.next?_of_not_mem hp
  have ht' : N.target? found (q, c) = some t := by
    unfold target?
    rw [hS, Option.bind_some, ht]
  refine h.extend hS (fun _ => hT) ?_
  rw [OrderedMap.entries_insert hn, ht']
  rfl

theorem grow (h : Chart N A found done D) (hT : T ≠ ∅) (hn : T ∉ found) :
    Chart N A (found ++ [T]) done (D.addState found.length) := by
  refine ⟨?_, ?_, ?_, ?_, ?_, h.start, h.alphabet, ?_, ?_⟩
  · have h₀ := (List.getElem?_eq_some_iff.mp h.head).1
    rw [List.getElem?_append_left h₀]
    exact h.head
  · rw [List.nodup_append]
    refine ⟨h.nodup, by simp, fun U hU V hV e => hn ?_⟩
    rw [← List.mem_singleton.mp hV, ← e]
    exact hU
  · rw [List.mem_append, List.mem_singleton, not_or]
    exact ⟨h.nonempty, fun e => hT e.symm⟩
  · intro p hp
    have := h.range p hp
    rw [List.length_append]
    lia
  · intro q c S hp hS hne
    rw [List.getElem?_append_left (h.range _ hp)] at hS
    exact List.mem_append_left _ (h.closed q c S hp hS hne)
  · intro q
    have := h.states q
    simp only [Dfa.addState, SortedSet.mem_insert, List.length_append, List.length_singleton]
    lia
  · show D.moves.entries = _
    rw [h.moves]
    exact List.filterMap_congr fun p hp => by rw [h.target?_append hT hp]

end Chart

end Nfa

end Recognizer

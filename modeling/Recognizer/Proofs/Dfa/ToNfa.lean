import Recognizer.Proofs.Dfa.Lockstep
import Recognizer.Proofs.Nfa.Powerset
import Recognizer.Proofs.Nfa.Simulation

/-!
# Deterministic automata among those with silent moves

A deterministic automaton is one with silent moves that happens to have none, and at most one target in
each group. Its sets of states have one member each, so what it is determinized to runs in step with it
(`Dfa.bisimulation_of_powerset`).
-/

namespace Recognizer.Dfa

set_option autoImplicit false

variable {D : Dfa} {q s t : State} {c : Symbol}

/-! ## The same transitions in groups -/

def groupKey (k : State × Symbol) : State × Label := (k.1, .symbol k.2)

theorem groupKey_injective : groupKey.Injective := by
  rintro ⟨s, c⟩ ⟨t, d⟩ h
  cases h
  rfl

/-- A move makes a group of its own. -/
def group (m : (State × Symbol) × State) : (State × Label) × StateSet :=
  (groupKey m.1, SortedSet.singleton m.2)

theorem nodup_map_group (moves : OrderedMap (State × Symbol) State) :
    ((moves.entries.map group).map Prod.fst).Nodup := by
  have h := moves.nodup.map groupKey_injective
  rwa [List.map_map] at h ⊢

def toNfa (D : Dfa) : Nfa where
  initial := D.start
  states := D.states
  finals := D.finals
  alphabet := D.alphabet
  groups := ⟨D.moves.entries.map group, nodup_map_group D.moves⟩

theorem get?_groups_toNfa (D : Dfa) (s : State) (c : Symbol) :
    D.toNfa.groups.get? (s, .symbol c) = (D.next? s c).map SortedSet.singleton :=
  OrderedMap.lookup_map groupKey SortedSet.singleton (k := (s, c)) fun _ _ h => groupKey_injective h

theorem mem_targets_symbol : t ∈ D.toNfa.targets s (.symbol c) ↔ D.next? s c = some t := by
  unfold Nfa.targets
  rw [get?_groups_toNfa]
  cases D.next? s c with
  | none => simp
  | some u => simp [eq_comm]

theorem not_mem_targets_silent : t ∉ D.toNfa.targets s .silent := by
  rw [Nfa.mem_targets]
  rintro ⟨ts, hm, -⟩
  obtain ⟨m, -, e⟩ := List.mem_map.mp hm
  cases e

theorem transitions_toNfa (D : Dfa) : D.toNfa.transitions = D.transitions := by
  unfold Nfa.transitions transitions toNfa
  rw [List.flatMap_map, List.map_eq_flatMap]
  rfl

/-! ## The same edits -/

/-- A symbol of the alphabet need not be declared again. -/
theorem addTransition_of_mem (hc : c ∈ D.alphabet) :
    D.toNfa.addTransition ⟨s, .symbol c, t⟩ =
      { D.toNfa with
        groups := D.toNfa.groups.update (s, .symbol c) fun ts => (ts.getD ∅).insert t } := by
  show ({ D.toNfa with alphabet := D.alphabet.insert c, groups := _ } : Nfa) = _
  rw [SortedSet.insert_of_mem hc]
  rfl

theorem update_groups_of_some (hn : D.next? s c = some t) :
    D.toNfa.groups.update (s, .symbol c) (fun ts => (ts.getD ∅).insert t) = D.toNfa.groups := by
  have hg := get?_groups_toNfa D s c
  rw [hn] at hg
  exact OrderedMap.update_eq_self hg (SortedSet.insert_of_mem (SortedSet.mem_singleton.mpr rfl))

theorem update_groups_of_none (hn : D.next? s c = none) :
    D.toNfa.groups.update (s, .symbol c) (fun ts => (ts.getD ∅).insert t) =
      { D with moves := D.moves.insert (s, c) t }.toNfa.groups := by
  have hg := get?_groups_toNfa D s c
  rw [hn] at hg
  apply OrderedMap.ext_entries
  show OrderedMap.revise _ _ D.toNfa.groups.entries = (D.moves.insert (s, c) t).entries.map group
  rw [OrderedMap.revise_eq_append hg, OrderedMap.entries_insert hn, List.map_append]
  rfl

/-- A transition that is there already changes neither automaton, and a new one has a group of its own. -/
theorem addTransition_toNfa {D' : Dfa} (h : D.addTransition s c t = .ok D') :
    D.toNfa.addTransition ⟨s, .symbol c, t⟩ = D'.toNfa := by
  rcases D.addTransition_cases s c t with ⟨-, ha⟩ | ⟨hc, ⟨hn, ha⟩ | ⟨hn, ha⟩ | ⟨-, ha⟩⟩
  · cases ha.symm.trans h
  · cases ha.symm.trans h
    rw [addTransition_of_mem hc, update_groups_of_some hn]
  · cases ha.symm.trans h
    rw [addTransition_of_mem hc, update_groups_of_none hn]
    rfl
  · cases ha.symm.trans h

/-! ## Checks -/

theorem findSome?_moveDefect? {ms : List ((State × Symbol) × State)}
    (hA : ∀ m ∈ ms, m.1.2 ∈ D.alphabet) :
    ms.findSome? D.moveDefect? =
      ((ms.map moveTransition).find? fun t => t.source ∉ D.states ∨ t.target ∉ D.states).map
        fun t => .endpoint t.source t.target := by
  induction ms with
  | nil => rfl
  | cons m ms ih =>
    obtain ⟨hm, hA⟩ := List.forall_mem_cons.mp hA
    rw [List.map_cons, List.findSome?_cons, List.find?_cons, moveDefect?]
    by_cases h : m.1.1 ∉ D.states ∨ m.2 ∉ D.states
    · have hp : decide ((moveTransition m).source ∉ D.states ∨ (moveTransition m).target ∉ D.states) =
          true := decide_eq_true h
      simp only [if_pos h, hp]
      rfl
    · have hp : decide ((moveTransition m).source ∉ D.states ∨ (moveTransition m).target ∉ D.states) =
          false := decide_eq_false h
      simp only [if_neg h, if_neg (not_not_intro hm), hp]
      exact ih hA

/-- Where all moves are on symbols of the alphabet, the two checks look for the same flaws in the same
order. -/
theorem check_toNfa (hA : D.OverAlphabet) : D.toNfa.check = D.check := by
  have h : D.toNfa.defect? = D.defect? := by
    unfold Nfa.defect? defect?
    rw [transitions_toNfa, findSome?_moveDefect? hA]
    rfl
  cases hd : D.defect? <;> simp only [Nfa.check, check, h, hd]

/-! ## Sets of states -/

theorem closure_toNfa (D : Dfa) (S : StateSet) : D.toNfa.closure S = S := by
  apply SortedSet.ext_mem
  intro s
  constructor
  · exact Nfa.closure_all (P := (· ∈ S)) (fun _ _ _ ht => absurd ht not_mem_targets_silent)
      (fun _ hs => hs) s
  · exact Nfa.subset_closure

theorem mem_successor_singleton :
    t ∈ D.toNfa.successor (SortedSet.singleton s) c ↔ D.next? s c = some t := by
  unfold Nfa.successor
  rw [closure_toNfa, Nfa.mem_step]
  simp [mem_targets_symbol]

theorem successor_singleton_of_some (h : D.next? s c = some t) :
    D.toNfa.successor (SortedSet.singleton s) c = SortedSet.singleton t := by
  apply SortedSet.ext_mem
  intro u
  rw [mem_successor_singleton, h, SortedSet.mem_singleton, Option.some.injEq, eq_comm]

theorem successor_singleton_of_none (h : D.next? s c = none) :
    D.toNfa.successor (SortedSet.singleton s) c = ∅ := by
  apply SortedSet.ext_mem
  intro u
  rw [mem_successor_singleton, h]
  simp

/-! ## Runs in step -/

/-- The only member of `q` is `s`. -/
def StandsFor (E : Dfa) (q s : State) : Prop := (E.members? q).map SortedSet.toList = some [s]

section
variable {A : Alphabet} {found : List StateSet} {E : Dfa}

theorem standsFor_iff {N : Nfa} (h : N.Powerset A found E) :
    E.StandsFor q s ↔ found[q]? = some (SortedSet.singleton s) := by
  unfold StandsFor
  rw [← h.members?_eq_some, Option.map_eq_some_iff]
  constructor
  · rintro ⟨S, hS, e⟩
    rw [hS, show S = SortedSet.singleton s from SortedSet.ext_toList e]
  · intro hS
    exact ⟨_, hS, rfl⟩

theorem bisimulation_of_powerset (h : D.toNfa.Powerset D.alphabet found E) :
    E.Bisimulation D E.StandsFor where
  alphabet := h.chart.alphabet
  isFinal_eq := by
    intro q s hqs
    rw [standsFor_iff h] at hqs
    rw [Bool.eq_iff_iff, isFinal, isFinal, SortedSet.contains_eq_true, SortedSet.contains_eq_true,
      h.finals, hqs]
    simp [toNfa]
  next? := by
    intro q s hqs c hc
    have hq := (standsFor_iff h).mp hqs
    cases hs : D.next? s c with
    | none =>
      rw [(h.next?_eq_none hq hc).mpr (successor_singleton_of_none hs)]
      exact .none
    | some t =>
      have hT := successor_singleton_of_some hs
      cases hr : E.next? q c with
      | none =>
        have he := (h.next?_eq_none hq hc).mp hr
        rw [hT] at he
        cases he
      | some r =>
        have hr := (h.next?_eq_some hq hc).mp hr
        rw [hT] at hr
        exact .some ((standsFor_iff h).mpr hr)

theorem standsFor_start (h : D.toNfa.Powerset D.alphabet found E) : E.StandsFor E.start D.start := by
  rw [standsFor_iff h, h.getElem?_start]
  exact congrArg some (closure_toNfa D _)

/-- What is made of a deterministic automaton by way of silent moves and sets runs in step with it. -/
theorem run_determinize_toNfa (hD : D.check = .ok ()) :
    ∃ E, D.toNfa.determinize = .ok E ∧ ∀ w, (E.run w).InStep E.StandsFor (D.run w) := by
  have hc : D.toNfa.check = .ok () := (check_toNfa (check_eq_ok.mp hD).2).trans hD
  obtain ⟨E, found, hE, h⟩ := Nfa.determinizeOver_eq_ok hc D.alphabet
  exact ⟨E, hE, (bisimulation_of_powerset h).runFrom (standsFor_start h)⟩

end

end Recognizer.Dfa

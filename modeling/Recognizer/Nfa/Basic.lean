import Recognizer.Flaw
import Recognizer.OrderedMap

/-!
# Automata with silent moves

An automaton is put together by edits in any order; nothing is checked until `Nfa.defect?` asks
whether all that is used has been declared. Transitions are grouped by source and label in the order
in which these pairs first appeared, with ascending targets inside a group.
-/

namespace Recognizer

set_option autoImplicit false

structure Nfa where
  initial : State
  states : StateSet := ∅
  finals : StateSet := ∅
  /-- All symbols of transitions, and possibly others. -/
  alphabet : Alphabet := ∅
  groups : OrderedMap (State × Label) StateSet := ∅
deriving DecidableEq

namespace Nfa

/-! ## Edits -/

inductive Edit
  | state (s : State)
  | final (s : State)
  | symbol (c : Symbol)
  | transition (t : Transition)
deriving DecidableEq

def addState (N : Nfa) (s : State) : Nfa := { N with states := N.states.insert s }

def addFinal (N : Nfa) (s : State) : Nfa := { N with finals := N.finals.insert s }

def addSymbol (N : Nfa) (c : Symbol) : Nfa := { N with alphabet := N.alphabet.insert c }

def declare (A : Alphabet) : Label → Alphabet
  | .silent => A
  | .symbol c => A.insert c

/-- A transition brings its symbol into the alphabet, but declares neither of its states. -/
def addTransition (N : Nfa) (t : Transition) : Nfa :=
  { N with
    alphabet := declare N.alphabet t.label
    groups := N.groups.update (t.source, t.label) fun ts => (ts.getD ∅).insert t.target }

def edit (N : Nfa) : Edit → Nfa
  | .state s => N.addState s
  | .final s => N.addFinal s
  | .symbol c => N.addSymbol c
  | .transition t => N.addTransition t

/-- The automaton that a list of edits makes of an empty one. -/
def build (initial : State) (es : List Edit) : Nfa := es.foldl edit { initial }

/-! ## Views -/

def targets (N : Nfa) (s : State) (l : Label) : StateSet := (N.groups.get? (s, l)).getD ∅

def groupTransitions (g : (State × Label) × StateSet) : List Transition :=
  g.2.toList.map fun t => ⟨g.1.1, g.1.2, t⟩

def transitions (N : Nfa) : List Transition := N.groups.entries.flatMap groupTransitions

/-- Counted group by group. -/
def transitionCount (N : Nfa) : Nat := N.groups.entries.foldl (fun n g => n + g.2.size) 0

theorem transitionCount_eq_length (N : Nfa) : N.transitionCount = N.transitions.length := by
  have h : ∀ g : (State × Label) × StateSet, (groupTransitions g).length = g.2.size := fun g =>
    List.length_map _
  rw [transitions, List.length_flatMap, List.map_congr_left fun g _ => h g, List.sum_eq_foldl,
    List.foldl_map, transitionCount]

theorem mem_targets {N : Nfa} {s t : State} {l : Label} :
    t ∈ N.targets s l ↔ ∃ ts, ((s, l), ts) ∈ N.groups.entries ∧ t ∈ ts := by
  cases h : N.groups.get? (s, l) with
  | none =>
    have hn : ∀ ts, ((s, l), ts) ∉ N.groups.entries := fun ts m => by
      rw [OrderedMap.get?_eq_some.mpr m] at h
      cases h
    simp [targets, h, hn]
  | some us =>
    have hm := OrderedMap.get?_eq_some.mp h
    constructor
    · intro ht
      exact ⟨us, hm, by simpa [targets, h] using ht⟩
    · rintro ⟨ts, hts, ht⟩
      rw [OrderedMap.get?_eq_some.mpr hts] at h
      cases h
      simpa [targets, OrderedMap.get?_eq_some.mpr hts] using ht

theorem mem_transitions {N : Nfa} {s t : State} {l : Label} :
    ⟨s, l, t⟩ ∈ N.transitions ↔ t ∈ N.targets s l := by
  rw [mem_targets, transitions, List.mem_flatMap]
  constructor
  · rintro ⟨g, hg, ht⟩
    obtain ⟨u, hu, e⟩ := List.mem_map.mp ht
    cases e
    exact ⟨g.2, hg, hu⟩
  · rintro ⟨ts, hg, ht⟩
    exact ⟨_, hg, List.mem_map.mpr ⟨t, ht, rfl⟩⟩

theorem targets_addTransition (N : Nfa) (t : Transition) (s : State) (l : Label) :
    (N.addTransition t).targets s l =
      if (s, l) = (t.source, t.label) then (N.targets s l).insert t.target else N.targets s l := by
  unfold targets addTransition
  rw [OrderedMap.get?_update]
  split
  · next h => rw [h]; rfl
  · rfl

/-! ## Defects -/

/-- The initial state, then the smallest final one, then the first transition that uses a state which
is not declared. -/
def defect? (N : Nfa) : Option Flaw :=
  if N.initial ∉ N.states then some (.initial N.initial)
  else
    match N.finals.toList.find? (· ∉ N.states) with
    | some s => some (.final s)
    | none =>
      (N.transitions.find? fun t => t.source ∉ N.states ∨ t.target ∉ N.states).map fun t =>
        .endpoint t.source t.target

def check (N : Nfa) : Except Flaw Unit :=
  match N.defect? with
  | some m => .error m
  | none => .ok ()

end Nfa

end Recognizer

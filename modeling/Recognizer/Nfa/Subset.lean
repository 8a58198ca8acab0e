import Recognizer.Dfa.Basic
import Recognizer.Nfa.Closure
import Recognizer.SortedSet.Subsets

/-!
# Deterministic automata over sets of states

The sets of states that words lead to are explored breadth first, symbols in ascending order, and
numbered as they are found: set `0` is the closure of the initial state. A symbol that leads to no
state at all gives no transition.

Every set found later is a set of targets of transitions, of which there are finitely many: those not
found yet, together with the numbers waiting for a visit, measure what is left to do.
-/

namespace Recognizer

set_option autoImplicit false

/-! ## Sets of states not found yet -/

namespace Nfa

def reached (N : Nfa) : StateSet := SortedSet.ofList (N.transitions.map Transition.target)

theorem mem_reached {N : Nfa} {s t : State} {l : Label} (h : t ∈ N.targets s l) : t ∈ N.reached :=
  SortedSet.mem_ofList.mpr (List.mem_map.mpr ⟨⟨s, l, t⟩, mem_transitions.mpr h, rfl⟩)

/-- How many sets of targets are not among those found. -/
def unfound (N : Nfa) (found : List StateSet) : Nat :=
  N.reached.subsets.countP fun ts => ts ∉ found.map SortedSet.toList

theorem unfound_append {N : Nfa} {found : List StateSet} {T : StateSet} (hT : T ∉ found)
    (h : ∀ t ∈ T, t ∈ N.reached) : N.unfound (found ++ [T]) < N.unfound found := by
  refine SortedSet.countP_lt_countP (fun ts hts => ?_) (SortedSet.mem_subsets h) ?_ ?_
  · simp only [List.map_append, List.mem_append, decide_eq_true_eq] at hts ⊢
    exact fun m => hts (Or.inl m)
  · refine decide_eq_true fun m => hT ?_
    obtain ⟨S, hS, e⟩ := List.mem_map.mp m
    rwa [SortedSet.ext_toList e] at hS
  · exact decide_eq_false fun m => m (by simp)

/-- The states that one symbol leads to from a set, silent moves included. -/
def successor (N : Nfa) (S : StateSet) (c : Symbol) : StateSet := N.closure (N.step S c)

theorem successor_subset_reached (N : Nfa) (S : StateSet) (c : Symbol) :
    ∀ t ∈ N.successor S c, t ∈ N.reached := by
  refine closure_all (fun s t _ h => mem_reached h) fun t ht => ?_
  obtain ⟨s, -, hs⟩ := mem_step.mp ht
  exact mem_reached hs

end Nfa

/-! ## Exploration -/

/-- The sets found so far, the numbers of those not visited yet, and the automaton over these
numbers. -/
structure Exploration where
  found : List StateSet
  waiting : List State
  result : Dfa

namespace Exploration

def remaining (N : Nfa) (e : Exploration) : Nat := e.waiting.length + N.unfound e.found

def follow (N : Nfa) (q : State) (S : StateSet) (e : Exploration) (c : Symbol) :
    Except Flaw Exploration :=
  let T := N.successor S c
  if T.isEmpty then .ok e
  else
    match e.found.idxOf? T with
    | some t => (e.result.addTransition q c t).map fun D => { e with result := D }
    | none =>
      let t := e.found.length
      ((e.result.addState t).addTransition q c t).map fun D =>
        ⟨e.found ++ [T], e.waiting ++ [t], D⟩

def visit (N : Nfa) (q : State) (S : StateSet) (e : Exploration) (cs : List Symbol) :
    Except Flaw Exploration :=
  cs.foldlM (follow N q S) e

theorem remaining_follow {N : Nfa} {q : State} {S : StateSet} {e e' : Exploration} {c : Symbol}
    (h : follow N q S e c = .ok e') : e'.remaining N ≤ e.remaining N := by
  unfold follow at h
  simp only at h
  split at h
  · cases h
    exact Nat.le_refl _
  · split at h
    · next t _ =>
      cases hD : e.result.addTransition q c t with
      | error m => simp [hD, Except.map] at h
      | ok D =>
        simp only [hD, Except.map, Except.ok.injEq] at h
        subst h
        exact Nat.le_refl _
    · next hT =>
      cases hD : (e.result.addState e.found.length).addTransition q c e.found.length with
      | error m => simp [hD, Except.map] at h
      | ok D =>
        simp only [hD, Except.map, Except.ok.injEq] at h
        subst h
        have hn : N.successor S c ∉ e.found := List.idxOf?_eq_none_iff.mp hT
        have := Nfa.unfound_append hn (N.successor_subset_reached S c)
        simp only [remaining, List.length_append, List.length_singleton]
        omega

theorem remaining_visit {N : Nfa} {q : State} {S : StateSet} {cs : List Symbol}
    {e e' : Exploration} (h : visit N q S e cs = .ok e') : e'.remaining N ≤ e.remaining N := by
  induction cs generalizing e with
  | nil =>
    cases h
    exact Nat.le_refl _
  | cons c cs ih =>
    rw [visit, List.foldlM_cons] at h
    cases hf : follow N q S e c with
    | error m =>
      rw [hf] at h
      cases h
    | ok e₁ =>
      rw [hf] at h
      exact Nat.le_trans (ih h) (remaining_follow hf)

def take (e : Exploration) : Exploration := { e with waiting := e.waiting.tail }

theorem remaining_take {N : Nfa} {e : Exploration} {q : State} {qs : List State}
    (h : e.waiting = q :: qs) : e.take.remaining N < e.remaining N := by
  simp [remaining, take, h]

/-- Visits sets in the order of their numbers until none is waiting. -/
def explore (N : Nfa) (cs : List Symbol) (e : Exploration) : Except Flaw Exploration :=
  match _hw : e.waiting with
  | [] => .ok e
  | q :: _ =>
    match e.found[q]? with
    | none => explore N cs e.take
    | some S =>
      match _hv : visit N q S e.take cs with
      | .error m => .error m
      | .ok e' => explore N cs e'
termination_by e.remaining N
decreasing_by
  · exact remaining_take _hw
  · exact Nat.lt_of_le_of_lt (remaining_visit _hv) (remaining_take _hw)

/-- Before the first visit only the closure of the initial state is known. -/
def first (N : Nfa) (A : Alphabet) : Exploration :=
  ⟨[N.closure (SortedSet.singleton N.initial)], [0],
    ({ start := 0, alphabet := A } : Dfa).addState 0⟩

/-- A number is final when its set holds a final state; its members are the set. -/
def finish (N : Nfa) (e : Exploration) : Dfa :=
  let mark (D : Dfa) (p : StateSet × Nat) : Dfa := if p.1.meets N.finals then D.addFinal p.2 else D
  { e.found.zipIdx.foldl mark e.result with members := some e.found }

end Exploration

namespace Nfa

/-- The deterministic automaton over the alphabet `A`. Symbols outside of it are never followed. -/
def determinizeOver (N : Nfa) (A : Alphabet) : Except Flaw Dfa := do
  N.check
  let e ← Exploration.explore N A.toList (Exploration.first N A)
  return e.finish N

def determinize (N : Nfa) : Except Flaw Dfa := N.determinizeOver N.alphabet

end Nfa

end Recognizer

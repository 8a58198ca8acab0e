import Mathlib.Logic.Function.Iterate
import Mathlib.Logic.Relation
import Recognizer.Nfa.Reach

/-!
# Silent closures

The search for a closure takes one state after another from its stack. It is over after as many turns as
there are states put in and silent transitions, at the most (`Search.iterate_turn`); what it has seen
then is the least set around the states put in that no silent transition leaves (`closure_least`).
-/

namespace Recognizer.Nfa

set_option autoImplicit false

variable {N : Nfa} {S T : StateSet} {s t : State}

/-! ## Silent transitions -/

def Silent (N : Nfa) (s t : State) : Prop := ⟨s, .silent, t⟩ ∈ N.transitions

instance (N : Nfa) (s t : State) : Decidable (N.Silent s t) :=
  inferInstanceAs (Decidable (_ ∈ N.transitions))

theorem silent_iff : N.Silent s t ↔ t ∈ N.targets s .silent := mem_transitions

theorem path_nil_iff : Path N.transitions s [] t ↔ Relation.ReflTransGen N.Silent s t := by
  constructor
  · intro p
    generalize hw : ([] : List Symbol) = w at p
    induction p with
    | nil => exact .refl
    | silent m _ ih => exact .head m (ih hw)
    | symbol => cases hw
  · intro h
    induction h with
    | refl => exact .nil s
    | tail _ m ih => exact ih.append (.of_silent m)

def SilentlyClosed (N : Nfa) (S : StateSet) : Prop := ∀ s ∈ S, ∀ t, N.Silent s t → t ∈ S

def silentCount (N : Nfa) : Nat := N.transitions.countP (·.label.isSilent)

theorem countP_groupTransitions (g : (State × Label) × StateSet) :
    (groupTransitions g).countP (·.label.isSilent) = if g.1.2 = .silent then g.2.size else 0 := by
  obtain ⟨⟨s, l⟩, ts⟩ := g
  rw [groupTransitions, List.countP_map]
  cases l with
  | silent => exact congrFun List.countP_true ts.toList
  | symbol c => exact congrFun List.countP_false ts.toList

theorem unspentIn_empty (gs : List ((State × Label) × StateSet)) :
    unspentIn ∅ gs = (gs.flatMap groupTransitions).countP (·.label.isSilent) := by
  induction gs with
  | nil => rfl
  | cons g gs ih =>
    rw [unspentIn, ih, List.flatMap_cons, List.countP_append, countP_groupTransitions]
    simp

theorem unspent_empty (N : Nfa) : N.unspent ∅ = N.silentCount := unspentIn_empty N.groups.entries

/-! ## The turns of a search -/

/-- What a search has seen, and the states that it has still to look at. -/
structure Search where
  seen : StateSet
  stack : List State

namespace Search

def start (S : StateSet) : Search := ⟨∅, S.toList.reverse⟩

/-- Takes the state on top of the stack. If it is new, its silent targets that are not seen yet come in its
place. -/
def turn (N : Nfa) : Search → Search
  | ⟨seen, []⟩ => ⟨seen, []⟩
  | ⟨seen, s :: stack⟩ =>
    if s ∈ seen then ⟨seen, stack⟩
    else ⟨seen.insert s, N.pushed (seen.insert s) s ++ stack⟩

theorem turn_of_mem {seen : StateSet} {stack : List State} (h : s ∈ seen) :
    turn N ⟨seen, s :: stack⟩ = ⟨seen, stack⟩ := if_pos h

theorem turn_of_not_mem {seen : StateSet} {stack : List State} (h : s ∉ seen) :
    turn N ⟨seen, s :: stack⟩ = ⟨seen.insert s, N.pushed (seen.insert s) s ++ stack⟩ := if_neg h

def remaining (N : Nfa) (x : Search) : Nat := N.unspent x.seen + x.stack.length

theorem remaining_start (N : Nfa) (S : StateSet) :
    (start S).remaining N = S.size + N.silentCount := by
  rw [remaining, start, unspent_empty, List.length_reverse]
  exact Nat.add_comm ..

/-- A turn may put many states on the stack, but spends as many silent transitions. -/
theorem remaining_turn {x : Search} (h : x.stack ≠ []) :
    (x.turn N).remaining N < x.remaining N := by
  obtain ⟨seen, stack⟩ := x
  cases stack with
  | nil => exact absurd rfl h
  | cons s stack =>
    by_cases hs : s ∈ seen
    · rw [turn_of_mem hs]
      exact Nat.lt_succ_self _
    · have := N.unspent_insert hs
      have := N.length_pushed_le (seen.insert s) s
      simp only [turn_of_not_mem hs, remaining, List.length_append, List.length_cons]
      omega

theorem closeFrom_turn (N : Nfa) (x : Search) :
    N.closeFrom (x.turn N).seen (x.turn N).stack = N.closeFrom x.seen x.stack := by
  obtain ⟨seen, stack⟩ := x
  cases stack with
  | nil => rfl
  | cons s stack =>
    by_cases hs : s ∈ seen
    · rw [turn_of_mem hs, closeFrom, if_pos hs]
    · rw [turn_of_not_mem hs, closeFrom, if_neg hs]

/-- Taking turns ends with an empty stack, and what is seen then is what there was to be found. -/
theorem iterate_turn (N : Nfa) (x : Search) : ∃ n ≤ x.remaining N,
    (turn N)^[n] x = ⟨N.closeFrom x.seen x.stack, []⟩ := by
  by_cases h : x.stack = []
  · obtain ⟨seen, stack⟩ := x
    subst h
    refine ⟨0, Nat.zero_le _, ?_⟩
    rw [closeFrom]
    rfl
  · have hlt := remaining_turn (N := N) h
    obtain ⟨n, hn, e⟩ := iterate_turn N (x.turn N)
    refine ⟨n + 1, Nat.lt_of_le_of_lt hn hlt, ?_⟩
    rw [Function.iterate_succ_apply, e, closeFrom_turn]
termination_by x.remaining N
decreasing_by exact remaining_turn h

end Search

/-! ## The closure -/

theorem mem_closure_iff : t ∈ N.closure S ↔ ∃ s ∈ S, Relation.ReflTransGen N.Silent s t := by
  simp only [mem_closure, path_nil_iff]

theorem silentlyClosed_closure (N : Nfa) (S : StateSet) : N.SilentlyClosed (N.closure S) :=
  fun _ hs _ h => closure_closed hs (silent_iff.mp h)

theorem closure_least (hS : ∀ s ∈ S, s ∈ T) (hT : N.SilentlyClosed T) :
    ∀ s ∈ N.closure S, s ∈ T :=
  closure_all (fun s t hs h => hT s hs t (silent_iff.mpr h)) hS

theorem closure_of_silentlyClosed (h : N.SilentlyClosed S) : N.closure S = S :=
  SortedSet.ext_mem fun s => ⟨closure_least (fun _ hs => hs) h s, subset_closure⟩

theorem closure_mono (h : ∀ s ∈ S, s ∈ T) : ∀ s ∈ N.closure S, s ∈ N.closure T :=
  closure_least (fun s hs => subset_closure (h s hs)) (silentlyClosed_closure N T)

theorem closure_union (N : Nfa) (S T : StateSet) :
    N.closure (S.union T) = (N.closure S).union (N.closure T) := by
  refine SortedSet.ext_mem fun t => ?_
  simp only [SortedSet.mem_union, mem_closure_iff, or_and_right, exists_or]

/-- Whether states are declared or not and however silent transitions lead back to them, the search from
`S` is over after a bounded number of turns. It finds the states that silent transitions lead to from
`S`, which are the least set around `S` that no silent transition leaves. So closing again changes
nothing, a larger set has a larger closure, and the closure of a union is the union of the closures. -/
theorem closure_of_search (N : Nfa) (S : StateSet) :
    (∃ n ≤ S.size + N.silentCount, (Search.turn N)^[n] (.start S) = ⟨N.closure S, []⟩) ∧
    (∀ t, t ∈ N.closure S ↔ ∃ s ∈ S, Relation.ReflTransGen N.Silent s t) ∧
    ((∀ s ∈ S, s ∈ N.closure S) ∧ N.SilentlyClosed (N.closure S) ∧
      ∀ T : StateSet, (∀ s ∈ S, s ∈ T) → N.SilentlyClosed T → ∀ s ∈ N.closure S, s ∈ T) ∧
    N.closure (N.closure S) = N.closure S ∧
    (∀ T : StateSet, (∀ s ∈ S, s ∈ T) → ∀ s ∈ N.closure S, s ∈ N.closure T) ∧
    ∀ T : StateSet, N.closure (S.union T) = (N.closure S).union (N.closure T) := by
  refine ⟨?_, fun t => mem_closure_iff, ⟨fun s => subset_closure, silentlyClosed_closure N S,
    fun T => closure_least⟩, ?_, fun T => closure_mono, closure_union N S⟩
  · rw [← Search.remaining_start]
    exact Search.iterate_turn N (.start S)
  · exact closure_of_silentlyClosed (silentlyClosed_closure N S)

/-- Nothing is declared; there is a cycle, a state with a transition to itself and one with none. -/
theorem closure_of_search_cycle :
    let N := Nfa.build 0 [.transition ⟨0, .silent, 1⟩, .transition ⟨1, .silent, 0⟩,
      .transition ⟨2, .silent, 2⟩, .transition ⟨1, .silent, 7⟩, .transition ⟨0, .symbol 'a', 5⟩]
    let S : StateSet := SortedSet.singleton 0
    let T : StateSet := SortedSet.ofList [2, 0]
    let C : StateSet := SortedSet.ofList [7, 1, 0]
    (∀ s ∈ S, s ∈ C) ∧ N.SilentlyClosed C ∧ (∀ s ∈ N.closure S, s ∈ C) ∧
      (∀ s ∈ S, s ∈ T) ∧ 7 ∈ N.closure S ∧ 7 ∈ N.closure T := by
  intro N S T C
  have hSC : ∀ s ∈ S, s ∈ C := by decide
  have hST : ∀ s ∈ S, s ∈ T := by decide
  have hC : N.SilentlyClosed C := by
    have h : ∀ t ∈ N.transitions, t.label = .silent → t.source ∈ C → t.target ∈ C := by decide
    exact fun s hs t m => h _ m rfl hs
  have h7 : 7 ∈ N.closure S := by
    have m₁ : N.Silent 0 1 := by decide
    have m₂ : N.Silent 1 7 := by decide
    exact ((closure_of_search N S).2.1 7).mpr ⟨0, by decide, .head m₁ (.head m₂ .refl)⟩
  exact ⟨hSC, hC, (closure_of_search N S).2.2.1.2.2 C hSC hC, hST, h7,
    (closure_of_search N S).2.2.2.2.1 T hST 7 h7⟩

end Recognizer.Nfa

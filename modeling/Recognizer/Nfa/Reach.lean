import Recognizer.Nfa.Closure
import Recognizer.Path

/-!
# Reading words without determinism

A word leads to every state at the end of a path that spells it. Closures and steps find these sets
without looking at paths: `mem_closure` and `reads_append_singleton` say how.
-/

namespace Recognizer.Nfa

set_option autoImplicit false

variable {N : Nfa}

theorem mem_closure {S : StateSet} {t : State} :
    t ∈ N.closure S ↔ ∃ s ∈ S, Path N.transitions s [] t := by
  constructor
  · intro ht
    refine closure_all (P := fun t => ∃ s ∈ S, Path N.transitions s [] t) (fun s t h hst => ?_)
      (fun s hs => ⟨s, hs, .nil s⟩) t ht
    obtain ⟨q, hq, p⟩ := h
    exact ⟨q, hq, p.append (.of_silent (mem_transitions.mpr hst))⟩
  · rintro ⟨s, hs, p⟩
    generalize hw : ([] : List Symbol) = w at p
    have h : s ∈ N.closure S := subset_closure hs
    clear hs
    induction p with
    | nil => exact h
    | silent m _ ih => exact ih hw (closure_closed h (mem_transitions.mp m))
    | symbol => cases hw

def Reads (N : Nfa) (w : List Symbol) (s : State) : Prop := Path N.transitions N.initial w s

def Accepts (N : Nfa) (w : List Symbol) : Prop := ∃ s ∈ N.finals, N.Reads w s

theorem reads_nil {s : State} : N.Reads [] s ↔ s ∈ N.closure (SortedSet.singleton N.initial) := by
  rw [mem_closure]
  constructor
  · intro p
    exact ⟨N.initial, SortedSet.mem_singleton.mpr rfl, p⟩
  · rintro ⟨q, hq, p⟩
    rw [SortedSet.mem_singleton] at hq
    subst hq
    exact p

/-- One more symbol leads from the set of a word to the closure of its step. -/
theorem reads_append_singleton {w : List Symbol} {c : Symbol} {S : StateSet}
    (hS : ∀ s, s ∈ S ↔ N.Reads w s) {t : State} :
    N.Reads (w ++ [c]) t ↔ t ∈ N.closure (N.step S c) := by
  rw [mem_closure, Reads, Path.append_iff]
  constructor
  · rintro ⟨q, p, p'⟩
    obtain ⟨s, r, p₁, m, p₂⟩ := Path.cons_iff.mp p'
    have hs : N.Reads w s := by
      have := p.append p₁
      rwa [List.append_nil] at this
    exact ⟨r, mem_step.mpr ⟨s, (hS s).mpr hs, mem_transitions.mp m⟩, p₂⟩
  · rintro ⟨r, hr, p⟩
    obtain ⟨s, hs, m⟩ := mem_step.mp hr
    exact ⟨s, (hS s).mp hs, .symbol (mem_transitions.mpr m) p⟩

end Recognizer.Nfa

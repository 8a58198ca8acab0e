import Mathlib.Data.List.Forall2
import Recognizer.Dfa.Run

/-!
# Runs in step

Two automata over one alphabet, with a relation between their states that every move keeps, read each
word in step: they visit related states and stop at the same place for the same reason
(`Dfa.Bisimulation.runFrom`).
-/

namespace Recognizer

set_option autoImplicit false

variable {R : State → State → Prop}

/-! ## Runs that correspond -/

/-- The same kind of rejection with the same symbol, and related states to blame. -/
inductive Rejection.Rel (R : State → State → Prop) : Rejection → Rejection → Prop
  | foreign (c : Symbol) : Rel R (.foreign c) (.foreign c)
  | stuck {q s : State} (c : Symbol) : R q s → Rel R (.stuck q c) (.stuck s c)
  | notFinal {q s : State} : R q s → Rel R (.notFinal q) (.notFinal s)

/-- Paths of one length with related states at every position, and related verdicts. -/
structure Run.InStep (R : State → State → Prop) (x y : Run) : Prop where
  path : List.Forall₂ R x.path y.path
  rejection : Option.Rel (Rejection.Rel R) x.rejection y.rejection

namespace Run.InStep

variable {q s : State} {x y : Run}

theorem halt {j k : Option Rejection} (h : R q s) (hjk : Option.Rel (Rejection.Rel R) j k) :
    InStep R ⟨[q], j⟩ ⟨[s], k⟩ := ⟨.cons h .nil, hjk⟩

theorem through (h : R q s) (hxy : InStep R x y) : InStep R (x.through q) (y.through s) :=
  ⟨.cons h hxy.path, hxy.rejection⟩

end Run.InStep

/-! ## Automata in step -/

namespace Dfa

/-- Related states are final together, and on every symbol they move to related states or both stay
where they are. -/
structure Bisimulation (E D : Dfa) (R : State → State → Prop) : Prop where
  alphabet : E.alphabet = D.alphabet
  isFinal_eq : ∀ {q s}, R q s → E.isFinal q = D.isFinal s
  next? : ∀ {q s}, R q s → ∀ c ∈ D.alphabet, Option.Rel R (E.next? q c) (D.next? s c)

variable {E D : Dfa} {q s : State}

theorem Bisimulation.runFrom (h : E.Bisimulation D R) (hqs : R q s) (w : List Symbol) :
    (E.runFrom q w).InStep R (D.runFrom s w) := by
  induction w generalizing q s with
  | nil =>
    rw [Dfa.runFrom, Dfa.runFrom, h.isFinal_eq hqs]
    refine .halt hqs ?_
    cases D.isFinal s with
    | true => exact .none
    | false => exact .some (.notFinal hqs)
  | cons c w ih =>
    rw [Dfa.runFrom, Dfa.runFrom, h.alphabet]
    by_cases hc : c ∈ D.alphabet
    case neg =>
      rw [if_pos hc, if_pos hc]
      exact .halt hqs (.some (.foreign c))
    rw [if_neg (not_not_intro hc), if_neg (not_not_intro hc)]
    have hn := h.next? hqs c hc
    generalize E.next? q c = x at hn
    generalize D.next? s c = y at hn
    cases hn with
    | none => exact .halt hqs (.some (.stuck c hqs))
    | some ht => exact .through hqs (ih ht)

end Dfa

end Recognizer

import Recognizer.Compile
import Recognizer.Proofs.Fragment.Compiled
import Recognizer.Proofs.Nfa.Simulation

/-!
# What the automaton of an expression recognizes

Compilation and determinization together: the words accepted are those of the expression that are over
the alphabet (`Expr.recognizer_accepts`), and a run stops exactly where no word of the expression can
begin with what has been read (`Expr.recognizer_stops`).
-/

namespace Recognizer

set_option autoImplicit false

namespace Expr

variable {x : Expr}

/-- The recognizer of a complete expression is an automaton over the sets of states of another one,
which accepts the language of the expression and reads on as long as the word is viable. -/
theorem recognizer_eq_ok (hx : x.complete = true) (A : Alphabet) :
    ∃ D N found, x.recognizer A = .ok D ∧ Nfa.Powerset N A found D ∧
      (∀ w, N.Accepts w ↔ x.Matches w) ∧ (fun u => ∃ s, N.Reads u s) = x.Viable := by
  obtain ⟨N, hN, hcheck, hw, hv⟩ := compile_eq_ok hx
  obtain ⟨D, found, hD, h⟩ := Nfa.determinizeOver_eq_ok hcheck A
  refine ⟨D, N, found, ?_, h, hw, funext fun u => propext (hv u)⟩
  rw [recognizer, hN]
  show (N.determinizeOver A).mapError Error.automaton = _
  rw [hD]
  rfl

/-- A word is accepted when it is over the alphabet and matches the expression. -/
theorem recognizer_accepts (x : Expr) (hx : x.complete = true) (A : Alphabet) :
    ∃ D, x.recognizer A = .ok D ∧
      ∀ w, (D.run w).accepted = true ↔ (∀ c ∈ w, c ∈ A) ∧ x.Matches w := by
  obtain ⟨D, N, found, hD, h, hw, -⟩ := recognizer_eq_ok hx A
  refine ⟨D, hD, fun w => ?_⟩
  rw [h.accepted_iff, hw]

/-- A symbol of the expression that is missing from the alphabet. -/
theorem recognizer_accepts_without_symbol :
    let x := Expr.sequence [.literal 'a', .star (.literal 'b')]
    x.complete = true ∧
      ∃ D, x.recognizer (Alphabet.ofString "a") = .ok D ∧ (D.run ['a']).accepted = true ∧
        (D.run ['a', 'b']).accepted = false := by
  intro x
  have hx : x.complete = true := by rfl
  have hm : x.Matches ['a'] :=
    .sequence_cons (.literal 'a') (.sequence_cons .star_nil .sequence_nil)
  obtain ⟨D, hD, h⟩ := recognizer_accepts x hx (Alphabet.ofString "a")
  have hA : ∀ c ∈ ['a'], c ∈ Alphabet.ofString "a" := List.forall_mem_singleton.mpr (by decide)
  refine ⟨hx, D, hD, (h ['a']).mpr ⟨hA, hm⟩, ?_⟩
  rw [Bool.eq_false_iff]
  intro hb
  have hmem : 'b' ∈ Alphabet.ofString "a" := ((h ['a', 'b']).mp hb).1 'b' (by simp)
  exact absurd hmem (by decide)

/-- A run stops at the first symbol that is foreign or after which no word of the expression begins with
what has been read, whatever symbols that word may go on with. If there is no such symbol, the whole
word is read. -/
theorem recognizer_stops (x : Expr) (hx : x.complete = true) (A : Alphabet) :
    ∃ D, x.recognizer A = .ok D ∧ ∀ w,
      (∀ k c, FirstBlocked A (fun u => ∃ v, x.Matches (u ++ v)) w k c →
        (D.run w).StoppedAt A k c) ∧
      ((¬ ∃ k c, FirstBlocked A (fun u => ∃ v, x.Matches (u ++ v)) w k c) →
        (D.run w).path.length = w.length + 1 ∧
          ((D.run w).rejection = none ∨
            ∃ q, (D.run w).last? = some q ∧ (D.run w).rejection = some (.notFinal q))) := by
  obtain ⟨D, N, found, hD, h, -, hv⟩ := recognizer_eq_ok hx A
  refine ⟨D, hD, fun w => ?_⟩
  show (∀ k c, FirstBlocked A x.Viable w k c → _) ∧ ((¬ ∃ k c, FirstBlocked A x.Viable w k c) → _)
  rw [← hv]
  exact ⟨fun k c hk => h.stoppedAt hk, h.run_unblocked⟩

theorem recognizer_stops_without_symbol :
    let x := Expr.sequence [.literal 'a', .star (.literal 'b')]
    x.complete = true ∧
      ∃ D, x.recognizer (Alphabet.ofString "a") = .ok D ∧
        (D.run ['a', 'b']).StoppedAt (Alphabet.ofString "a") 1 'b' := by
  intro x
  have hx : x.complete = true := by rfl
  have hm : x.Matches ['a'] :=
    .sequence_cons (.literal 'a') (.sequence_cons .star_nil .sequence_nil)
  obtain ⟨D, hD, h⟩ := recognizer_stops x hx (Alphabet.ofString "a")
  refine ⟨hx, D, hD, (h ['a', 'b']).1 1 'b' ⟨rfl, Or.inl (by decide), ?_⟩⟩
  intro j hj d hd
  obtain rfl : j = 0 := Nat.lt_one_iff.mp hj
  cases hd
  exact ⟨by decide, [], hm⟩

end Expr

end Recognizer

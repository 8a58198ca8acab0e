import Recognizer.Expr.Basic

/-!
# The language of an expression

Which words an expression describes, said without any automaton.
-/

namespace Recognizer.Expr

set_option autoImplicit false

inductive Matches : Expr → List Symbol → Prop
  | literal (c : Symbol) : Matches (literal c) [c]
  | alternation {x : Expr} {xs : List Expr} {w : List Symbol} :
    x ∈ xs → Matches x w → Matches (alternation xs) w
  | sequence_nil : Matches (sequence []) []
  | sequence_cons {x : Expr} {xs : List Expr} {u v : List Symbol} :
    Matches x u → Matches (sequence xs) v → Matches (sequence (x :: xs)) (u ++ v)
  | star_nil {x : Expr} : Matches (star x) []
  | star_append {x : Expr} {u v : List Symbol} :
    Matches x u → Matches (star x) v → Matches (star x) (u ++ v)

variable {x : Expr} {xs : List Expr} {w : List Symbol}

theorem matches_literal {c : Symbol} : (literal c).Matches w ↔ w = [c] := by
  constructor
  · intro h
    cases h
    rfl
  · rintro rfl
    exact .literal c

theorem matches_alternation : (alternation xs).Matches w ↔ ∃ x ∈ xs, x.Matches w := by
  constructor
  · intro h
    cases h with
    | alternation m h => exact ⟨_, m, h⟩
  · rintro ⟨x, m, h⟩
    exact .alternation m h

theorem matches_sequence_nil : (sequence []).Matches w ↔ w = [] := by
  constructor
  · intro h
    cases h
    rfl
  · rintro rfl
    exact .sequence_nil

theorem matches_sequence_cons : (sequence (x :: xs)).Matches w ↔
    ∃ u v, w = u ++ v ∧ x.Matches u ∧ (sequence xs).Matches v := by
  constructor
  · intro h
    cases h with
    | sequence_cons h₁ h₂ => exact ⟨_, _, rfl, h₁, h₂⟩
  · rintro ⟨u, v, rfl, h₁, h₂⟩
    exact .sequence_cons h₁ h₂

end Recognizer.Expr

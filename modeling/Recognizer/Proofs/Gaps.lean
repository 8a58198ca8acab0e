import Recognizer.Proofs.Expr.Decoding
import Recognizer.Proofs.Fragment.Failure
import Recognizer.Proofs.Recognition

/-!
# Expressions without a recognizer

A gap among the nodes of an expression is all that can keep it from having a recognizer, and the first one
is what is reported (`Expr.recognizer_gaps`). Expressions that are decoded have no gaps.
-/

namespace Recognizer.Expr

set_option autoImplicit false

variable {x : Expr} {A : Alphabet}

theorem recognizer_eq_error_iff {e : Error} :
    x.recognizer A = .error e ↔ ∃ d, x.nodes.findSome? gap? = some d ∧ e = .expression d := by
  cases hd : x.nodes.findSome? gap? with
  | none =>
    obtain ⟨D, N, found, hD, -⟩ := recognizer_eq_ok ((complete_iff_findSome?_gap? x).mpr hd) A
    simp [hD]
  | some d =>
    have hx : x.recognizer A = .error (.expression d) := by
      rw [recognizer, compile_eq_error_iff.mpr hd]
      rfl
    rw [hx]
    simp [eq_comm]

theorem exists_gap_iff : (∃ d, x.nodes.findSome? gap? = some d) ↔
    alternation [] ∈ x.nodes ∨ sequence [] ∈ x.nodes := by
  rw [← Option.isSome_iff_exists, List.findSome?_isSome_iff]
  simp only [isSome_gap?_iff]
  constructor
  · rintro ⟨y, hy, rfl | rfl⟩
    · exact Or.inl hy
    · exact Or.inr hy
  · rintro (hy | hy)
    · exact ⟨_, hy, Or.inl rfl⟩
    · exact ⟨_, hy, Or.inr rfl⟩

theorem recognizer_of_ofJson {j : Json} (h : ofJson j = .ok x) (A : Alphabet) :
    ∃ D, x.recognizer A = .ok D := by
  obtain ⟨D, N, found, hD, -⟩ := recognizer_eq_ok (complete_of_toExpr _ h) A
  exact ⟨D, hD⟩

/-- Over whatever alphabet, an expression has no recognizer just when some node of it is an alternation or
a sequence of nothing. The first such node from the left is the only reason ever given, and what is made
of an expression is never at fault itself. Expressions that are decoded have recognizers. -/
theorem recognizer_gaps (A : Alphabet) :
    (∀ x : Expr, (∃ e, x.recognizer A = .error e) ↔
      alternation [] ∈ x.nodes ∨ sequence [] ∈ x.nodes) ∧
    (∀ (x : Expr) (e : Error), x.recognizer A = .error e ↔
      ∃ d, x.nodes.findSome? gap? = some d ∧ e = .expression d) ∧
    ∀ (j : Json) (x : Expr), ofJson j = .ok x → ∃ D, x.recognizer A = .ok D := by
  refine ⟨fun x => ?_, fun x e => recognizer_eq_error_iff, fun j x h => recognizer_of_ofJson h A⟩
  rw [← exists_gap_iff]
  constructor
  · rintro ⟨e, he⟩
    obtain ⟨d, hd, -⟩ := recognizer_eq_error_iff.mp he
    exact ⟨d, hd⟩
  · rintro ⟨d, hd⟩
    exact ⟨_, recognizer_eq_error_iff.mpr ⟨d, hd, rfl⟩⟩

/-- A sequence of nothing deep inside comes before an alternation of nothing further to the right, although
less stands above that one. -/
theorem recognizer_gaps_nested :
    let x := Expr.sequence [.star (.alternation [.literal 'a', .sequence []]), .alternation []]
    let j := Json.object [("op", .string "kle"), ("args", .array [.object [("simb", .string "é")]])]
    x.recognizer (Alphabet.ofString "b") = .error (.expression .emptySequence) ∧
      ofJson j = .ok (.star (.literal 'é')) ∧ ∃ D, (star (literal 'é')).recognizer ∅ = .ok D := by
  intro x j
  have hj : ofJson j = .ok (.star (.literal 'é')) := ofJson_toJson (.star (.literal 'é')) rfl
  exact ⟨((recognizer_gaps _).2.1 x _).mpr ⟨_, rfl, rfl⟩, hj, (recognizer_gaps ∅).2.2 j _ hj⟩

end Recognizer.Expr

import Recognizer.State

/-!
# Paths

A path along a list of transitions spells the word of its labels, to which a silent transition adds
nothing. Paths compose, and the words they spell are appended.
-/

namespace Recognizer

set_option autoImplicit false

inductive Path (ts : List Transition) : State → List Symbol → State → Prop
  | nil (s : State) : Path ts s [] s
  | silent {s t u : State} {w : List Symbol} :
    ⟨s, .silent, t⟩ ∈ ts → Path ts t w u → Path ts s w u
  | symbol {s t u : State} {c : Symbol} {w : List Symbol} :
    ⟨s, .symbol c, t⟩ ∈ ts → Path ts t w u → Path ts s (c :: w) u

namespace Path

variable {ts : List Transition} {s t u : State} {v w : List Symbol}

theorem append (h₁ : Path ts s v t) (h₂ : Path ts t w u) : Path ts s (v ++ w) u := by
  induction h₁ with
  | nil => exact h₂
  | silent m _ ih => exact silent m (ih h₂)
  | symbol m _ ih => exact symbol m (ih h₂)

theorem of_subset {ts' : List Transition} (h : ∀ t ∈ ts, t ∈ ts') (p : Path ts s w u) :
    Path ts' s w u := by
  induction p with
  | nil => exact nil _
  | silent m _ ih => exact silent (h _ m) ih
  | symbol m _ ih => exact symbol (h _ m) ih

theorem of_silent (m : ⟨s, .silent, t⟩ ∈ ts) : Path ts s [] t := silent m (nil t)

theorem of_symbol {c : Symbol} (m : ⟨s, .symbol c, t⟩ ∈ ts) : Path ts s [c] t := symbol m (nil t)

/-- A path that spells one symbol first passes that symbol's transition, after silent ones. -/
theorem cons_iff {c : Symbol} : Path ts s (c :: w) u ↔
    ∃ q r, Path ts s [] q ∧ ⟨q, .symbol c, r⟩ ∈ ts ∧ Path ts r w u := by
  constructor
  · intro p
    generalize hx : c :: w = x at p
    induction p with
    | nil => cases hx
    | silent m _ ih =>
      obtain ⟨q, r, p₁, m', p₂⟩ := ih hx
      exact ⟨q, r, silent m p₁, m', p₂⟩
    | symbol m p _ =>
      cases hx
      exact ⟨_, _, nil _, m, p⟩
  · rintro ⟨q, r, p₁, m, p₂⟩
    exact p₁.append (symbol m p₂)

/-- A path that spells two words spells them one after the other. -/
theorem append_iff : Path ts s (v ++ w) u ↔ ∃ t, Path ts s v t ∧ Path ts t w u := by
  constructor
  · intro p
    induction v generalizing s with
    | nil => exact ⟨s, nil s, p⟩
    | cons c v ih =>
      obtain ⟨q, r, p₁, m, p₂⟩ := cons_iff.mp p
      obtain ⟨t, p₃, p₄⟩ := ih p₂
      exact ⟨t, cons_iff.mpr ⟨q, r, p₁, m, p₃⟩, p₄⟩
  · rintro ⟨t, p₁, p₂⟩
    exact p₁.append p₂

end Path

end Recognizer

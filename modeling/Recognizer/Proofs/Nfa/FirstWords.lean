import Mathlib.Data.Char
import Mathlib.Data.List.Shortlex
import Recognizer.Proofs.Nfa.Numbering

/-!
# First words

Every state of a determinized automaton is led to by some word, and its number is the place of the first
of these words: shorter words come before longer ones, and words of one length in the order of their
symbols (`Nfa.determinizeOver_numbering`).
-/

namespace Recognizer

set_option autoImplicit false

/-! ## The order of words -/

/-- Shorter words first, then by the code points of the symbols. -/
abbrev Shortlex : List Symbol → List Symbol → Prop := List.Shortlex (· < ·)

section
variable {u v w : List Symbol} {c d : Symbol}

theorem Shortlex.trans (h : Shortlex u v) (h' : Shortlex v w) : Shortlex u w := by
  rcases List.shortlex_def.mp h with h | ⟨hl, h⟩
  · rcases List.shortlex_def.mp h' with h' | ⟨hl', -⟩
    · exact .of_length_lt (h.trans h')
    · exact .of_length_lt (hl' ▸ h)
  · rcases List.shortlex_def.mp h' with h' | ⟨hl', h'⟩
    · exact .of_length_lt (hl ▸ h')
    · exact .of_lex (hl.trans hl') (List.lt_trans h h')

theorem lex_concat (hl : u.length = v.length) (h : List.Lex (· < ·) u v) (c d : Symbol) :
    List.Lex (· < ·) (u ++ [c]) (v ++ [d]) := by
  induction h with
  | nil => cases hl
  | cons _ ih => exact .cons (ih (Nat.succ.inj hl))
  | rel h => exact .rel h

/-- What is appended to two words of one length does not matter if they differ. -/
theorem Shortlex.concat (h : Shortlex u v) (c d : Symbol) : Shortlex (u ++ [c]) (v ++ [d]) := by
  rcases List.shortlex_def.mp h with h | ⟨hl, h⟩
  · exact .of_length_lt (by simpa using h)
  · exact .of_lex (by simpa using hl) (lex_concat hl h c d)

theorem Shortlex.concat_of_lt (u : List Symbol) (h : c < d) : Shortlex (u ++ [c]) (u ++ [d]) :=
  List.Shortlex.append_left ((List.shortlex_singleton_iff c d).mpr h) u

end

/-! ## First words of states -/

namespace Dfa

/-- Of all words that lead to `q`, `u` is the first one. -/
structure FirstWord (D : Dfa) (q : State) (u : List Symbol) : Prop where
  leads : D.Leads u q
  least : ∀ v, D.Leads v q → v = u ∨ Shortlex u v

variable {D : Dfa} {q : State} {u : List Symbol} {c : Symbol}

theorem exists_firstWord (h : D.Leads u q) : ∃ v, D.FirstWord q v := by
  have hwf : WellFounded Shortlex := List.Shortlex.wf (InvImage.wf Char.toNat Nat.lt_wfRel.wf)
  obtain ⟨v, hv, hmin⟩ := hwf.has_min {v | D.Leads v q} ⟨u, h⟩
  refine ⟨v, hv, fun w hw => ?_⟩
  rcases trichotomous_of Shortlex v w with hlt | e | hlt
  · exact Or.inr hlt
  · exact Or.inl e.symm
  · exact absurd hlt (hmin w hw)

namespace FirstWord

theorem eq_nil (h : D.FirstWord D.start u) : u = [] := by
  rcases h.least [] (leads_nil.mpr rfl) with e | hlt
  · exact e.symm
  · exact absurd hlt List.not_shortlex_nil_right

/-- Without its last symbol a first word is the first word of the state before. -/
theorem of_concat (h : D.FirstWord q (u ++ [c])) :
    ∃ r, D.FirstWord r u ∧ c ∈ D.alphabet ∧ D.next? r c = some q := by
  obtain ⟨r, hr, hc, hn⟩ := leads_concat.mp h.leads
  refine ⟨r, ⟨hr, fun v hv => ?_⟩, hc, hn⟩
  have hv' : D.Leads (v ++ [c]) q := leads_concat.mpr ⟨r, hv, hc, hn⟩
  rcases trichotomous_of Shortlex u v with hlt | e | hlt
  · exact Or.inr hlt
  · exact Or.inl e.symm
  · rcases h.least _ hv' with e | hlt'
    · exact Or.inl (List.append_cancel_right e)
    · exact absurd hlt' (asymm (hlt.concat c c))

theorem shortlex_of_leads {v w : List Symbol} (h : D.FirstWord q u) (hv : D.Leads v q)
    (hw : Shortlex v w) : Shortlex u w := by
  rcases h.least v hv with rfl | hlt
  · exact hw
  · exact hlt.trans hw

end FirstWord

end Dfa

/-! ## States in the order of their first words -/

namespace Nfa.Powerset

variable {N : Nfa} {A : Alphabet} {found : List StateSet} {D : Dfa} {q r : State} {c : Symbol}

/-- The induction is on the later word. Its last move comes after some move to the smaller number, which
starts from a smaller number or, with a smaller symbol, from the same one. -/
theorem shortlex_of_lt (h : N.Powerset A found D) (hn : Numbered D.moves.entries found.length)
    {u v : List Symbol} (hqr : q < r) (hu : D.FirstWord q u) (hv : D.FirstWord r v) :
    Shortlex u v := by
  induction v using List.reverseRecOn generalizing q r u with
  | nil =>
    have hr : r = 0 := (Dfa.leads_nil.mp hv.leads).trans h.chart.start
    exact absurd hqr (hr ▸ Nat.not_lt_zero q)
  | append_singleton v c ih =>
    obtain ⟨r', hv', -, hnext⟩ := hv.of_concat
    have hm : ((r', c), r) ∈ D.moves.entries := OrderedMap.get?_eq_some.mp hnext
    rcases Nat.eq_zero_or_pos q with rfl | h₀
    · obtain rfl : u = [] := Dfa.FirstWord.eq_nil (h.chart.start.symm ▸ hu)
      exact .of_length_lt (by simp)
    · obtain ⟨⟨⟨q', c'⟩, q⟩, hm', rfl, hlt⟩ := hn.inOrder _ hm q h₀ hqr
      rcases hlt with hlt | ⟨rfl, hlt⟩
      · obtain ⟨w, hw⟩ := h.exists_leads hn (h.of_mem_moves hm').1
        obtain ⟨u', hu'⟩ := Dfa.exists_firstWord hw
        exact hu.shortlex_of_leads (h.leads_of_mem_moves hm' hu'.leads) ((ih hlt hu' hv').concat c' c)
      · exact hu.shortlex_of_leads (h.leads_of_mem_moves hm' hv'.leads) (.concat_of_lt v hlt)

end Nfa.Powerset

/-! ## The numbering -/

/-- Ascending sources, and for one source ascending labels. -/
def Transition.Precedes (t u : Transition) : Prop :=
  t.source < u.source ∨ t.source = u.source ∧ Ranked.rank t.label < Ranked.rank u.label

/-- Every state of a determinized automaton is led to from state `0` by words over the alphabet, states
are numbered in the order of their first words, and transitions are listed by ascending source and
symbol. -/
theorem Nfa.determinizeOver_numbering {N : Nfa} (hN : N.check = .ok ()) (A : Alphabet) :
    ∃ D, N.determinizeOver A = .ok D ∧ D.start = 0 ∧
      (∀ q ∈ D.states, ∃ u, (∀ c ∈ u, c ∈ A) ∧ D.FirstWord q u) ∧
      (∀ q ∈ D.states, ∀ r ∈ D.states, q < r → ∀ u v, D.FirstWord q u → D.FirstWord r v →
        Shortlex u v) ∧
      D.transitions.Pairwise Transition.Precedes := by
  obtain ⟨D, found, hD, h⟩ := determinizeOver_eq_ok hN A
  have hn := h.numbered hD
  refine ⟨D, hD, h.chart.start, fun q hq => ?_, fun q _ r _ hqr u v => h.shortlex_of_lt hn hqr, ?_⟩
  · obtain ⟨w, hw⟩ := h.exists_leads hn ((h.chart.states q).mp hq)
    obtain ⟨u, hu⟩ := Dfa.exists_firstWord hw
    exact ⟨u, h.chart.alphabet ▸ hu.leads.mem_alphabet, hu⟩
  · rw [Dfa.transitions, List.pairwise_map]
    exact h.pairwise_moves.imp fun hp => hp.imp_right fun ⟨e, hlt⟩ => ⟨e, Nat.succ_lt_succ hlt⟩

/-- The transition on the greater symbol was added first, which does not show in the numbers. -/
theorem Nfa.determinizeOver_numbering_branching :
    let N := Nfa.build 0 [.state 0, .state 1, .state 2, .transition ⟨0, .symbol 'b', 2⟩,
      .transition ⟨0, .symbol 'a', 1⟩, .transition ⟨1, .silent, 0⟩, .transition ⟨2, .symbol 'a', 1⟩]
    N.check = .ok () ∧ ∃ D, N.determinizeOver (Alphabet.ofString "ab") = .ok D ∧
      D.states.toList = [0, 1, 2] ∧ (∃ u, D.FirstWord 1 u) ∧ (∃ v, D.FirstWord 2 v) ∧
      (∀ u v, D.FirstWord 1 u → D.FirstWord 2 v → Shortlex u v) ∧
      D.transitions.Pairwise Transition.Precedes := by
  intro N
  have hN : N.check = .ok () := by decide
  have hstates : (N.determinizeOver (Alphabet.ofString "ab")).map (·.states.toList) = .ok [0, 1, 2] := by
    decide +kernel
  obtain ⟨D, hD, -, hwords, horder, hmoves⟩ :=
    Nfa.determinizeOver_numbering hN (Alphabet.ofString "ab")
  rw [hD] at hstates
  have hs : D.states.toList = [0, 1, 2] := Except.ok.inj hstates
  have h₁ : 1 ∈ D.states := SortedSet.mem_toList.mp (by simp [hs])
  have h₂ : 2 ∈ D.states := SortedSet.mem_toList.mp (by simp [hs])
  obtain ⟨u, -, hu⟩ := hwords 1 h₁
  obtain ⟨v, -, hv⟩ := hwords 2 h₂
  exact ⟨hN, D, hD, hs, ⟨u, hu⟩, ⟨v, hv⟩, horder 1 h₁ 2 h₂ (by decide), hmoves⟩

end Recognizer

import Recognizer.Dfa.Named
import Recognizer.Proofs.Dfa.Listing
import Recognizer.Proofs.Nfa.Listing

/-!
# Automata that can be obtained

A deterministic automaton is started empty, read from a document or determinized, and may be edited
afterwards. However it was come by, its transitions are on symbols of its alphabet
(`Dfa.Obtained.overAlphabet`), so no reader of its listing finds anything wrong before the check does.
-/

namespace Recognizer

set_option autoImplicit false

namespace Dfa

/-! ## What readers leave behind -/

theorem check_of_ofMemberListing {d : Document.Listing (List State)} {D : Dfa}
    (h : ofMemberListing d = .ok D) : D.check = .ok () := by
  unfold ofMemberListing at h
  obtain ⟨u, -, h⟩ := bind_eq_ok.mp h
  obtain ⟨D₁, h₁, h⟩ := bind_eq_ok.mp h
  cases h
  have hc := check_of_ofListingBy h₁
  exact hc

theorem Named.check_of_ofTable {d : Document.Table} {D : Dfa.Named} (h : Named.ofTable d = .ok D) :
    D.dfa.check = .ok () := by
  unfold Named.ofTable at h
  obtain ⟨u, -, h⟩ := bind_eq_ok.mp h
  obtain ⟨A, -, h⟩ := bind_eq_ok.mp h
  obtain ⟨q, -, h⟩ := bind_eq_ok.mp h
  obtain ⟨D₁, -, h⟩ := bind_eq_ok.mp h
  obtain ⟨D₂, -, h⟩ := bind_eq_ok.mp h
  obtain ⟨u, hc, h⟩ := bind_eq_ok.mp h
  cases h
  exact hc

/-! ## All ways to come by an automaton -/

/-- An edit that is refused makes no other automaton. -/
inductive Obtained : Dfa → Prop
  | empty (A : Alphabet) (start : State) : Obtained { start, alphabet := A }
  | listing {d : Document.Listing State} {D : Dfa} : ofListing d = .ok D → Obtained D
  | memberListing {d : Document.Listing (List State)} {D : Dfa} : ofMemberListing d = .ok D → Obtained D
  | table {d : Document.Table} {D : Dfa.Named} : Named.ofTable d = .ok D → Obtained D.dfa
  | determinized {N : Nfa} {A : Alphabet} {D : Dfa} : N.determinizeOver A = .ok D → Obtained D
  | edited {D D' : Dfa} {e : Edit} : Obtained D → D.edit e = .ok D' → Obtained D'

theorem Obtained.overAlphabet {D : Dfa} (h : D.Obtained) : D.OverAlphabet := by
  induction h with
  | empty A start => exact fun m hm => nomatch hm
  | listing hd => exact (check_eq_ok.mp (check_of_ofListingBy hd)).2
  | memberListing hd => exact (check_eq_ok.mp (check_of_ofMemberListing hd)).2
  | table hd => exact (check_eq_ok.mp (Named.check_of_ofTable hd)).2
  | determinized hN =>
    obtain ⟨found, hp⟩ := Nfa.exists_powerset hN
    exact (check_eq_ok.mp hp.check_eq_ok).2
  | edited _ he ih => exact ih.edit he

theorem Obtained.editOrKeep {D : Dfa} (h : D.Obtained) (e : Edit) : (D.editOrKeep e).Obtained := by
  unfold Dfa.editOrKeep
  cases he : D.edit e with
  | ok D' => exact h.edited he
  | error m => exact h

theorem obtained_build (A : Alphabet) (start : State) (es : List Edit) :
    (build A start es).Obtained := by
  unfold build
  induction es using List.reverseRecOn with
  | nil => exact .empty A start
  | append_singleton es e ih =>
    rw [List.foldl_append]
    exact ih.editOrKeep e

end Dfa

/-! ## Numbered listings -/

/-- Reading what was listed gives the automaton back in every detail, the order of its transitions and
the symbols that none of them uses included, or else the very flaw that its check reports. Only the
members of states are lost. -/
theorem ofListing_toListing_of_obtained :
    (∀ (i : State) (es : List Nfa.Edit),
      Nfa.ofListing (Nfa.build i es).toListing = (Nfa.build i es).check.map fun _ => Nfa.build i es) ∧
    ∀ D : Dfa, D.Obtained →
      Dfa.ofListing D.toListing = D.check.map fun _ => { D with members := none } :=
  ⟨fun i es => Nfa.ofListing_toListing (Nfa.tidy_build i es),
    fun _ h => Dfa.ofListing_toListing h.overAlphabet⟩

/-- An undeclared state is reported as the check reports it; transitions that leave the greater state
first are read back in that order. -/
theorem ofListing_toListing_of_obtained_undeclared :
    let N := Nfa.build 0 [.state 0, .symbol 'z', .transition ⟨0, .symbol 'b', 7⟩, .final 0]
    let es := [Dfa.Edit.state 0, .state 1, .transition 1 'b' 0, .transition 0 'a' 1]
    let D := Dfa.build (Alphabet.ofString "abz") 0 es
    let E := Dfa.build (Alphabet.ofString "abz") 0 (es ++ [.final 4])
    Nfa.ofListing N.toListing = .error (.endpoint 0 7) ∧
      (D.Obtained ∧ Dfa.ofListing D.toListing = .ok D) ∧
      E.Obtained ∧ Dfa.ofListing E.toListing = .error (.final 4) := by
  intro N es D E
  have hD : D.Obtained := Dfa.obtained_build _ _ _
  have hE : E.Obtained := Dfa.obtained_build _ _ _
  refine ⟨?_, ⟨hD, ?_⟩, hE, ?_⟩
  · exact (ofListing_toListing_of_obtained.1 0 _).trans (by decide)
  · exact (ofListing_toListing_of_obtained.2 D hD).trans (by decide)
  · exact (ofListing_toListing_of_obtained.2 E hE).trans (by decide)

end Recognizer

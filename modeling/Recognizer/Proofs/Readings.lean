import Recognizer.Proofs.Dfa.ToNfa
import Recognizer.Proofs.Obtained

/-!
# Two readings of a listing

A listing with numbered states may be read as a deterministic automaton or as one with silent moves. The
first reading may find that what is listed is not deterministic; otherwise the second one makes the same
of it, or turns it down for the same flaw (`ofListing_readAlike`).
-/

namespace Recognizer

set_option autoImplicit false

open Document (Edge Listing)

/-- What only deterministic automata are turned down for. -/
inductive Flaw.Indeterminate : Flaw → Prop
  | silentMove (s t : State) : Indeterminate (.silentMove s t)
  | conflict (s : State) (c : Symbol) : Indeterminate (.conflict s c)

/-- What is read is not deterministic, or both readings make the same of it. -/
def ReadAlike (x : Except Flaw Dfa) (y : Except Flaw Nfa) : Prop :=
  (∃ m, x = .error m ∧ m.Indeterminate) ∨ y = x.map Dfa.toNfa

namespace ReadAlike

variable {x : Except Flaw Dfa} {y : Except Flaw Nfa}

theorem bind {f : Dfa → Except Flaw Dfa} {g : Nfa → Except Flaw Nfa} (h : ReadAlike x y)
    (hfg : ∀ D, x = .ok D → ReadAlike (f D) (g D.toNfa)) : ReadAlike (x >>= f) (y >>= g) := by
  rcases h with ⟨m, rfl, hm⟩ | rfl
  · exact Or.inl ⟨m, rfl, hm⟩
  · cases x with
    | error m => exact Or.inr rfl
    | ok D => exact hfg D rfl

end ReadAlike

/-! ## Edges -/

section
variable {D D' : Dfa} {e : Edge State}

theorem addTransition_readAlike (D : Dfa) (s : State) (c : Symbol) (t : State) :
    ReadAlike (D.addTransition s c t)
      (if c ∈ D.alphabet then .ok (D.toNfa.addTransition ⟨s, .symbol c, t⟩)
       else .error (.foreignSymbol c)) := by
  rcases D.addTransition_cases s c t with ⟨hc, ha⟩ | ⟨hc, ⟨-, ha⟩ | ⟨-, ha⟩ | ⟨-, ha⟩⟩
  · rw [if_neg hc, ha]
    exact Or.inr rfl
  · rw [if_pos hc, Dfa.addTransition_toNfa ha, ha]
    exact Or.inr rfl
  · rw [if_pos hc, Dfa.addTransition_toNfa ha, ha]
    exact Or.inr rfl
  · exact Or.inl ⟨_, ha, .conflict s c⟩

theorem Dfa.addEdge_symbol (D : Dfa) (s t : State) (text : String) :
    D.addEdge .ok ⟨s, t, some text⟩ = Document.symbol text >>= fun c => D.addTransition s c t := rfl

theorem Nfa.addEdge_symbol (A : Alphabet) (N : Nfa) (s t : State) (text : String) :
    N.addEdge A ⟨s, t, some text⟩ = Document.symbol text >>= fun c =>
      if c ∈ A then .ok (N.addTransition ⟨s, .symbol c, t⟩) else .error (.foreignSymbol c) := by
  show Nfa.edgeLabel A (some text) >>= (fun l => .ok (N.addTransition ⟨s, l, t⟩)) = _
  unfold Nfa.edgeLabel
  dsimp only
  cases Document.symbol text with
  | error m => rfl
  | ok c =>
    rw [ok_bind, ok_bind]
    split <;> rfl

theorem addEdge_readAlike (D : Dfa) (e : Edge State) :
    ReadAlike (D.addEdge .ok e) (D.toNfa.addEdge D.alphabet e) := by
  obtain ⟨s, t, symbol⟩ := e
  cases symbol with
  | none => exact Or.inl ⟨_, rfl, .silentMove s t⟩
  | some text =>
    rw [Dfa.addEdge_symbol, Nfa.addEdge_symbol]
    cases Document.symbol text with
    | error m => exact Or.inr rfl
    | ok c => exact addTransition_readAlike D s c t

/-- An edge that is added is an edit. -/
theorem edit_of_addEdge (h : D.addEdge .ok e = .ok D') : ∃ a, D.edit a = .ok D' := by
  obtain ⟨s, t, symbol⟩ := e
  cases symbol with
  | none => cases h
  | some text =>
    rw [Dfa.addEdge_symbol] at h
    obtain ⟨c, -, h⟩ := bind_eq_ok.mp h
    exact ⟨.transition s c t, h⟩

theorem overAlphabet_foldlM_addEdge {es : List (Edge State)} (hA : D.OverAlphabet)
    (h : es.foldlM (Dfa.addEdge .ok) D = .ok D') : D'.OverAlphabet := by
  refine foldlM_preserves (fun e E E' hE he => ?_) hA h
  obtain ⟨a, ha⟩ := edit_of_addEdge he
  exact hE.edit ha

/-- The alphabet is settled before the first edge is read, and no edge changes it. -/
theorem foldlM_addEdge_readAlike (es : List (Edge State)) {A : Alphabet} (hA : D.alphabet = A) :
    ReadAlike (es.foldlM (Dfa.addEdge .ok) D) (es.foldlM (Nfa.addEdge A) D.toNfa) := by
  induction es generalizing D with
  | nil => exact Or.inr rfl
  | cons e es ih =>
    rw [List.foldlM_cons, List.foldlM_cons, ← hA]
    refine (addEdge_readAlike D e).bind fun D' h => ?_
    obtain ⟨a, ha⟩ := edit_of_addEdge h
    have hA' : D'.alphabet = A := (Dfa.alphabet_edit ha).trans hA
    rw [hA]
    exact ih hA'

end

/-! ## Listings -/

/-- Declarations come to the same automaton, whichever way they are read. -/
theorem build_declarations (i : State) (ss : List State) (A : Alphabet) :
    Nfa.build i (ss.map .state ++ A.toList.map .symbol) =
      (ss.foldl Dfa.addState { start := i, alphabet := A }).toNfa := by
  have hA : (∅ : Alphabet).insertAll A.toList = A := SortedSet.ofList_toList A
  rw [Nfa.build, List.foldl_append, List.foldl_map, List.foldl_map]
  show A.toList.foldl Nfa.addSymbol (ss.foldl Nfa.addState { initial := i }) = _
  rw [Nfa.foldl_addState, Nfa.foldl_addSymbol, Dfa.foldl_addState, hA]
  rfl

theorem foldl_addFinal_toNfa (ss : List State) (D : Dfa) :
    ss.foldl Nfa.addFinal D.toNfa = (ss.foldl Dfa.addFinal D).toNfa :=
  List.foldl_hom Dfa.toNfa fun _ _ => rfl

theorem check_readAlike {D : Dfa} (hA : D.OverAlphabet) :
    ReadAlike (D.check >>= fun _ => .ok D) (D.toNfa.check >>= fun _ => .ok D.toNfa) := by
  rw [Dfa.check_toNfa hA]
  cases D.check <;> exact Or.inr rfl

/-- Both readings settle the alphabet first and check last; in between they meet the same flaws in the
same order. -/
theorem ofListing_readAlike (d : Listing State) : ReadAlike (Dfa.ofListing d) (Nfa.ofListing d) := by
  unfold Dfa.ofListing Dfa.ofListingBy Nfa.ofListing
  cases d.symbols with
  | error m => exact Or.inr rfl
  | ok A =>
    have hstates : ∀ D, d.states.foldlM (Dfa.declareState .ok) D = .ok (d.states.foldl Dfa.addState D) :=
      foldlM_eq_ok fun _ _ _ => rfl
    have hfinals : ∀ D, d.finals.foldlM (Dfa.declareFinal .ok) D = .ok (d.finals.foldl Dfa.addFinal D) :=
      foldlM_eq_ok fun _ _ _ => rfl
    simp only [ok_bind, hstates, hfinals, build_declarations]
    have hD := Dfa.foldl_addState d.states { start := d.initial, alphabet := A }
    have hA : (d.states.foldl Dfa.addState { start := d.initial, alphabet := A }).alphabet = A := by
      rw [hD]
    have hover : (d.states.foldl Dfa.addState { start := d.initial, alphabet := A }).OverAlphabet := by
      rw [hD]
      exact fun m hm => nomatch hm
    refine (foldlM_addEdge_readAlike d.edges hA).bind fun D h => ?_
    have hover' : D.OverAlphabet := overAlphabet_foldlM_addEdge hover h
    rw [foldl_addFinal_toNfa]
    apply check_readAlike
    rw [Dfa.foldl_addFinal]
    exact hover'

/-- What is read as a deterministic automaton is also read as one with silent moves, and determinizing
that one gives an automaton that runs in step with the first: states on the path stand each for the state
at the same place, and the verdict is the same. What is only read with silent moves is not
deterministic. -/
theorem ofListing_determinize (d : Listing State) :
    (∀ D, Dfa.ofListing d = .ok D →
      ∃ N E, Nfa.ofListing d = .ok N ∧ N.determinize = .ok E ∧
        ∀ w, (E.run w).InStep E.StandsFor (D.run w)) ∧
    ∀ N m, Nfa.ofListing d = .ok N → Dfa.ofListing d = .error m → m.Indeterminate := by
  rcases ofListing_readAlike d with ⟨m, hm, hi⟩ | h
  · refine ⟨fun D hD => ?_, fun N m' _ hm' => ?_⟩
    · cases hm.symm.trans hD
    · cases hm.symm.trans hm'
      exact hi
  · refine ⟨fun D hD => ?_, fun N m hN hm => ?_⟩
    · obtain ⟨E, hE, hrun⟩ := Dfa.run_determinize_toNfa (Dfa.check_of_ofListingBy hD)
      rw [hD] at h
      exact ⟨D.toNfa, E, h, hE, hrun⟩
    · rw [hN, hm] at h
      cases h

/-- States and transitions are listed twice, and no alphabet is given. One more edge makes a choice. -/
theorem ofListing_determinize_repeated :
    let d : Listing State :=
      ⟨[0, 2, 1, 0], none, 0, [2, 2], [⟨0, 2, some "a"⟩, ⟨2, 1, some "b"⟩, ⟨0, 2, some "a"⟩]⟩
    let d' := { d with edges := d.edges ++ [⟨0, 1, some "a"⟩] }
    (∃ D N E, Dfa.ofListing d = .ok D ∧ Nfa.ofListing d = .ok N ∧ N.determinize = .ok E ∧
      D.run ['a', 'b'] = ⟨[0, 2, 1], some (.notFinal 1)⟩ ∧
      (E.run ['a', 'b']).InStep E.StandsFor (D.run ['a', 'b'])) ∧
    ∃ N m, Nfa.ofListing d' = .ok N ∧ Dfa.ofListing d' = .error m ∧ m.Indeterminate := by
  intro d d'
  have hd : (Dfa.ofListing d).map (·.run ['a', 'b']) = .ok ⟨[0, 2, 1], some (.notFinal 1)⟩ := by
    decide
  obtain ⟨D, hD, hrun⟩ := map_eq_ok.mp hd
  obtain ⟨N, E, hN, hE, hw⟩ := (ofListing_determinize d).1 D hD
  have hd' : (Nfa.ofListing d').map (·.transitions.length) = .ok 3 := by decide
  obtain ⟨N', hN', -⟩ := map_eq_ok.mp hd'
  have hm : Dfa.ofListing d' = .error (.conflict 0 'a') := by decide
  exact ⟨⟨D, N, E, hD, hN, hE, hrun, hw _⟩, N', _, hN', hm, (ofListing_determinize d').2 N' _ hN' hm⟩

end Recognizer

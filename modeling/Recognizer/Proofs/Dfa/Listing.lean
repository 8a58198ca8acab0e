import Recognizer.Dfa.Document
import Recognizer.Proofs.Dfa.Renumbering
import Recognizer.Proofs.Document.Names
import Recognizer.Proofs.Fallible
import Recognizer.Proofs.Nfa.Powerset

/-!
# Deterministic automata read back from listings

Whatever states are called in a listing, reading it gives the automaton back under the numbers to
which these names are resolved, or the flaw that this automaton has (`Dfa.ofListingBy_toListingBy`).
With member lists for names, states are numbered by their rank (`Dfa.ofMemberListing_of_renumbered`).
-/

namespace Recognizer.Dfa

set_option autoImplicit false

/-! ## Any names -/

section
variable {S : Type} {resolve : S → Except Flaw State} {name : State → S} {r : State → State}

theorem foldlM_declareState {ss : List State} (h : ∀ s ∈ ss, resolve (name s) = .ok (r s)) (D : Dfa) :
    (ss.map name).foldlM (declareState resolve) D =
      .ok { D with states := D.states.insertAll (ss.map r) } := by
  have hs : ∀ s ∈ ss, ∀ D, declareState resolve D (name s) = .ok (D.addState (r s)) := by
    intro s hs D
    unfold declareState
    rw [h s hs]
    rfl
  rw [List.foldlM_map, foldlM_eq_ok hs, ← foldl_addState, List.foldl_map]

theorem foldlM_declareFinal {ss : List State} (h : ∀ s ∈ ss, resolve (name s) = .ok (r s)) (D : Dfa) :
    (ss.map name).foldlM (declareFinal resolve) D =
      .ok { D with finals := D.finals.insertAll (ss.map r) } := by
  have hs : ∀ s ∈ ss, ∀ D, declareFinal resolve D (name s) = .ok (D.addFinal (r s)) := by
    intro s hs D
    unfold declareFinal
    rw [h s hs]
    rfl
  rw [List.foldlM_map, foldlM_eq_ok hs, ← foldl_addFinal, List.foldl_map]

theorem foldlM_addEdge {ms : List ((State × Symbol) × State)}
    (hs : ∀ m ∈ ms, resolve (name m.1.1) = .ok (r m.1.1))
    (ht : ∀ m ∈ ms, resolve (name m.2) = .ok (r m.2)) (D : Dfa) :
    (ms.map fun m => (⟨name m.1.1, name m.2, some m.1.2.toString⟩ : Document.Edge S)).foldlM
      (addEdge resolve) D = (ms.map (renumberMove r)).foldlM addMove D := by
  have hm : ∀ m ∈ ms, ∀ D, addEdge resolve D ⟨name m.1.1, name m.2, some m.1.2.toString⟩ =
      addMove D (renumberMove r m) := by
    intro m hm D
    unfold addEdge
    rw [hs m hm, ht m hm]
    show (do let c ← Document.symbol m.1.2.toString; D.addTransition (r m.1.1) c (r m.2)) = _
    rw [Document.symbol_toString]
    rfl
  rw [List.foldlM_map, List.foldlM_map, foldlM_congr hm]

theorem ofListingBy_toListingBy {D D' : Dfa}
    (hr : D.AllStates fun s => resolve (name s) = .ok (r s)) (hA : D.OverAlphabet)
    (h : D.Renumbered r D') (hm : D'.members = none) :
    ofListingBy resolve (D.toListingBy name) = D'.check.map fun _ => D' := by
  have hsymbols : (D.toListingBy name).symbols = .ok D.alphabet :=
    Document.alphabet_symbolTexts D.alphabet
  have hmoves := h.foldlM_moves hA
    (E := { start := r D.start, alphabet := D.alphabet, states := D'.states }) rfl rfl
  unfold ofListingBy
  rw [hsymbols, ok_bind]
  simp only [toListingBy, hr.start, foldlM_declareState hr.states, foldlM_declareFinal hr.finals,
    foldlM_addEdge hr.sources hr.targets, h.insertAll_states, h.insertAll_finals, hmoves,
    h.eq_of_parts hm, ok_bind]
  cases D'.check <;> rfl

/-- What is read has passed its check. -/
theorem check_of_ofListingBy {d : Document.Listing S} {D : Dfa} (h : ofListingBy resolve d = .ok D) :
    D.check = .ok () := by
  unfold ofListingBy at h
  obtain ⟨A, -, h⟩ := bind_eq_ok.mp h
  obtain ⟨q, -, h⟩ := bind_eq_ok.mp h
  obtain ⟨D₁, -, h⟩ := bind_eq_ok.mp h
  obtain ⟨D₂, -, h⟩ := bind_eq_ok.mp h
  obtain ⟨D₃, -, h⟩ := bind_eq_ok.mp h
  obtain ⟨u, hc, h⟩ := bind_eq_ok.mp h
  cases h
  exact hc

end

/-! ## Numbers -/

theorem ofListing_toListing {D : Dfa} (hA : D.OverAlphabet) :
    ofListing D.toListing = D.check.map fun _ => { D with members := none } := by
  have hfix : D.AllStates fun s => id s = s :=
    ⟨rfl, fun _ _ => rfl, fun _ _ => rfl, fun _ _ => rfl, fun _ _ => rfl⟩
  have hr : D.AllStates fun s => (.ok (id s) : Except Flaw State) = .ok (id s) :=
    hfix.imp fun s hs => congrArg _ hs
  exact ofListingBy_toListingBy hr hA (renumbered_of_fixed hfix none) rfl

/-! ## Member lists -/

section
variable {D D' : Dfa}

/-- The members of a state as a set; a state whose members are not known is alone in its set. -/
def memberSet (D : Dfa) (s : State) : StateSet := SortedSet.ofList (D.membersOrSelf s)

/-- The lists that are written are in order already. -/
theorem toList_memberSet (D : Dfa) (s : State) : (D.memberSet s).toList = D.membersOrSelf s := by
  unfold memberSet membersOrSelf
  cases D.members? s with
  | none => rfl
  | some S =>
    dsimp only
    rw [SortedSet.ofList_toList]

theorem memberSet_inj {s t : State} :
    D.memberSet s = D.memberSet t ↔ D.membersOrSelf s = D.membersOrSelf t := by
  rw [← toList_memberSet, ← toList_memberSet]
  exact ⟨congrArg SortedSet.toList, SortedSet.ext_toList⟩

theorem toldApart_memberSet : D.states.ToldApart D.memberSet ↔ D.states.ToldApart D.membersOrSelf := by
  unfold SortedSet.ToldApart
  simp only [memberSet_inj]

/-- The sets that are declared by the listing with member lists. -/
theorem map_states_toMemberListing :
    D.toMemberListing.states.map SortedSet.ofList = D.states.toList.map D.memberSet :=
  List.map_map

theorem ofMemberListing_of_renumbered (hc : D.check = .ok ())
    (hn : D.states.ToldApart D.membersOrSelf) (h : D.Renumbered D.states.countBelow D')
    (hm : D'.members = none) :
    ofMemberListing D.toMemberListing =
      .ok { D' with members := some (D.states.toList.map D.memberSet) } := by
  have hn := toldApart_memberSet.mpr hn
  obtain ⟨hs, hA⟩ := check_eq_ok.mp hc
  have hr : D.AllStates fun s => Document.locate shownMembers (D.states.toList.map D.memberSet)
      (SortedSet.ofList (D.membersOrSelf s)) = .ok (D.states.countBelow s) :=
    hs.imp fun s hs => Document.locate_eq_ok hn hs
  have hread : ofListingBy (fun ss => Document.locate shownMembers (D.states.toList.map D.memberSet)
      (SortedSet.ofList ss)) D.toMemberListing = D'.check.map fun _ => D' :=
    ofListingBy_toListingBy hr hA h hm
  unfold ofMemberListing
  dsimp only
  rw [map_states_toMemberListing, Document.declare_eq_ok hn, ok_bind, hread, h.check_eq_ok hc]
  rfl

theorem ofMemberListing_of_repeated (hn : ¬ D.states.ToldApart D.membersOrSelf) :
    ∃ s ∈ D.states, ∃ t ∈ D.states, s ≠ t ∧ D.membersOrSelf s = D.membersOrSelf t ∧
      ofMemberListing D.toMemberListing =
        .error (.repeatedName (Text.bracketed (D.membersOrSelf s))) := by
  obtain ⟨s, hs, t, ht, hst, he, hdeclare⟩ := Document.declare_eq_error (mt toldApart_memberSet.mp hn)
  refine ⟨s, hs, t, ht, hst, memberSet_inj.mp he, ?_⟩
  unfold ofMemberListing
  dsimp only
  rw [map_states_toMemberListing, hdeclare, error_bind, shownMembers, toList_memberSet]

end

/-- An automaton over sets is read back as it was. -/
theorem ofMemberListing_of_powerset {N : Nfa} {A : Alphabet} {found : List StateSet} {D : Dfa}
    (h : N.Powerset A found D) : ofMemberListing D.toMemberListing = .ok D := by
  have hc := h.check_eq_ok
  have hfix := (check_eq_ok.mp hc).1.imp fun s hs => h.countBelow_states hs
  have hn : D.states.ToldApart D.membersOrSelf := by
    rw [← SortedSet.nodup_map_iff, h.map_membersOrSelf]
    exact h.chart.nodup.map fun _ _ => SortedSet.ext_toList
  have hsets : D.states.toList.map D.memberSet = found := by
    have hcomp : D.memberSet = SortedSet.ofList ∘ D.membersOrSelf := rfl
    rw [hcomp, ← List.map_map, h.map_membersOrSelf, List.map_map]
    exact (List.map_congr_left fun S _ => SortedSet.ofList_toList S).trans (List.map_id _)
  rw [ofMemberListing_of_renumbered hc hn (renumbered_of_fixed hfix none) rfl, hsets, ← h.members]

/-- An automaton that is written with member lists is read back under the ranks of its states, as long
as the lists tell its states apart; otherwise the reader names a list that belongs to two of them. What
was determinized is read back as it was. -/
theorem ofMemberListing_toMemberListing :
    (∀ D : Dfa, D.check = .ok () →
      (D.states.ToldApart D.membersOrSelf →
        ∃ D', ofMemberListing D.toMemberListing = .ok D' ∧ D.Renumbered D.states.countBelow D' ∧
          (∀ s ∈ D.states,
            (D'.members? (D.states.countBelow s)).map SortedSet.toList = some (D.membersOrSelf s)) ∧
          ∀ w, D'.run w = (D.run w).map D.states.countBelow) ∧
      (¬ D.states.ToldApart D.membersOrSelf →
        ∃ s ∈ D.states, ∃ t ∈ D.states, s ≠ t ∧ D.membersOrSelf s = D.membersOrSelf t ∧
          ofMemberListing D.toMemberListing =
            .error (.repeatedName (Text.bracketed (D.membersOrSelf s))))) ∧
    ∀ (N : Nfa) (A : Alphabet) (D : Dfa), N.determinizeOver A = .ok D →
      ofMemberListing D.toMemberListing = .ok D := by
  refine ⟨fun D hc => ⟨fun hn => ?_, ofMemberListing_of_repeated⟩, fun N A D hD => ?_⟩
  · obtain ⟨hs, -⟩ := check_eq_ok.mp hc
    have hr := D.states.toldApart_countBelow
    obtain ⟨D', h, hm⟩ := exists_renumbered hs hr
    have h' := h.withMembers (some (D.states.toList.map D.memberSet))
    refine ⟨_, ofMemberListing_of_renumbered hc hn h hm, h', fun s hs => ?_, h'.run_eq hs hr⟩
    · have hmem : (D.states.toList.map D.memberSet)[D.states.countBelow s]? = some (D.memberSet s) := by
        rw [List.getElem?_map, SortedSet.getElem?_countBelow hs, Option.map_some]
      show ((D.states.toList.map D.memberSet)[D.states.countBelow s]?).map SortedSet.toList = _
      rw [hmem, Option.map_some, toList_memberSet]
  · obtain ⟨found, h⟩ := Nfa.exists_powerset hD
    exact ofMemberListing_of_powerset h

/-- A state that was added later and whose members are not known does no harm unless its number is the
only member of another state. -/
theorem ofMemberListing_toMemberListing_later_state :
    let D := { build (Alphabet.ofString "ab") 0 [.state 0, .state 1, .state 5, .final 5,
                 .transition 1 'b' 5, .transition 0 'a' 1, .transition 5 'a' 0] with
               members := some [SortedSet.ofList [0, 2], SortedSet.singleton 1] }
    let E := { build (Alphabet.ofString "a") 0 [.state 0, .state 5] with
               members := some [SortedSet.singleton 5] }
    let N := Nfa.build 0 [.state 0, .state 1, .transition ⟨0, .silent, 1⟩,
      .transition ⟨1, .symbol 'a', 0⟩, .final 1]
    (D.check = .ok () ∧ D.states.ToldApart D.membersOrSelf ∧
      ∃ D', ofMemberListing D.toMemberListing = .ok D' ∧ D'.run ['a', 'b'] = ⟨[0, 1, 2], none⟩) ∧
    (E.check = .ok () ∧ ¬ E.states.ToldApart E.membersOrSelf ∧
      ∃ s ∈ E.states, ofMemberListing E.toMemberListing =
        .error (.repeatedName (Text.bracketed (E.membersOrSelf s)))) ∧
    ∃ F, N.determinizeOver (Alphabet.ofString "a") = .ok F ∧
      ofMemberListing F.toMemberListing = .ok F := by
  intro D E N
  have hD : D.check = .ok () := by decide
  have hn : D.states.ToldApart D.membersOrSelf := SortedSet.nodup_map_iff.mp (by decide)
  have hE : E.check = .ok () := by decide
  have hn' : ¬ E.states.ToldApart E.membersOrSelf := mt SortedSet.nodup_map_iff.mpr (by decide)
  have hN : N.check = .ok () := by decide
  obtain ⟨F, found, hF, -⟩ := Nfa.determinizeOver_eq_ok hN (Alphabet.ofString "a")
  obtain ⟨D', hD', -, -, hrun⟩ := (ofMemberListing_toMemberListing.1 D hD).1 hn
  obtain ⟨s, hs, -, -, -, -, he⟩ := (ofMemberListing_toMemberListing.1 E hE).2 hn'
  refine ⟨⟨hD, hn, D', hD', (hrun _).trans (by decide)⟩, ⟨hE, hn', s, hs, he⟩, F, hF, ?_⟩
  exact ofMemberListing_toMemberListing.2 N (Alphabet.ofString "a") F hF

end Recognizer.Dfa

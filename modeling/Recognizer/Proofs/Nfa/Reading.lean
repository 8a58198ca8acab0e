import Recognizer.Proofs.Document.WellFormed
import Recognizer.Proofs.Nfa.Listing

/-!
# Which listings can be read as automata with silent moves

A listing may have many flaws at once, and `Nfa.flaws` has all of them in the order in which they are
looked for. Reading fails with the first one, or with none if the listing is well-formed, and then makes
an automaton with just the content of the listing (`Nfa.ofListing_wellFormed`).
-/

namespace Recognizer.Nfa

set_option autoImplicit false

open Document (Edge Listing IsSymbol)

variable {N : Nfa} {A : Alphabet} {d : Listing State}

/-! ## Symbols of edges -/

/-- The label of an edge, silent if its text is no symbol. -/
def labelOf (e : Edge State) : Label := .ofOption (e.symbol.bind Text.onlyChar?)

def transitionOf (e : Edge State) : Transition := ⟨e.source, labelOf e, e.target⟩

/-- What is wrong with the text of an edge, where the alphabet is written as `texts`. -/
def textFlaw? (texts : List String) (x : String) : Option Flaw :=
  match Text.onlyChar? x with
  | none => some (.notSymbol x)
  | some c => if x ∈ texts then none else some (.foreignSymbol c)

theorem textFlaw?_eq_none {texts : List String} {x : String} :
    textFlaw? texts x = none ↔ IsSymbol x ∧ x ∈ texts := by
  unfold textFlaw?
  cases hx : Text.onlyChar? x with
  | none =>
    simp only [reduceCtorEq, false_iff]
    rintro ⟨⟨c, hc⟩, -⟩
    cases hx.symm.trans (Document.onlyChar?_eq_some.mpr hc)
  | some c =>
    have hs : IsSymbol x := ⟨c, Document.onlyChar?_eq_some.mp hx⟩
    simp [hs]

theorem fault?_edgeLabel {texts : List String} (hA : ∀ c : Symbol, c ∈ A ↔ c.toString ∈ texts)
    (symbol : Option String) : fault? (edgeLabel A symbol) = symbol.bind (textFlaw? texts) := by
  cases symbol with
  | none => rfl
  | some x =>
    rw [Option.bind_some, edgeLabel, textFlaw?, Document.symbol]
    cases hx : Text.onlyChar? x with
    | none => rfl
    | some c =>
      rw [Document.onlyChar?_eq_some.mp hx]
      simp only [ok_bind, hA]
      split <;> rfl

theorem edgeLabel_eq_ok {symbol : Option String} {l : Label} (h : edgeLabel A symbol = .ok l) :
    l = .ofOption (symbol.bind Text.onlyChar?) := by
  cases symbol with
  | none =>
    cases h
    rfl
  | some x =>
    obtain ⟨c, hc, h⟩ := bind_eq_ok.mp h
    split at h
    · cases h
      obtain rfl := Document.symbol_eq_ok.mp hc
      rw [Option.bind_some, Document.onlyChar?_eq_some.mpr rfl]
      rfl
    · cases h

theorem fault?_addEdge {texts : List String} (hA : ∀ c : Symbol, c ∈ A ↔ c.toString ∈ texts)
    (N : Nfa) (e : Edge State) : fault? (addEdge A N e) = e.symbol.bind (textFlaw? texts) := by
  rw [← fault?_edgeLabel hA, addEdge]
  cases edgeLabel A e.symbol <;> rfl

theorem addEdge_eq_ok {N' : Nfa} {e : Edge State} (h : addEdge A N e = .ok N') :
    N' = N.addTransition (transitionOf e) := by
  obtain ⟨l, hl, h⟩ := bind_eq_ok.mp h
  cases h
  rw [edgeLabel_eq_ok hl]
  rfl

/-! ## Edits that a listing asks for -/

def edits (A : Alphabet) (d : Listing State) : List Edit :=
  d.states.map .state ++ A.toList.map .symbol ++ (d.edges.map transitionOf).map .transition ++
    d.finals.map .final

theorem build_edits {N : Nfa} (h : d.edges.foldlM (addEdge A)
      (build d.initial (d.states.map .state ++ A.toList.map .symbol)) = .ok N) :
    d.finals.foldl addFinal N = build d.initial (edits A d) := by
  rw [foldlM_eq_foldl (fun _ _ _ => addEdge_eq_ok) h]
  simp only [build, edits, List.foldl_append, List.foldl_map, edit]

theorem filterMap_edits : (edits A d).filterMap Edit.transition? = d.edges.map transitionOf := by
  simp [edits, Edit.transition?, List.filterMap_map, Function.comp_def]

theorem states_build_edits : (build d.initial (edits A d)).states = SortedSet.ofList d.states :=
  SortedSet.ext_mem fun s => by simp [edits]

theorem finals_build_edits : (build d.initial (edits A d)).finals = SortedSet.ofList d.finals :=
  SortedSet.ext_mem fun s => by simp [edits]

theorem transitions_build_edits :
    (build d.initial (edits A d)).transitions = inGroups (d.edges.map transitionOf) := by
  rw [transitions_build, filterMap_edits]

/-! ## All flaws of a listing -/

/-- Texts of the alphabet that are no symbols, texts of edges that are none or are not in the alphabet,
and states in use that are not listed, where transitions stand in their groups. -/
def flaws (d : Listing State) : List Flaw :=
  (d.alphabetTexts.filter fun x => ¬ IsSymbol x).map .notSymbol ++
    (d.edges.filterMap (fun e => e.symbol.bind (textFlaw? d.alphabetTexts)) ++
      undeclared (SortedSet.ofList d.states) d.initial (SortedSet.ofList d.finals)
        (inGroups (d.edges.map transitionOf)))

theorem fault?_ofListing (d : Listing State) : fault? (ofListing d) = (flaws d).head? := by
  unfold ofListing flaws
  rw [List.head?_append, List.head?_append, ← Document.fault?_alphabet, ← Listing.symbols_eq,
    List.head?_filterMap]
  refine fault?_bind fun A hA => ?_
  have hmem := (Document.alphabet_eq_ok.mp (d.symbols_eq ▸ hA)).2
  rw [← fault?_foldlM (fun e _ N => fault?_addEdge hmem N e)]
  refine fault?_bind fun N hN => ?_
  rw [build_edits hN]
  show fault? ((build d.initial (edits A d)).check.map fun _ => _) = _
  rw [fault?_map, fault?_check, defect?_eq_head?, initial_build, states_build_edits,
    finals_build_edits, transitions_build_edits]

theorem flaws_eq_nil : flaws d = [] ↔ d.WellFormed := by
  have htexts : (d.alphabetTexts.filter fun x => ¬ IsSymbol x).map Flaw.notSymbol = [] ↔
      ∀ x ∈ d.alphabetTexts, IsSymbol x := by
    simp [List.filter_eq_nil_iff]
  have hedges : d.edges.filterMap (fun e => e.symbol.bind (textFlaw? d.alphabetTexts)) = [] ↔
      ∀ e ∈ d.edges, ∀ x, e.symbol = some x → IsSymbol x ∧ x ∈ d.alphabetTexts := by
    simp only [List.filterMap_eq_nil_iff, Option.bind_eq_none_iff, textFlaw?_eq_none]
  rw [Listing.wellFormed_iff, flaws, List.append_eq_nil_iff, List.append_eq_nil_iff, htexts, hedges,
    undeclared_eq_nil, ← and_assoc]
  simp only [SortedSet.mem_ofList, mem_inGroups, List.forall_mem_map, transitionOf]
  refine and_congr_left fun _ => and_congr_right fun ht => ?_
  exact forall₂_congr fun e _ => forall₂_congr fun x _ => and_iff_right_of_imp (ht x)

/-! ## Reading -/

/-- An automaton has what a listing says, whatever the order and the number of times it is said. -/
structure Describes (d : Listing State) (N : Nfa) : Prop where
  initial : N.initial = d.initial
  states : ∀ s, s ∈ N.states ↔ s ∈ d.states
  finals : ∀ s, s ∈ N.finals ↔ s ∈ d.finals
  alphabet : ∀ c : Symbol, c ∈ N.alphabet ↔ c.toString ∈ d.alphabetTexts
  transitions : ∀ e, e ∈ N.transitions.map toEdge ↔ e ∈ d.edges

theorem toEdge_transitionOf {e : Edge State} (h : ∀ x, e.symbol = some x → IsSymbol x) :
    toEdge (transitionOf e) = e := by
  obtain ⟨s, t, symbol⟩ := e
  cases symbol with
  | none => rfl
  | some x =>
    obtain ⟨c, rfl⟩ := h x rfl
    unfold toEdge transitionOf labelOf
    rw [Option.bind_some, Document.onlyChar?_eq_some.mpr rfl]
    rfl

theorem symbol_of_labelOf {e : Edge State} {c : Symbol} (h : labelOf e = .symbol c) :
    e.symbol = some c.toString := by
  have hc : e.symbol.bind Text.onlyChar? = some c := by
    unfold labelOf at h
    cases he : e.symbol.bind Text.onlyChar? with
    | none =>
      rw [he] at h
      cases h
    | some c' =>
      rw [he] at h
      cases h
      rfl
  obtain ⟨x, hx, hxc⟩ := Option.bind_eq_some_iff.mp hc
  rw [hx, Document.onlyChar?_eq_some.mp hxc]

theorem describes_build_edits (hd : d.WellFormed) (hA : d.symbols = .ok A) :
    Describes d (build d.initial (edits A d)) where
  initial := initial_build
  states s := by rw [states_build_edits, SortedSet.mem_ofList]
  finals s := by rw [finals_build_edits, SortedSet.mem_ofList]
  alphabet c := by
    have hmem : c ∈ A ↔ c.toString ∈ d.alphabetTexts :=
      (Document.alphabet_eq_ok.mp (d.symbols_eq ▸ hA)).2 c
    have hused : ∀ e ∈ d.edges, labelOf e = .symbol c → c ∈ A := fun e he hc =>
      hmem.mpr ((Listing.wellFormed_iff.mp hd).1.2 e he _ (symbol_of_labelOf hc))
    rw [← hmem, mem_alphabet_build]
    simp only [edits, List.mem_append, List.mem_map, reduceCtorEq, and_false, exists_false, or_false,
      false_or, Edit.symbol.injEq, exists_eq_right, SortedSet.mem_toList, Edit.transition.injEq]
    refine or_iff_left_of_imp ?_
    rintro ⟨-, ⟨e, he, rfl⟩, hc⟩
    exact hused e he hc
  transitions e := by
    have hback : (d.edges.map transitionOf).map toEdge = d.edges := by
      rw [List.map_map]
      exact (List.map_congr_left fun e he => toEdge_transitionOf (hd.symbols e he)).trans
        (List.map_id _)
    rw [transitions_build_edits, List.mem_map]
    simp only [mem_inGroups]
    rw [← List.mem_map, hback]

theorem ofListing_eq_ok (h : ofListing d = .ok N) :
    ∃ A, d.symbols = .ok A ∧ N = build d.initial (edits A d) := by
  obtain ⟨A, hA, h⟩ := bind_eq_ok.mp h
  obtain ⟨N', hN, h⟩ := bind_eq_ok.mp h
  obtain ⟨-, -, h⟩ := bind_eq_ok.mp h
  cases h
  exact ⟨A, hA, build_edits hN⟩

/-- A listing is read without complaint just when it is well-formed. The automaton then has what the
listing says, with its transitions in groups; otherwise the first flaw is reported, where flaws of the
alphabet come before those of edges, and those before states that are not declared. -/
theorem ofListing_wellFormed (d : Listing State) :
    ((∃ N, ofListing d = .ok N) ↔ d.WellFormed) ∧
    (∀ N, ofListing d = .ok N →
      Describes d N ∧ N.transitions = inGroups (d.edges.map transitionOf)) ∧
    ∀ m, ofListing d = .error m ↔ (flaws d).head? = some m := by
  have hok : (∃ N, ofListing d = .ok N) ↔ d.WellFormed := by
    rw [← fault?_eq_none, fault?_ofListing, List.head?_eq_none_iff, flaws_eq_nil]
  refine ⟨hok, fun N hN => ?_, fun m => ?_⟩
  · obtain ⟨A, hA, e⟩ := ofListing_eq_ok hN
    have hd := hok.mp ⟨N, hN⟩
    subst e
    exact ⟨describes_build_edits hd hA, transitions_build_edits⟩
  · rw [← fault?_ofListing, fault?_eq_some]

/-- Of the edges that enter undeclared states the one with the greater target is listed first, but
its group comes last. -/
theorem ofListing_wellFormed_groups :
    let d : Listing State :=
      ⟨[0, 1], none, 0, [1], [⟨0, 1, some "a"⟩, ⟨1, 7, some "b"⟩, ⟨0, 5, some "a"⟩, ⟨0, 1, none⟩]⟩
    let e : Listing State := { d with states := [7, 5, 1, 0] }
    ofListing d = .error (.endpoint 0 5) ∧
      e.WellFormed ∧ ∃ N, ofListing e = .ok N ∧ Describes e N ∧
        N.transitions =
          [⟨0, .symbol 'a', 1⟩, ⟨0, .symbol 'a', 5⟩, ⟨1, .symbol 'b', 7⟩, ⟨0, .silent, 1⟩] := by
  intro d e
  have hflaw : (flaws d).head? = some (.endpoint 0 5) := by decide
  have he : e.WellFormed := flaws_eq_nil.mp (by decide)
  obtain ⟨N, hN⟩ := (ofListing_wellFormed e).1.mpr he
  obtain ⟨hcontent, horder⟩ := (ofListing_wellFormed e).2.1 N hN
  exact ⟨((ofListing_wellFormed d).2.2 _).mpr hflaw, he, N, hN, hcontent, horder.trans (by decide)⟩

end Recognizer.Nfa

import Recognizer.Drawing
import Recognizer.Proofs.Dfa.Edits
import Recognizer.Proofs.Nfa.History
import Recognizer.Proofs.Text.Endings

/-!
# What drawings show

The statements of a drawing show where they end, whatever the symbols in their labels, and none of them
looks like one of another kind. So everything that is drawn can be read off the text, the order of the
transitions included (`Drawing.graph_inj`). A silent transition and one on the symbol `ε` alone look the
same (`Label.asDrawn`).
-/

namespace Recognizer

set_option autoImplicit false

/-! ## Labels -/

/-- The symbol U+03B5 is drawn as the silent label is. -/
def Label.asDrawn (l : Label) : Label := if l = .symbol '\u03b5' then .silent else l

def Transition.asDrawn (t : Transition) : Transition := { t with label := t.label.asDrawn }

theorem Label.text_asDrawn (l : Label) : l.asDrawn.text = l.text := by
  unfold asDrawn
  split
  · next h =>
    subst h
    rfl
  · rfl

theorem Label.asDrawn_eq_iff {l l' : Label} : l.asDrawn = l'.asDrawn ↔ l.text = l'.text := by
  constructor
  · intro h
    rw [← text_asDrawn l, h, text_asDrawn]
  · intro h
    cases l with
    | silent =>
      cases l' with
      | silent => rfl
      | symbol c =>
        obtain rfl := (List.cons.inj h).1
        rfl
    | symbol c =>
      cases l' with
      | silent =>
        obtain rfl := (List.cons.inj h).1
        rfl
      | symbol d => rw [(List.cons.inj h).1]

namespace Drawing

open Text (NoDigit noDigit_cons toDigits_append_inj flatMap_append_inj)

variable {s s' : State} {b b' : Bool} {cs ds : List Char} {t u : Transition} {r r' : List Char}

/-! ## Quoted labels -/

/-- Reads a label up to the quote that ends it. -/
def readLabel : List Char → Option (List Char × List Char)
  | [] => none
  | '"' :: r => some ([], r)
  | '\\' :: c :: r => (readLabel r).map fun x => (c :: x.1, x.2)
  | c :: r => (readLabel r).map fun x => (c :: x.1, x.2)

theorem readLabel_escaped (cs r : List Char) : readLabel (escaped cs ++ '"' :: r) = some (cs, r) := by
  induction cs with
  | nil => rfl
  | cons c cs ih =>
    have hcons : escaped (c :: cs) ++ '"' :: r =
        (if c = '\\' ∨ c = '"' then ['\\', c] else [c]) ++ (escaped cs ++ '"' :: r) := by
      rw [escaped, List.flatMap_cons, List.append_assoc]
      rfl
    rw [hcons]
    split
    · show (readLabel (escaped cs ++ '"' :: r)).map _ = _
      rw [ih]
      rfl
    · next hc =>
      rw [not_or] at hc
      rw [List.singleton_append, readLabel, ih]
      · rfl
      · exact hc.2
      · exact fun _ _ h _ => hc.1 h

theorem escaped_append_inj (h : escaped cs ++ '"' :: r = escaped ds ++ '"' :: r') : cs = ds ∧ r = r' := by
  have h := congrArg readLabel h
  rw [readLabel_escaped, readLabel_escaped] at h
  cases h
  exact ⟨rfl, rfl⟩

theorem labelled_append (cs r : List Char) :
    labelled cs ++ r = "label = \"".toList ++ (escaped cs ++ '"' :: ']' :: ';' :: r) :=
  (List.append_assoc ("label = \"".toList ++ escaped cs) _ r).trans (List.append_assoc _ _ _)

theorem labelled_append_inj (h : labelled cs ++ r = labelled ds ++ r') : cs = ds ∧ r = r' := by
  rw [labelled_append, labelled_append] at h
  obtain ⟨hcs, h⟩ := escaped_append_inj (List.append_cancel_left h)
  exact ⟨hcs, (List.cons.inj (List.cons.inj h).2).2⟩

/-! ## Statements -/

theorem node_append (s : State) (b : Bool) (cs r : List Char) : node s b cs ++ r =
    '\t' :: (number s ++ ' ' :: '[' :: ("shape = ".toList ++
      ((if b then "doublecircle".toList else "circle".toList) ++ (", ".toList ++ (labelled cs ++ r))))) := by
  simp only [node, List.append_assoc, List.cons_append]
  rfl

theorem edge_append (t : Transition) (r : List Char) : edge t ++ r =
    '\t' :: (number t.source ++ ' ' :: '-' :: ("> ".toList ++
      (number t.target ++ ' ' :: '[' :: (labelled t.label.text ++ r)))) := by
  simp only [edge, List.append_assoc, List.cons_append]
  rfl

theorem edge_asDrawn (t : Transition) : edge t.asDrawn = edge t := by
  unfold edge
  rw [Transition.asDrawn, Label.text_asDrawn]

theorem number_append_inj (h : number s ++ ' ' :: r = number s' ++ ' ' :: r') : s = s' ∧ r = r' := by
  obtain ⟨hs, h⟩ := toDigits_append_inj (noDigit_cons rfl) (noDigit_cons rfl) h
  exact ⟨hs, (List.cons.inj h).2⟩

theorem node_append_inj (h : node s b cs ++ r = node s' b' ds ++ r') :
    (s = s' ∧ b = b' ∧ cs = ds) ∧ r = r' := by
  rw [node_append, node_append] at h
  obtain ⟨hs, h⟩ := number_append_inj (List.cons.inj h).2
  have h := List.append_cancel_left (List.cons.inj h).2
  have hb : b = b' := by
    cases b <;> cases b'
    · rfl
    · exact nomatch h
    · exact nomatch h
    · rfl
  subst hb
  obtain ⟨hcs, hr⟩ := labelled_append_inj (List.append_cancel_left (List.append_cancel_left h))
  exact ⟨⟨hs, rfl, hcs⟩, hr⟩

theorem edge_append_inj (h : edge t ++ r = edge u ++ r') : t.asDrawn = u.asDrawn ∧ r = r' := by
  rw [edge_append, edge_append] at h
  obtain ⟨hsource, h⟩ := number_append_inj (List.cons.inj h).2
  obtain ⟨htarget, h⟩ := number_append_inj (List.append_cancel_left (List.cons.inj h).2)
  obtain ⟨hlabel, hr⟩ := labelled_append_inj (List.cons.inj h).2
  refine ⟨?_, hr⟩
  rw [Transition.asDrawn, Transition.asDrawn, hsource, htarget, Label.asDrawn_eq_iff.mpr hlabel]

theorem node_append_ne_edge_append : node s b cs ++ r ≠ edge t ++ r' := by
  intro h
  rw [node_append, edge_append] at h
  obtain ⟨-, h⟩ := number_append_inj (List.cons.inj h).2
  exact nomatch h

/-! ## Graphs -/

/-- A statement on a line of its own. -/
def line (cs : List Char) : List Char := cs ++ ['\n']

theorem line_append (cs r : List Char) : line cs ++ r = cs ++ '\n' :: r := List.append_assoc cs ['\n'] r

theorem lines_append {ss : List (List Char)} (h : ss ≠ []) (r : List Char) :
    lines ss ++ '\n' :: r = ss.flatMap line ++ r := by
  induction ss with
  | nil => exact absurd rfl h
  | cons cs ss ih =>
    cases ss with
    | nil => rw [lines, List.intercalate_singleton, List.flatMap_singleton, line_append]
    | cons ds ss =>
      have ih := ih (List.cons_ne_nil ds ss)
      rw [List.flatMap_cons, List.append_assoc, line_append, ← ih, lines, List.intercalate_cons_cons,
        List.append_assoc, List.append_assoc, List.singleton_append, lines]

/-- What stands after the edges. The line for them is empty if there are none. -/
def closing : List (List Char) → List Char
  | [] => "\n\x7d\n".toList
  | _ :: _ => "\x7d\n".toList

theorem lines_closing (edges : List (List Char)) :
    lines edges ++ "\n\x7d\n".toList = edges.flatMap line ++ closing edges := by
  cases edges with
  | nil => rfl
  | cons e es => exact lines_append (List.cons_ne_nil e es) _

/-- What stands before the number of the initial state. -/
def opening (name : String) : List Char :=
  "digraph ".toList ++ name.toList ++ " \x7b\n\trankdir = LR;\n\tstart [shape = point];\n".toList ++
    "\tstart -> ".toList

theorem graph_eq {nodes : List (List Char)} (h : nodes ≠ []) (name : String) (i : State)
    (edges : List (List Char)) : graph name i nodes edges =
      opening name ++ (number i ++ ';' :: '\n' ::
        (nodes.flatMap line ++ (edges.flatMap line ++ closing edges))) := by
  rw [← lines_closing, ← lines_append h]
  unfold graph
  generalize "\n\x7d\n".toList = close
  rw [List.append_assoc, List.append_assoc, List.append_assoc, List.append_assoc]
  rfl

theorem edge_append_ne_closing (es : List (List Char)) : edge t ++ r ≠ closing es := by
  intro h
  rw [edge_append] at h
  cases es with
  | nil => exact nomatch h
  | cons e es => exact nomatch h

theorem node_append_ne_edges (ts : List Transition) :
    node s b cs ++ r ≠ (ts.map edge).flatMap line ++ closing (ts.map edge) := by
  cases ts with
  | nil =>
    intro h
    rw [node_append] at h
    exact nomatch h
  | cons t ts =>
    rw [List.map_cons, List.flatMap_cons, List.append_assoc, line_append]
    exact node_append_ne_edge_append

theorem edges_inj {ts us : List Transition}
    (h : (ts.map edge).flatMap line ++ closing (ts.map edge) =
      (us.map edge).flatMap line ++ closing (us.map edge)) :
    ts.map Transition.asDrawn = us.map Transition.asDrawn := by
  have hedge : ∀ (t u : Transition) (r r' : List Char), True → True →
      line (edge t) ++ r = line (edge u) ++ r' → t.asDrawn = u.asDrawn ∧ r = r' := by
    intro t u r r' _ _ h
    rw [line_append, line_append] at h
    obtain ⟨htu, h⟩ := edge_append_inj h
    exact ⟨htu, (List.cons.inj h).2⟩
  have hstop : ∀ (es : List (List Char)) (t : Transition) (r : List Char),
      line (edge t) ++ r ≠ closing es := by
    intro es t r
    rw [line_append]
    exact edge_append_ne_closing es
  rw [List.flatMap_map, List.flatMap_map] at h
  exact (flatMap_append_inj Transition.asDrawn hedge (fun _ _ => trivial) trivial trivial (hstop _) (hstop _) h).1

/-- What a node is drawn from: the state, whether it is final, and its label. -/
abbrev Node := State × Bool × List Char

def Node.text (a : Node) : List Char := node a.1 a.2.1 a.2.2

theorem nodes_inj {as bs : List Node} {ts us : List Transition}
    (h : (as.map Node.text).flatMap line ++ ((ts.map edge).flatMap line ++ closing (ts.map edge)) =
      (bs.map Node.text).flatMap line ++ ((us.map edge).flatMap line ++ closing (us.map edge))) :
    as = bs ∧ ts.map Transition.asDrawn = us.map Transition.asDrawn := by
  have hnode : ∀ (a b : Node) (r r' : List Char), True → True →
      line a.text ++ r = line b.text ++ r' → id a = id b ∧ r = r' := by
    intro a b r r' _ _ h
    rw [line_append, line_append] at h
    obtain ⟨⟨hs, hf, hl⟩, h⟩ := node_append_inj h
    exact ⟨Prod.ext hs (Prod.ext hf hl), (List.cons.inj h).2⟩
  have hstop : ∀ (ts : List Transition) (a : Node) (r : List Char),
      line a.text ++ r ≠ (ts.map edge).flatMap line ++ closing (ts.map edge) := by
    intro ts a r
    rw [line_append]
    exact node_append_ne_edges ts
  rw [List.flatMap_map Node.text line as, List.flatMap_map Node.text line bs] at h
  obtain ⟨hab, h⟩ := flatMap_append_inj id hnode (fun _ _ => trivial) trivial trivial (hstop _) (hstop _) h
  rw [List.map_id, List.map_id] at hab
  exact ⟨hab, edges_inj h⟩

theorem graph_inj {name : String} {i i' : State} {as bs : List Node} {ts us : List Transition}
    (ha : as ≠ []) (hb : bs ≠ [])
    (h : graph name i (as.map Node.text) (ts.map edge) = graph name i' (bs.map Node.text) (us.map edge)) :
    i = i' ∧ as = bs ∧ ts.map Transition.asDrawn = us.map Transition.asDrawn := by
  rw [graph_eq (by simpa using ha), graph_eq (by simpa using hb)] at h
  obtain ⟨hi, h⟩ := toDigits_append_inj (noDigit_cons rfl) (noDigit_cons rfl) (List.append_cancel_left h)
  exact ⟨hi, nodes_inj (List.cons.inj (List.cons.inj h).2).2⟩

/-! ## Automata -/

/-- The graph of an automaton whose initial and final states are among its states. -/
theorem graph_states_inj {name : String} {i i' : State} {S S' F F' : StateSet}
    {label label' : State → List Char} {ts us : List Transition} (hi : i ∈ S) (hi' : i' ∈ S')
    (hF : ∀ s ∈ F, s ∈ S) (hF' : ∀ s ∈ F', s ∈ S')
    (h : graph name i (S.toList.map fun s => node s (F.contains s) (label s)) (ts.map edge) =
      graph name i' (S'.toList.map fun s => node s (F'.contains s) (label' s)) (us.map edge)) :
    i = i' ∧ S = S' ∧ F = F' ∧ ts.map Transition.asDrawn = us.map Transition.asDrawn ∧
      ∀ s ∈ S, label s = label' s := by
  have hnodes : ∀ (S F : StateSet) (label : State → List Char),
      (S.toList.map fun s => node s (F.contains s) (label s)) =
        (S.toList.map fun s => (s, F.contains s, label s)).map Node.text := by
    intro S F label
    rw [List.map_map]
    rfl
  have hne : ∀ {S : StateSet} {i : State} (f : State → Node), i ∈ S → S.toList.map f ≠ [] :=
    fun f hi => List.ne_nil_of_mem (List.mem_map_of_mem hi)
  rw [hnodes, hnodes] at h
  obtain ⟨hii, hstates, hts⟩ := graph_inj (hne _ hi) (hne _ hi') h
  have hfst : ∀ (S : StateSet) (f : State → Bool × List Char),
      (S.toList.map fun s => (s, f s)).map Prod.fst = S.toList := by
    intro S f
    rw [List.map_map]
    exact List.map_id _
  obtain rfl : S = S' := by
    apply SortedSet.ext_toList
    calc S.toList
      _ = (S.toList.map fun s => (s, F.contains s, label s)).map Prod.fst := (hfst S _).symm
      _ = (S'.toList.map fun s => (s, F'.contains s, label' s)).map Prod.fst := by rw [hstates]
      _ = S'.toList := hfst S' _
  have hall : ∀ s ∈ S, F.contains s = F'.contains s ∧ label s = label' s := fun s hs =>
    Prod.mk.inj (Prod.mk.inj (List.map_inj_left.mp hstates s hs)).2
  have hfinals : F = F' := by
    refine SortedSet.ext_mem fun s => ⟨fun hs => ?_, fun hs => ?_⟩
    · rwa [← SortedSet.contains_eq_true, ← (hall s (hF s hs)).1, SortedSet.contains_eq_true]
    · rwa [← SortedSet.contains_eq_true, (hall s (hF' s hs)).1, SortedSet.contains_eq_true]
  exact ⟨hii, rfl, hfinals, hts, fun s hs => (hall s hs).2⟩

end Drawing

open Drawing

namespace Dfa

variable {D E : Dfa} {s : State}

theorem members?_eq_of_label_eq (h : D.label s = E.label s) : D.members? s = E.members? s := by
  unfold label at h
  split at h
  · next S hS =>
    split at h
    · next T hT => rw [hS, hT, SortedSet.ext_toList (Text.bracketed_injective h)]
    · exact absurd h Text.bracketed_ne_repr
  · next hS =>
    split at h
    · exact absurd h.symm Text.bracketed_ne_repr
    · next hT => rw [hS, hT]

theorem label_eq_of_members?_eq (h : D.members? s = E.members? s) : D.label s = E.label s := by
  unfold label
  rw [h]

theorem transitions_eq_of_asDrawn
    (h : D.transitions.map Transition.asDrawn = E.transitions.map Transition.asDrawn) :
    D.transitions = E.transitions := by
  have hmove : Function.Injective fun m => (moveTransition m).asDrawn := by
    rintro ⟨⟨q, a⟩, p⟩ ⟨⟨q', a'⟩, p'⟩ h
    obtain ⟨rfl, hlabel, rfl⟩ := Transition.mk.injEq .. ▸ h
    obtain rfl := (List.cons.inj (Label.asDrawn_eq_iff.mp hlabel)).1
    rfl
  rw [transitions, transitions, List.map_map, List.map_map] at h
  rw [transitions, transitions, List.map_injective_iff.mpr hmove h]

theorem drawing_eq_iff (hD : D.check = .ok ()) (hE : E.check = .ok ()) :
    D.drawing = E.drawing ↔ D.start = E.start ∧ D.states = E.states ∧ D.finals = E.finals ∧
      D.transitions = E.transitions ∧ ∀ s ∈ D.states, D.members? s = E.members? s := by
  have hD := (check_eq_ok.mp hD).1
  have hE := (check_eq_ok.mp hE).1
  constructor
  · intro h
    obtain ⟨hstart, hstates, hfinals, hts, hlabel⟩ := graph_states_inj hD.start hE.start hD.finals hE.finals
      (String.ofList_injective h)
    refine ⟨hstart, hstates, hfinals, transitions_eq_of_asDrawn hts, fun s hs => ?_⟩
    exact members?_eq_of_label_eq (String.toList_inj.mp (hlabel s hs))
  · rintro ⟨hstart, hstates, hfinals, hts, hmembers⟩
    have hnodes : (D.states.toList.map fun s => node s (D.isFinal s) (D.label s).toList) =
        D.states.toList.map fun s => node s (E.isFinal s) (E.label s).toList := by
      refine List.map_congr_left fun s hs => ?_
      rw [isFinal, isFinal, hfinals, label_eq_of_members?_eq (hmembers s hs)]
    unfold drawing
    rw [hnodes, hstart, hstates, hts]

end Dfa

namespace Nfa

variable {N M : Nfa}

theorem drawing_eq_iff (hN : N.check = .ok ()) (hM : M.check = .ok ()) :
    N.drawing = M.drawing ↔ N.initial = M.initial ∧ N.states = M.states ∧ N.finals = M.finals ∧
      N.transitions.map Transition.asDrawn = M.transitions.map Transition.asDrawn := by
  obtain ⟨hNi, hNf, -⟩ := check_eq_ok.mp hN
  obtain ⟨hMi, hMf, -⟩ := check_eq_ok.mp hM
  constructor
  · intro h
    obtain ⟨hinitial, hstates, hfinals, hts, -⟩ := graph_states_inj hNi hMi hNf hMf (String.ofList_injective h)
    exact ⟨hinitial, hstates, hfinals, hts⟩
  · rintro ⟨hinitial, hstates, hfinals, hts⟩
    have hedges : ∀ ts : List Transition, ts.map edge = (ts.map Transition.asDrawn).map edge := by
      intro ts
      rw [List.map_map]
      exact List.map_congr_left fun t _ => (edge_asDrawn t).symm
    unfold drawing
    rw [hedges, hinitial, hstates, hfinals, hts, ← hedges]

end Nfa

/-- Two deterministic automata have the same drawing just when they have the same start, states, final
states and members of states, and the same transitions in the same order, whatever their symbols. For
automata with silent moves the same holds up to the symbol U+03B5, which is drawn as a silent label is. -/
theorem drawings_tell_apart :
    (∀ D E : Dfa, D.check = .ok () → E.check = .ok () →
      (D.drawing = E.drawing ↔ D.start = E.start ∧ D.states = E.states ∧ D.finals = E.finals ∧
        D.transitions = E.transitions ∧ ∀ s ∈ D.states, D.members? s = E.members? s)) ∧
    ∀ N M : Nfa, N.check = .ok () → M.check = .ok () →
      (N.drawing = M.drawing ↔ N.initial = M.initial ∧ N.states = M.states ∧ N.finals = M.finals ∧
        N.transitions.map Transition.asDrawn = M.transitions.map Transition.asDrawn) :=
  ⟨fun _ _ hD hE => Dfa.drawing_eq_iff hD hE, fun _ _ hN hM => Nfa.drawing_eq_iff hN hM⟩

/-- Symbols that are quoted or break the line, with two transitions in either order, and a symbol that looks
like no symbol. -/
theorem drawings_tell_apart_quotes :
    let D := Dfa.build (Alphabet.ofString "\"\\\n") 0
      [.state 0, .state 1, .transition 0 '"' 1, .transition 1 '\\' 0, .transition 0 '\n' 0]
    let E := Dfa.build (Alphabet.ofString "\"\\\n") 0
      [.state 0, .state 1, .transition 1 '\\' 0, .transition 0 '"' 1, .transition 0 '\n' 0]
    let N := Nfa.build 0 [.state 0, .transition ⟨0, .silent, 0⟩]
    let M := Nfa.build 0 [.state 0, .transition ⟨0, .symbol 'ε', 0⟩]
    D.check = .ok () ∧ E.check = .ok () ∧ D.drawing ≠ E.drawing ∧
      N.check = .ok () ∧ M.check = .ok () ∧ N.drawing = M.drawing ∧ N.transitions ≠ M.transitions := by
  intro D E N M
  have hD : D.check = .ok () := by rfl
  have hE : E.check = .ok () := by rfl
  have hN : N.check = .ok () := by rfl
  have hM : M.check = .ok () := by rfl
  refine ⟨hD, hE, fun h => ?_, hN, hM, ?_, by decide⟩
  · obtain ⟨-, -, -, hts, -⟩ := (drawings_tell_apart.1 D E hD hE).mp h
    exact absurd hts (by decide)
  · exact (drawings_tell_apart.2 N M hN hM).mpr ⟨rfl, rfl, rfl, rfl⟩

end Recognizer

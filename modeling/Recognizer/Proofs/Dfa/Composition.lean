import Recognizer.Proofs.Dfa.Renumbering

/-!
# Runs on words put together

A run that stops at a symbol never looks at what comes after it. Any other run is taken up by the run on
the rest of the word from the state that it ends in (`Dfa.runFrom_append`).
-/

namespace Recognizer

set_option autoImplicit false

/-! ## Runs one after the other -/

namespace Run

/-- The run ends at a symbol that it cannot follow, not at the end of its word. -/
def stopsEarly (x : Run) : Bool :=
  match x.rejection with
  | some (.foreign _) => true
  | some (.stuck _ _) => true
  | _ => false

/-- The state in which `x` ends and `y` starts is visited once. -/
def followedBy (x y : Run) : Run := { y with path := x.path ++ y.path.tail }

variable {x : Run} {q : State}

theorem last?_through (s : State) (h : x.last? = some q) : (x.through s).last? = some q := by
  unfold last? through at *
  rw [List.getLast?_cons, h, Option.getD_some]

end Run

namespace Dfa

variable {D : Dfa} {s : State} {u : List Symbol}

theorem exists_path (D : Dfa) (s : State) (w : List Symbol) : ∃ p, (D.runFrom s w).path = s :: p := by
  cases w with
  | nil => exact ⟨[], rfl⟩
  | cons c w =>
    rw [runFrom]
    split
    · exact ⟨[], rfl⟩
    · split
      · exact ⟨[], rfl⟩
      · exact ⟨_, rfl⟩

/-- What the first symbol of a word does to a run does not depend on the symbols behind it. -/
theorem runFrom_cons (D : Dfa) (s : State) (c : Symbol) :
    (∃ x : Run, x.stopsEarly = true ∧ ∀ w, D.runFrom s (c :: w) = x) ∨
    ∃ t, ∀ w, D.runFrom s (c :: w) = (D.runFrom t w).through s := by
  by_cases hc : c ∈ D.alphabet
  case neg => exact Or.inl ⟨⟨[s], some (.foreign c)⟩, rfl, fun w => by rw [runFrom, if_pos hc]⟩
  have hc : ¬ c ∉ D.alphabet := not_not_intro hc
  cases hn : D.next? s c with
  | none => exact Or.inl ⟨⟨[s], some (.stuck s c)⟩, rfl, fun w => by rw [runFrom, if_neg hc, hn]⟩
  | some t => exact Or.inr ⟨t, fun w => by rw [runFrom, if_neg hc, hn]⟩

theorem stopsEarly_nil (D : Dfa) (s : State) : (D.runFrom s []).stopsEarly = false := by
  rw [runFrom]
  cases D.isFinal s <;> rfl

theorem runFrom_append_of_stopsEarly (h : (D.runFrom s u).stopsEarly = true) (v : List Symbol) :
    D.runFrom s (u ++ v) = D.runFrom s u := by
  induction u generalizing s with
  | nil =>
    rw [stopsEarly_nil] at h
    cases h
  | cons c u ih =>
    rw [List.cons_append]
    rcases D.runFrom_cons s c with ⟨x, -, hx⟩ | ⟨t, ht⟩
    · rw [hx, hx]
    · rw [ht] at h
      rw [ht, ht, ih h]

theorem runFrom_append (h : (D.runFrom s u).stopsEarly = false) :
    ∃ q, (D.runFrom s u).last? = some q ∧
      ∀ v, D.runFrom s (u ++ v) = (D.runFrom s u).followedBy (D.runFrom q v) := by
  induction u generalizing s with
  | nil =>
    refine ⟨s, rfl, fun v => ?_⟩
    obtain ⟨p, hp⟩ := D.exists_path s v
    have e : (D.runFrom s []).path ++ (D.runFrom s v).path.tail = (D.runFrom s v).path := by
      rw [hp]
      rfl
    rw [Run.followedBy, e]
    rfl
  | cons c u ih =>
    rcases D.runFrom_cons s c with ⟨x, hstop, hx⟩ | ⟨t, ht⟩
    · rw [hx, hstop] at h
      cases h
    · rw [ht] at h ⊢
      obtain ⟨q, hq, happ⟩ := ih h
      refine ⟨q, Run.last?_through s hq, fun v => ?_⟩
      rw [List.cons_append, ht, happ]
      rfl

/-- A run does not ask where the automaton itself would start. -/
theorem runFrom_start (D : Dfa) (q s : State) (w : List Symbol) :
    ({ D with start := q } : Dfa).runFrom s w = D.runFrom s w := by
  induction w generalizing s with
  | nil => rfl
  | cons c w ih =>
    rw [runFrom, runFrom]
    simp only [ih]
    rfl

/-! ## What a run records -/

theorem Trace.linked {p : List State} {r : State} (h : D.Trace s u p r) {i : Nat} {q q' : State}
    (hq : p[i]? = some q) (hq' : p[i + 1]? = some q') :
    ∃ c, u[i]? = some c ∧ D.next? q c = some q' := by
  induction h generalizing i with
  | nil => cases hq'
  | @cons s t r c u p _ hn ht ih =>
    cases i with
    | zero =>
      cases hq
      have htp : p[0]? = some t := by
        cases ht with
        | nil => rfl
        | cons _ _ _ => rfl
      cases htp.symm.trans hq'
      exact ⟨c, rfl, hn⟩
    | succ i => exact ih hq hq'

theorem Halts.eq_nil_iff {r : State} {v : List Symbol} {x : Option Rejection} (h : D.Halts r v x) :
    v = [] ↔ x = none ∨ ∃ q, x = some (.notFinal q) := by
  cases h <;> simp

theorem Halts.eq_of_state? {r q : State} {v : List Symbol} {x : Option Rejection}
    (h : D.Halts r v x) (hq : x.bind Rejection.state? = some q) : r = q := by
  cases h with
  | accepting => cases hq
  | notFinal => exact Option.some.inj hq
  | foreign => cases hq
  | stuck => exact Option.some.inj hq

/-- The path of a run on `w` starts where `D` starts and passes one transition for each symbol that is read;
all symbols are read unless the run stops early. -/
structure Records (D : Dfa) (w : List Symbol) (x : Run) : Prop where
  start : x.path.head? = some D.start
  linked : ∀ i q r, x.path[i]? = some q → x.path[i + 1]? = some r →
    ∃ c, w[i]? = some c ∧ D.next? q c = some r
  length_iff : x.path.length = w.length + 1 ↔
    x.accepted = true ∨ ∃ s, x.rejection = some (.notFinal s)
  last : ∀ s, x.rejection.bind Rejection.state? = some s → x.last? = some s
  declared : D.check = .ok () → ∀ s ∈ x.path, s ∈ D.states

theorem records_run (D : Dfa) (w : List Symbol) : D.Records w (D.run w) := by
  obtain ⟨p, hp⟩ := D.exists_path D.start w
  obtain ⟨u, v, r, hw, ht, hh⟩ := D.runFrom_trace D.start w
  change D.Trace D.start u (D.run w).path r at ht
  change D.Halts r v (D.run w).rejection at hh
  refine ⟨congrArg List.head? hp, fun i q q' hq hq' => ?_, ?_, fun s hs => ?_, fun hD => ?_⟩
  · obtain ⟨c, hc, hn⟩ := ht.linked hq hq'
    have hi := (List.getElem?_eq_some_iff.mp hc).1
    exact ⟨c, by rw [hw, List.getElem?_append_left hi, hc], hn⟩
  · have hv : (D.run w).path.length = w.length + 1 ↔ v = [] := by
      rw [ht.length_eq, hw, List.length_append, ← List.length_eq_zero_iff]
      omega
    rw [hv, hh.eq_nil_iff, Run.accepted, Option.isNone_iff_eq_none]
  · rw [← hh.eq_of_state? hs]
    exact ht.getLast?_eq
  · exact AllStates.mem_run_path (Dfa.check_eq_ok.mp hD).1 w

/-- Runs on words put together are made of runs on their parts: the one on the first part alone if it stops
early, else that one with the run on the second part behind it, which starts where the first one ends. Every
run starts in the start state, passes from state to state by the transitions on the symbols of its word,
reads all of them unless it stops early, blames no state but the last, and stays among declared states
where nothing undeclared is used. -/
theorem run_concatenation (D : Dfa) :
    (∀ u v, (D.run u).stopsEarly = true → D.run (u ++ v) = D.run u) ∧
    (∀ u v, (D.run u).stopsEarly = false → ∃ q, (D.run u).last? = some q ∧
      D.run (u ++ v) = (D.run u).followedBy (({ D with start := q } : Dfa).run v)) ∧
    ∀ w, D.Records w (D.run w) := by
  refine ⟨fun u v h => runFrom_append_of_stopsEarly h v, fun u v h => ?_, D.records_run⟩
  obtain ⟨q, hq, happ⟩ := runFrom_append h
  refine ⟨q, hq, ?_⟩
  have hv : ({ D with start := q } : Dfa).run v = D.runFrom q v := D.runFrom_start q q v
  rw [hv]
  exact happ v

/-- The second automaton declares nothing. -/
theorem run_concatenation_loop :
    let D := Dfa.build (Alphabet.ofString "ab") 0 [.state 0, .state 3, .transition 0 'a' 3,
      .transition 3 'b' 0, .final 3]
    let E := Dfa.build (Alphabet.ofString "a") 5 [.transition 5 'a' 5]
    (D.run ['a', 'a']).stopsEarly = true ∧ D.run ['a', 'a', 'b'] = D.run ['a', 'a'] ∧
      D.check = .ok () ∧ (∀ s ∈ (D.run ['a', 'b']).path, s ∈ D.states) ∧
      (E.run ['a']).stopsEarly = false ∧ ∃ q, (E.run ['a']).last? = some q ∧
        E.run ['a', 'c'] = (E.run ['a']).followedBy (({ E with start := q } : Dfa).run ['c']) := by
  intro D E
  have hstop : (D.run ['a', 'a']).stopsEarly = true := by decide
  have hgo : (E.run ['a']).stopsEarly = false := by decide
  have hD : D.check = .ok () := by rfl
  exact ⟨hstop, (run_concatenation D).1 ['a', 'a'] ['b'] hstop, hD,
    ((run_concatenation D).2.2 ['a', 'b']).declared hD, hgo,
    (run_concatenation E).2.1 ['a'] ['c'] hgo⟩

end Dfa

end Recognizer

import Recognizer.Proofs.Dfa.Edits
import Recognizer.Proofs.Dfa.Lockstep
import Recognizer.Proofs.Dfa.Trace
import Recognizer.Proofs.Positions
import Recognizer.Report

/-!
# Automata with other numbers for their states

An automaton whose states are called by other numbers runs in step with the one it was made of, as
long as no two declared states get the same number (`Dfa.Renumbered.run_eq`). Where states are shown by
names, nothing can be told apart (`Dfa.Renumbered.text_eq`).
-/

namespace Recognizer

set_option autoImplicit false

/-! ## Runs under other numbers -/

def Rejection.map (r : State → State) : Rejection → Rejection
  | foreign c => foreign c
  | stuck s c => stuck (r s) c
  | notFinal s => notFinal (r s)

/-- The run that visits `r s` wherever `x` visits `s`. -/
def Run.map (r : State → State) (x : Run) : Run :=
  { path := x.path.map r, rejection := x.rejection.map (Rejection.map r) }

theorem Run.InStep.eq_map {r : State → State} {R : State → State → Prop} {x y : Run}
    (h : x.InStep R y) (hR : ∀ q s, R q s → q = r s) : x = y.map r := by
  obtain ⟨p, j⟩ := x
  obtain ⟨p', j'⟩ := y
  obtain ⟨hp, hj⟩ := h
  have ep : p = p'.map r := by
    rw [← List.forall₂_eq_eq_eq, List.forall₂_map_right_iff]
    exact hp.imp hR
  have ej : j = j'.map (Rejection.map r) := by
    cases hj with
    | none => rfl
    | some h =>
      cases h with
      | foreign => rfl
      | stuck c h => rw [hR _ _ h]; rfl
      | notFinal h => rw [hR _ _ h]; rfl
  exact congrArg₂ Run.mk ep ej

/-! ## Reports under other numbers -/

namespace Report

variable {word : String} {x : Run}

theorem text_map (r : State → State) (name : State → String) :
    ({ word, run := x.map r, name } : Report).text =
      ({ word, run := x, name := name ∘ r } : Report).text := by
  obtain ⟨p, j⟩ := x
  have hp : ({ word, run := Run.map r ⟨p, j⟩, name } : Report).path =
      ({ word, run := ⟨p, j⟩, name := name ∘ r } : Report).path := by
    unfold path
    rw [Run.map, List.map_map]
  unfold text
  rw [hp]
  rcases j with _ | _ | _ | _ <;> rfl

/-- Only the names of states on the path and of the state that is blamed are shown. -/
theorem text_congr {name name' : State → String} (hp : ∀ s ∈ x.path, name s = name' s)
    (hj : ∀ s, x.rejection.bind Rejection.state? = some s → name s = name' s) :
    ({ word, run := x, name } : Report).text = ({ word, run := x, name := name' } : Report).text := by
  obtain ⟨p, j⟩ := x
  have hp : ({ word, run := ⟨p, j⟩, name } : Report).path =
      ({ word, run := ⟨p, j⟩, name := name' } : Report).path := by
    unfold path
    rw [List.map_congr_left hp]
  unfold text
  rw [hp]
  rcases j with _ | c | ⟨s, c⟩ | s
  · rfl
  · rfl
  · dsimp only
    rw [hj s rfl]
  · dsimp only
    rw [hj s rfl]

end Report

namespace Dfa

/-! ## Declared states -/

/-- Where all states in use are declared, runs visit declared states only. -/
theorem AllStates.mem_run_path {D : Dfa} (hD : D.AllStates (· ∈ D.states)) (w : List Symbol) :
    ∀ q ∈ (D.run w).path, q ∈ D.states := by
  obtain ⟨u, v, q, -, ht, -⟩ := D.runFrom_trace D.start w
  exact ht.mem_of_closed (fun _ _ _ hn => hD.next? hn) hD.start

/-! ## Renumbered automata -/

def renumberMove (r : State → State) (m : (State × Symbol) × State) : (State × Symbol) × State :=
  ((r m.1.1, m.1.2), r m.2)

/-- `D'` is `D` with every state `s` called `r s`, and its moves in the same order. What the states
stand for is left open. -/
structure Renumbered (D : Dfa) (r : State → State) (D' : Dfa) : Prop where
  start : D'.start = r D.start
  alphabet : D'.alphabet = D.alphabet
  states : ∀ q, q ∈ D'.states ↔ ∃ s ∈ D.states, r s = q
  finals : ∀ q, q ∈ D'.finals ↔ ∃ s ∈ D.finals, r s = q
  moves : D'.moves.entries = D.moves.entries.map (renumberMove r)

variable {D D' : Dfa} {r : State → State}

/-- Any numbers will do that tell the declared states apart. -/
theorem exists_renumbered (hD : D.AllStates (· ∈ D.states)) (hr : D.states.ToldApart r) :
    ∃ D', D.Renumbered r D' ∧ D'.members = none := by
  have hinj : ∀ m ∈ D.moves.entries, ∀ n ∈ D.moves.entries,
      (renumberMove r m).1 = (renumberMove r n).1 → m.1 = n.1 := by
    intro m hm n hn e
    obtain ⟨e₁, e₂⟩ := Prod.mk.inj e
    exact Prod.ext (hr _ (hD.sources m hm) _ (hD.sources n hn) e₁) e₂
  have hnodup : ((D.moves.entries.map (renumberMove r)).map Prod.fst).Nodup := by
    rw [List.map_map, List.nodup_map_iff_inj_on D.moves.nodup.of_map]
    intro m hm n hn e
    exact List.inj_on_of_nodup_map D.moves.nodup hm hn (hinj m hm n hn e)
  have himage : ∀ (s : StateSet) (q : State),
      q ∈ SortedSet.ofList (s.toList.map r) ↔ ∃ x ∈ s, r x = q := fun s q => by
    simp [SortedSet.mem_toList]
  refine ⟨{ start := r D.start, alphabet := D.alphabet,
            states := SortedSet.ofList (D.states.toList.map r),
            finals := SortedSet.ofList (D.finals.toList.map r),
            moves := ⟨D.moves.entries.map (renumberMove r), hnodup⟩ }, ?_, rfl⟩
  exact ⟨rfl, rfl, himage D.states, himage D.finals, rfl⟩

/-- An automaton whose states keep their numbers, whatever they are said to stand for. -/
theorem renumbered_of_fixed (h : D.AllStates fun s => r s = s) (ms : Option (List StateSet)) :
    D.Renumbered r { D with members := ms } where
  start := h.start.symm
  alphabet := rfl
  states q := ⟨fun hq => ⟨q, hq, h.states q hq⟩, fun ⟨s, hs, e⟩ => e ▸ (h.states s hs).symm ▸ hs⟩
  finals q := ⟨fun hq => ⟨q, hq, h.finals q hq⟩, fun ⟨s, hs, e⟩ => e ▸ (h.finals s hs).symm ▸ hs⟩
  moves := by
    have he : ∀ m ∈ D.moves.entries, renumberMove r m = id m := by
      intro m hm
      unfold renumberMove
      rw [h.sources m hm, h.targets m hm]
      rfl
    rw [List.map_congr_left he, List.map_id]

namespace Renumbered

theorem withMembers (h : D.Renumbered r D') (ms : Option (List StateSet)) :
    D.Renumbered r { D' with members := ms } := ⟨h.start, h.alphabet, h.states, h.finals, h.moves⟩

theorem insertAll_states (h : D.Renumbered r D') :
    (∅ : StateSet).insertAll (D.states.toList.map r) = D'.states := by
  apply SortedSet.ext_mem
  intro q
  rw [SortedSet.mem_insertAll, h.states]
  simp [SortedSet.mem_toList]

theorem insertAll_finals (h : D.Renumbered r D') :
    (∅ : StateSet).insertAll (D.finals.toList.map r) = D'.finals := by
  apply SortedSet.ext_mem
  intro q
  rw [SortedSet.mem_insertAll, h.finals]
  simp [SortedSet.mem_toList]

/-- Nothing but the moves of `D'` is missing from what its other parts make. -/
theorem eq_of_parts (h : D.Renumbered r D') (hm : D'.members = none) :
    ({ start := r D.start, alphabet := D.alphabet, states := D'.states, finals := D'.finals,
       moves := D'.moves } : Dfa) = D' := by
  rw [← h.start, ← h.alphabet, ← hm]

/-- The moves of `D'` can be added one after the other. -/
theorem foldlM_moves (h : D.Renumbered r D') (hA : D.OverAlphabet) {E : Dfa}
    (hE : E.alphabet = D.alphabet) (hm : E.moves = ∅) :
    (D.moves.entries.map (renumberMove r)).foldlM addMove E = .ok { E with moves := D'.moves } := by
  refine foldlM_addMove ?_ ?_
  · rw [List.forall_mem_map, hE]
    exact hA
  · rw [h.moves, hm, OrderedMap.entries_empty, List.nil_append]

theorem check_eq_ok (h : D.Renumbered r D') (hD : D.check = .ok ()) : D'.check = .ok () := by
  rw [Dfa.check_eq_ok] at hD ⊢
  obtain ⟨hs, hA⟩ := hD
  have hmem : ∀ s ∈ D.states, r s ∈ D'.states := fun s hs => (h.states _).mpr ⟨s, hs, rfl⟩
  refine ⟨⟨?_, fun _ hq => hq, ?_, ?_, ?_⟩, ?_⟩
  · rw [h.start]
    exact hmem _ hs.start
  · intro q hq
    obtain ⟨s, hsf, rfl⟩ := (h.finals q).mp hq
    exact hmem s (hs.finals s hsf)
  · rw [h.moves, List.forall_mem_map]
    exact fun m hm => hmem _ (hs.sources m hm)
  · rw [h.moves, List.forall_mem_map]
    exact fun m hm => hmem _ (hs.targets m hm)
  · unfold OverAlphabet
    rw [h.moves, h.alphabet, List.forall_mem_map]
    exact hA

/-! ## Runs -/

section
variable (h : D.Renumbered r D') (hD : D.AllStates (· ∈ D.states)) (hr : D.states.ToldApart r)
include h hD hr

theorem next?_eq {s : State} (hs : s ∈ D.states) (c : Symbol) :
    D'.next? (r s) c = (D.next? s c).map r := by
  have hkeys : ∀ m ∈ D.moves.entries, (r m.1.1, m.1.2) = (r s, c) → m.1 = (s, c) := by
    intro m hm e
    obtain ⟨e₁, e₂⟩ := Prod.mk.inj e
    exact Prod.ext (hr _ (hD.sources m hm) s hs e₁) e₂
  show OrderedMap.lookup (r s, c) D'.moves.entries = _
  rw [h.moves]
  exact OrderedMap.lookup_map (fun k : State × Symbol => (r k.1, k.2)) r (k := (s, c)) hkeys

theorem isFinal_eq {s : State} (hs : s ∈ D.states) : D'.isFinal (r s) = D.isFinal s := by
  rw [Bool.eq_iff_iff, isFinal, isFinal, SortedSet.contains_eq_true, SortedSet.contains_eq_true,
    h.finals]
  constructor
  · rintro ⟨t, ht, e⟩
    exact hr t (hD.finals t ht) s hs e ▸ ht
  · intro hf
    exact ⟨s, hf, rfl⟩

theorem bisimulation : D'.Bisimulation D fun q s => s ∈ D.states ∧ q = r s where
  alphabet := h.alphabet
  isFinal_eq := by
    rintro _ s ⟨hs, rfl⟩
    exact h.isFinal_eq hD hr hs
  next? := by
    rintro _ s ⟨hs, rfl⟩ c -
    rw [h.next?_eq hD hr hs]
    cases hn : D.next? s c with
    | none => exact .none
    | some t => exact .some ⟨hD.next? hn, rfl⟩

/-- Both automata read on and halt at the same places. -/
theorem runFrom_eq {s : State} (hs : s ∈ D.states) (w : List Symbol) :
    D'.runFrom (r s) w = (D.runFrom s w).map r :=
  ((h.bisimulation hD hr).runFrom ⟨hs, rfl⟩ w).eq_map fun _ _ => And.right

theorem run_eq (w : List Symbol) : D'.run w = (D.run w).map r := by
  rw [run, run, h.start, h.runFrom_eq hD hr hD.start]

/-- Reports that show corresponding states by the same names have the same text. -/
theorem text_eq {name name' : State → String} (hname : ∀ s ∈ D.states, name' (r s) = name s)
    (word : String) :
    ({ word, run := D'.run word.toList, name := name' } : Report).text =
      ({ word, run := D.run word.toList, name } : Report).text := by
  have hpath : ∀ s ∈ (D.run word.toList).path, name' (r s) = name s := fun s hs =>
    hname s (hD.mem_run_path word.toList s hs)
  rw [h.run_eq hD hr, Report.text_map]
  exact Report.text_congr hpath fun s hs => hpath s (D.rejection_mem_path D.start word.toList hs)

end

end Renumbered

end Dfa

end Recognizer

import Recognizer.Proofs.Dfa.Edits

/-!
# Automata put together from parts

Whatever kind of document a deterministic automaton is read from, its parts are worked out one by one
and put together as they come. The automaton is drafted if every part comes out and the moves agree
(`Dfa.Parts.exists_draft`); then it has just these parts. Where the parts only use states that they
declare, the draft needs no check (`Dfa.Parts.assemble_eq_draft`).
-/

namespace Recognizer.Dfa

set_option autoImplicit false

/-- What an automaton is made of, where each part may have failed to come out. -/
structure Parts where
  alphabet : Except Flaw Alphabet
  start : Except Flaw State
  states : List (Except Flaw State)
  moves : List (Except Flaw Move)
  finals : List (Except Flaw State)

namespace Parts

variable {p : Parts} {D : Dfa} {m : Flaw}

/-! ## Putting parts together -/

/-- The parts are taken in their order, until one has not come out or a move is refused. -/
def draft (p : Parts) : Except Flaw Dfa := do
  let A ← p.alphabet
  let start ← p.start
  let D ← p.states.foldlM (fun D s => s.map D.addState) { start, alphabet := A }
  let D ← p.moves.foldlM (fun D m => m >>= D.addMove) D
  p.finals.foldlM (fun D s => s.map D.addFinal) D

def assemble (p : Parts) : Except Flaw Dfa := do
  let D ← p.draft
  D.check
  return D

/-- Every part has come out. -/
structure Settled (p : Parts) : Prop where
  alphabet : ∃ A, p.alphabet = .ok A
  start : ∃ q, p.start = .ok q
  states : ∀ x ∈ p.states, ∃ q, x = .ok q
  moves : ∀ x ∈ p.moves, ∃ n, x = .ok n
  finals : ∀ x ∈ p.finals, ∃ q, x = .ok q

/-- All moves are on symbols of the alphabet, and no two of them disagree. -/
structure Sound (p : Parts) : Prop extends p.Settled where
  symbols : ∀ A, p.alphabet = .ok A → ∀ n, .ok n ∈ p.moves → n.1.2 ∈ A
  agree : Agree (results p.moves)

/-- The parts of an automaton, whatever their order. -/
structure MakeUp (p : Parts) (D : Dfa) : Prop where
  alphabet : p.alphabet = .ok D.alphabet
  start : p.start = .ok D.start
  states : ∀ q, q ∈ D.states ↔ .ok q ∈ p.states
  moves : ∀ n, n ∈ D.moves.entries ↔ .ok n ∈ p.moves
  finals : ∀ q, q ∈ D.finals ↔ .ok q ∈ p.finals
  members : D.members = none

/-- The automaton before its moves are added. -/
def declared (p : Parts) (A : Alphabet) (start : State) : Dfa :=
  (results p.states).foldl addState { start, alphabet := A }

theorem declared_eq (p : Parts) (A : Alphabet) (start : State) : p.declared A start =
    { start, alphabet := A, states := SortedSet.ofList (results p.states) } :=
  foldl_addState _ _

theorem draft_eq_ok : p.draft = .ok D ↔ p.Settled ∧
    ∃ A start E, p.alphabet = .ok A ∧ p.start = .ok start ∧
      (results p.moves).foldlM addMove (p.declared A start) = .ok E ∧
      D = (results p.finals).foldl addFinal E := by
  constructor
  · intro h
    obtain ⟨A, hA, h⟩ := bind_eq_ok.mp h
    obtain ⟨start, hstart, h⟩ := bind_eq_ok.mp h
    obtain ⟨D₁, h₁, h⟩ := bind_eq_ok.mp h
    obtain ⟨hstates, rfl⟩ := foldlM_map_eq_ok.mp h₁
    obtain ⟨E, h₂, h⟩ := bind_eq_ok.mp h
    obtain ⟨hmoves, hE⟩ := foldlM_bind_eq_ok.mp h₂
    obtain ⟨hfinals, hD⟩ := foldlM_map_eq_ok.mp h
    exact ⟨⟨⟨A, hA⟩, ⟨start, hstart⟩, hstates, hmoves, hfinals⟩, A, start, E, hA, hstart, hE, hD⟩
  · rintro ⟨⟨-, -, hstates, hmoves, hfinals⟩, A, start, E, hA, hstart, hE, hD⟩
    unfold draft
    rw [hA, hstart, ok_bind, ok_bind, foldlM_map_eq_ok.mpr ⟨hstates, rfl⟩, ok_bind]
    have hmoved := foldlM_bind_eq_ok.mpr ⟨hmoves, hE⟩
    rw [declared] at hmoved
    rw [hmoved, ok_bind]
    exact foldlM_map_eq_ok.mpr ⟨hfinals, hD⟩

theorem exists_draft : (∃ D, p.draft = .ok D) ↔ p.Sound := by
  have hadd : ∀ A start, (∃ E, (results p.moves).foldlM addMove (p.declared A start) = .ok E) ↔
      (∀ n, .ok n ∈ p.moves → n.1.2 ∈ A) ∧ Agree (results p.moves) := fun A start => by
    simp only [exists_foldlM_addMove, declared_eq, mem_results]
    rfl
  constructor
  · rintro ⟨D, h⟩
    obtain ⟨hp, A, start, E, hA, -, hE, -⟩ := draft_eq_ok.mp h
    obtain ⟨hsymbols, hagree⟩ := (hadd A start).mp ⟨E, hE⟩
    refine ⟨hp, fun A' hA' => ?_, hagree⟩
    cases hA.symm.trans hA'
    exact hsymbols
  · intro hp
    obtain ⟨A, hA⟩ := hp.alphabet
    obtain ⟨start, hstart⟩ := hp.start
    obtain ⟨E, hE⟩ := (hadd A start).mpr ⟨hp.symbols A hA, hp.agree⟩
    exact ⟨_, draft_eq_ok.mpr ⟨hp.toSettled, A, start, E, hA, hstart, hE, rfl⟩⟩

theorem makeUp_of_draft (h : p.draft = .ok D) : p.MakeUp D := by
  obtain ⟨-, A, start, E, hA, hstart, hE, rfl⟩ := draft_eq_ok.mp h
  obtain ⟨hrest, hmoves⟩ := moves_of_foldlM_addMove hE
  rw [declared_eq] at hrest hmoves
  rw [foldl_addFinal, hrest]
  refine ⟨hA, hstart, fun q => ?_, fun n => ?_, fun q => ?_, rfl⟩
  · exact SortedSet.mem_ofList.trans mem_results
  · exact (hmoves n).trans ((or_iff_right List.not_mem_nil).trans mem_results)
  · exact SortedSet.mem_ofList.trans mem_results

/-! ## The check -/

/-- The parts use no states but those that they declare. -/
structure Closed (p : Parts) : Prop where
  start : ∀ q, p.start = .ok q → .ok q ∈ p.states
  finals : ∀ q, .ok q ∈ p.finals → .ok q ∈ p.states
  ends : ∀ n, .ok n ∈ p.moves → .ok n.1.1 ∈ p.states ∧ .ok n.2 ∈ p.states

theorem MakeUp.check_eq_ok (h : p.MakeUp D) (hp : p.Sound) : D.check = .ok () ↔ p.Closed := by
  have hA : D.OverAlphabet := fun n hn => hp.symbols _ h.alphabet n ((h.moves n).mp hn)
  rw [Dfa.check_eq_ok, and_iff_left hA]
  constructor
  · intro hD
    refine ⟨fun q hq => ?_, fun q hq => ?_, fun n hn => ⟨?_, ?_⟩⟩
    · cases h.start.symm.trans hq
      exact (h.states _).mp hD.start
    · exact (h.states q).mp (hD.finals q ((h.finals q).mpr hq))
    · exact (h.states _).mp (hD.sources n ((h.moves n).mpr hn))
    · exact (h.states _).mp (hD.targets n ((h.moves n).mpr hn))
  · intro hc
    refine ⟨(h.states _).mpr (hc.start _ h.start), fun _ hq => hq, fun q hq => ?_, fun n hn => ?_,
      fun n hn => ?_⟩
    · exact (h.states q).mpr (hc.finals q ((h.finals q).mp hq))
    · exact (h.states _).mpr (hc.ends n ((h.moves n).mp hn)).1
    · exact (h.states _).mpr (hc.ends n ((h.moves n).mp hn)).2

theorem assemble_eq_ok : p.assemble = .ok D ↔ p.draft = .ok D ∧ p.Closed := by
  unfold assemble
  constructor
  · intro h
    obtain ⟨D', hD, h⟩ := bind_eq_ok.mp h
    obtain ⟨u, hcheck, h⟩ := bind_eq_ok.mp h
    cases h
    exact ⟨hD, ((makeUp_of_draft hD).check_eq_ok (exists_draft.mp ⟨D, hD⟩)).mp hcheck⟩
  · rintro ⟨hD, hc⟩
    rw [hD, ok_bind, ((makeUp_of_draft hD).check_eq_ok (exists_draft.mp ⟨D, hD⟩)).mpr hc]
    rfl

theorem exists_assemble : (∃ D, p.assemble = .ok D) ↔ p.Sound ∧ p.Closed := by
  simp only [assemble_eq_ok, exists_and_right, exists_draft]

/-- Where every part in use is declared, the check finds nothing. -/
theorem assemble_eq_draft (h : p.Closed) : p.assemble = p.draft := by
  cases hd : p.draft with
  | ok D => exact assemble_eq_ok.mpr ⟨hd, h⟩
  | error m =>
    unfold assemble
    rw [hd, error_bind]

/-! ## What a draft fails with -/

/-- The flaws of parts that have not come out, and symbols that are not in the alphabet. -/
inductive Flawed (p : Parts) : Flaw → Prop
  | alphabet {m : Flaw} : p.alphabet = .error m → Flawed p m
  | start {m : Flaw} : p.start = .error m → Flawed p m
  | state {m : Flaw} : .error m ∈ p.states → Flawed p m
  | move {m : Flaw} : .error m ∈ p.moves → Flawed p m
  | final {m : Flaw} : .error m ∈ p.finals → Flawed p m
  | symbol (c : Symbol) : Flawed p (.foreignSymbol c)

/-- Where moves are refused, one has not come out, or its symbol is foreign, or two of them disagree. -/
theorem error_of_foldlM_addMove {xs : List (Except Flaw Move)} (hD : D.moves = ∅)
    (h : xs.foldlM (fun D m => m >>= D.addMove) D = .error m) :
    .error m ∈ xs ∨ (∃ c, m = .foreignSymbol c) ∨
      ¬ Agree (results xs) ∧ ∃ q c, m = .conflict q c := by
  have hempty : ∀ n ∈ D.moves.entries, .ok n ∈ xs := by
    rw [hD]
    exact fun n hn => absurd hn List.not_mem_nil
  have hstep : ∀ x ∈ xs, ∀ D D' : Dfa, (∀ n ∈ D.moves.entries, .ok n ∈ xs) →
      x >>= D.addMove = .ok D' → ∀ n ∈ D'.moves.entries, .ok n ∈ xs := by
    intro x hx D D' hD h k hk
    obtain ⟨n, rfl, h⟩ := bind_eq_ok.mp h
    obtain ⟨hn, rfl⟩ := addMove_eq_ok.mp h
    rcases (mem_putMove hn).mp hk with hk | rfl
    · exact hD k hk
    · exact hx
  obtain ⟨x, hx, E, hE, h⟩ := exists_of_foldlM_eq_error hstep hempty h
  rcases bind_eq_error.mp h with rfl | ⟨n, rfl, h⟩
  · exact Or.inl hx
  rcases addTransition_eq_error.mp h with ⟨-, rfl⟩ | ⟨⟨-, u, hu, hne⟩, rfl⟩
  · exact Or.inr (Or.inl ⟨_, rfl⟩)
  · have hu := hE (n.1, u) (OrderedMap.get?_eq_some.mp hu)
    refine Or.inr (Or.inr ⟨fun hagree => hne ?_, _, _, rfl⟩)
    exact hagree _ (mem_results.mpr hu) _ (mem_results.mpr hx) rfl

/-- Moves can only be in conflict where they disagree. -/
theorem flawed_of_draft (h : p.draft = .error m) :
    p.Flawed m ∨ ¬ Agree (results p.moves) ∧ ∃ q c, m = .conflict q c := by
  rcases bind_eq_error.mp h with h | ⟨A, -, h⟩
  · exact Or.inl (.alphabet h)
  rcases bind_eq_error.mp h with h | ⟨start, -, h⟩
  · exact Or.inl (.start h)
  rcases bind_eq_error.mp h with h | ⟨D₁, h₁, h⟩
  · exact Or.inl (.state (error_mem_of_foldlM_map h))
  rcases bind_eq_error.mp h with h | ⟨D₂, -, h⟩
  · have hempty : D₁.moves = ∅ := by
      obtain ⟨-, rfl⟩ := foldlM_map_eq_ok.mp h₁
      rw [foldl_addState]
    rcases error_of_foldlM_addMove hempty h with h | ⟨c, rfl⟩ | h
    · exact Or.inl (.move h)
    · exact Or.inl (.symbol c)
    · exact Or.inr h
  · exact Or.inl (.final (error_mem_of_foldlM_map h))

end Parts

end Recognizer.Dfa

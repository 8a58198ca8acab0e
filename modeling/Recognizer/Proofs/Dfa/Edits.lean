import Recognizer.Dfa.Basic
import Recognizer.Proofs.Fallible
import Recognizer.Proofs.OrderedMap

/-!
# What edits make of deterministic automata

Transitions of new pairs of a state and a symbol are appended in their order
(`Dfa.foldlM_addMove`), and any transitions can be added that agree with each other and with those that
are there (`Dfa.exists_foldlM_addMove`). An automaton passes its check when all that is used has been
declared (`Dfa.check_eq_ok`).
-/

namespace Recognizer.Dfa

set_option autoImplicit false

variable {D : Dfa}

/-! ## Declarations -/

theorem foldl_addState (ss : List State) (D : Dfa) :
    ss.foldl addState D = { D with states := D.states.insertAll ss } := by
  induction ss generalizing D with
  | nil => rfl
  | cons s ss ih => exact ih (D.addState s)

theorem foldl_addFinal (ss : List State) (D : Dfa) :
    ss.foldl addFinal D = { D with finals := D.finals.insertAll ss } := by
  induction ss generalizing D with
  | nil => rfl
  | cons s ss ih => exact ih (D.addFinal s)

/-! ## New moves -/

theorem addTransition_eq_ok {q t : State} {c : Symbol} (hc : c ∈ D.alphabet)
    (h : D.next? q c = none) :
    D.addTransition q c t = .ok { D with moves := D.moves.insert (q, c) t } := by
  unfold addTransition
  rw [if_neg (not_not_intro hc), show D.moves.get? (q, c) = none from h]

/-- All that can come of adding a transition. -/
theorem addTransition_cases (D : Dfa) (q : State) (c : Symbol) (t : State) :
    c ∉ D.alphabet ∧ D.addTransition q c t = .error (.foreignSymbol c) ∨
    c ∈ D.alphabet ∧
      (D.next? q c = some t ∧ D.addTransition q c t = .ok D ∨
        D.next? q c = none ∧
          D.addTransition q c t = .ok { D with moves := D.moves.insert (q, c) t } ∨
        (∃ u, D.next? q c = some u ∧ u ≠ t) ∧
          D.addTransition q c t = .error (.conflict q c)) := by
  by_cases hc : c ∈ D.alphabet
  case neg => exact Or.inl ⟨hc, if_pos hc⟩
  refine Or.inr ⟨hc, ?_⟩
  cases h : D.next? q c with
  | none => exact Or.inr (Or.inl ⟨rfl, addTransition_eq_ok hc h⟩)
  | some u =>
    unfold addTransition
    rw [if_neg (not_not_intro hc), show D.moves.get? (q, c) = some u from h]
    by_cases hu : u = t
    · exact Or.inl ⟨congrArg some hu, if_pos hu⟩
    · exact Or.inr (Or.inr ⟨⟨u, rfl, hu⟩, if_neg hu⟩)

theorem addTransition_eq_error {q t : State} {c : Symbol} {m : Flaw} :
    D.addTransition q c t = .error m ↔
      c ∉ D.alphabet ∧ m = .foreignSymbol c ∨
        (c ∈ D.alphabet ∧ ∃ u, D.next? q c = some u ∧ u ≠ t) ∧ m = .conflict q c := by
  constructor
  · intro h
    rcases D.addTransition_cases q c t with ⟨hc, ha⟩ | ⟨hc, ⟨-, ha⟩ | ⟨-, ha⟩ | ⟨hn, ha⟩⟩
    · cases ha.symm.trans h
      exact Or.inl ⟨hc, rfl⟩
    · cases ha.symm.trans h
    · cases ha.symm.trans h
    · cases ha.symm.trans h
      exact Or.inr ⟨⟨hc, hn⟩, rfl⟩
  · unfold addTransition
    rintro (⟨hc, rfl⟩ | ⟨⟨hc, u, hu, hne⟩, rfl⟩)
    · exact if_pos hc
    · rw [if_neg (not_not_intro hc), show D.moves.get? (q, c) = some u from hu]
      exact if_neg hne

/-- A state and a symbol, and where the symbol leads from there. -/
abbrev Move := (State × Symbol) × State

def addMove (D : Dfa) (m : Move) : Except Flaw Dfa := D.addTransition m.1.1 m.1.2 m.2

/-- The symbol of a move is in the alphabet, and no move that is there already leads elsewhere. -/
structure Admits (D : Dfa) (m : Move) : Prop where
  symbol : m.1.2 ∈ D.alphabet
  agrees : ∀ t, D.next? m.1.1 m.1.2 = some t → t = m.2

def putMove (D : Dfa) (m : Move) : Dfa := { D with moves := D.moves.insert m.1 m.2 }

theorem entries_putMove {m : Move} (h : D.Admits m) : (D.putMove m).moves.entries =
    if m ∈ D.moves.entries then D.moves.entries else D.moves.entries ++ [m] := by
  unfold putMove
  cases hn : D.next? m.1.1 m.1.2 with
  | some t =>
    obtain rfl := h.agrees t hn
    rw [if_pos (OrderedMap.get?_eq_some.mp hn)]
    exact congrArg OrderedMap.entries (OrderedMap.update_eq_self hn rfl)
  | none =>
    have hm : m ∉ D.moves.entries := fun hm => by
      rw [next?, OrderedMap.get?_eq_some.mpr hm] at hn
      cases hn
    rw [if_neg hm]
    exact OrderedMap.entries_insert hn m.2

theorem mem_putMove {m n : Move} (h : D.Admits m) :
    n ∈ (D.putMove m).moves.entries ↔ n ∈ D.moves.entries ∨ n = m := by
  rw [entries_putMove h]
  split
  · next hm => exact ⟨Or.inl, fun hn => hn.elim id fun e => e ▸ hm⟩
  · rw [List.mem_append, List.mem_singleton]

theorem addMove_eq_ok {D' : Dfa} {m : Move} : D.addMove m = .ok D' ↔ D.Admits m ∧ D' = D.putMove m := by
  obtain ⟨⟨q, c⟩, t⟩ := m
  rcases D.addTransition_cases q c t with ⟨hc, ha⟩ | ⟨hc, ⟨hn, ha⟩ | ⟨hn, ha⟩ | ⟨⟨u, hu, hne⟩, ha⟩⟩
  · simp only [addMove, ha, reduceCtorEq, false_iff]
    exact fun h => hc h.1.symbol
  · have hput : D.putMove ((q, c), t) = D := by
      unfold putMove
      rw [OrderedMap.insert, OrderedMap.update_eq_self hn rfl]
    simp only [addMove, ha, Except.ok.injEq, hput]
    refine ⟨fun h => ⟨⟨hc, fun u hu => ?_⟩, h.symm⟩, fun h => h.2.symm⟩
    exact Option.some.inj (hu.symm.trans hn)
  · simp only [addMove, ha, Except.ok.injEq]
    refine ⟨fun h => ⟨⟨hc, fun u hu => ?_⟩, h.symm⟩, fun h => h.2.symm⟩
    cases hu.symm.trans hn
  · simp only [addMove, ha, reduceCtorEq, false_iff]
    exact fun h => hne (h.1.agrees u hu)

/-! ## Lists of moves -/

theorem foldlM_addMove {ms : List Move}
    {moves : OrderedMap (State × Symbol) State} (hA : ∀ m ∈ ms, m.1.2 ∈ D.alphabet)
    (hm : moves.entries = D.moves.entries ++ ms) :
    ms.foldlM addMove D = .ok { D with moves := moves } := by
  induction ms generalizing D with
  | nil =>
    have e : moves = D.moves := OrderedMap.ext_entries (hm.trans (List.append_nil _))
    rw [e]
    rfl
  | cons m ms ih =>
    have hnew : D.moves.get? m.1 = none := by
      rw [OrderedMap.get?_eq_none]
      intro hk
      have hnd := moves.nodup
      rw [hm, List.map_append, List.nodup_append] at hnd
      exact hnd.2.2 m.1 hk m.1 (by simp) rfl
    have hadd : D.addMove m = .ok { D with moves := D.moves.insert m.1 m.2 } :=
      addTransition_eq_ok (hA m List.mem_cons_self) hnew
    have hentries : moves.entries = (D.moves.insert m.1 m.2).entries ++ ms := by
      rw [OrderedMap.entries_insert hnew, List.append_assoc]
      exact hm
    rw [List.foldlM_cons, hadd]
    exact ih (D := { D with moves := D.moves.insert m.1 m.2 })
      (fun m' hm' => hA m' (List.mem_cons_of_mem _ hm')) hentries

/-- No two of the moves lead from one state on one symbol to different states. -/
def Agree (ms : List Move) : Prop := ∀ m ∈ ms, ∀ n ∈ ms, m.1 = n.1 → m.2 = n.2

theorem agree_congr {ms ns : List Move} (h : ∀ m, m ∈ ms ↔ m ∈ ns) : Agree ms ↔ Agree ns := by
  simp only [Agree, h]

theorem agree_entries (D : Dfa) : Agree D.moves.entries :=
  fun _ hm _ hn h => OrderedMap.eq_of_key_eq hm hn h

theorem admits_iff {m : Move} :
    D.Admits m ↔ m.1.2 ∈ D.alphabet ∧ ∀ n ∈ D.moves.entries, n.1 = m.1 → n.2 = m.2 := by
  constructor
  · rintro ⟨hc, hm⟩
    refine ⟨hc, fun n hn h => hm n.2 ?_⟩
    rw [next?, ← h]
    exact OrderedMap.get?_eq_some.mpr hn
  · rintro ⟨hc, hm⟩
    exact ⟨hc, fun t ht => hm (m.1, t) (OrderedMap.get?_eq_some.mp ht) rfl⟩

/-- Nothing but the moves changes, and those that are added are there afterwards. -/
theorem moves_of_foldlM_addMove {ms : List Move} {D' : Dfa} (h : ms.foldlM addMove D = .ok D') :
    D' = { D with moves := D'.moves } ∧
      ∀ n, n ∈ D'.moves.entries ↔ n ∈ D.moves.entries ∨ n ∈ ms := by
  induction ms generalizing D with
  | nil =>
    cases h
    exact ⟨rfl, fun n => (or_iff_left List.not_mem_nil).symm⟩
  | cons m ms ih =>
    obtain ⟨D₁, h₁, h⟩ := bind_eq_ok.mp h
    obtain ⟨hm, rfl⟩ := addMove_eq_ok.mp h₁
    obtain ⟨hD, hmem⟩ := ih h
    refine ⟨hD, fun n => ?_⟩
    rw [hmem, mem_putMove hm, List.mem_cons, or_assoc]

/-- Moves are added without complaint when they are on symbols of the alphabet and agree with each other
and with those that are there. -/
theorem exists_foldlM_addMove {ms : List Move} : (∃ D', ms.foldlM addMove D = .ok D') ↔
    (∀ m ∈ ms, m.1.2 ∈ D.alphabet) ∧ Agree (D.moves.entries ++ ms) := by
  induction ms generalizing D with
  | nil =>
    rw [List.append_nil]
    exact ⟨fun _ => ⟨fun _ hm => absurd hm List.not_mem_nil, D.agree_entries⟩, fun _ => ⟨D, rfl⟩⟩
  | cons m ms ih =>
    have hput : D.Admits m → (Agree ((D.putMove m).moves.entries ++ ms) ↔
        Agree (D.moves.entries ++ m :: ms)) := fun hm =>
      agree_congr fun n => by simp [mem_putMove hm, or_assoc]
    constructor
    · rintro ⟨D', h⟩
      obtain ⟨D₁, h₁, h⟩ := bind_eq_ok.mp h
      obtain ⟨hm, rfl⟩ := addMove_eq_ok.mp h₁
      obtain ⟨hA, hagree⟩ := ih.mp ⟨D', h⟩
      exact ⟨List.forall_mem_cons.mpr ⟨hm.symbol, hA⟩, (hput hm).mp hagree⟩
    · rintro ⟨hA, hagree⟩
      obtain ⟨hmA, hA⟩ := List.forall_mem_cons.mp hA
      have hm : D.Admits m := admits_iff.mpr ⟨hmA, fun n hn =>
        hagree n (List.mem_append_left _ hn) m (List.mem_append_right _ List.mem_cons_self)⟩
      obtain ⟨D', h⟩ : ∃ D', ms.foldlM addMove (D.putMove m) = .ok D' :=
        ih.mpr ⟨hA, (hput hm).mpr hagree⟩
      exact ⟨D', bind_eq_ok.mpr ⟨_, addMove_eq_ok.mpr ⟨hm, rfl⟩, h⟩⟩

/-! ## States and symbols in use -/

/-- `P` holds of the start, of all declared and all final states, and of both ends of every move. -/
structure AllStates (D : Dfa) (P : State → Prop) : Prop where
  start : P D.start
  states : ∀ s ∈ D.states, P s
  finals : ∀ s ∈ D.finals, P s
  sources : ∀ m ∈ D.moves.entries, P m.1.1
  targets : ∀ m ∈ D.moves.entries, P m.2

theorem AllStates.imp {P Q : State → Prop} (h : D.AllStates P) (hPQ : ∀ s, P s → Q s) :
    D.AllStates Q :=
  ⟨hPQ _ h.start, fun s hs => hPQ s (h.states s hs), fun s hs => hPQ s (h.finals s hs),
    fun m hm => hPQ _ (h.sources m hm), fun m hm => hPQ _ (h.targets m hm)⟩

theorem AllStates.next? {P : State → Prop} (h : D.AllStates P) {q t : State} {c : Symbol}
    (hn : D.next? q c = some t) : P t :=
  h.targets _ (OrderedMap.get?_eq_some.mp hn)

/-- All moves are on symbols of the alphabet. -/
def OverAlphabet (D : Dfa) : Prop := ∀ m ∈ D.moves.entries, m.1.2 ∈ D.alphabet

/-! ## Single edits -/

theorem edit_transition_eq_ok {D' : Dfa} {s t : State} {c : Symbol} :
    D.edit (.transition s c t) = .ok D' ↔
      D.Admits ((s, c), t) ∧ D' = D.putMove ((s, c), t) :=
  addMove_eq_ok (m := ((s, c), t))

theorem alphabet_edit {D' : Dfa} {e : Edit} (he : D.edit e = .ok D') : D'.alphabet = D.alphabet := by
  cases e with
  | state s =>
    cases he
    rfl
  | final s =>
    cases he
    rfl
  | transition s c t =>
    obtain ⟨-, rfl⟩ := edit_transition_eq_ok.mp he
    rfl

theorem start_edit {D' : Dfa} {e : Edit} (he : D.edit e = .ok D') : D'.start = D.start := by
  cases e with
  | state s =>
    cases he
    rfl
  | final s =>
    cases he
    rfl
  | transition s c t =>
    obtain ⟨-, rfl⟩ := edit_transition_eq_ok.mp he
    rfl

theorem OverAlphabet.edit {D' : Dfa} {e : Edit} (h : D.OverAlphabet) (he : D.edit e = .ok D') :
    D'.OverAlphabet := by
  cases e with
  | state s =>
    cases he
    exact h
  | final s =>
    cases he
    exact h
  | transition s c t =>
    obtain ⟨ha, rfl⟩ := edit_transition_eq_ok.mp he
    intro m hm
    rcases (mem_putMove ha).mp hm with hm | rfl
    · exact h m hm
    · exact ha.symbol

/-! ## The check -/

theorem moveDefect?_eq_none {m : (State × Symbol) × State} : D.moveDefect? m = none ↔
    (m.1.1 ∈ D.states ∧ m.2 ∈ D.states) ∧ m.1.2 ∈ D.alphabet := by
  unfold moveDefect?
  split
  · next h =>
    simp only [reduceCtorEq, false_iff]
    rintro ⟨⟨h₁, h₂⟩, -⟩
    exact h.elim (fun h => h h₁) (fun h => h h₂)
  · next h =>
    have h : m.1.1 ∈ D.states ∧ m.2 ∈ D.states := by simpa using h
    simp [h]

/-- All that the check could find, in its order. -/
def defects (D : Dfa) : List Flaw :=
  (if D.start ∈ D.states then [] else [.initial D.start]) ++
    ((D.finals.toList.filter (· ∉ D.states)).map .final ++ D.moves.entries.filterMap D.moveDefect?)

theorem fault?_check (D : Dfa) : fault? D.check = D.defects.head? := by
  have h : fault? D.check = D.defect? := by
    unfold check
    cases D.defect? <;> rfl
  rw [h, defect?, defects, List.head?_append, List.head?_append, List.head?_map, List.head?_filter,
    List.head?_filterMap]
  by_cases hi : D.start ∈ D.states
  · rw [if_neg (not_not_intro hi), if_pos hi]
    cases D.finals.toList.find? (· ∉ D.states) <;> rfl
  · rw [if_pos hi, if_neg hi]
    rfl

theorem check_eq_ok : D.check = .ok () ↔ D.AllStates (· ∈ D.states) ∧ D.OverAlphabet := by
  have h : D.check = .ok () ↔ fault? D.check = none := by
    rw [fault?_eq_none]
    exact ⟨fun h => ⟨(), h⟩, fun ⟨_, h⟩ => h⟩
  rw [h, fault?_check, List.head?_eq_none_iff, defects, List.append_eq_nil_iff, List.append_eq_nil_iff,
    List.map_eq_nil_iff, List.filter_eq_nil_iff, List.filterMap_eq_nil_iff]
  simp only [moveDefect?_eq_none, SortedSet.mem_toList, decide_eq_true_eq, Classical.not_not]
  constructor
  · rintro ⟨hi, hf, hm⟩
    exact ⟨⟨by simpa using hi, fun _ hs => hs, hf, fun m h => (hm m h).1.1, fun m h => (hm m h).1.2⟩,
      fun m h => (hm m h).2⟩
  · rintro ⟨hs, hA⟩
    exact ⟨if_pos hs.start, hs.finals, fun m h => ⟨⟨hs.sources m h, hs.targets m h⟩, hA m h⟩⟩

/-- Foreign symbols are refused before the check could meet them. -/
theorem check_ne_foreignSymbol (h : D.OverAlphabet) (c : Symbol) :
    D.check ≠ .error (.foreignSymbol c) := by
  intro hc
  rw [← fault?_eq_some, fault?_check] at hc
  have hmem := List.mem_of_head? hc
  simp only [defects, List.mem_append, List.mem_map, reduceCtorEq, and_false, exists_false, false_or,
    List.mem_filterMap] at hmem
  rcases hmem with hi | ⟨m, hm, hd⟩
  · split at hi <;> simp at hi
  · unfold moveDefect? at hd
    split at hd
    · cases hd
    · rw [if_neg (not_not_intro (h m hm))] at hd
      cases hd

end Recognizer.Dfa

import Recognizer.Proofs.Dfa.Edits
import Recognizer.Proofs.Positions

/-!
# What a history of edits makes of a deterministic automaton

Some edits of a history may be refused. The moves of the automaton are those of the edits that were
not, each in the place of its first addition (`Dfa.entries_build`); so what the automaton answers, and
which edits it will refuse, can be read off its history (`Dfa.build_of_history`).
-/

namespace Recognizer.Dfa

set_option autoImplicit false

variable {D D' : Dfa} {A : Alphabet} {start : State} {es : List Edit} {e : Edit} {m : Flaw}

/-! ## Edits that are not refused -/

/-- The edits that are not refused when a history is run from `D`, in their order. -/
def granted (D : Dfa) : List Edit → List Edit
  | [] => []
  | e :: es =>
    match D.edit e with
    | .ok D' => e :: granted D' es
    | .error _ => granted D es

def Edit.move? : Edit → Option Move
  | .transition s c t => some ((s, c), t)
  | _ => none

/-- The moves that a history adds, or adds again, to an empty automaton. -/
def grantedMoves (A : Alphabet) (start : State) (es : List Edit) : List Move :=
  (granted { start, alphabet := A } es).filterMap Edit.move?

theorem editOrKeep_of_ok (h : D.edit e = .ok D') : D.editOrKeep e = D' := by
  rw [editOrKeep, h]
  rfl

theorem editOrKeep_of_error (h : D.edit e = .error m) : D.editOrKeep e = D := by
  rw [editOrKeep, h]
  rfl

theorem granted_append (es fs : List Edit) :
    D.granted (es ++ fs) = D.granted es ++ (es.foldl editOrKeep D).granted fs := by
  induction es generalizing D with
  | nil => rfl
  | cons e es ih =>
    rw [List.cons_append, granted, granted, List.foldl_cons]
    cases h : D.edit e with
    | ok D' =>
      rw [editOrKeep_of_ok h]
      exact congrArg (e :: ·) ih
    | error m =>
      rw [editOrKeep_of_error h]
      exact ih

theorem grantedMoves_concat (e : Edit) : grantedMoves A start (es ++ [e]) =
    grantedMoves A start es ++ ((build A start es).granted [e]).filterMap Edit.move? := by
  unfold grantedMoves
  rw [granted_append, List.filterMap_append]
  rfl

theorem grantedMoves_of_ok (h : (build A start es).edit e = .ok D') :
    grantedMoves A start (es ++ [e]) = grantedMoves A start es ++ e.move?.toList := by
  have he : (build A start es).granted [e] = [e] := by
    rw [granted, h]
    rfl
  rw [grantedMoves_concat, he, List.filterMap_cons]
  cases e.move? <;> rfl

theorem grantedMoves_of_error (h : (build A start es).edit e = .error m) :
    grantedMoves A start (es ++ [e]) = grantedMoves A start es := by
  have he : (build A start es).granted [e] = [] := by
    rw [granted, h]
    rfl
  rw [grantedMoves_concat, he]
  exact List.append_nil _

/-! ## Steps of a history -/

theorem build_concat (e : Edit) : build A start (es ++ [e]) = (build A start es).editOrKeep e := by
  unfold build
  rw [List.foldl_append]
  rfl

/-- What holds of the empty automaton and is kept by edits, granted or refused, holds after every
history. -/
theorem build_induction (A : Alphabet) (start : State) {P : List Edit → Dfa → Prop}
    (nil : P [] { start, alphabet := A })
    (granted : ∀ es e D', P es (build A start es) → (build A start es).edit e = .ok D' →
      P (es ++ [e]) D')
    (refused : ∀ es e m, P es (build A start es) → (build A start es).edit e = .error m →
      P (es ++ [e]) (build A start es)) (es : List Edit) : P es (build A start es) := by
  induction es using List.reverseRecOn with
  | nil => exact nil
  | append_singleton es e ih =>
    rw [build_concat]
    cases h : (build A start es).edit e with
    | ok D' =>
      rw [editOrKeep_of_ok h]
      exact granted es e D' ih h
    | error m =>
      rw [editOrKeep_of_error h]
      exact refused es e m ih h

@[simp] theorem alphabet_build : (build A start es).alphabet = A :=
  build_induction A start (P := fun _ D => D.alphabet = A) rfl
    (fun _ _ _ hD h => (alphabet_edit h).trans hD) (fun _ _ _ hD _ => hD) es

@[simp] theorem start_build : (build A start es).start = start :=
  build_induction A start (P := fun _ D => D.start = start) rfl
    (fun _ _ _ hD h => (start_edit h).trans hD) (fun _ _ _ hD _ => hD) es

theorem overAlphabet_build : (build A start es).OverAlphabet :=
  build_induction A start (P := fun _ D => D.OverAlphabet) (fun _ hm => nomatch hm)
    (fun _ _ _ hD h => hD.edit h) (fun _ _ _ hD _ => hD) es

/-! ## What has been declared -/

/-- Only transitions are refused. -/
theorem exists_of_edit_eq_error (h : D.edit e = .error m) : ∃ s c t, e = .transition s c t := by
  cases e with
  | state s => cases h
  | final s => cases h
  | transition s c t => exact ⟨s, c, t, rfl⟩

theorem mem_declared_build : (∀ s, s ∈ (build A start es).states ↔ .state s ∈ es) ∧
    ∀ s, s ∈ (build A start es).finals ↔ .final s ∈ es := by
  refine build_induction A start (P := fun es D =>
    (∀ s, s ∈ D.states ↔ .state s ∈ es) ∧ ∀ s, s ∈ D.finals ↔ .final s ∈ es) ?_ ?_ ?_ es
  · simp
  · rintro es e D' ⟨hs, hf⟩ h
    cases e with
    | state q =>
      cases h
      simp [addState, hs, hf, or_comm]
    | final q =>
      cases h
      simp [addFinal, hs, hf, or_comm]
    | transition q c t =>
      obtain ⟨-, rfl⟩ := edit_transition_eq_ok.mp h
      simp [putMove, hs, hf]
  · rintro es e m ⟨hs, hf⟩ h
    obtain ⟨q, c, t, rfl⟩ := exists_of_edit_eq_error h
    simp [hs, hf]

theorem mem_states_build {s : State} : s ∈ (build A start es).states ↔ .state s ∈ es :=
  mem_declared_build.1 s

theorem mem_finals_build {s : State} : s ∈ (build A start es).finals ↔ .final s ∈ es :=
  mem_declared_build.2 s

/-! ## The moves -/

/-- Each move that was granted stands where it was first added. -/
theorem entries_build : (build A start es).moves.entries = distinct (grantedMoves A start es) := by
  refine build_induction A start
    (P := fun es D => D.moves.entries = distinct (grantedMoves A start es)) rfl ?_ ?_ es
  · intro es e D' hD h
    rw [grantedMoves_of_ok h]
    cases e with
    | state q =>
      cases h
      exact hD.trans (congrArg distinct (List.append_nil _).symm)
    | final q =>
      cases h
      exact hD.trans (congrArg distinct (List.append_nil _).symm)
    | transition q c t =>
      obtain ⟨ha, rfl⟩ := edit_transition_eq_ok.mp h
      show _ = distinct (grantedMoves A start es ++ [((q, c), t)])
      rw [entries_putMove ha, hD, distinct_concat]
      simp only [mem_distinct]
      congr
  · intro es e m hD h
    rw [grantedMoves_of_error h]
    exact hD

theorem next?_build_eq_some {s t : State} {c : Symbol} :
    (build A start es).next? s c = some t ↔ ((s, c), t) ∈ grantedMoves A start es := by
  rw [next?, OrderedMap.get?_eq_some, entries_build, mem_distinct]

theorem next?_build (s : State) (c : Symbol) : (build A start es).next? s c =
    ((grantedMoves A start es).find? (·.1 = (s, c))).map Prod.snd := by
  rw [next?, OrderedMap.get?, OrderedMap.lookup_eq_find?, entries_build, find?_distinct]

theorem nodup_keys_transitions (D : Dfa) :
    (D.transitions.map fun t => (t.source, t.label)).Nodup := by
  have hinj : Function.Injective fun k : State × Symbol => (k.1, Label.symbol k.2) := by
    rintro ⟨s, c⟩ ⟨t, d⟩ h
    cases h
    rfl
  have h := D.moves.nodup.map hinj
  rw [List.map_map] at h
  rw [transitions, List.map_map]
  exact h

/-- Whether or not the transition was granted: where it was not, another one was there. -/
theorem exists_next?_build {s t : State} {c : Symbol} (h : .transition s c t ∈ es) (hc : c ∈ A) :
    ∃ u, (build A start es).next? s c = some u := by
  simp only [next?_build_eq_some]
  refine build_induction A start (P := fun es _ => .transition s c t ∈ es →
    ∃ u, ((s, c), u) ∈ grantedMoves A start es) (fun h => nomatch h) ?_ ?_ es h
  · intro es e D' ih he h
    rw [grantedMoves_of_ok he]
    rcases List.mem_append.mp h with h | h
    · obtain ⟨u, hu⟩ := ih h
      exact ⟨u, List.mem_append_left _ hu⟩
    · obtain rfl := List.mem_singleton.mp h
      exact ⟨t, List.mem_append_right _ List.mem_cons_self⟩
  · intro es e m ih he h
    rw [grantedMoves_of_error he]
    rcases List.mem_append.mp h with h | h
    · exact ih h
    · obtain rfl := List.mem_singleton.mp h
      rcases addTransition_eq_error.mp he with ⟨hc', -⟩ | ⟨⟨-, u, hu, -⟩, -⟩
      · exact absurd hc (alphabet_build (A := A) ▸ hc')
      · exact ⟨u, next?_build_eq_some.mp hu⟩

/-! ## What the automaton tells of its history -/

/-- What was asked for once is never done again: it was done, or it is refused again. -/
theorem editOrKeep_of_mem (h : e ∈ es) : (build A start es).editOrKeep e = build A start es := by
  cases e with
  | state s =>
    show { build A start es with states := (build A start es).states.insert s } = _
    rw [SortedSet.insert_of_mem (mem_states_build.mpr h)]
  | final s =>
    show { build A start es with finals := (build A start es).finals.insert s } = _
    rw [SortedSet.insert_of_mem (mem_finals_build.mpr h)]
  | transition s c t =>
    cases he : (build A start es).edit (.transition s c t) with
    | error m => exact editOrKeep_of_error he
    | ok D' =>
      obtain ⟨ha, rfl⟩ := edit_transition_eq_ok.mp he
      obtain ⟨u, hu⟩ : ∃ u, (build A start es).next? s c = some u :=
        exists_next?_build h (alphabet_build (A := A) ▸ ha.symbol)
      obtain rfl := ha.agrees u hu
      rw [editOrKeep_of_ok he, putMove, OrderedMap.insert, OrderedMap.update_eq_self hu rfl]

theorem check_build : (build A start es).check = .ok () ↔
    .state start ∈ es ∧ (∀ s, .final s ∈ es → .state s ∈ es) ∧
      ∀ m ∈ grantedMoves A start es, .state m.1.1 ∈ es ∧ .state m.2 ∈ es := by
  have hmem : ∀ m, m ∈ (build A start es).moves.entries ↔ m ∈ grantedMoves A start es := fun m => by
    rw [entries_build, mem_distinct]
  rw [check_eq_ok, and_iff_left overAlphabet_build]
  constructor
  · intro h
    have hstart := h.start
    rw [start_build] at hstart
    refine ⟨mem_states_build.mp hstart, fun s hs => ?_, fun m hm => ?_⟩
    · exact mem_states_build.mp (h.finals s (mem_finals_build.mpr hs))
    · exact ⟨mem_states_build.mp (h.sources m ((hmem m).mpr hm)),
        mem_states_build.mp (h.targets m ((hmem m).mpr hm))⟩
  · rintro ⟨hstart, hfinals, hmoves⟩
    refine ⟨?_, fun _ hs => hs, fun s hs => ?_, fun m hm => ?_, fun m hm => ?_⟩
    · rw [start_build]
      exact mem_states_build.mpr hstart
    · exact mem_states_build.mpr (hfinals s (mem_finals_build.mp hs))
    · exact mem_states_build.mpr (hmoves m ((hmem m).mp hm)).1
    · exact mem_states_build.mpr (hmoves m ((hmem m).mp hm)).2

/-- Whatever edits were asked for, the alphabet and the start stay as they were given. A transition is
refused when its symbol is foreign, or else when one that was granted leads elsewhere; what is refused
or repeated changes nothing. A state and a symbol lead where the first transition that was granted to
them leads, and these transitions are listed once each in the order in which they came. The check finds
no foreign symbol, and finds nothing when all states in use were declared, sooner or later. -/
theorem build_of_history (A : Alphabet) (start : State) (es : List Edit) :
    let D := build A start es
    let ms := grantedMoves A start es
    (D.alphabet = A ∧ D.start = start) ∧
    (∀ s c t m, D.addTransition s c t = .error m ↔
      c ∉ A ∧ m = .foreignSymbol c ∨
        (c ∈ A ∧ ∃ u, ((s, c), u) ∈ ms ∧ u ≠ t) ∧ m = .conflict s c) ∧
    (∀ e, (e ∈ es ∨ ∃ m, D.edit e = .error m) → D.editOrKeep e = D) ∧
    (∀ s c, D.next? s c = (ms.find? (·.1 = (s, c))).map Prod.snd) ∧
    (D.transitions = (distinct ms).map moveTransition ∧
      (D.transitions.map fun t => (t.source, t.label)).Nodup) ∧
    (∀ c, D.check ≠ .error (.foreignSymbol c)) ∧
    (D.check = .ok () ↔ .state start ∈ es ∧ (∀ s, .final s ∈ es → .state s ∈ es) ∧
      ∀ m ∈ ms, .state m.1.1 ∈ es ∧ .state m.2 ∈ es) := by
  intro D ms
  refine ⟨⟨alphabet_build, start_build⟩, fun s c t m => ?_, fun e he => ?_, next?_build, ⟨?_, ?_⟩,
    check_ne_foreignSymbol overAlphabet_build, check_build⟩
  · simp only [addTransition_eq_error, D, alphabet_build, next?_build_eq_some, ms]
  · rcases he with he | ⟨m, he⟩
    · exact editOrKeep_of_mem he
    · exact editOrKeep_of_error he
  · exact congrArg (List.map moveTransition) entries_build
  · exact nodup_keys_transitions D

/-- The second and the third transition are refused, and the third from last is there already; states
are declared after they are used. -/
theorem build_of_history_refusals :
    let es := [Edit.transition 0 'a' 1, .transition 0 'a' 2, .transition 0 'z' 0, .final 1,
      .transition 1 'b' 0, .transition 0 'a' 1, .state 1, .state 0]
    let D := build (Alphabet.ofString "ab") 0 es
    Edit.transition 0 'a' 2 ∈ es ∧ D.editOrKeep (.transition 0 'a' 2) = D ∧
      D.addTransition 0 'a' 2 = .error (.conflict 0 'a') ∧ D.next? 0 'a' = some 1 ∧
      D.transitions = [⟨0, .symbol 'a', 1⟩, ⟨1, .symbol 'b', 0⟩] ∧ D.check = .ok () := by
  intro es D
  obtain ⟨-, hrefused, hkept, hnext, ⟨htransitions, -⟩, -, hcheck⟩ :=
    build_of_history (Alphabet.ofString "ab") 0 es
  have hmem : Edit.transition 0 'a' 2 ∈ es := by decide
  refine ⟨hmem, hkept _ (Or.inl hmem), (hrefused 0 'a' 2 _).mpr ?_, (hnext 0 'a').trans ?_,
    htransitions.trans ?_, hcheck.mpr ⟨?_, ?_, ?_⟩⟩
  · exact Or.inr ⟨⟨by decide, 1, by decide, by decide⟩, rfl⟩
  · decide
  · decide
  · decide
  · intro s hs
    obtain rfl : s = 1 := by simpa [es] using hs
    decide
  · decide

end Recognizer.Dfa

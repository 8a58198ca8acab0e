import Recognizer.Dfa.Named
import Recognizer.Proofs.Dfa.Renumbering
import Recognizer.Proofs.Document.Names
import Recognizer.Proofs.Fallible

/-!
# Deterministic automata read back from tables

A table brings the transitions of a state together in one row. Reading it gives the automaton back under
the ranks of its states and with its transitions in this order, and every state keeps its name
(`Dfa.Named.ofTable_toTable`).
-/

namespace Recognizer.Dfa

set_option autoImplicit false

variable {D : Dfa}

/-! ## Moves brought together by their sources -/

def source (m : (State × Symbol) × State) : State := m.1.1

/-- The states that a move leaves, in the order of their first moves. -/
def sources (D : Dfa) : List State := distinct (D.moves.entries.map source)

def movesFrom (D : Dfa) (s : State) : List ((State × Symbol) × State) :=
  D.moves.entries.filter (source · = s)

theorem mem_sources {s : State} : s ∈ D.sources ↔ ∃ m ∈ D.moves.entries, source m = s :=
  mem_distinct.trans List.mem_map

theorem mem_movesFrom {s : State} {m : (State × Symbol) × State} :
    m ∈ D.movesFrom s ↔ m ∈ D.moves.entries ∧ source m = s := by
  rw [movesFrom, List.mem_filter, decide_eq_true_eq]

theorem nodup_groupedMoves (D : Dfa) : ((groupedBy source D.moves.entries).map Prod.fst).Nodup :=
  ((groupedBy_perm D.moves.nodup.of_map).map Prod.fst).nodup_iff.mpr D.moves.nodup

/-- The automaton with its moves brought together by their sources, in the order in which these first
occur. -/
def grouped (D : Dfa) : Dfa :=
  { D with moves := ⟨groupedBy source D.moves.entries, nodup_groupedMoves D⟩ }

theorem mem_grouped_moves {m : (State × Symbol) × State} :
    m ∈ D.grouped.moves.entries ↔ m ∈ D.moves.entries := mem_groupedBy

theorem next?_grouped (s : State) (c : Symbol) : D.grouped.next? s c = D.next? s c := by
  apply Option.ext
  intro t
  unfold next?
  rw [OrderedMap.get?_eq_some, OrderedMap.get?_eq_some, mem_grouped_moves]

theorem check_grouped (hc : D.check = .ok ()) : D.grouped.check = .ok () := by
  rw [check_eq_ok] at hc ⊢
  obtain ⟨hs, hA⟩ := hc
  exact ⟨⟨hs.start, hs.states, hs.finals, fun m hm => hs.sources m (mem_grouped_moves.mp hm),
    fun m hm => hs.targets m (mem_grouped_moves.mp hm)⟩, fun m hm => hA m (mem_grouped_moves.mp hm)⟩

theorem runFrom_grouped (s : State) (w : List Symbol) : D.grouped.runFrom s w = D.runFrom s w := by
  induction w generalizing s with
  | nil => rfl
  | cons c w ih =>
    rw [runFrom, runFrom, next?_grouped]
    simp only [ih]
    rfl

theorem run_grouped (w : List Symbol) : D.grouped.run w = D.run w := runFrom_grouped D.start w

namespace Named

variable {D : Dfa.Named} {E : Dfa} {r : State → State}

/-! ## Rows -/

/-- The row of a source after one of its moves has been entered. -/
def extend (D : Dfa.Named) (row : OrderedMap String String) (m : (State × Symbol) × State) :
    OrderedMap String String := row.insert m.1.2.toString (D.name m.2)

def row (D : Dfa.Named) (s : State) : OrderedMap String String :=
  (D.dfa.movesFrom s).foldl D.extend ∅

/-- No two moves from one state are on the same symbol. -/
theorem nodup_symbols (D : Dfa) (s : State) :
    ((D.movesFrom s).map fun m => m.1.2.toString).Nodup := by
  have hnd : (D.movesFrom s).Nodup := D.moves.nodup.of_map.filter _
  rw [List.nodup_map_iff_inj_on hnd]
  intro m hm n hn e
  obtain ⟨hm, hms⟩ := mem_movesFrom.mp hm
  obtain ⟨hn, hns⟩ := mem_movesFrom.mp hn
  have hkey : m.1 = n.1 := Prod.ext (hms.trans hns.symm) (Document.toString_injective e)
  exact List.inj_on_of_nodup_map D.moves.nodup hm hn hkey

theorem entries_row (D : Dfa.Named) (s : State) :
    (D.row s).entries = (D.dfa.movesFrom s).map fun m => (m.1.2.toString, D.name m.2) :=
  OrderedMap.entries_foldl_insert _ _ (nodup_symbols D.dfa s)

section
variable (hs : D.dfa.AllStates (· ∈ D.dfa.states)) (hn : D.dfa.states.ToldApart D.name)
include hs hn

theorem keys_rows : D.toTable.rows.keys = D.dfa.sources.map D.name := by
  have hdeclared : ∀ s ∈ D.dfa.moves.entries.map source, s ∈ D.dfa.states :=
    List.forall_mem_map.mpr hs.sources
  have h : D.toTable.rows.keys = distinct ((D.dfa.moves.entries.map source).map D.name) := by
    rw [List.map_map]
    exact OrderedMap.keys_foldl_update (fun m => D.name (source m))
      (fun m row => D.extend (row.getD ∅) m) D.dfa.moves.entries
  rw [h]
  exact distinct_map fun s hs t ht => hn s (hdeclared s hs) t (hdeclared t ht)

/-- A name belongs to one declared state, so all that is entered under it leaves that state. -/
theorem get?_rows {s : State} (hsrc : s ∈ D.dfa.sources) :
    D.toTable.rows.get? (D.name s) = some (D.row s) := by
  obtain ⟨m, hm, rfl⟩ := mem_sources.mp hsrc
  have hmoves : (D.dfa.moves.entries.filter fun n => D.name (source n) = D.name (source m)) =
      D.dfa.movesFrom (source m) := by
    refine List.filter_congr fun n hn' => ?_
    rw [Bool.eq_iff_iff, decide_eq_true_eq, decide_eq_true_eq]
    exact ⟨hn _ (hs.sources n hn') _ (hs.sources m hm), congrArg D.name⟩
  have hne : D.dfa.movesFrom (source m) ≠ [] := List.ne_nil_of_mem (mem_movesFrom.mpr ⟨hm, rfl⟩)
  have h := OrderedMap.get?_foldl_update (fun m => D.name (source m))
    (fun m row => D.extend (row.getD ∅) m) D.dfa.moves.entries ∅ (D.name (source m))
  rw [hmoves, OrderedMap.get?_empty, OrderedMap.foldl_some_getD hne] at h
  exact h

theorem entries_rows : D.toTable.rows.entries = D.dfa.sources.map fun s => (D.name s, D.row s) :=
  OrderedMap.entries_eq_map (keys_rows hs hn) fun _ hsrc => get?_rows hs hn hsrc

end

/-! ## Reading -/

section
variable {names : List String} (hl : ∀ s ∈ D.dfa.states, locate names (D.name s) = .ok (r s))
  (hs : D.dfa.AllStates (· ∈ D.dfa.states))
include hl hs

theorem addRow_row {s : State} (hsrc : s ∈ D.dfa.sources) (E : Dfa) :
    addRow names E (D.name s, D.row s) =
      ((D.dfa.movesFrom s).map (renumberMove r)).foldlM addMove E := by
  have hentry : ∀ m ∈ D.dfa.movesFrom s, ∀ E,
      addEntry names (r s) E (m.1.2.toString, D.name m.2) = addMove E (renumberMove r m) := by
    intro m hm E
    obtain ⟨hme, rfl⟩ := mem_movesFrom.mp hm
    unfold addEntry
    rw [Document.symbol_toString, ok_bind, hl _ (hs.targets m hme)]
    rfl
  obtain ⟨m, hm, rfl⟩ := mem_sources.mp hsrc
  have hsource : locate names (D.name (source m)) = .ok (r (source m)) := hl _ (hs.sources m hm)
  unfold addRow
  dsimp only
  rw [hsource, ok_bind, entries_row, List.foldlM_map, List.foldlM_map, foldlM_congr hentry]

theorem foldlM_addRow (E : Dfa) :
    (D.dfa.sources.map fun s => (D.name s, D.row s)).foldlM (addRow names) E =
      (D.dfa.grouped.moves.entries.map (renumberMove r)).foldlM addMove E := by
  have hrow : ∀ s ∈ D.dfa.sources, ∀ E, addRow names E (D.name s, D.row s) =
      ((D.dfa.movesFrom s).map (renumberMove r)).foldlM addMove E :=
    fun s hsrc E => addRow_row hl hs hsrc E
  rw [List.foldlM_map, foldlM_congr hrow, ← foldlM_flatMap, ← List.map_flatMap]
  rfl

theorem foldlM_addFinal_name (E : Dfa) :
    (D.dfa.finals.toList.map D.name).foldlM (addFinal names) E =
      .ok { E with finals := E.finals.insertAll (D.dfa.finals.toList.map r) } := by
  have hfinal : ∀ s ∈ D.dfa.finals.toList, ∀ E,
      addFinal names E (D.name s) = .ok (E.addFinal (r s)) := by
    intro s hsf E
    unfold addFinal
    rw [hl s (hs.finals s hsf)]
    rfl
  rw [List.foldlM_map, foldlM_eq_ok hfinal, ← foldl_addFinal, List.foldl_map]

end

theorem ofTable_of_renumbered (hc : D.dfa.check = .ok ()) (hn : D.dfa.states.ToldApart D.name)
    (h : D.dfa.grouped.Renumbered D.dfa.states.countBelow E) (hm : E.members = none) :
    ofTable D.toTable = .ok ⟨E, D.dfa.states.toList.map D.name⟩ := by
  obtain ⟨hs, -⟩ := check_eq_ok.mp hc
  have hdeclare : Document.declare Text.quoted D.toTable.states = .ok () := Document.declare_eq_ok hn
  have hl : ∀ s ∈ D.dfa.states,
      locate D.toTable.states (D.name s) = .ok (D.dfa.states.countBelow s) := fun s hs =>
    Document.locate_eq_ok hn hs
  have halphabet : Document.alphabet D.toTable.alphabet = .ok D.dfa.alphabet :=
    Document.alphabet_symbolTexts D.dfa.alphabet
  have hstart : locate D.toTable.states D.toTable.initial =
      .ok (D.dfa.states.countBelow D.dfa.start) := hl _ hs.start
  have hstates : (∅ : StateSet).insertAll (List.range D.toTable.states.length) = E.states := by
    rw [← h.insertAll_states]
    show _ = (∅ : StateSet).insertAll (D.dfa.states.toList.map D.dfa.states.countBelow)
    rw [SortedSet.map_countBelow, toTable, List.length_map]
    rfl
  have hgrouped := check_eq_ok.mp (check_grouped hc)
  have hmoves := h.foldlM_moves hgrouped.2
    (E := { start := D.dfa.states.countBelow D.dfa.start, alphabet := D.dfa.alphabet,
            states := E.states }) rfl rfl
  have hfinals : D.toTable.finals.foldlM (addFinal D.toTable.states)
      { start := D.dfa.states.countBelow D.dfa.start, alphabet := D.dfa.alphabet, states := E.states,
        moves := E.moves } = .ok E := by
    refine (foldlM_addFinal_name hl hs _).trans ?_
    dsimp only
    rw [show (∅ : StateSet).insertAll (D.dfa.finals.toList.map D.dfa.states.countBelow) = E.finals from
      h.insertAll_finals]
    exact congrArg _ (h.eq_of_parts hm)
  unfold ofTable
  rw [hdeclare, ok_bind, halphabet, ok_bind, hstart, ok_bind]
  dsimp only
  rw [foldl_addState, hstates, entries_rows hs hn, foldlM_addRow hl hs, hmoves, ok_bind, hfinals,
    ok_bind, h.check_eq_ok (check_grouped hc), ok_bind]
  rfl

theorem ofTable_of_repeated (hn : ¬ D.dfa.states.ToldApart D.name) :
    ∃ s ∈ D.dfa.states, ∃ t ∈ D.dfa.states, s ≠ t ∧ D.name s = D.name t ∧
      ofTable D.toTable = .error (.repeatedName (Text.quoted (D.name s))) := by
  obtain ⟨s, hs, t, ht, hst, he, hdeclare⟩ : ∃ s ∈ D.dfa.states, ∃ t ∈ D.dfa.states, s ≠ t ∧
      D.name s = D.name t ∧ Document.declare Text.quoted D.toTable.states =
        .error (.repeatedName (Text.quoted (D.name s))) := Document.declare_eq_error hn
  refine ⟨s, hs, t, ht, hst, he, ?_⟩
  unfold ofTable
  rw [hdeclare, error_bind]

/-- An automaton with names that is written as a table is read back under the ranks of its states, with
its moves grouped by their sources, as long as the names tell its states apart: nothing that is reported
of any word changes. Otherwise the reader quotes a name that two states share. -/
theorem ofTable_toTable (D : Dfa.Named) (hc : D.dfa.check = .ok ()) :
    (D.dfa.states.ToldApart D.name →
      ∃ E, ofTable D.toTable = .ok E ∧ D.dfa.grouped.Renumbered D.dfa.states.countBelow E.dfa ∧
        E.names = D.dfa.states.toList.map D.name ∧
        (∀ s ∈ D.dfa.states, E.names[D.dfa.states.countBelow s]? = some (D.name s)) ∧
        (∀ s ∈ D.dfa.states, ∀ c, E.dfa.next? (D.dfa.states.countBelow s) c =
          (D.dfa.next? s c).map D.dfa.states.countBelow) ∧
        (∀ w, E.dfa.run w = (D.dfa.run w).map D.dfa.states.countBelow) ∧
        ∀ word : String, ({ word, run := E.dfa.run word.toList, name := E.name } : Report).text =
          ({ word, run := D.dfa.run word.toList, name := D.name } : Report).text) ∧
    (¬ D.dfa.states.ToldApart D.name →
      ∃ s ∈ D.dfa.states, ∃ t ∈ D.dfa.states, s ≠ t ∧ D.name s = D.name t ∧
        ofTable D.toTable = .error (.repeatedName (Text.quoted (D.name s)))) := by
  refine ⟨fun hn => ?_, ofTable_of_repeated⟩
  obtain ⟨hs, -⟩ := check_eq_ok.mp (check_grouped hc)
  have hr := D.dfa.states.toldApart_countBelow
  obtain ⟨E, h, hm⟩ := exists_renumbered hs hr
  have hnames : ∀ s ∈ D.dfa.states,
      (D.dfa.states.toList.map D.name)[D.dfa.states.countBelow s]? = some (D.name s) := by
    intro s hs
    rw [List.getElem?_map, SortedSet.getElem?_countBelow hs, Option.map_some]
  have hname : ∀ s ∈ D.dfa.states, (⟨E, D.dfa.states.toList.map D.name⟩ : Dfa.Named).name
      (D.dfa.states.countBelow s) = D.name s := by
    intro s hs
    exact congrArg (Option.getD · _) (hnames s hs)
  refine ⟨_, ofTable_of_renumbered hc hn h hm, h, rfl, hnames, fun s hs' c => ?_, fun w => ?_,
    fun word => ?_⟩
  · rw [← next?_grouped (D := D.dfa)]
    exact h.next?_eq hs hr hs' c
  · rw [← run_grouped (D := D.dfa)]
    exact h.run_eq hs hr w
  · rw [← run_grouped (D := D.dfa)]
    exact h.text_eq hs hr hname word

/-- Moves of two states in turns; the state `7` came later and has no name. In the second automaton its
number is the name of another state. -/
theorem ofTable_toTable_unnamed :
    let A := Alphabet.ofString "ab"
    let D : Dfa.Named := ⟨build A 0 [.state 0, .state 1, .state 7, .transition 1 'b' 0,
      .transition 0 'a' 1, .transition 1 'a' 7, .final 7], ["p", "q"]⟩
    let E : Dfa.Named := ⟨build A 0 [.state 0, .state 7], ["7"]⟩
    (D.dfa.check = .ok () ∧ D.dfa.states.ToldApart D.name ∧
      ∃ F, ofTable D.toTable = .ok F ∧ F.names = ["p", "q", "7"] ∧
        F.dfa.run ['a', 'a'] = ⟨[0, 1, 2], none⟩) ∧
    E.dfa.check = .ok () ∧ ¬ E.dfa.states.ToldApart E.name ∧
      ∃ s ∈ E.dfa.states, ofTable E.toTable = .error (.repeatedName (Text.quoted (E.name s))) := by
  intro A D E
  have hD : D.dfa.check = .ok () := by decide
  have hn : D.dfa.states.ToldApart D.name := SortedSet.nodup_map_iff.mp (by decide)
  have hE : E.dfa.check = .ok () := by decide
  have hn' : ¬ E.dfa.states.ToldApart E.name := mt SortedSet.nodup_map_iff.mpr (by decide)
  obtain ⟨F, hF, -, hnames, -, -, hrun, -⟩ := (ofTable_toTable D hD).1 hn
  obtain ⟨s, hs, -, -, -, -, he⟩ := (ofTable_toTable E hE).2 hn'
  exact ⟨⟨hD, hn, F, hF, hnames.trans (by decide), (hrun _).trans (by decide)⟩, hE, hn', s, hs, he⟩

end Named

end Recognizer.Dfa

import Recognizer.Dfa.Named
import Recognizer.Proofs.Dfa.Reading
import Recognizer.Proofs.Readings

/-!
# Readers that look names up

Where states are found by their names, all that is found has been declared, so nothing is left for the
check to find. A table has one row for each name and one entry for each symbol in it, so its transitions
cannot disagree either, and it is read just when it is well-formed (`Dfa.Named.exists_ofTable`).
-/

namespace Recognizer

set_option autoImplicit false

/-- States that are used are not declared, which is what a check looks for. -/
inductive Flaw.Undeclared : Flaw → Prop
  | initial (s : State) : Undeclared (.initial s)
  | final (s : State) : Undeclared (.final s)
  | endpoint (s t : State) : Undeclared (.endpoint s t)

open Document (Edge Listing Table IsSymbol)

/-! ## What is wrong with names and symbols -/

section
variable {S : Type} [DecidableEq S] {shown : S → String} {names : List S} {m : Flaw}

/-- The flaws of texts and names. -/
inductive Flaw.OfText : Flaw → Prop
  | notSymbol (text : String) : OfText (.notSymbol text)
  | foreignSymbol (c : Symbol) : OfText (.foreignSymbol c)
  | repeatedName (name : String) : OfText (.repeatedName name)
  | unknownName (name : String) : OfText (.unknownName name)

theorem Flaw.OfText.not_undeclared (h : m.OfText) : ¬ m.Undeclared := by
  cases h <;> exact fun h => nomatch h

theorem Flaw.OfText.not_indeterminate (h : m.OfText) : ¬ m.Indeterminate := by
  cases h <;> exact fun h => nomatch h

theorem Flaw.Indeterminate.not_undeclared (h : m.Indeterminate) : ¬ m.Undeclared := by
  cases h <;> exact fun h => nomatch h

theorem ofText_of_symbol {text : String} (h : Document.symbol text = .error m) : m.OfText := by
  unfold Document.symbol at h
  split at h
  · cases h
  · cases h
    exact .notSymbol text

theorem ofText_of_alphabet {texts : List String} (h : Document.alphabet texts = .error m) :
    m.OfText := by
  have hm := Document.fault?_alphabet texts
  rw [h] at hm
  obtain ⟨x, -, rfl⟩ := List.mem_map.mp (List.mem_of_head? hm.symm)
  exact .notSymbol x

theorem ofText_of_declare (h : Document.declare shown names = .error m) : m.OfText := by
  obtain ⟨x, rfl⟩ := Document.exists_of_declare_eq_error h
  exact .repeatedName _

theorem ofText_of_locate {x : S} (h : Document.locate shown names x = .error m) : m.OfText := by
  rw [Document.locate_eq_error h]
  exact .unknownName _

end

namespace Dfa

variable {m : Flaw}

/-! ## Member lists -/

theorem closed_memberParts (d : Listing (List State)) : (memberParts d).Closed := by
  have hdeclared : ∀ S q, Document.locate shownMembers (sets d).states S = .ok q →
      .ok q ∈ (memberParts d).states := fun S q h =>
    List.mem_map.mpr ⟨S, Document.exists_locate.mp ⟨q, h⟩, h⟩
  refine ⟨hdeclared _, fun q hq => ?_, fun n hn => ?_⟩
  · obtain ⟨S, -, hS⟩ := List.mem_map.mp hq
    exact hdeclared S q hS
  · obtain ⟨e, -, he⟩ := List.mem_map.mp hn
    obtain ⟨hs, -, ht⟩ := edgeMove_eq_ok.mp he
    exact ⟨hdeclared _ _ hs, hdeclared _ _ ht⟩

theorem ofText_or_indeterminate_of_edgeMove {S : Type} {resolve : S → Except Flaw State}
    (hr : ∀ x m, resolve x = .error m → m.OfText) {e : Edge S} (h : edgeMove resolve e = .error m) :
    m.OfText ∨ m.Indeterminate := by
  rcases bind_eq_error.mp h with h | ⟨s, -, h⟩
  · exact Or.inl (hr _ m h)
  rcases bind_eq_error.mp h with h | ⟨t, -, h⟩
  · exact Or.inl (hr _ m h)
  cases he : e.symbol with
  | none =>
    rw [he] at h
    cases h
    exact Or.inr (.silentMove s t)
  | some text =>
    rw [he] at h
    rcases bind_eq_error.mp h with h | ⟨c, -, h⟩
    · exact Or.inl (ofText_of_symbol h)
    · cases h

theorem ofText_or_indeterminate_of_draft {d : Listing (List State)}
    (h : (memberParts d).draft = .error m) : m.OfText ∨ m.Indeterminate := by
  have hlocate : ∀ S m, Document.locate shownMembers (sets d).states S = .error m → m.OfText :=
    fun _ _ => ofText_of_locate
  have hlocated : ∀ Ss : List StateSet,
      .error m ∈ Ss.map (Document.locate shownMembers (sets d).states) → m.OfText := fun Ss h => by
    obtain ⟨S, -, hS⟩ := List.mem_map.mp h
    exact hlocate S m hS
  rcases Parts.flawed_of_draft h with h | ⟨-, q, c, rfl⟩
  · cases h with
    | alphabet h =>
      have hA : Document.alphabet (sets d).alphabetTexts = .error m := (sets d).symbols_eq ▸ h
      exact Or.inl (ofText_of_alphabet hA)
    | start h => exact Or.inl (hlocate _ m h)
    | state h => exact Or.inl (hlocated _ h)
    | move h =>
      obtain ⟨e, -, he⟩ := List.mem_map.mp h
      exact ofText_or_indeterminate_of_edgeMove hlocate he
    | final h => exact Or.inl (hlocated _ h)
    | symbol c => exact Or.inl (.foreignSymbol c)
  · exact Or.inr (.conflict q c)

theorem not_undeclared_of_ofMemberListing {d : Listing (List State)}
    (h : ofMemberListing d = .error m) : ¬ m.Undeclared := by
  rw [ofMemberListing_eq_assemble, Parts.assemble_eq_draft (closed_memberParts d)] at h
  rcases bind_eq_error.mp h with h | ⟨u, -, h⟩
  · exact (ofText_of_declare h).not_undeclared
  rcases bind_eq_error.mp h with h | ⟨D, -, h⟩
  · rcases ofText_or_indeterminate_of_draft h with h | h
    · exact h.not_undeclared
    · exact h.not_undeclared
  · cases h

end Dfa

/-! ## Tables -/

namespace Dfa.Named

variable {names : List String} {d : Table} {m : Flaw}

/-- The move that an entry in a row of the state `s` stands for. -/
def entryMove (names : List String) (s : State) (e : String × String) : Except Flaw Move := do
  let c ← Document.symbol e.1
  let t ← locate names e.2
  return ((s, c), t)

def rowMoves (names : List String) (r : String × OrderedMap String String) :
    List (Except Flaw Move) :=
  match locate names r.1 with
  | .ok s => r.2.entries.map (entryMove names s)
  | .error m => [.error m]

def tableParts (d : Table) : Parts where
  alphabet := Document.alphabet d.alphabet
  start := locate d.states d.initial
  states := (List.range d.states.length).map .ok
  moves := d.rows.entries.flatMap (rowMoves d.states)
  finals := d.finals.map (locate d.states)

theorem addRow_eq_foldlM (D : Dfa) (r : String × OrderedMap String String) :
    addRow names D r = (rowMoves names r).foldlM (fun D m => m >>= D.addMove) D := by
  have hentry : ∀ s, ∀ e ∈ r.2.entries, ∀ D,
      addEntry names s D e = entryMove names s e >>= D.addMove := fun s e _ D => by
    unfold addEntry entryMove
    cases Document.symbol e.1 with
    | error m => rfl
    | ok c => cases locate names e.2 <;> rfl
  unfold addRow rowMoves
  cases locate names r.1 with
  | error m => rfl
  | ok s => rw [ok_bind, foldlM_congr (hentry s), List.foldlM_map]

theorem ofTable_eq_assemble (d : Table) : ofTable d = do
    Document.declare Text.quoted d.states
    let D ← (tableParts d).assemble
    return ⟨D, d.states⟩ := by
  have hstates : ∀ D : Dfa, ((List.range d.states.length).map (.ok : State → Except Flaw State)).foldlM
      (fun D s => s.map D.addState) D = .ok ((List.range d.states.length).foldl addState D) :=
    fun D => by
      rw [List.foldlM_map]
      exact foldlM_eq_ok (fun _ _ _ => rfl) D
  have hfinal : ∀ x ∈ d.finals, ∀ D, addFinal d.states D x = (locate d.states x).map D.addFinal :=
    fun x _ D => by
      unfold addFinal
      cases locate d.states x <;> rfl
  unfold ofTable Parts.assemble Parts.draft tableParts
  simp only [hstates, ok_bind, foldlM_flatMap, List.foldlM_map, foldlM_congr hfinal, bind_assoc,
    foldlM_congr fun r _ D => addRow_eq_foldlM D r]
  rfl

theorem exists_locate {x : String} : (∃ q, locate names x = .ok q) ↔ x ∈ names :=
  Document.exists_locate

/-! ## The moves of a table -/

theorem entryMove_eq_ok {s : State} {e : String × String} {n : Move} :
    entryMove names s e = .ok n ↔
      n.1.1 = s ∧ e.1 = n.1.2.toString ∧ locate names e.2 = .ok n.2 := by
  obtain ⟨⟨q, c⟩, t⟩ := n
  unfold entryMove
  constructor
  · intro h
    obtain ⟨c', hc, h⟩ := bind_eq_ok.mp h
    obtain ⟨t', ht, h⟩ := bind_eq_ok.mp h
    cases h
    exact ⟨rfl, Document.symbol_eq_ok.mp hc, ht⟩
  · rintro ⟨rfl, he, ht⟩
    rw [he, Document.symbol_toString, ok_bind, ht]
    rfl

theorem mem_rowMoves {r : String × OrderedMap String String} {n : Move} :
    .ok n ∈ rowMoves names r ↔ locate names r.1 = .ok n.1.1 ∧
      ∃ e ∈ r.2.entries, e.1 = n.1.2.toString ∧ locate names e.2 = .ok n.2 := by
  unfold rowMoves
  cases locate names r.1 with
  | error m => simp
  | ok s =>
    simp only [List.mem_map, entryMove_eq_ok, Except.ok.injEq, eq_comm (a := s)]
    constructor
    · rintro ⟨e, he, hs, h⟩
      exact ⟨hs, e, he, h⟩
    · rintro ⟨hs, e, he, h⟩
      exact ⟨e, he, hs, h⟩

theorem settled_rowMoves {r : String × OrderedMap String String} :
    (∀ x ∈ rowMoves names r, ∃ n, x = .ok n) ↔
      r.1 ∈ names ∧ ∀ e ∈ r.2.entries, IsSymbol e.1 ∧ e.2 ∈ names := by
  have hentry : ∀ s e, (∃ n, entryMove names s e = .ok n) ↔ IsSymbol e.1 ∧ e.2 ∈ names := by
    intro s e
    rw [← exists_locate]
    constructor
    · rintro ⟨n, hn⟩
      obtain ⟨-, hc, ht⟩ := entryMove_eq_ok.mp hn
      exact ⟨⟨_, hc⟩, _, ht⟩
    · rintro ⟨⟨c, hc⟩, t, ht⟩
      exact ⟨((s, c), t), entryMove_eq_ok.mpr ⟨rfl, hc, ht⟩⟩
  rw [← exists_locate]
  unfold rowMoves
  cases locate names r.1 with
  | error m => simp
  | ok s =>
    rw [and_iff_right ⟨s, rfl⟩, List.forall_mem_map]
    exact forall₂_congr fun e _ => hentry s e

theorem ofText_of_rowMoves {r : String × OrderedMap String String}
    (h : .error m ∈ rowMoves names r) : m.OfText := by
  unfold rowMoves at h
  cases hr : locate names r.1 with
  | error m' =>
    rw [hr] at h
    cases List.mem_singleton.mp h
    exact ofText_of_locate hr
  | ok s =>
    rw [hr] at h
    obtain ⟨e, -, he⟩ := List.mem_map.mp h
    rcases bind_eq_error.mp he with h | ⟨c, -, he⟩
    · exact ofText_of_symbol h
    rcases bind_eq_error.mp he with h | ⟨t, -, he⟩
    · exact ofText_of_locate h
    · cases he

/-- A name has one row, and a symbol has one entry in it. -/
theorem agree_tableParts (d : Table) : Agree (results (tableParts d).moves) := by
  have hname : ∀ {x y : String} {q : State}, locate d.states x = .ok q → locate d.states y = .ok q →
      x = y := fun hx hy =>
    Option.some.inj ((Document.getElem?_of_locate hx).symm.trans (Document.getElem?_of_locate hy))
  intro n hn k hk hkey
  obtain ⟨r, hr, hn⟩ := List.mem_flatMap.mp (mem_results.mp hn)
  obtain ⟨r', hr', hk⟩ := List.mem_flatMap.mp (mem_results.mp hk)
  obtain ⟨hn, e, he, hec, het⟩ := mem_rowMoves.mp hn
  obtain ⟨hk, e', he', hec', het'⟩ := mem_rowMoves.mp hk
  have hrow : r.2 = r'.2 := OrderedMap.eq_of_key_eq hr hr' (hname (hkey ▸ hn) hk)
  have htarget : e.2 = e'.2 := OrderedMap.eq_of_key_eq he (hrow ▸ he') (by rw [hec, hec', hkey])
  rw [htarget, het'] at het
  exact (Except.ok.inj het).symm

/-! ## Reading a table -/

theorem mem_states_tableParts {q : State} : .ok q ∈ (tableParts d).states ↔ q < d.states.length := by
  simp [tableParts]

theorem closed_tableParts (d : Table) : (tableParts d).Closed := by
  have hlocated : ∀ x q, locate d.states x = .ok q → .ok q ∈ (tableParts d).states := fun x q h =>
    mem_states_tableParts.mpr (List.getElem?_eq_some_iff.mp (Document.getElem?_of_locate h)).1
  refine ⟨hlocated _, fun q hq => ?_, fun n hn => ?_⟩
  · obtain ⟨x, -, hx⟩ := List.mem_map.mp hq
    exact hlocated x q hx
  · obtain ⟨r, -, hn⟩ := List.mem_flatMap.mp hn
    obtain ⟨hs, e, -, -, ht⟩ := mem_rowMoves.mp hn
    exact ⟨hlocated _ _ hs, hlocated _ _ ht⟩

theorem ofText_of_ofTable (h : ofTable d = .error m) : m.OfText := by
  rw [ofTable_eq_assemble, Parts.assemble_eq_draft (closed_tableParts d)] at h
  rcases bind_eq_error.mp h with h | ⟨u, -, h⟩
  · exact ofText_of_declare h
  rcases bind_eq_error.mp h with h | ⟨D, -, h⟩
  · rcases Parts.flawed_of_draft h with h | ⟨h, -⟩
    · cases h with
      | alphabet h => exact ofText_of_alphabet h
      | start h => exact ofText_of_locate h
      | state h => simp [tableParts] at h
      | move h =>
        obtain ⟨r, -, h⟩ := List.mem_flatMap.mp h
        exact ofText_of_rowMoves h
      | final h =>
        obtain ⟨x, -, hx⟩ := List.mem_map.mp h
        exact ofText_of_locate hx
      | symbol c => exact .foreignSymbol c
    · exact absurd (agree_tableParts d) h
  · cases h

theorem wellFormed_of_sound (hn : d.states.Nodup) (h : (tableParts d).Sound) : d.WellFormed := by
  obtain ⟨A, hA⟩ : ∃ A, Document.alphabet d.alphabet = .ok A := h.alphabet
  obtain ⟨htexts, hmem⟩ := Document.alphabet_eq_ok.mp hA
  have hrows : ∀ r ∈ d.rows.entries,
      r.1 ∈ d.states ∧ ∀ e ∈ r.2.entries, IsSymbol e.1 ∧ e.2 ∈ d.states := fun r hr =>
    settled_rowMoves.mp fun x hx => h.moves x (List.mem_flatMap.mpr ⟨r, hr, hx⟩)
  refine ⟨hn, htexts, fun r hr e he => ?_, exists_locate.mp h.start, fun x hx => ?_,
    fun r hr => (hrows r hr).1, fun r hr e he => ((hrows r hr).2 e he).2⟩
  · obtain ⟨hr₁, hentries⟩ := hrows r hr
    obtain ⟨⟨c, hc⟩, he₂⟩ := hentries e he
    obtain ⟨s, hs⟩ := exists_locate.mpr hr₁
    obtain ⟨t, ht⟩ := exists_locate.mpr he₂
    have hmove : .ok ((s, c), t) ∈ (tableParts d).moves :=
      List.mem_flatMap.mpr ⟨r, hr, mem_rowMoves.mpr ⟨hs, e, he, hc, ht⟩⟩
    rw [hc]
    exact ⟨⟨c, rfl⟩, (hmem c).mp (h.symbols A hA _ hmove)⟩
  · exact exists_locate.mp (h.finals _ (List.mem_map_of_mem hx))

theorem sound_of_wellFormed (h : d.WellFormed) : (tableParts d).Sound := by
  obtain ⟨A, hA⟩ := Document.exists_alphabet h.alphabet
  refine ⟨⟨⟨A, hA⟩, exists_locate.mpr h.initial, List.forall_mem_map.mpr fun q _ => ⟨q, rfl⟩,
    fun x hx => ?_, List.forall_mem_map.mpr fun x hx => exists_locate.mpr (h.finals x hx)⟩,
    fun A hA n hn => ?_, agree_tableParts d⟩
  · obtain ⟨r, hr, hx⟩ := List.mem_flatMap.mp hx
    exact settled_rowMoves.mpr
      ⟨h.sources r hr, fun e he => ⟨(h.keys r hr e he).1, h.targets r hr e he⟩⟩ x hx
  · obtain ⟨r, hr, hn⟩ := List.mem_flatMap.mp hn
    obtain ⟨-, e, he, hc, -⟩ := mem_rowMoves.mp hn
    exact ((Document.alphabet_eq_ok.mp hA).2 _).mpr (hc ▸ (h.keys r hr e he).2)

theorem ofTable_eq_ok {E : Dfa.Named} : ofTable d = .ok E ↔
    d.states.Nodup ∧ (tableParts d).draft = .ok E.dfa ∧ E.names = d.states := by
  rw [ofTable_eq_assemble, Parts.assemble_eq_draft (closed_tableParts d)]
  constructor
  · intro h
    obtain ⟨u, hu, h⟩ := bind_eq_ok.mp h
    obtain ⟨D, hD, h⟩ := bind_eq_ok.mp h
    cases h
    exact ⟨Document.declare_eq_ok_iff.mp hu, hD, rfl⟩
  · rintro ⟨hn, hD, hnames⟩
    rw [Document.declare_eq_ok_iff.mpr hn, ok_bind, hD, ← hnames]
    rfl

theorem exists_ofTable : (∃ E, ofTable d = .ok E) ↔ d.WellFormed := by
  constructor
  · rintro ⟨E, h⟩
    obtain ⟨hn, hD, -⟩ := ofTable_eq_ok.mp h
    exact wellFormed_of_sound hn (Parts.exists_draft.mp ⟨E.dfa, hD⟩)
  · intro h
    obtain ⟨D, hD⟩ := Parts.exists_draft.mpr (sound_of_wellFormed h)
    exact ⟨⟨D, d.states⟩, ofTable_eq_ok.mpr ⟨h.names, hD, rfl⟩⟩

theorem describes_ofTable {E : Dfa.Named} (h : ofTable d = .ok E) :
    Describes d.listing (fun x q => d.states[q]? = some x) E.dfa := by
  obtain ⟨hn, hD, -⟩ := ofTable_eq_ok.mp h
  have hmake := Parts.makeUp_of_draft hD
  have hlocate : ∀ {x q}, locate d.states x = .ok q ↔ d.states[q]? = some x :=
    Document.locate_eq_ok_iff hn
  refine ⟨(Document.alphabet_eq_ok.mp hmake.alphabet).2, hlocate.mp hmake.start, fun q => ?_,
    fun q => ?_, fun q c t => ?_⟩
  · rw [hmake.states, mem_states_tableParts]
    constructor
    · intro hq
      exact ⟨_, List.getElem_mem hq, List.getElem?_eq_getElem hq⟩
    · rintro ⟨x, -, hx⟩
      exact (List.getElem?_eq_some_iff.mp hx).1
  · rw [hmake.finals]
    simp only [tableParts, List.mem_map, hlocate]
    rfl
  · rw [next?, OrderedMap.get?_eq_some, hmake.moves]
    simp only [tableParts, List.mem_flatMap, mem_rowMoves, hlocate, Table.listing, List.mem_map]
    constructor
    · rintro ⟨r, hr, hs, e, he, hc, ht⟩
      exact ⟨_, ⟨r, hr, e, he, rfl⟩, hs, congrArg some hc, ht⟩
    · rintro ⟨-, ⟨r, hr, e, he, rfl⟩, hs, hc, ht⟩
      exact ⟨r, hr, hs, e, he, Option.some.inj hc, ht⟩

end Dfa.Named

/-! ## Names of both kinds -/

/-- Readers that look states up by their names do not need the check at their end, and never complain
of a state that is not declared. Tables are not even turned down for transitions that disagree or have
no symbol: a table is read just when it is well-formed. The automaton then has the names of the table
and, between the states that they stand for, one transition for each entry. -/
theorem Dfa.reading_by_names :
    (∀ d : Listing (List State),
      (ofMemberListing d = do
        Document.declare shownMembers (sets d).states
        let D ← (memberParts d).draft
        return { D with members := some (sets d).states }) ∧
      ∀ m, ofMemberListing d = .error m → ¬ m.Undeclared) ∧
    ∀ d : Table,
      (Named.ofTable d = do
        Document.declare Text.quoted d.states
        let D ← (Named.tableParts d).draft
        return ⟨D, d.states⟩) ∧
      (∀ m, Named.ofTable d = .error m → ¬ m.Undeclared ∧ ¬ m.Indeterminate) ∧
      ((∃ E, Named.ofTable d = .ok E) ↔ d.WellFormed) ∧
      ∀ E, Named.ofTable d = .ok E →
        E.names = d.states ∧ Describes d.listing (fun x q => d.states[q]? = some x) E.dfa := by
  refine ⟨fun d => ⟨?_, fun m => not_undeclared_of_ofMemberListing⟩, fun d => ⟨?_, fun m h => ?_,
    Named.exists_ofTable, fun E h => ?_⟩⟩
  · rw [ofMemberListing_eq_assemble, Parts.assemble_eq_draft (closed_memberParts d)]
  · rw [Named.ofTable_eq_assemble, Parts.assemble_eq_draft (Named.closed_tableParts d)]
  · have hm := Named.ofText_of_ofTable h
    exact ⟨hm.not_undeclared, hm.not_indeterminate⟩
  · exact ⟨(Named.ofTable_eq_ok.mp h).2.2, Named.describes_ofTable h⟩

/-- In the second table a row without entries belongs to no state. -/
theorem Dfa.reading_by_names_unknown :
    let e : Listing (List State) := ⟨[[0]], none, [1, 0], [], []⟩
    let row : OrderedMap String String := OrderedMap.insert ∅ "a" "p"
    let d : Table := ⟨["p", "q"], ["b", "a"], "q", ["p"], OrderedMap.insert ∅ "q" row⟩
    let d' : Table := { d with rows := d.rows.insert "r" ∅ }
    (∃ m, ofMemberListing e = .error m ∧ ¬ m.Undeclared) ∧
      (∃ m, Named.ofTable d' = .error m ∧ ¬ m.Undeclared ∧ ¬ m.Indeterminate) ∧
      d.WellFormed ∧ ∃ E, Named.ofTable d = .ok E ∧ E.names = ["p", "q"] ∧
        E.dfa.next? 1 'a' = some 0 := by
  intro e row d d'
  obtain ⟨hmembers, htables⟩ := reading_by_names
  obtain ⟨-, -, hread, hcontent⟩ := htables d
  have he : ofMemberListing e = .error (.unknownName "[0, 1]") := by decide
  have hd' : Named.ofTable d' = .error (.unknownName (Text.quoted "r")) := rfl
  obtain ⟨E, hE⟩ : ∃ E, Named.ofTable d = .ok E := ⟨_, rfl⟩
  obtain ⟨hnames, hdesc⟩ := hcontent E hE
  refine ⟨⟨_, he, (hmembers e).2 _ he⟩, ⟨_, hd', (htables d').2.1 _ hd'⟩, hread.mp ⟨E, hE⟩, E, hE,
    hnames, (hdesc.next 1 'a' 0).mpr ?_⟩
  exact ⟨_, List.mem_cons_self, rfl, rfl, rfl⟩

end Recognizer

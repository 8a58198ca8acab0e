import Recognizer.Proofs.Nfa.FirstWords
import Recognizer.Proofs.Readings

/-!
# Determinized automata are stable

The numbering of a determinized automaton is the order of the first words of its states, and these words
do not change when it is taken for an automaton with silent moves and determinized again. So its states
are found again one by one under their own numbers (`Nfa.determinizeOver_again`).
-/

namespace Recognizer

set_option autoImplicit false

/-! ## Numbers in one order -/

/-- Where the numbers below `m` correspond to those below `n` in their order, they are the same numbers.
A first one that corresponds to another would leave a smaller one to which none corresponds. -/
theorem eq_of_inOrder {m n : Nat} {R : Nat → Nat → Prop} (left : ∀ q < m, ∃ s < n, R q s)
    (right : ∀ s < n, ∃ q < m, R q s)
    (order : ∀ {q s q' s'}, R q s → R q' s' → (q < q' ↔ s < s')) {q s : Nat} (hq : q < m)
    (hs : s < n) (h : R q s) : q = s := by
  induction q using Nat.strongRecOn generalizing s with
  | ind q ih =>
    rcases Nat.lt_trichotomy q s with hlt | e | hlt
    · obtain ⟨q', hq', h'⟩ := right q (hlt.trans hs)
      have hqq : q' < q := (order h' h).mpr hlt
      have e : q' = q := ih q' hqq hq' (hlt.trans hs) h'
      exact absurd hqq (e ▸ Nat.lt_irrefl q')
    · exact e
    · obtain ⟨s', hs', h'⟩ := left s (hlt.trans hq)
      have e : s = s' := ih s hlt (hlt.trans hq) hs' h'
      have hss : s' < s := (order h' h).mp hlt
      exact absurd hss (e ▸ Nat.lt_irrefl s)

/-! ## Words of related states -/

namespace Dfa

variable {D E : Dfa} {R : State → State → Prop} {q s : State} {u : List Symbol}

theorem Bisimulation.flip (h : E.Bisimulation D R) : D.Bisimulation E fun s q => R q s where
  alphabet := h.alphabet.symm
  isFinal_eq hqs := (h.isFinal_eq hqs).symm
  next? hqs c hc := by
    have hn := h.next? hqs c (h.alphabet ▸ hc)
    generalize E.next? _ c = x at hn
    generalize D.next? _ c = y at hn
    cases hn with
    | none => exact .none
    | some ht => exact .some ht

theorem Bisimulation.exists_leads (h : E.Bisimulation D R) (h₀ : R E.start D.start)
    (hu : E.Leads u q) : ∃ s, R q s ∧ D.Leads u s := by
  induction u using List.reverseRecOn generalizing q with
  | nil =>
    obtain rfl := leads_nil.mp hu
    exact ⟨_, h₀, leads_nil.mpr rfl⟩
  | append_singleton u c ih =>
    obtain ⟨r, hr, hc, hq⟩ := leads_concat.mp hu
    obtain ⟨t, hrt, ht⟩ := ih hr
    have hc : c ∈ D.alphabet := h.alphabet ▸ hc
    have hn := h.next? hrt c hc
    rw [hq] at hn
    generalize hs : D.next? t c = y at hn
    cases hn with
    | some hqs => exact ⟨_, hqs, leads_concat.mpr ⟨t, ht, hc, hs⟩⟩

/-- The first word depends on the words alone. -/
theorem FirstWord.of_leads_iff (h : E.FirstWord q u) (hw : ∀ v, E.Leads v q ↔ D.Leads v s) :
    D.FirstWord s u where
  leads := (hw u).mp h.leads
  least v hv := h.least v ((hw v).mpr hv)

end Dfa

theorem Nfa.Powerset.lt_iff_shortlex {N : Nfa} {A : Alphabet} {found : List StateSet} {D : Dfa}
    {q r : State} (h : N.Powerset A found D) (hn : Numbered D.moves.entries found.length)
    {u v : List Symbol} (hu : D.FirstWord q u) (hv : D.FirstWord r v) : q < r ↔ Shortlex u v := by
  refine ⟨fun hqr => h.shortlex_of_lt hn hqr hu hv, fun huv => ?_⟩
  rcases Nat.lt_trichotomy q r with hlt | rfl | hlt
  · exact hlt
  · rcases hu.least v hv.leads with rfl | hlt
    · exact absurd huv (irrefl v)
    · rcases hv.least u hu.leads with rfl | hlt'
      · exact absurd huv (irrefl u)
      · exact absurd hlt' (asymm hlt)
  · exact absurd huv (asymm (h.shortlex_of_lt hn hlt hv hu))

/-! ## States found again -/

namespace Dfa

variable {D E : Dfa} {found : List StateSet} {q r s t : State} {c : Symbol} {u : List Symbol}

theorem StandsFor.right_unique (h : E.StandsFor q s) (h' : E.StandsFor q t) : s = t := by
  have hst : some [s] = some [t] := h.symm.trans h'
  cases hst
  rfl

theorem StandsFor.left_unique (hE : D.toNfa.Powerset D.alphabet found E) (h : E.StandsFor q s)
    (h' : E.StandsFor r s) : q = r := by
  rw [standsFor_iff hE, ← idxOf?_eq_some_iff_of_nodup hE.chart.nodup] at h h'
  exact Option.some.inj (h.symm.trans h')

theorem StandsFor.lt (hE : D.toNfa.Powerset D.alphabet found E) (h : E.StandsFor q s) :
    q < found.length :=
  (List.getElem?_eq_some_iff.mp ((standsFor_iff hE).mp h)).1

/-- A state of the second automaton is led to by the same words as the state for which it stands. -/
theorem StandsFor.leads_iff (hE : D.toNfa.Powerset D.alphabet found E) (h : E.StandsFor q s) :
    E.Leads u q ↔ D.Leads u s := by
  have hb := bisimulation_of_powerset hE
  have h₀ := standsFor_start hE
  constructor
  · intro hu
    obtain ⟨t, ht, hl⟩ := hb.exists_leads h₀ hu
    rwa [h.right_unique ht]
  · intro hu
    obtain ⟨r, hr, hl⟩ := hb.flip.exists_leads h₀ hu
    rwa [h.left_unique hE hr]

end Dfa

namespace Nfa.Powerset

variable {N : Nfa} {A : Alphabet} {found found' : List StateSet} {D E : Dfa} {q r s t : State}

theorem exists_firstWord (h : N.Powerset A found D) (hn : Numbered D.moves.entries found.length)
    (hq : q < found.length) : ∃ u, D.FirstWord q u := by
  obtain ⟨u, hu⟩ := h.exists_leads hn hq
  exact Dfa.exists_firstWord hu

theorem lt_of_leads (h : N.Powerset A found D) {u : List Symbol} (hu : D.Leads u q) :
    q < found.length := by
  obtain ⟨p, ht⟩ := hu
  exact (List.getElem?_eq_some_iff.mp (h.trace ht h.getElem?_start).1).1

theorem entries_eq (h : N.Powerset A found D) : D.moves.entries =
    (Exploration.rows A found.length).filterMap fun p => (D.next? p.1 p.2).map (p, ·) := by
  rw [h.chart.moves]
  exact List.filterMap_congr fun p hp => by rw [h.chart.next?_of_mem hp]

/-- The order of two states is that of the states for which they stand. -/
theorem lt_iff_of_standsFor (h : N.Powerset A found D)
    (hn : Numbered D.moves.entries found.length) (hE : D.toNfa.Powerset D.alphabet found' E)
    (hn' : Numbered E.moves.entries found'.length) (hqs : E.StandsFor q s)
    (hrt : E.StandsFor r t) : q < r ↔ s < t := by
  obtain ⟨u, hu⟩ := hE.exists_firstWord hn' (hqs.lt hE)
  obtain ⟨v, hv⟩ := hE.exists_firstWord hn' (hrt.lt hE)
  have hu' : D.FirstWord s u := hu.of_leads_iff fun _ => hqs.leads_iff hE
  have hv' : D.FirstWord t v := hv.of_leads_iff fun _ => hrt.leads_iff hE
  rw [hE.lt_iff_shortlex hn' hu hv, h.lt_iff_shortlex hn hu' hv']

/-- As many states are found again, each under its own number: both numberings follow the first words. -/
theorem standsFor_self (h : N.Powerset A found D) (hn : Numbered D.moves.entries found.length)
    (hE : D.toNfa.Powerset D.alphabet found' E) (hn' : Numbered E.moves.entries found'.length) :
    found'.length = found.length ∧ ∀ q < found.length, E.StandsFor q q := by
  have hb := Dfa.bisimulation_of_powerset hE
  have h₀ := Dfa.standsFor_start hE
  have left : ∀ q < found'.length, ∃ s < found.length, E.StandsFor q s := by
    intro q hq
    obtain ⟨u, hu⟩ := hE.exists_leads hn' hq
    obtain ⟨s, hs, hl⟩ := hb.exists_leads h₀ hu
    exact ⟨s, h.lt_of_leads hl, hs⟩
  have right : ∀ s < found.length, ∃ q < found'.length, E.StandsFor q s := by
    intro s hs
    obtain ⟨u, hu⟩ := h.exists_leads hn hs
    obtain ⟨q, hq, -⟩ := hb.flip.exists_leads h₀ hu
    exact ⟨q, hq.lt hE, hq⟩
  have hfix : ∀ {q s}, q < found'.length → s < found.length → E.StandsFor q s → q = s :=
    eq_of_inOrder left right fun hqs hrt => lt_iff_of_standsFor h hn hE hn' hqs hrt
  refine ⟨Nat.le_antisymm (Nat.le_of_not_lt fun hlt => ?_) (Nat.le_of_not_lt fun hlt => ?_), ?_⟩
  · obtain ⟨s, hs, hqs⟩ := left found.length hlt
    exact absurd hs (hfix hlt hs hqs ▸ Nat.lt_irrefl _)
  · obtain ⟨q, hq, hqs⟩ := right found'.length hlt
    exact absurd hq (hfix hq hlt hqs ▸ Nat.lt_irrefl _)
  · intro s hs
    obtain ⟨q, hq, hqs⟩ := right s hs
    obtain rfl := hfix hq hs hqs
    exact hqs

section
variable (h : N.Powerset A found D) (hE : D.toNfa.Powerset D.alphabet found' E)
  (hself : ∀ q < found.length, E.StandsFor q q)
include h hE hself

theorem finals_again (hlen : found'.length = found.length) : E.finals = D.finals := by
  apply SortedSet.ext_mem
  intro q
  rw [hE.finals]
  constructor
  · rintro ⟨S, hS, s, hs, hf⟩
    have hq : q < found.length := hlen ▸ (List.getElem?_eq_some_iff.mp hS).1
    cases ((Dfa.standsFor_iff hE).mp (hself q hq)).symm.trans hS
    rwa [SortedSet.mem_singleton.mp hs] at hf
  · intro hq
    have hS := (Dfa.standsFor_iff hE).mp (hself q (h.final_lt hq))
    exact ⟨_, hS, q, SortedSet.mem_singleton.mpr rfl, hq⟩

theorem moves_again (hlen : found'.length = found.length) : E.moves = D.moves := by
  apply OrderedMap.ext_entries
  rw [hE.entries_eq, h.entries_eq, hlen, h.chart.alphabet]
  refine List.filterMap_congr fun p hp => ?_
  obtain ⟨hq, hc⟩ := Exploration.mem_rows.mp hp
  have hn := (Dfa.bisimulation_of_powerset hE).next? (hself p.1 hq) p.2 (h.chart.alphabet ▸ hc)
  generalize E.next? p.1 p.2 = x at hn
  generalize hd : D.next? p.1 p.2 = y at hn
  cases hn with
  | none => rfl
  | @some t s hts =>
    have hs : s < found.length := (h.of_mem_moves (OrderedMap.get?_eq_some.mp hd)).2.2
    rw [hts.left_unique hE (hself s hs)]

end

end Nfa.Powerset

/-! ## Determinized twice -/

/-- What was determinized is listed, read as an automaton with silent moves and determinized again to the
same start, states, final states, alphabet and transitions, whose order is the same too; the only member
of every state is its own number. -/
theorem Nfa.determinizeOver_again {N : Nfa} (hN : N.check = .ok ()) (A : Alphabet) :
    ∃ D M E, N.determinizeOver A = .ok D ∧ Nfa.ofListing D.toListing = .ok M ∧
      M.determinize = .ok E ∧ E.start = D.start ∧ E.states = D.states ∧ E.finals = D.finals ∧
      E.alphabet = D.alphabet ∧ E.transitions = D.transitions ∧
      ∀ q ∈ D.states, (E.members? q).map SortedSet.toList = some [q] := by
  obtain ⟨D, found, hD, h⟩ := determinizeOver_eq_ok hN A
  have hread : Dfa.ofListing D.toListing = .ok { D with members := none } := by
    rw [Dfa.ofListing_toListing (Dfa.check_eq_ok.mp h.check_eq_ok).2, h.check_eq_ok]
    rfl
  have hM : Nfa.ofListing D.toListing = .ok D.toNfa := by
    rcases ofListing_readAlike D.toListing with ⟨m, hm, -⟩ | hM
    · cases hm.symm.trans hread
    · rw [hM, hread]
      rfl
  have hcheck : D.toNfa.check = .ok () :=
    (Dfa.check_toNfa (Dfa.check_eq_ok.mp h.check_eq_ok).2).trans h.check_eq_ok
  obtain ⟨E, found', hE, h'⟩ := determinizeOver_eq_ok hcheck D.alphabet
  obtain ⟨hlen, hself⟩ := h.standsFor_self (h.numbered hD) h' (h'.numbered hE)
  refine ⟨D, D.toNfa, E, hD, hM, hE, ?_, ?_, h.finals_again h' hself hlen, h'.chart.alphabet, ?_, ?_⟩
  · rw [h'.chart.start, h.chart.start]
  · exact SortedSet.ext_mem fun q => by rw [h'.chart.states, h.chart.states, hlen]
  · rw [Dfa.transitions, h.moves_again h' hself hlen, Dfa.transitions]
  · exact fun q hq => hself q ((h.chart.states q).mp hq)

/-- A set of two states that is found on the smaller symbol, which was added last, and a symbol that leads
nowhere. -/
theorem Nfa.determinizeOver_again_branching :
    let N := Nfa.build 5 [.state 2, .state 5, .state 7, .transition ⟨5, .symbol 'b', 2⟩,
      .transition ⟨5, .symbol 'a', 7⟩, .transition ⟨7, .silent, 5⟩, .transition ⟨2, .symbol 'a', 2⟩,
      .final 2]
    N.check = .ok () ∧ ∃ D M E, N.determinizeOver (Alphabet.ofString "abz") = .ok D ∧
      Nfa.ofListing D.toListing = .ok M ∧ M.determinize = .ok E ∧ E.alphabet = D.alphabet ∧
      E.transitions = [⟨0, .symbol 'a', 1⟩, ⟨0, .symbol 'b', 2⟩, ⟨1, .symbol 'a', 1⟩,
        ⟨1, .symbol 'b', 2⟩, ⟨2, .symbol 'a', 2⟩] ∧
      (∀ q ∈ D.states, (E.members? q).map SortedSet.toList = some [q]) ∧
      D.members? 1 = some (SortedSet.ofList [5, 7]) := by
  intro N
  have hN : N.check = .ok () := by decide
  have hmoves : (N.determinizeOver (Alphabet.ofString "abz")).map
      (fun D => (D.transitions, D.members? 1)) =
      .ok ([⟨0, .symbol 'a', 1⟩, ⟨0, .symbol 'b', 2⟩, ⟨1, .symbol 'a', 1⟩, ⟨1, .symbol 'b', 2⟩,
        ⟨2, .symbol 'a', 2⟩], some (SortedSet.ofList [5, 7])) := by
    decide +kernel
  obtain ⟨D, M, E, hD, hM, hE, -, -, -, hA, ht, hself⟩ :=
    Nfa.determinizeOver_again hN (Alphabet.ofString "abz")
  rw [hD] at hmoves
  obtain ⟨hts, hmem⟩ := Prod.mk.inj (Except.ok.inj hmoves)
  exact ⟨hN, D, M, E, hD, hM, hE, hA, ht.trans hts, hself, hmem⟩

end Recognizer

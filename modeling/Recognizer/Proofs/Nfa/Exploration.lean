import Recognizer.Proofs.Nfa.Chart

/-!
# Explorations come to their end

No move is ever refused and no number that waits is unknown, so the exploration visits the numbers
`0, 1, 2, …` in turn until every set found has been followed on every symbol
(`Nfa.determinizeOver_eq_ok`).
-/

namespace Recognizer

set_option autoImplicit false

variable {N : Nfa} {A : Alphabet}

/-! ## One symbol -/

namespace Exploration

/-- The exploration has visited or is visiting the numbers below `v`, those from `v` on wait in their
order, and the pairs in `done` have been followed. -/
structure Sound (N : Nfa) (A : Alphabet) (v : Nat) (done : List (State × Symbol))
    (e : Exploration) : Prop where
  chart : N.Chart A e.found done e.result
  waiting : e.waiting = List.range' v (e.found.length - v)
  visited : v ≤ e.found.length
  finals : e.result.finals = ∅

variable {v : Nat} {done : List (State × Symbol)} {e : Exploration} {q : State} {S : StateSet}

/-- Every way to follow a symbol keeps an exploration sound. -/
theorem Sound.follow (h : Sound N A v done e) (hS : e.found[q]? = some S) {c : Symbol} (hc : c ∈ A)
    (hp : (q, c) ∉ done) :
    ∃ e', Exploration.follow N q S e c = .ok e' ∧ Sound N A v (done ++ [(q, c)]) e' ∧
      e'.found[q]? = some S := by
  unfold Exploration.follow
  simp only
  split
  · next hT =>
    rw [SortedSet.isEmpty_eq_true] at hT
    exact ⟨e, rfl, { h with chart := h.chart.skip hS hT }, hS⟩
  · next hT =>
    rw [SortedSet.isEmpty_eq_true] at hT
    split
    · next t ht =>
      have hD := Dfa.addTransition_eq_ok (t := t) (h.chart.alphabet ▸ hc)
        (h.chart.next?_of_not_mem hp)
      rw [hD]
      exact ⟨_, rfl, { h with chart := h.chart.move hp hS ht }, hS⟩
    · next hn =>
      have hn : N.successor S c ∉ e.found := List.idxOf?_eq_none_iff.mp hn
      have hg := h.chart.grow hT hn
      have hS' : (e.found ++ [N.successor S c])[q]? = some S := by
        rw [List.getElem?_append_left (List.getElem?_eq_some_iff.mp hS).1, hS]
      have hD := Dfa.addTransition_eq_ok (t := e.found.length) (hg.alphabet ▸ hc)
        (hg.next?_of_not_mem hp)
      rw [hD]
      have hv := h.visited
      refine ⟨_, rfl, ⟨hg.move hp hS' (idxOf?_append_singleton hn), ?_, ?_, h.finals⟩, hS'⟩
      · show e.waiting ++ [e.found.length] = _
        have hlen : (e.found ++ [N.successor S c]).length - v = e.found.length - v + 1 := by
          rw [List.length_append, List.length_singleton]
          omega
        have hend : v + 1 * (e.found.length - v) = e.found.length := by omega
        rw [hlen, List.range'_concat, hend, h.waiting]
      · rw [List.length_append]
        omega

/-! ## One set -/

/-- The pairs that the visit of one number follows. -/
def row (q : State) (cs : List Symbol) : List (State × Symbol) := cs.map fun c => (q, c)

/-- The pairs that the visits of all numbers below `v` follow. -/
def rows (A : Alphabet) (v : Nat) : List (State × Symbol) :=
  (List.range v).flatMap fun q => row q A.toList

theorem rows_succ (A : Alphabet) (v : Nat) : rows A (v + 1) = rows A v ++ row v A.toList := by
  simp [rows, List.range_succ]

theorem mem_rows {c : Symbol} : (q, c) ∈ rows A v ↔ q < v ∧ c ∈ A := by
  simp [rows, row, SortedSet.mem_toList]

theorem Sound.visit (h : Sound N A v done e) (hS : e.found[q]? = some S) {cs : List Symbol}
    (hcs : cs.Nodup) (hA : ∀ c ∈ cs, c ∈ A) (hd : ∀ c ∈ cs, (q, c) ∉ done) :
    ∃ e', Exploration.visit N q S e cs = .ok e' ∧ Sound N A v (done ++ row q cs) e' := by
  induction cs generalizing done e with
  | nil => exact ⟨e, rfl, by rwa [row, List.map_nil, List.append_nil]⟩
  | cons c cs ih =>
    rw [List.nodup_cons] at hcs
    obtain ⟨e₁, he₁, h₁, hS₁⟩ := h.follow hS (hA c List.mem_cons_self) (hd c List.mem_cons_self)
    have hd₁ : ∀ b ∈ cs, (q, b) ∉ done ++ [(q, c)] := by
      intro b hb hmem
      rcases List.mem_append.mp hmem with hmem | hmem
      · exact hd b (List.mem_cons_of_mem _ hb) hmem
      · cases List.mem_singleton.mp hmem
        exact hcs.1 hb
    obtain ⟨e₂, he₂, h₂⟩ := ih h₁ hS₁ hcs.2 (fun b hb => hA b (List.mem_cons_of_mem _ hb)) hd₁
    refine ⟨e₂, ?_, ?_⟩
    · rw [Exploration.visit, List.foldlM_cons, he₁]
      exact he₂
    · rwa [List.append_assoc, List.singleton_append] at h₂

/-! ## All sets -/

theorem Sound.take (h : Sound N A v done e) {qs : List State} (hw : e.waiting = q :: qs) :
    q = v ∧ v < e.found.length ∧ Sound N A (v + 1) done e.take := by
  have hlt : v < e.found.length := by
    rcases Nat.lt_or_ge v e.found.length with hlt | hge
    · exact hlt
    · have hz : e.found.length - v = 0 := by omega
      rw [h.waiting, hz] at hw
      cases hw
  have hlen : e.found.length - v = e.found.length - (v + 1) + 1 := by omega
  have hw' := h.waiting
  rw [hlen, List.range'_succ] at hw'
  refine ⟨?_, hlt, h.chart, ?_, hlt, h.finals⟩
  · rw [hw'] at hw
    cases hw
    rfl
  · show e.waiting.tail = _
    rw [hw']
    rfl

/-- When none waits, all have been visited. -/
theorem Sound.length_found (h : Sound N A v done e) (hw : e.waiting = []) : e.found.length = v := by
  have hz : e.found.length - v = 0 := by
    have := congrArg List.length (h.waiting.symm.trans hw)
    simpa using this
  exact Nat.le_antisymm (Nat.le_of_sub_eq_zero hz) h.visited

/-- A number that waits has a set. -/
theorem Sound.exists_found (h : Sound N A v done e) {qs : List State} (hw : e.waiting = q :: qs) :
    ∃ S, e.found[q]? = some S := by
  obtain ⟨rfl, hlt, -⟩ := h.take hw
  exact ⟨_, List.getElem?_eq_getElem hlt⟩

/-- The visit of the first number that waits. -/
theorem Sound.visit_next (h : Sound N A v (rows A v) e) {qs : List State}
    (hw : e.waiting = q :: qs) (hS : e.found[q]? = some S) :
    ∃ e', Exploration.visit N q S e.take A.toList = .ok e' ∧
      Sound N A (v + 1) (rows A (v + 1)) e' := by
  obtain ⟨rfl, -, ht⟩ := h.take hw
  have hd : ∀ c ∈ A.toList, (q, c) ∉ rows A q := fun c _ hmem =>
    Nat.lt_irrefl q (mem_rows.mp hmem).1
  obtain ⟨e', he', h'⟩ := ht.visit hS A.nodup_toList (fun c hc => hc) hd
  exact ⟨e', he', rows_succ A q ▸ h'⟩

theorem Sound.of_visit (h : Sound N A v (rows A v) e) {qs : List State} (hw : e.waiting = q :: qs)
    (hS : e.found[q]? = some S) {e' : Exploration}
    (hv : Exploration.visit N q S e.take A.toList = .ok e') :
    Sound N A (v + 1) (rows A (v + 1)) e' := by
  obtain ⟨e₁, he₁, h₁⟩ := h.visit_next hw hS
  cases he₁.symm.trans hv
  exact h₁

theorem Sound.explore (h : Sound N A v (rows A v) e) :
    ∃ e', Exploration.explore N A.toList e = .ok e' ∧
      Sound N A e'.found.length (rows A e'.found.length) e' := by
  fun_induction Exploration.explore N A.toList e generalizing v with
  | case1 e hw =>
    obtain rfl := h.length_found hw
    exact ⟨e, rfl, h⟩
  | case2 e q qs hw hn ih =>
    obtain ⟨S, hS⟩ := h.exists_found hw
    cases hS.symm.trans hn
  | case3 e q qs hw S hS m hm =>
    obtain ⟨e', he', -⟩ := h.visit_next hw hS
    cases he'.symm.trans hm
  | case4 e q qs hw S hS e₁ hm ih => exact ih (h.of_visit hw hS hm)

theorem sound_first (N : Nfa) (A : Alphabet) : Sound N A 0 (rows A 0) (first N A) where
  chart := by
    have hne : N.closure (SortedSet.singleton N.initial) ≠ ∅ := by
      intro e
      have hm : N.initial ∈ N.closure (SortedSet.singleton N.initial) :=
        Nfa.subset_closure (SortedSet.mem_singleton.mpr rfl)
      rw [e] at hm
      exact SortedSet.not_mem_empty _ hm
    refine ⟨rfl, by simp [first], ?_, ?_, ?_, rfl, rfl, ?_, rfl⟩
    · simpa [first, eq_comm] using hne
    · simp [rows]
    · simp [rows]
    · simp [first, Dfa.addState]
  waiting := rfl
  visited := Nat.zero_le _
  finals := rfl

/-! ## The finished automaton -/

/-- Declares a number final if its set holds a final state. -/
def mark (N : Nfa) (D : Dfa) (p : StateSet × Nat) : Dfa :=
  if p.1.meets N.finals then D.addFinal p.2 else D

theorem finish_eq (N : Nfa) (e : Exploration) :
    e.finish N = { e.found.zipIdx.foldl (mark N) e.result with members := some e.found } := rfl

theorem foldl_mark (N : Nfa) (D : Dfa) (ps : List (StateSet × Nat)) :
    ps.foldl (mark N) D = { D with finals := (ps.foldl (mark N) D).finals } := by
  induction ps generalizing D with
  | nil => rfl
  | cons p ps ih =>
    rw [List.foldl_cons, ih]
    unfold mark
    split <;> rfl

theorem mem_finals_foldl_mark {D : Dfa} {ps : List (StateSet × Nat)} :
    q ∈ (ps.foldl (mark N) D).finals ↔
      (∃ S, (S, q) ∈ ps ∧ ∃ s ∈ S, s ∈ N.finals) ∨ q ∈ D.finals := by
  induction ps generalizing D with
  | nil => simp
  | cons p ps ih =>
    obtain ⟨S, r⟩ := p
    have hmark : q ∈ (mark N D (S, r)).finals ↔ (r = q ∧ ∃ s ∈ S, s ∈ N.finals) ∨ q ∈ D.finals := by
      unfold mark
      split
      · next hm =>
        rw [SortedSet.meets_eq_true] at hm
        simp [Dfa.addFinal, hm, eq_comm]
      · next hm =>
        rw [SortedSet.meets_eq_true] at hm
        simp [hm]
    rw [List.foldl_cons, ih, hmark]
    constructor
    · rintro (⟨T, hT, h⟩ | ⟨rfl, h⟩ | h)
      · exact Or.inl ⟨T, List.mem_cons_of_mem _ hT, h⟩
      · exact Or.inl ⟨S, List.mem_cons_self, h⟩
      · exact Or.inr h
    · rintro (⟨T, hT, h⟩ | h)
      · rcases List.mem_cons.mp hT with e | hT
        · cases e
          exact Or.inr (Or.inl ⟨rfl, h⟩)
        · exact Or.inl ⟨T, hT, h⟩
      · exact Or.inr (Or.inr h)

end Exploration

namespace Nfa

/-- The deterministic automaton over the sets that words lead to: all of them have been followed on
every symbol, and those with a final state are final. -/
structure Powerset (N : Nfa) (A : Alphabet) (found : List StateSet) (D : Dfa) : Prop where
  chart : N.Chart A found (Exploration.rows A found.length) D
  members : D.members = some found
  finals : ∀ q, q ∈ D.finals ↔ ∃ S, found[q]? = some S ∧ ∃ s ∈ S, s ∈ N.finals

theorem determinizeOver_eq_ok (hN : N.check = .ok ()) (A : Alphabet) :
    ∃ D found, N.determinizeOver A = .ok D ∧ N.Powerset A found D := by
  obtain ⟨e, he, h⟩ := (Exploration.sound_first N A).explore
  refine ⟨e.finish N, e.found, ?_, ?_⟩
  · rw [determinizeOver, hN]
    show (do let e ← Exploration.explore N A.toList (Exploration.first N A)
             return e.finish N) = _
    rw [he]
    rfl
  · have hD := Exploration.foldl_mark N e.result e.found.zipIdx
    rw [Exploration.finish_eq, hD]
    refine ⟨?_, rfl, fun q => ?_⟩
    · exact ⟨h.chart.head, h.chart.nodup, h.chart.nonempty, h.chart.range, h.chart.closed,
        h.chart.start, h.chart.alphabet, h.chart.states, h.chart.moves⟩
    · show q ∈ (e.found.zipIdx.foldl (Exploration.mark N) e.result).finals ↔ _
      rw [Exploration.mem_finals_foldl_mark, h.finals]
      simp only [List.mem_zipIdx_iff_getElem?]
      exact or_iff_left (SortedSet.not_mem_empty q)

end Nfa

end Recognizer

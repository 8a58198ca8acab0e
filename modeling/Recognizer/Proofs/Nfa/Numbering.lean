import Recognizer.Proofs.Dfa.Trace
import Recognizer.Proofs.Fallible
import Recognizer.Proofs.Nfa.Powerset
import Recognizer.Proofs.Nfa.Turns

/-!
# The numbers of sets found by an exploration

Pairs of a number and a symbol are followed in ascending order, so the moves stand in ascending order
too. A set gets its number when a move first leads to it: from a smaller number, and after moves have
led to all smaller numbers but `0` (`Numbered`).
-/

namespace Recognizer

set_option autoImplicit false

/-! ## The order of the moves -/

/-- Ascending states, and for one state ascending symbols. -/
def Precedes (p p' : State × Symbol) : Prop := p.1 < p'.1 ∨ p.1 = p'.1 ∧ p.2.toNat < p'.2.toNat

theorem not_precedes_self (p : State × Symbol) : ¬ Precedes p p := by
  rintro (h | ⟨-, h⟩)
  · exact Nat.lt_irrefl _ h
  · exact Nat.lt_irrefl _ h

namespace Exploration

theorem pairwise_row (q : State) (A : Alphabet) : (row q A.toList).Pairwise Precedes :=
  List.pairwise_map.mpr (A.ascending.imp fun h => Or.inr ⟨rfl, h⟩)

theorem pairwise_rows (A : Alphabet) (v : Nat) : (rows A v).Pairwise Precedes := by
  induction v with
  | zero => exact List.Pairwise.nil
  | succ v ih =>
    rw [rows_succ, List.pairwise_append]
    refine ⟨ih, pairwise_row v A, fun p hp p' hp' => Or.inl ?_⟩
    obtain ⟨c, -, rfl⟩ := List.mem_map.mp hp'
    exact (mem_rows.mp hp).1

end Exploration

theorem Nfa.Powerset.pairwise_moves {N : Nfa} {A : Alphabet} {found : List StateSet} {D : Dfa}
    (h : N.Powerset A found D) : D.moves.entries.Pairwise fun m m' => Precedes m.1 m'.1 := by
  rw [h.chart.moves, List.pairwise_filterMap]
  refine (Exploration.pairwise_rows A found.length).imp fun {p p'} hpp m hm m' hm' => ?_
  obtain ⟨t, -, rfl⟩ := Option.map_eq_some_iff.mp hm
  obtain ⟨t', -, rfl⟩ := Option.map_eq_some_iff.mp hm'
  exact hpp

/-! ## The order of the numbers -/

/-- The numbers below `n` were given in the order in which the moves `ms` first lead to them. -/
structure Numbered (ms : List ((State × Symbol) × State)) (n : Nat) : Prop where
  reached : ∀ t, 0 < t → t < n → ∃ m ∈ ms, m.2 = t ∧ m.1.1 < t
  inOrder : ∀ m ∈ ms, ∀ t, 0 < t → t < m.2 → ∃ m' ∈ ms, m'.2 = t ∧ Precedes m'.1 m.1

namespace Numbered

variable {ms : List ((State × Symbol) × State)} {n t : Nat} {p : State × Symbol}

theorem first : Numbered [] 1 where
  reached _ h₀ h₁ := absurd h₁ (Nat.not_lt.mpr h₀)
  inOrder _ hm := absurd hm List.not_mem_nil

/-- One more move that leads to a number below `n`, or to `n` itself, comes after moves to all numbers
below that. -/
theorem inOrder_concat (h : Numbered ms n) (hp : ∀ m ∈ ms, Precedes m.1 p) (ht : t ≤ n) :
    ∀ m ∈ ms ++ [(p, t)], ∀ s, 0 < s → s < m.2 →
      ∃ m' ∈ ms ++ [(p, t)], m'.2 = s ∧ Precedes m'.1 m.1 := by
  intro m hm s h₀ hs
  rcases List.mem_append.mp hm with hm | hm
  · obtain ⟨m', hm', e, hlt⟩ := h.inOrder m hm s h₀ hs
    exact ⟨m', List.mem_append_left _ hm', e, hlt⟩
  · rw [List.mem_singleton.mp hm] at hs ⊢
    obtain ⟨m', hm', e, -⟩ := h.reached s h₀ (Nat.lt_of_lt_of_le hs ht)
    exact ⟨m', List.mem_append_left _ hm', e, hp m' hm'⟩

theorem known (h : Numbered ms n) (hp : ∀ m ∈ ms, Precedes m.1 p) (ht : t < n) :
    Numbered (ms ++ [(p, t)]) n where
  reached s h₀ hs := by
    obtain ⟨m, hm, e, hlt⟩ := h.reached s h₀ hs
    exact ⟨m, List.mem_append_left _ hm, e, hlt⟩
  inOrder := h.inOrder_concat hp (Nat.le_of_lt ht)

theorem fresh (h : Numbered ms n) (hp : ∀ m ∈ ms, Precedes m.1 p) (hn : p.1 < n) :
    Numbered (ms ++ [(p, n)]) (n + 1) where
  reached s h₀ hs := by
    rcases Nat.lt_succ_iff_lt_or_eq.mp hs with hs | rfl
    · obtain ⟨m, hm, e, hlt⟩ := h.reached s h₀ hs
      exact ⟨m, List.mem_append_left _ hm, e, hlt⟩
    · exact ⟨(p, s), by simp, rfl, hn⟩
  inOrder := h.inOrder_concat hp (Nat.le_refl n)

end Numbered

/-! ## Explorations give numbers in this order -/

namespace Exploration

variable {N : Nfa} {A : Alphabet} {v : Nat} {done : List (State × Symbol)} {e e' : Exploration}
  {q : State} {S : StateSet}

/-- The numbers that the moves of an exploration lead to. -/
abbrev HasNumbered (e : Exploration) : Prop := Numbered e.result.moves.entries e.found.length

theorem Sound.mem_done (h : Sound N A v done e) {m : (State × Symbol) × State}
    (hm : m ∈ e.result.moves.entries) : m.1 ∈ done := by
  rw [h.chart.moves, List.mem_filterMap] at hm
  obtain ⟨p, hp, e⟩ := hm
  obtain ⟨t, -, rfl⟩ := Option.map_eq_some_iff.mp e
  exact hp

theorem HasNumbered.follow (hn : e.HasNumbered) (h : Sound N A v done e)
    (hS : e.found[q]? = some S) {c : Symbol} (hc : c ∈ A) (hp : ∀ p ∈ done, Precedes p (q, c))
    (he : Exploration.follow N q S e c = .ok e') : e'.HasNumbered := by
  have hq : q < e.found.length := (List.getElem?_eq_some_iff.mp hS).1
  have hnew : (q, c) ∉ done := fun hm => not_precedes_self _ (hp _ hm)
  have hnone : e.result.moves.get? (q, c) = none := h.chart.next?_of_not_mem hnew
  have hms : ∀ m ∈ e.result.moves.entries, Precedes m.1 (q, c) := fun m hm => hp _ (h.mem_done hm)
  have hcA : c ∈ e.result.alphabet := h.chart.alphabet ▸ hc
  unfold Exploration.follow at he
  simp only at he
  split at he
  · cases he
    exact hn
  · split at he
    · next t ht =>
      have hlt : t < e.found.length :=
        (List.getElem?_eq_some_iff.mp ((idxOf?_eq_some_iff_of_nodup h.chart.nodup).mp ht)).1
      rw [Dfa.addTransition_eq_ok hcA hnone] at he
      cases he
      show Numbered (e.result.moves.insert (q, c) t).entries e.found.length
      rw [OrderedMap.entries_insert hnone]
      exact hn.known hms hlt
    · rw [Dfa.addTransition_eq_ok (D := e.result.addState e.found.length) hcA hnone] at he
      cases he
      show Numbered (e.result.moves.insert (q, c) e.found.length).entries
        (e.found ++ [N.successor S c]).length
      rw [OrderedMap.entries_insert hnone, List.length_append, List.length_singleton]
      exact hn.fresh hms hq

theorem HasNumbered.visit (hn : e.HasNumbered) (h : Sound N A v done e)
    (hS : e.found[q]? = some S) {cs : List Symbol} (hcs : Ascending cs) (hA : ∀ c ∈ cs, c ∈ A)
    (hp : ∀ p ∈ done, ∀ c ∈ cs, Precedes p (q, c))
    (he : Exploration.visit N q S e cs = .ok e') : e'.HasNumbered := by
  induction cs generalizing done e with
  | nil =>
    cases he
    exact hn
  | cons c cs ih =>
    obtain ⟨hc, hcs⟩ := List.pairwise_cons.mp hcs
    have hpc : ∀ p ∈ done, Precedes p (q, c) := fun p hm => hp p hm c List.mem_cons_self
    have hnew : (q, c) ∉ done := fun hm => not_precedes_self _ (hpc _ hm)
    obtain ⟨e₁, he₁, h₁, hS₁⟩ := h.follow hS (hA c List.mem_cons_self) hnew
    have hn₁ := hn.follow h hS (hA c List.mem_cons_self) hpc he₁
    rw [Exploration.visit, List.foldlM_cons, he₁] at he
    refine ih hn₁ h₁ hS₁ hcs (fun b hb => hA b (List.mem_cons_of_mem _ hb)) ?_ he
    intro p hm b hb
    rcases List.mem_append.mp hm with hm | hm
    · exact hp p hm b (List.mem_cons_of_mem _ hb)
    · rw [List.mem_singleton.mp hm]
      exact Or.inr ⟨rfl, hc b hb⟩

theorem HasNumbered.course (hn : e.HasNumbered) (h : Sound N A v (rows A v) e) {ts : List Turn}
    {r : Except Flaw Exploration} (hc : Course N A.toList e ts r) (hr : r = .ok e') :
    e'.HasNumbered := by
  induction hc generalizing v with
  | finished =>
    cases hr
    exact hn
  | unknown hw hq _ _ =>
    obtain ⟨S, hS⟩ := h.exists_found hw
    cases hS.symm.trans hq
  | refused => cases hr
  | @visited e e₁ q qs new S ts r hw hS hv _ _ ih =>
    have h' := h.of_visit hw hS hv
    obtain ⟨rfl, -, ht⟩ := h.take hw
    have hp : ∀ p ∈ rows A q, ∀ c ∈ A.toList, Precedes p (q, c) := fun p hm _ _ =>
      Or.inl (mem_rows.mp hm).1
    have hn' : e.take.HasNumbered := hn
    exact ih (hn'.visit ht hS A.ascending (fun c hc => hc) hp hv) h' hr

end Exploration

/-! ## The finished automaton -/

namespace Nfa

variable {N : Nfa} {A : Alphabet} {found : List StateSet} {D : Dfa} {q : State}

theorem determinizeOver_of_check_ok (hN : N.check = .ok ()) (A : Alphabet) :
    N.determinizeOver A =
      (Exploration.explore N A.toList (Exploration.first N A)).map (Exploration.finish N) := by
  unfold determinizeOver
  rw [hN, ok_bind]
  cases Exploration.explore N A.toList (Exploration.first N A) <;> rfl

namespace Powerset

theorem numbered (h : N.Powerset A found D) (hD : N.determinizeOver A = .ok D) :
    Numbered D.moves.entries found.length := by
  rw [determinizeOver_of_check_ok (check_of_determinizeOver hD)] at hD
  obtain ⟨e, he, rfl⟩ := map_eq_ok.mp hD
  obtain ⟨ts, hc⟩ := Exploration.exists_course N A.toList (Exploration.first N A)
  have hfirst : (Exploration.first N A).HasNumbered := Numbered.first
  have hn := hfirst.course (Exploration.sound_first N A) hc he
  have hmoves : (e.finish N).moves = e.result.moves := by
    rw [Exploration.finish_eq, Exploration.foldl_mark]
  rw [hmoves, ← h.found_eq rfl]
  exact hn

theorem leads_of_mem_moves (h : N.Powerset A found D) {m : (State × Symbol) × State}
    (hm : m ∈ D.moves.entries) {u : List Symbol} (hu : D.Leads u m.1.1) :
    D.Leads (u ++ [m.1.2]) m.2 := by
  have hc : m.1.2 ∈ D.alphabet := by
    rw [h.chart.alphabet]
    exact (h.of_mem_moves hm).2.1
  exact Dfa.leads_concat.mpr ⟨m.1.1, hu, hc, OrderedMap.get?_eq_some.mpr hm⟩

theorem exists_leads (h : N.Powerset A found D) (hn : Numbered D.moves.entries found.length)
    (hq : q < found.length) : ∃ u, D.Leads u q := by
  induction q using Nat.strongRecOn with
  | ind q ih =>
    rcases Nat.eq_zero_or_pos q with rfl | h₀
    · exact ⟨[], Dfa.leads_nil.mpr h.chart.start.symm⟩
    · obtain ⟨m, hm, rfl, hlt⟩ := hn.reached q h₀ hq
      obtain ⟨u, hu⟩ := ih m.1.1 hlt (h.of_mem_moves hm).1
      exact ⟨_, h.leads_of_mem_moves hm hu⟩

end Powerset

end Nfa

end Recognizer

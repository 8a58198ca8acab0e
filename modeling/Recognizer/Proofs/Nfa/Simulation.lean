import Mathlib.Data.List.Induction
import Recognizer.Nfa.Reach
import Recognizer.Proofs.Dfa.Trace
import Recognizer.Proofs.Nfa.Exploration

/-!
# Runs of the automaton over sets

While the automaton over sets reads a word, the members of the state it is in are exactly the states to
which the word read so far leads. It stops at the first symbol that is foreign or leads to no state at
all (`Nfa.run_determinizeOver`).
-/

namespace Recognizer

set_option autoImplicit false

/-! ## The set of a word -/

namespace Nfa

variable {N : Nfa} {u v : List Symbol}

/-- The states to which a word leads. -/
def after (N : Nfa) (u : List Symbol) : StateSet :=
  u.foldl N.successor (N.closure (SortedSet.singleton N.initial))

theorem after_concat (u : List Symbol) (c : Symbol) :
    N.after (u ++ [c]) = N.successor (N.after u) c := by
  rw [after, List.foldl_append]
  rfl

theorem mem_after {s : State} : s ∈ N.after u ↔ N.Reads u s := by
  induction u using List.reverseRecOn generalizing s with
  | nil => exact reads_nil.symm
  | append_singleton u c ih =>
    rw [after_concat]
    exact (reads_append_singleton fun _ => ih).symm

theorem after_ne_empty : N.after u ≠ ∅ ↔ ∃ s, N.Reads u s := by
  constructor
  · intro h
    rcases hl : (N.after u).toList with _ | ⟨s, ss⟩
    · exact absurd (SortedSet.ext_toList hl) h
    · have hs : s ∈ (N.after u).toList := by simp [hl]
      exact ⟨s, mem_after.mp hs⟩
  · rintro ⟨s, hs⟩ e
    rw [← mem_after, e] at hs
    exact SortedSet.not_mem_empty s hs

theorem reads_of_append (h : ∃ s, N.Reads (u ++ v) s) : ∃ s, N.Reads u s := by
  obtain ⟨s, p⟩ := h
  obtain ⟨t, p, -⟩ := Path.append_iff.mp p
  exact ⟨t, p⟩

end Nfa

/-! ## The first position that cannot be passed -/

/-- At position `k` of `w` stands `c`, which is the first symbol that is not in `A` or after which what
has been read is not viable any more. -/
structure FirstBlocked (A : Alphabet) (viable : List Symbol → Prop) (w : List Symbol) (k : Nat)
    (c : Symbol) : Prop where
  symbol : w[k]? = some c
  blocked : c ∉ A ∨ ¬ viable (w.take (k + 1))
  least : ∀ j < k, ∀ d, w[j]? = some d → d ∈ A ∧ viable (w.take (j + 1))

theorem FirstBlocked.unique {A : Alphabet} {viable : List Symbol → Prop} {w : List Symbol}
    {k j : Nat} {c d : Symbol} (h : FirstBlocked A viable w k c) (h' : FirstBlocked A viable w j d) :
    k = j ∧ c = d := by
  have hle : ∀ {k j c d}, FirstBlocked A viable w k c → FirstBlocked A viable w j d → k ≤ j := by
    intro k j c d h h'
    rcases Nat.lt_or_ge j k with hlt | hge
    · have hd := h.least j hlt d h'.symbol
      rcases h'.blocked with hb | hb
      · exact absurd hd.1 hb
      · exact absurd hd.2 hb
    · exact hge
  obtain rfl : k = j := Nat.le_antisymm (hle h h') (hle h' h)
  have hs := h.symbol.symm.trans h'.symbol
  exact ⟨rfl, Option.some.inj hs⟩

/-- If the beginnings of what is viable are viable, a word that is viable as a whole is blocked
nowhere. -/
theorem FirstBlocked.not_viable {A : Alphabet} {viable : List Symbol → Prop} {w : List Symbol}
    {k : Nat} {c : Symbol} (hv : ∀ u v, viable (u ++ v) → viable u)
    (h : FirstBlocked A viable w k c) (hA : ∀ c ∈ w, c ∈ A) : ¬ viable w := by
  intro hw
  rcases h.blocked with hb | hb
  · exact hb (hA c (List.mem_of_getElem? h.symbol))
  · rw [← List.take_append_drop (k + 1) w] at hw
    exact hb (hv _ _ hw)

/-- The run read the symbols before position `k` and could not pass `c` there. -/
def Run.StoppedAt (r : Run) (A : Alphabet) (k : Nat) (c : Symbol) : Prop :=
  r.path.length = k + 1 ∧ ∃ q, r.last? = some q ∧
    r.rejection = some (if c ∈ A then .stuck q c else .foreign c)

/-! ## Simulation -/

namespace Nfa.Powerset

variable {N : Nfa} {A : Alphabet} {found : List StateSet} {D : Dfa} {q t : State} {c : Symbol}
  {S : StateSet} {u w : List Symbol}

theorem next?_eq (h : N.Powerset A found D) (hS : found[q]? = some S) (hc : c ∈ A) :
    D.next? q c = found.idxOf? (N.successor S c) := by
  have hq : q < found.length := (List.getElem?_eq_some_iff.mp hS).1
  rw [h.chart.next?_of_mem (Exploration.mem_rows.mpr ⟨hq, hc⟩), target?, hS, Option.bind_some]

theorem next?_eq_some (h : N.Powerset A found D) (hS : found[q]? = some S) (hc : c ∈ A) :
    D.next? q c = some t ↔ found[t]? = some (N.successor S c) := by
  rw [h.next?_eq hS hc, idxOf?_eq_some_iff_of_nodup h.chart.nodup]

theorem next?_eq_none (h : N.Powerset A found D) (hS : found[q]? = some S) (hc : c ∈ A) :
    D.next? q c = none ↔ N.successor S c = ∅ := by
  have hq : q < found.length := (List.getElem?_eq_some_iff.mp hS).1
  rw [h.next?_eq hS hc, List.idxOf?_eq_none_iff]
  constructor
  · intro hn
    by_cases e : N.successor S c = ∅
    · exact e
    · exact absurd (h.chart.closed q c S (Exploration.mem_rows.mpr ⟨hq, hc⟩) hS e) hn
  · intro e
    rw [e]
    exact h.chart.nonempty

theorem isFinal_iff (h : N.Powerset A found D) (hS : found[q]? = some (N.after w)) :
    D.isFinal q = true ↔ N.Accepts w := by
  rw [Dfa.isFinal, SortedSet.contains_eq_true, h.finals]
  constructor
  · rintro ⟨T, hT, s, hs, hf⟩
    rw [hS] at hT
    cases hT
    exact ⟨s, hf, mem_after.mp hs⟩
  · rintro ⟨s, hf, hs⟩
    exact ⟨_, hS, s, mem_after.mpr hs, hf⟩

theorem getElem?_start (h : N.Powerset A found D) : found[D.start]? = some (N.after []) := by
  rw [h.chart.start]
  exact h.chart.head

/-- From a state that stands for the set of `u`, a trace visits the states that stand for the sets of
the longer and longer words read. -/
theorem trace (h : N.Powerset A found D) {p : List State} {r : State} (ht : D.Trace q w p r)
    (hq : found[q]? = some (N.after u)) :
    found[r]? = some (N.after (u ++ w)) ∧
      ∀ i ≤ w.length, ∃ s, p[i]? = some s ∧ found[s]? = some (N.after (u ++ w.take i)) := by
  induction ht generalizing u with
  | nil s =>
    refine ⟨by rwa [List.append_nil], fun i hi => ⟨s, ?_, ?_⟩⟩
    · rw [Nat.le_zero.mp hi]
      rfl
    · rwa [List.take_nil, List.append_nil]
  | @cons s t r c w p hc hn _ ih =>
    have ht : found[t]? = some (N.after (u ++ [c])) := by
      rw [after_concat]
      exact (h.next?_eq_some hq (h.chart.alphabet ▸ hc)).mp hn
    obtain ⟨hr, hi⟩ := ih ht
    rw [List.append_assoc, List.singleton_append] at hr
    refine ⟨hr, fun i hle => ?_⟩
    cases i with
    | zero => exact ⟨s, rfl, by rwa [List.take_zero, List.append_nil]⟩
    | succ i =>
      obtain ⟨s', hp, hs'⟩ := hi i (Nat.le_of_succ_le_succ hle)
      rw [List.append_assoc, List.singleton_append] at hs'
      exact ⟨s', hp, hs'⟩

theorem exists_reads (h : N.Powerset A found D) (hq : found[q]? = some (N.after u)) :
    ∃ s, N.Reads u s := by
  rw [← after_ne_empty]
  intro e
  rw [e] at hq
  exact h.chart.nonempty (List.mem_of_getElem? hq)

/-- A run reads a beginning `u` of its word, its states stand for the sets of longer and longer
beginnings, and it halts in the state for the set of `u`. -/
theorem run_trace (h : N.Powerset A found D) (w : List Symbol) :
    ∃ u v r, w = u ++ v ∧ D.Trace D.start u (D.run w).path r ∧ D.Halts r v (D.run w).rejection ∧
      found[r]? = some (N.after u) ∧
      ∀ i ≤ u.length, ∃ s, (D.run w).path[i]? = some s ∧ found[s]? = some (N.after (w.take i)) := by
  obtain ⟨u, v, r, rfl, ht, hh⟩ := D.runFrom_trace D.start w
  obtain ⟨hr, hi⟩ := h.trace ht h.getElem?_start
  refine ⟨u, v, r, rfl, ht, hh, hr, fun i hle => ?_⟩
  rw [List.take_append_of_le_length hle]
  exact hi i hle

/-- The members of every state on the path of a run. -/
theorem members_path (h : N.Powerset A found D) (w : List Symbol) (i : Nat)
    (hi : i < (D.run w).path.length) :
    ∃ s, (D.run w).path[i]? = some s ∧ D.members? s = some (N.after (w.take i)) := by
  obtain ⟨u, v, r, -, ht, -, -, hpath⟩ := h.run_trace w
  rw [ht.length_eq] at hi
  obtain ⟨s, hs, hf⟩ := hpath i (Nat.le_of_lt_succ hi)
  refine ⟨s, hs, ?_⟩
  rw [Dfa.members?, h.members]
  exact hf

/-- What a run that does not read its whole word says about it. -/
theorem firstBlocked (h : N.Powerset A found D) {v : List Symbol} {r : State}
    (hu : ∀ c ∈ u, c ∈ A) (hp : ∀ i ≤ u.length, ∃ s, N.Reads (u.take i) s)
    (hr : found[r]? = some (N.after u)) (hc : c ∉ A ∨ c ∈ A ∧ D.next? r c = none) :
    FirstBlocked A (fun u => ∃ s, N.Reads u s) (u ++ c :: v) u.length c where
  symbol := by simp
  blocked := by
    refine hc.imp_right fun ⟨hc, hn⟩ => ?_
    rw [List.take_length_add_append, List.take_succ_cons, List.take_zero, ← after_ne_empty,
      after_concat]
    exact not_not_intro ((h.next?_eq_none hr hc).mp hn)
  least := by
    intro j hj d hd
    rw [List.getElem?_append_left hj] at hd
    rw [List.take_append_of_le_length hj]
    exact ⟨hu d (List.mem_of_getElem? hd), hp (j + 1) hj⟩

/-- A run stops where it is blocked first, or else tells in which state it read the whole word. -/
theorem run_cases (h : N.Powerset A found D) (w : List Symbol) :
    (∃ k c, FirstBlocked A (fun u => ∃ s, N.Reads u s) w k c ∧ (D.run w).StoppedAt A k c) ∨
    ((∀ c ∈ w, c ∈ A) ∧ (∃ s, N.Reads w s) ∧ (D.run w).path.length = w.length + 1 ∧
      (N.Accepts w ∧ (D.run w).rejection = none ∨
        ¬ N.Accepts w ∧ ∃ q, (D.run w).last? = some q ∧
          (D.run w).rejection = some (.notFinal q))) := by
  obtain ⟨u, v, r, rfl, ht, hh, hr, hpath⟩ := h.run_trace w
  have hu : ∀ c ∈ u, c ∈ A := h.chart.alphabet ▸ ht.mem_alphabet
  have hp : ∀ i ≤ u.length, ∃ s, N.Reads (u.take i) s := by
    intro i hi
    obtain ⟨s, -, hs⟩ := hpath i hi
    rw [List.take_append_of_le_length hi] at hs
    exact h.exists_reads hs
  have hlen := ht.length_eq
  have hlast : (D.run (u ++ v)).last? = some r := ht.getLast?_eq
  generalize hx : (D.run (u ++ v)).rejection = x at hh
  cases hh with
  | accepting hf =>
    rw [List.append_nil] at hlen ⊢
    exact Or.inr ⟨hu, h.exists_reads hr, hlen, Or.inl ⟨(h.isFinal_iff hr).mp hf, rfl⟩⟩
  | notFinal hf =>
    rw [List.append_nil] at hlen hlast ⊢
    have hna : ¬ N.Accepts u := fun ha => by
      rw [(h.isFinal_iff hr).mpr ha] at hf
      cases hf
    exact Or.inr ⟨hu, h.exists_reads hr, hlen, Or.inr ⟨hna, r, hlast, rfl⟩⟩
  | @foreign c v hc =>
    rw [h.chart.alphabet] at hc
    refine Or.inl ⟨u.length, c, h.firstBlocked hu hp hr (Or.inl hc), hlen, r, hlast, ?_⟩
    rw [hx, if_neg hc]
  | @stuck c v hc hn =>
    rw [h.chart.alphabet] at hc
    refine Or.inl ⟨u.length, c, h.firstBlocked hu hp hr (Or.inr ⟨hc, hn⟩), hlen, r, hlast, ?_⟩
    rw [hx, if_pos hc]

theorem accepted_iff (h : N.Powerset A found D) (w : List Symbol) :
    (D.run w).accepted = true ↔ (∀ c ∈ w, c ∈ A) ∧ N.Accepts w := by
  rw [Run.accepted, Option.isNone_iff_eq_none]
  rcases h.run_cases w with ⟨k, c, hk, -, q, -, hr⟩ | ⟨hA, -, -, ⟨ha, hr⟩ | ⟨hna, q, -, hr⟩⟩
  · rw [hr]
    refine ⟨fun e => absurd e (Option.some_ne_none _), ?_⟩
    rintro ⟨hA, s, -, hs⟩
    exact absurd ⟨s, hs⟩ (hk.not_viable (fun _ _ => reads_of_append) hA)
  · exact ⟨fun _ => ⟨hA, ha⟩, fun _ => hr⟩
  · rw [hr]
    exact ⟨fun e => absurd e (Option.some_ne_none _), fun ha => absurd ha.2 hna⟩

theorem stoppedAt (h : N.Powerset A found D) {k : Nat}
    (hk : FirstBlocked A (fun u => ∃ s, N.Reads u s) w k c) : (D.run w).StoppedAt A k c := by
  rcases h.run_cases w with ⟨j, d, hj, hr⟩ | ⟨hA, hs, -⟩
  · obtain ⟨rfl, rfl⟩ := hj.unique hk
    exact hr
  · exact absurd hs (hk.not_viable (fun _ _ => reads_of_append) hA)

theorem run_unblocked (h : N.Powerset A found D)
    (hn : ¬ ∃ k c, FirstBlocked A (fun u => ∃ s, N.Reads u s) w k c) :
    (D.run w).path.length = w.length + 1 ∧ ((D.run w).rejection = none ∨
      ∃ q, (D.run w).last? = some q ∧ (D.run w).rejection = some (.notFinal q)) := by
  rcases h.run_cases w with ⟨k, c, hk, -⟩ | ⟨-, -, hlen, hend⟩
  · exact absurd ⟨k, c, hk⟩ hn
  · exact ⟨hlen, hend.imp And.right And.right⟩

end Nfa.Powerset

/-! ## Runs of determinized automata -/

/-- The automaton over sets follows an automaton with silent moves step by step. The members of every
state on its path are the states to which the symbols read until then lead, in ascending order. If the
whole word is over the alphabet and leads somewhere, it is read to its end, and accepted when it leads
to a final state; otherwise the run stops at the first symbol that is foreign or after which no state is
left. -/
theorem Nfa.run_determinizeOver {N : Nfa} (hN : N.check = .ok ()) (A : Alphabet) :
    ∃ D, N.determinizeOver A = .ok D ∧ ∀ w,
      (∀ i < (D.run w).path.length, ∃ q S, (D.run w).path[i]? = some q ∧ D.members? q = some S ∧
        S.toList.Pairwise (· < ·) ∧ ∀ s, s ∈ S.toList ↔ Path N.transitions N.initial (w.take i) s) ∧
      ((∀ c ∈ w, c ∈ A) ∧ (∃ s, Path N.transitions N.initial w s) →
        (D.run w).path.length = w.length + 1 ∧
        ((D.run w).accepted = true ↔ ∃ s ∈ N.finals, Path N.transitions N.initial w s)) ∧
      (¬ ((∀ c ∈ w, c ∈ A) ∧ ∃ s, Path N.transitions N.initial w s) →
        ∃ k c, FirstBlocked A (fun u => ∃ s, Path N.transitions N.initial u s) w k c ∧
          (D.run w).StoppedAt A k c) := by
  obtain ⟨D, found, hD, h⟩ := determinizeOver_eq_ok hN A
  refine ⟨D, hD, fun w => ⟨fun i hi => ?_, fun hw => ?_, fun hw => ?_⟩⟩
  · obtain ⟨q, hq, hm⟩ := h.members_path w i hi
    exact ⟨q, _, hq, hm, (N.after (w.take i)).ascending, fun _ => mem_after⟩
  · refine ⟨(h.run_unblocked ?_).1, ?_⟩
    · rintro ⟨k, c, hk⟩
      exact hk.not_viable (fun _ _ => reads_of_append) hw.1 hw.2
    · exact (h.accepted_iff w).trans (and_iff_right hw.1)
  · rcases h.run_cases w with hk | ⟨hA, hs, -, -⟩
    · exact hk
    · exact absurd ⟨hA, hs⟩ hw

/-- A cycle of silent moves, over an alphabet with a symbol that leads nowhere. -/
theorem Nfa.run_determinizeOver_cycle :
    let N := Nfa.build 0 [.state 0, .state 1, .state 2, .transition ⟨0, .silent, 1⟩,
      .transition ⟨1, .silent, 0⟩, .transition ⟨1, .symbol 'a', 2⟩, .final 2]
    N.check = .ok () ∧
      ∃ D, N.determinizeOver (Alphabet.ofString "ab") = .ok D ∧
        (D.run ['a']).accepted = true ∧ (D.run ['a']).path.length = 2 := by
  intro N
  have hN : N.check = .ok () := by rfl
  have p : Path N.transitions N.initial ['a'] 2 :=
    .silent (t := 1) (by decide) (.symbol (t := 2) (by decide) (.nil 2))
  obtain ⟨D, hD, h⟩ := Nfa.run_determinizeOver hN (Alphabet.ofString "ab")
  have hA : ∀ c ∈ ['a'], c ∈ Alphabet.ofString "ab" := List.forall_mem_singleton.mpr (by decide)
  obtain ⟨hlen, hacc⟩ := (h ['a']).2.1 ⟨hA, 2, p⟩
  exact ⟨hN, D, hD, hacc.mpr ⟨2, by decide, p⟩, hlen⟩

end Recognizer

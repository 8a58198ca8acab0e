import Recognizer.Proofs.Nfa.Listing

/-!
# The order of transitions and of complaints

However the edits of an automaton come and are repeated, each transition is listed once. Transitions that
have source and label in common stand together, where the first of them came, and there their targets
ascend (`Nfa.ListedBefore`). A check that fails blames what comes first in a fixed order
(`Nfa.Blames`).
-/

namespace Recognizer

set_option autoImplicit false

/-! ## First occurrences -/

theorem pairwise_distinct {κ : Type} [DecidableEq κ] [BEq κ] [LawfulBEq κ] (ks : List κ) :
    (distinct ks).Pairwise fun k j => ks.idxOf k < ks.idxOf j := by
  induction ks using List.reverseRecOn with
  | nil => exact List.Pairwise.nil
  | append_singleton ks k ih =>
    have hold : (distinct ks).Pairwise fun i j => (ks ++ [k]).idxOf i < (ks ++ [k]).idxOf j := by
      refine ih.imp_of_mem fun {i j} hi hj hij => ?_
      rwa [List.idxOf_append_of_mem (mem_distinct.mp hi), List.idxOf_append_of_mem (mem_distinct.mp hj)]
    rw [distinct_concat]
    split
    · exact hold
    · next hk =>
      refine List.pairwise_append.mpr ⟨hold, List.pairwise_singleton _ _, fun j hj i hi => ?_⟩
      have hj := mem_distinct.mp hj
      obtain rfl := List.mem_singleton.mp hi
      rw [List.idxOf_append_of_mem hj, List.idxOf_append_of_notMem hk]
      exact Nat.lt_of_lt_of_le (List.idxOf_lt_length_of_mem hj) (Nat.le_add_right ..)

namespace SortedSet

variable {S : SortedSet Nat} {p : Nat → Bool} {s : Nat}

theorem le_of_find? (h : S.toList.find? p = some s) : ∀ r ∈ S, p r = true → s ≤ r := by
  intro r hr hp
  obtain ⟨-, before, after, e, hbefore⟩ := List.find?_eq_some_iff_append.mp h
  have hascending : Ascending (before ++ s :: after) := e ▸ S.ascending
  have hr : r ∈ before ++ s :: after := e ▸ hr
  rcases List.mem_append.mp hr with hr | hr
  · have hno := hbefore r hr
    rw [hp] at hno
    cases hno
  · rcases List.mem_cons.mp hr with rfl | hr
    · exact Nat.le_refl r
    · have hs := (List.pairwise_cons.mp (List.pairwise_append.mp hascending).2.1).1 r hr
      exact Nat.le_of_lt hs

/-- What is found first in ascending order is the smallest. -/
theorem find?_toList_eq_some :
    S.toList.find? p = some s ↔ s ∈ S ∧ p s = true ∧ ∀ r ∈ S, p r = true → s ≤ r := by
  constructor
  · intro h
    exact ⟨List.mem_of_find?_eq_some h, List.find?_some h, le_of_find? h⟩
  · rintro ⟨hs, hp, hmin⟩
    cases h : S.toList.find? p with
    | none => exact absurd hp (List.find?_eq_none.mp h s hs)
    | some r =>
      have hrs := le_of_find? h s hs hp
      have hsr := hmin r (List.mem_of_find?_eq_some h) (List.find?_some h)
      rw [Nat.le_antisymm hrs hsr]

end SortedSet

namespace Nfa

variable {i : State} {es : List Edit}

/-! ## The order of transitions -/

/-- Where the transitions `ts` were added one after another, `t` is listed before `u`: its source and label
came together earlier, or they are the same and its target is smaller. -/
def ListedBefore (ts : List Transition) (t u : Transition) : Prop :=
  (ts.map groupKey).idxOf (groupKey t) < (ts.map groupKey).idxOf (groupKey u) ∨
    groupKey t = groupKey u ∧ t.target < u.target

theorem ListedBefore.ne {ts : List Transition} {t u : Transition} (h : ListedBefore ts t u) : t ≠ u := by
  rintro rfl
  rcases h with h | ⟨-, h⟩
  · exact Nat.lt_irrefl _ h
  · exact Nat.lt_irrefl _ h

theorem pairwise_inGroups (ts : List Transition) : (inGroups ts).Pairwise (ListedBefore ts) := by
  have hkey : ∀ k, ∀ t ∈ groupTransitions (k, groupTargets ts k), groupKey t = k := by
    intro k t ht
    obtain ⟨r, -, rfl⟩ := List.mem_map.mp ht
    rfl
  refine List.pairwise_flatMap.mpr ⟨fun k _ => ?_, (pairwise_distinct _).imp fun {k j} hkj t ht u hu => ?_⟩
  · exact List.pairwise_map.mpr ((groupTargets ts k).ascending.imp fun h => Or.inr ⟨rfl, h⟩)
  · left
    rwa [hkey k t ht, hkey j u hu]

theorem pairwise_transitions_build :
    (build i es).transitions.Pairwise (ListedBefore (es.filterMap Edit.transition?)) := by
  rw [transitions_build]
  exact pairwise_inGroups _

theorem nodup_transitions_build : (build i es).transitions.Nodup :=
  pairwise_transitions_build.imp ListedBefore.ne

/-! ## The order of complaints -/

/-- Both ends of a transition are declared by some edit. -/
def Declares (es : List Edit) (t : Transition) : Prop := .state t.source ∈ es ∧ .state t.target ∈ es

instance (es : List Edit) (t : Transition) : Decidable (Declares es t) :=
  inferInstanceAs (Decidable (_ ∧ _))

theorem not_declares_iff {t : Transition} : ¬ Declares es t ↔
    t.source ∉ (build i es).states ∨ t.target ∉ (build i es).states := by
  rw [mem_states_build, mem_states_build, Declares, not_and_or]

/-- What a check blames where edits leave something undeclared: the initial state before the final ones,
these in ascending order before the transitions, and these in the order in which they are listed. -/
inductive Blames (i : State) (es : List Edit) : Flaw → Prop
  | initial : .state i ∉ es → Blames i es (.initial i)
  | final {s : State} : .state i ∈ es → .final s ∈ es → .state s ∉ es →
    (∀ r, .final r ∈ es → .state r ∉ es → s ≤ r) → Blames i es (.final s)
  | endpoint {t : Transition} {before after : List Transition} : .state i ∈ es →
    (∀ s, .final s ∈ es → .state s ∈ es) → (build i es).transitions = before ++ t :: after →
    (∀ u ∈ before, Declares es u) → ¬ Declares es t → Blames i es (.endpoint t.source t.target)

variable {m : Flaw}

theorem blames_of_defect? (h : (build i es).defect? = some m) : Blames i es m := by
  unfold defect? at h
  rw [initial_build] at h
  split at h
  · next hi =>
    cases h
    exact .initial fun hs => hi (mem_states_build.mpr hs)
  · next hi =>
    have hi : Edit.state i ∈ es := mem_states_build.mp (Decidable.not_not.mp hi)
    split at h
    · next s hs =>
      cases h
      obtain ⟨hf, hs, hmin⟩ := SortedSet.find?_toList_eq_some.mp hs
      refine .final hi (mem_finals_build.mp hf) (by simpa using hs) fun r hr hrs => ?_
      exact hmin r (mem_finals_build.mpr hr) (by simpa using hrs)
    · next hs =>
      obtain ⟨t, ht, rfl⟩ := Option.map_eq_some_iff.mp h
      obtain ⟨ht, before, after, e, hbefore⟩ := List.find?_eq_some_iff_append.mp ht
      refine .endpoint hi (fun s hf => ?_) e (fun u hu => ?_) ?_
      · have hdeclared := List.find?_eq_none.mp hs s (mem_finals_build.mpr hf)
        simpa using hdeclared
      · have hdeclared := hbefore u hu
        rw [Bool.not_eq_true', decide_eq_false_iff_not, ← not_declares_iff] at hdeclared
        exact Decidable.not_not.mp hdeclared
      · exact not_declares_iff.mpr (decide_eq_true_iff.mp ht)

theorem defect?_of_blames (h : Blames i es m) : (build i es).defect? = some m := by
  have hinitial : Edit.state i ∈ es → ¬ (build i es).initial ∉ (build i es).states := by
    intro hi
    rwa [initial_build, Decidable.not_not, mem_states_build]
  unfold defect?
  cases h with
  | initial hi =>
    rw [initial_build, if_pos (mt mem_states_build.mp hi)]
  | @final s hi hf hs hmin =>
    have hfirst : (build i es).finals.toList.find? (· ∉ (build i es).states) = some s := by
      refine SortedSet.find?_toList_eq_some.mpr ⟨mem_finals_build.mpr hf, by simpa using hs, ?_⟩
      intro r hr hrs
      exact hmin r (mem_finals_build.mp hr) (by simpa using hrs)
    rw [if_neg (hinitial hi), hfirst]
  | @endpoint t before after hi hf e hbefore ht =>
    have hnone : (build i es).finals.toList.find? (· ∉ (build i es).states) = none := by
      refine List.find?_eq_none.mpr fun s hs => ?_
      simpa using hf s (mem_finals_build.mp hs)
    have hfirst : (build i es).transitions.find? (fun t => t.source ∉ (build i es).states ∨
        t.target ∉ (build i es).states) = some t := by
      refine List.find?_eq_some_iff_append.mpr ⟨?_, before, after, e, fun u hu => ?_⟩
      · exact decide_eq_true_iff.mpr (not_declares_iff.mp ht)
      · rw [Bool.not_eq_true', decide_eq_false_iff_not, ← not_declares_iff]
        exact not_not_intro (hbefore u hu)
    rw [if_neg (hinitial hi), hnone, hfirst]
    rfl

theorem check_build_eq_error_iff : (build i es).check = .error m ↔ Blames i es m := by
  have h : (build i es).check = .error m ↔ (build i es).defect? = some m := by
    rw [← fault?_check, fault?_eq_some]
  exact h.trans ⟨blames_of_defect?, defect?_of_blames⟩

/-! ## Automata after any edits -/

/-- Whatever edits an automaton went through, it lists each transition that was added, and lists it once,
in the order of the first additions. The symbols that were added alone or in a transition are its alphabet.
It passes its check if the initial state, all final states and all ends of transitions were declared at
some time, and otherwise the check blames what comes first. -/
theorem build_of_edits (i : State) (es : List Edit) :
    (∀ t, t ∈ (build i es).transitions ↔ .transition t ∈ es) ∧ (build i es).transitions.Nodup ∧
    (build i es).transitions.Pairwise (ListedBefore (es.filterMap Edit.transition?)) ∧
    (build i es).transitionCount = (build i es).transitions.length ∧
    (∀ c, c ∈ (build i es).alphabet ↔
      .symbol c ∈ es ∨ ∃ t : Transition, .transition t ∈ es ∧ t.label = .symbol c) ∧
    ((build i es).check = .ok () ↔ .state i ∈ es ∧ (∀ s, .final s ∈ es → .state s ∈ es) ∧
      ∀ t, .transition t ∈ es → Declares es t) ∧
    ∀ m, (build i es).check = .error m ↔ Blames i es m := by
  refine ⟨fun t => mem_transitions_build, nodup_transitions_build, pairwise_transitions_build,
    transitionCount_eq_length _, fun c => mem_alphabet_build, ?_, fun m => check_build_eq_error_iff⟩
  rw [check_eq_ok]
  simp only [initial_build, mem_states_build, mem_finals_build, mem_transitions_build, Declares]

/-- Of two final states that are not declared the greater one came first, and a transition that came first
is listed after one of its group. -/
theorem build_of_edits_interleaved :
    let es := [Edit.transition ⟨0, .symbol 'a', 2⟩, .transition ⟨1, .silent, 0⟩, .final 7, .state 1,
      .transition ⟨0, .symbol 'a', 1⟩, .symbol 'b', .final 3, .transition ⟨0, .symbol 'a', 2⟩, .state 0]
    (build 0 es).transitions.Nodup ∧
      (build 0 es).transitions = [⟨0, .symbol 'a', 1⟩, ⟨0, .symbol 'a', 2⟩, ⟨1, .silent, 0⟩] ∧
      'a' ∈ (build 0 es).alphabet ∧ (build 0 es).check = .error (.final 3) ∧
      (build 0 (es ++ [.state 7, .state 3])).check = .error (.endpoint 0 2) ∧
      (build 0 (es ++ [.state 7, .state 3, .state 2])).check = .ok () := by
  intro es
  obtain ⟨-, hnodup, -, -, hsymbols, -, hblames⟩ := build_of_edits 0 es
  refine ⟨hnodup, by decide, (hsymbols 'a').mpr (Or.inr ⟨⟨0, .symbol 'a', 2⟩, by decide, rfl⟩), ?_, ?_, ?_⟩
  · refine (hblames _).mpr (.final (by decide) (by decide) (by decide) ?_)
    simp [es]
  · obtain ⟨-, -, -, -, -, -, hblames⟩ := build_of_edits 0 (es ++ [.state 7, .state 3])
    refine (hblames _).mpr (@Blames.endpoint _ _ ⟨0, .symbol 'a', 2⟩ [⟨0, .symbol 'a', 1⟩]
      [⟨1, .silent, 0⟩] (by decide) ?_ (by decide) (by decide) (by decide))
    simp [es]
  · obtain ⟨-, -, -, -, -, hok, -⟩ := build_of_edits 0 (es ++ [.state 7, .state 3, .state 2])
    refine hok.mpr ⟨by decide, ?_, ?_⟩
    · simp [es]
    · simp [es, Declares]

end Nfa

end Recognizer

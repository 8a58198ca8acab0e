import Recognizer.Nfa.Document
import Recognizer.Proofs.Document.Names
import Recognizer.Proofs.Fallible
import Recognizer.Proofs.Nfa.Content
import Recognizer.Proofs.OrderedMap

/-!
# Automata with silent moves read back from listings

An automaton that was put together by edits can be put together again from what it lists, down to the
order of its transitions (`Nfa.build_history`). Reading its listing does just that
(`Nfa.ofListing_toListing`).
-/

namespace Recognizer.Nfa

set_option autoImplicit false

variable {N M : Nfa} {i : State} {es : List Edit}

/-! ## The order of the groups -/

def groupKey (t : Transition) : State × Label := (t.source, t.label)

/-- The group of a transition after it has been added. -/
def grown (t : Transition) (ts : Option StateSet) : StateSet := (ts.getD ∅).insert t.target

def Edit.transition? : Edit → Option Transition
  | .transition t => some t
  | _ => none

theorem groups_foldl (es : List Edit) (N : Nfa) :
    (es.foldl edit N).groups =
      (es.filterMap Edit.transition?).foldl
        (fun groups t => groups.update (groupKey t) (grown t)) N.groups := by
  induction es generalizing N with
  | nil => rfl
  | cons e es ih =>
    rw [List.foldl_cons, ih]
    cases e <;> rfl

/-- Groups stand in the order in which their first transitions came. -/
theorem keys_build : (build i es).groups.keys =
    distinct ((es.filterMap Edit.transition?).map groupKey) := by
  unfold build
  rw [groups_foldl]
  exact OrderedMap.keys_foldl_update groupKey grown _

/-- The targets of the transitions in one group. -/
def groupTargets (ts : List Transition) (k : State × Label) : StateSet :=
  SortedSet.ofList ((ts.filter (groupKey · = k)).map Transition.target)

/-- Transitions brought together by source and label: the groups stand in the order in which their first
transitions come, and inside a group targets ascend. -/
def inGroups (ts : List Transition) : List Transition :=
  (distinct (ts.map groupKey)).flatMap fun k => groupTransitions (k, groupTargets ts k)

theorem mem_inGroups {ts : List Transition} {t : Transition} : t ∈ inGroups ts ↔ t ∈ ts := by
  simp only [inGroups, groupTransitions, List.mem_flatMap, List.mem_map, SortedSet.mem_toList,
    groupTargets, SortedSet.mem_ofList, List.mem_filter, decide_eq_true_eq, mem_distinct]
  constructor
  · rintro ⟨-, -, -, ⟨u, ⟨hu, rfl⟩, rfl⟩, rfl⟩
    exact hu
  · intro ht
    exact ⟨groupKey t, ⟨t, ht, rfl⟩, t.target, ⟨t, ⟨ht, rfl⟩, rfl⟩, rfl⟩

theorem foldl_grown {ts : List Transition} (h : ts ≠ []) :
    ts.foldl (fun targets t => some (grown t targets)) none =
      some (SortedSet.ofList (ts.map Transition.target)) := by
  rw [SortedSet.ofList, SortedSet.insertAll, List.foldl_map]
  exact OrderedMap.foldl_some_getD (f := fun (targets : StateSet) (t : Transition) =>
    targets.insert t.target) h

theorem get?_groups_build {k : State × Label}
    (hk : k ∈ (es.filterMap Edit.transition?).map groupKey) :
    (build i es).groups.get? k = some (groupTargets (es.filterMap Edit.transition?) k) := by
  have hne : (es.filterMap Edit.transition?).filter (groupKey · = k) ≠ [] := by
    obtain ⟨t, ht, rfl⟩ := List.mem_map.mp hk
    exact List.ne_nil_of_mem (List.mem_filter.mpr ⟨ht, decide_eq_true rfl⟩)
  unfold build
  rw [groups_foldl, OrderedMap.get?_foldl_update, OrderedMap.get?_empty]
  rw [foldl_grown hne, groupTargets]

/-- The transitions of an automaton stand in groups, whatever the order in which they were added. -/
theorem transitions_build :
    (build i es).transitions = inGroups (es.filterMap Edit.transition?) := by
  have hentries : (build i es).groups.entries =
      (distinct ((es.filterMap Edit.transition?).map groupKey)).map fun k =>
        (k, groupTargets (es.filterMap Edit.transition?) k) := by
    refine OrderedMap.entries_eq_map (keys_build.trans (List.map_id _).symm) fun k hk => ?_
    exact get?_groups_build (mem_distinct.mp hk)
  rw [transitions, hentries, List.flatMap_map]
  rfl

/-! ## Automata put together by edits -/

/-- What holds of an automaton that was put together by edits: every group has a transition in it, and
the symbols of all transitions are in the alphabet. -/
structure Tidy (N : Nfa) : Prop where
  groups : ∀ k ts, N.groups.get? k = some ts → ts.size ≠ 0
  symbols : ∀ t ∈ N.transitions, ∀ c, t.label = .symbol c → c ∈ N.alphabet

theorem size_insert_ne_zero {α : Type} [Ranked α] (s : SortedSet α) (x : α) :
    (s.insert x).size ≠ 0 := by
  have hx : x ∈ (s.insert x).toList := SortedSet.mem_insert.mpr (Or.inl rfl)
  exact Nat.ne_of_gt (List.length_pos_of_mem hx)

theorem groups_edit (hN : ∀ k ts, N.groups.get? k = some ts → ts.size ≠ 0) (e : Edit) :
    ∀ k ts, (N.edit e).groups.get? k = some ts → ts.size ≠ 0 := by
  cases e with
  | transition t =>
    intro k ts hk
    simp only [edit, addTransition, OrderedMap.get?_update] at hk
    split at hk
    · cases hk
      exact size_insert_ne_zero _ _
    · exact hN k ts hk
  | _ => exact hN

theorem tidy_build (i : State) (es : List Edit) : (build i es).Tidy where
  groups := by
    have h : ∀ N : Nfa, (∀ k ts, N.groups.get? k = some ts → ts.size ≠ 0) →
        ∀ k ts, (es.foldl edit N).groups.get? k = some ts → ts.size ≠ 0 := by
      induction es with
      | nil => exact fun N hN => hN
      | cons e es ih => exact fun N hN => ih (N.edit e) (groups_edit hN e)
    exact h { initial := i } fun k ts hk => nomatch hk
  symbols t ht c hc := mem_alphabet_build.mpr (Or.inr ⟨t, mem_transitions_build.mp ht, hc⟩)

namespace Tidy

theorem distinct_transitions (h : N.Tidy) : distinct (N.transitions.map groupKey) = N.groups.keys := by
  have hmap : ∀ g : (State × Label) × StateSet,
      (groupTransitions g).map groupKey = List.replicate g.2.size g.1 := by
    intro g
    unfold groupTransitions
    rw [List.map_map]
    show (g.2.toList.map fun _ => g.1) = _
    exact List.map_const'
  unfold transitions
  simp only [List.map_flatMap, hmap]
  exact distinct_flatMap_replicate N.groups.nodup fun g hg =>
    h.groups g.1 g.2 (OrderedMap.get?_eq_some.mpr hg)

end Tidy

/-! ## The same content in the same order -/

theorem get?_groups {k : State × Label} (hk : k ∈ N.groups.keys) :
    N.groups.get? k = some (N.targets k.1 k.2) := by
  unfold targets
  cases h : N.groups.get? k with
  | none => exact absurd hk (OrderedMap.get?_eq_none.mp h)
  | some ts => rfl

theorem SameContent.eq_of_keys (h : N.SameContent M) (hk : N.groups.keys = M.groups.keys) : N = M := by
  have hget : ∀ k ∈ M.groups.keys, N.groups.get? k = M.groups.get? k := by
    intro k hm
    rw [get?_groups hm, get?_groups (hk ▸ hm), h.targets_eq]
  have hg : N.groups = M.groups := OrderedMap.ext_get? hk hget
  obtain ⟨i, ss, fs, A, gs⟩ := N
  obtain ⟨i', ss', fs', A', gs'⟩ := M
  obtain ⟨rfl, rfl, rfl, rfl, -⟩ := h
  rw [show gs = gs' from hg]

/-! ## Histories from listings -/

/-- Edits that put an automaton together from what it lists. -/
def history (N : Nfa) : List Edit :=
  N.states.toList.map .state ++ N.alphabet.toList.map .symbol ++ N.transitions.map .transition ++
    N.finals.toList.map .final

theorem sameContent_history (h : N.Tidy) : (build N.initial N.history).SameContent N where
  initial := initial_build
  states := SortedSet.ext_mem fun s => by simp [history, SortedSet.mem_toList]
  finals := SortedSet.ext_mem fun s => by simp [history, SortedSet.mem_toList]
  alphabet := SortedSet.ext_mem fun c => by
    simp only [mem_alphabet_build, history, List.mem_append, List.mem_map, SortedSet.mem_toList,
      reduceCtorEq, and_false, exists_false, or_false, false_or, Edit.symbol.injEq, exists_eq_right,
      Edit.transition.injEq]
    exact or_iff_left_of_imp fun ⟨t, ht, hc⟩ => h.symbols t ht c hc
  transitions t := by simp [history]

theorem filterMap_history (N : Nfa) : N.history.filterMap Edit.transition? = N.transitions := by
  have hnone : ∀ {α : Type} (f : α → Edit) (as : List α), (∀ a, (f a).transition? = none) →
      (as.map f).filterMap Edit.transition? = [] := by
    intro α f as hf
    simp [hf]
  have hsome : (N.transitions.map .transition).filterMap Edit.transition? = N.transitions := by
    rw [List.filterMap_map]
    exact List.filterMap_some
  unfold history
  rw [List.filterMap_append, List.filterMap_append, List.filterMap_append, hsome,
    hnone _ _ fun _ => rfl, hnone _ _ fun _ => rfl, hnone _ _ fun _ => rfl]
  simp

theorem build_history (h : N.Tidy) : build N.initial N.history = N := by
  apply (sameContent_history h).eq_of_keys
  rw [keys_build, filterMap_history, h.distinct_transitions]

/-! ## Reading -/

theorem edgeLabel_symbol? {A : Alphabet} {l : Label} (hl : ∀ c, l = .symbol c → c ∈ A) :
    edgeLabel A (l.symbol?.map Char.toString) = .ok l := by
  cases l with
  | silent => rfl
  | symbol c =>
    unfold edgeLabel
    dsimp only [Label.symbol?, Option.map_some]
    rw [Document.symbol_toString, ok_bind, if_pos (hl c rfl)]
    rfl

theorem ofListing_toListing (h : N.Tidy) : ofListing N.toListing = N.check.map fun _ => N := by
  have hsymbols : N.toListing.symbols = .ok N.alphabet := Document.alphabet_symbolTexts N.alphabet
  have hedge : ∀ t ∈ N.transitions, ∀ M : Nfa,
      addEdge N.alphabet M (toEdge t) = .ok (M.addTransition t) := by
    intro t ht M
    unfold addEdge toEdge
    dsimp only
    rw [edgeLabel_symbol? (h.symbols t ht)]
    rfl
  have hbuild : N.finals.toList.foldl addFinal (N.transitions.foldl addTransition
      (build N.initial (N.states.toList.map .state ++ N.alphabet.toList.map .symbol))) = N := by
    have hh := build_history h
    unfold build history at hh
    rwa [List.foldl_append, List.foldl_append, List.foldl_map, List.foldl_map] at hh
  unfold ofListing
  rw [hsymbols, ok_bind]
  dsimp only [toListing]
  rw [List.foldlM_map, foldlM_eq_ok hedge, ok_bind, hbuild]
  cases N.check <;> rfl

end Recognizer.Nfa

import Recognizer.Nfa.Basic
import Recognizer.Proofs.Fallible

/-!
# What a history of edits makes

The content of an automaton is the content of its history, in whatever order the edits came, and the
automaton passes its check when all that is used has been declared (`Nfa.check_eq_ok`).
-/

namespace Recognizer.Nfa

set_option autoImplicit false

variable {N : Nfa} {es : List Edit}

/-! ## Single edits -/

theorem mem_transitions_addTransition {t u : Transition} :
    u ∈ (N.addTransition t).transitions ↔ u = t ∨ u ∈ N.transitions := by
  obtain ⟨q, l, r⟩ := u
  obtain ⟨q', l', r'⟩ := t
  rw [mem_transitions, mem_transitions, targets_addTransition]
  by_cases h : (q, l) = (q', l')
  · obtain ⟨rfl, rfl⟩ := Prod.mk.injEq .. ▸ h
    simp
  · have hne : ¬ (⟨q, l, r⟩ : Transition) = ⟨q', l', r'⟩ := fun e => by
      cases e
      exact h rfl
    simp [h, hne]

/-! ## Declarations -/

theorem foldl_addState (ss : List State) (N : Nfa) :
    ss.foldl addState N = { N with states := N.states.insertAll ss } := by
  induction ss generalizing N with
  | nil => rfl
  | cons s ss ih => exact ih (N.addState s)

theorem foldl_addSymbol (cs : List Symbol) (N : Nfa) :
    cs.foldl addSymbol N = { N with alphabet := N.alphabet.insertAll cs } := by
  induction cs generalizing N with
  | nil => rfl
  | cons c cs ih => exact ih (N.addSymbol c)

/-! ## Histories -/

theorem initial_foldl : (es.foldl edit N).initial = N.initial := by
  induction es generalizing N with
  | nil => rfl
  | cons e es ih =>
    rw [List.foldl_cons, ih]
    cases e <;> rfl

theorem mem_states_foldl {s : State} :
    s ∈ (es.foldl edit N).states ↔ .state s ∈ es ∨ s ∈ N.states := by
  induction es generalizing N with
  | nil => simp
  | cons e es ih =>
    rw [List.foldl_cons, ih]
    cases e <;> simp [edit, addState, addFinal, addSymbol, addTransition, or_left_comm, or_assoc]

theorem mem_finals_foldl {s : State} :
    s ∈ (es.foldl edit N).finals ↔ .final s ∈ es ∨ s ∈ N.finals := by
  induction es generalizing N with
  | nil => simp
  | cons e es ih =>
    rw [List.foldl_cons, ih]
    cases e <;> simp [edit, addState, addFinal, addSymbol, addTransition, or_left_comm, or_assoc]

theorem mem_transitions_foldl {t : Transition} :
    t ∈ (es.foldl edit N).transitions ↔ .transition t ∈ es ∨ t ∈ N.transitions := by
  induction es generalizing N with
  | nil => simp
  | cons e es ih =>
    rw [List.foldl_cons, ih]
    cases e with
    | transition u =>
      simp only [edit, mem_transitions_addTransition, List.mem_cons, Edit.transition.injEq]
      rw [or_left_comm, or_assoc]
    | _ => simp [edit, transitions, addState, addFinal, addSymbol]

theorem mem_declare {A : Alphabet} {l : Label} {c : Symbol} :
    c ∈ declare A l ↔ l = .symbol c ∨ c ∈ A := by
  cases l with
  | silent => simp [declare]
  | symbol d => simp [declare, eq_comm]

theorem mem_alphabet_foldl {c : Symbol} :
    c ∈ (es.foldl edit N).alphabet ↔
      (.symbol c ∈ es ∨ ∃ t : Transition, .transition t ∈ es ∧ t.label = .symbol c) ∨
        c ∈ N.alphabet := by
  induction es generalizing N with
  | nil => simp
  | cons e es ih =>
    rw [List.foldl_cons, ih]
    cases e with
    | transition u =>
      simp only [edit, addTransition, mem_declare, List.mem_cons, reduceCtorEq, false_or,
        Edit.transition.injEq, or_and_right, exists_or, exists_eq_left, or_assoc, or_left_comm]
    | symbol d => simp [edit, addSymbol, or_assoc, or_left_comm]
    | _ => simp [edit, addState, addFinal]

variable {i : State}

@[simp] theorem initial_build : (build i es).initial = i := initial_foldl

@[simp] theorem mem_states_build {s : State} : s ∈ (build i es).states ↔ .state s ∈ es :=
  mem_states_foldl.trans (or_iff_left (SortedSet.not_mem_empty s))

@[simp] theorem mem_finals_build {s : State} : s ∈ (build i es).finals ↔ .final s ∈ es :=
  mem_finals_foldl.trans (or_iff_left (SortedSet.not_mem_empty s))

@[simp] theorem mem_transitions_build {t : Transition} :
    t ∈ (build i es).transitions ↔ .transition t ∈ es :=
  mem_transitions_foldl.trans (or_iff_left List.not_mem_nil)

theorem mem_alphabet_build {c : Symbol} : c ∈ (build i es).alphabet ↔
    .symbol c ∈ es ∨ ∃ t : Transition, .transition t ∈ es ∧ t.label = .symbol c :=
  mem_alphabet_foldl.trans (or_iff_left (SortedSet.not_mem_empty c))

/-! ## The check -/

/-- The initial state, the final states and the transitions that are not covered by `states`. -/
def undeclared (states : StateSet) (initial : State) (finals : StateSet) (ts : List Transition) :
    List Flaw :=
  (if initial ∈ states then [] else [.initial initial]) ++
    ((finals.toList.filter (· ∉ states)).map .final ++
      (ts.filter fun t => t.source ∉ states ∨ t.target ∉ states).map fun t =>
        .endpoint t.source t.target)

theorem defect?_eq_head? (N : Nfa) :
    N.defect? = (undeclared N.states N.initial N.finals N.transitions).head? := by
  unfold defect? undeclared
  rw [List.head?_append, List.head?_append, List.head?_map, List.head?_map, List.head?_filter,
    List.head?_filter]
  by_cases hi : N.initial ∈ N.states
  · rw [if_neg (not_not_intro hi), if_pos hi]
    cases N.finals.toList.find? (· ∉ N.states) <;> rfl
  · rw [if_pos hi, if_neg hi]
    rfl

theorem fault?_check (N : Nfa) : fault? N.check = N.defect? := by
  unfold check
  cases N.defect? <;> rfl

theorem undeclared_eq_nil {states finals : StateSet} {initial : State} {ts : List Transition} :
    undeclared states initial finals ts = [] ↔
      initial ∈ states ∧ (∀ s ∈ finals, s ∈ states) ∧
        ∀ t ∈ ts, t.source ∈ states ∧ t.target ∈ states := by
  unfold undeclared
  rw [List.append_eq_nil_iff, List.append_eq_nil_iff, List.map_eq_nil_iff, List.map_eq_nil_iff,
    List.filter_eq_nil_iff, List.filter_eq_nil_iff]
  simp [SortedSet.mem_toList]

theorem check_eq_ok : N.check = .ok () ↔
    N.initial ∈ N.states ∧ (∀ s ∈ N.finals, s ∈ N.states) ∧
      ∀ t ∈ N.transitions, t.source ∈ N.states ∧ t.target ∈ N.states := by
  have h : N.check = .ok () ↔ fault? N.check = none := by
    rw [fault?_eq_none]
    exact ⟨fun h => ⟨(), h⟩, fun ⟨_, h⟩ => h⟩
  rw [h, fault?_check, defect?_eq_head?, List.head?_eq_none_iff, undeclared_eq_nil]

end Recognizer.Nfa

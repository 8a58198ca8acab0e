import Recognizer.Nfa.Reach
import Recognizer.Proofs.Fragment.Language
import Recognizer.Proofs.Nfa.History

/-!
# The automaton of an expression

An automaton made of a fragment has the fragment's states, transitions, entry and exit. So it accepts
the language of the expression (`Expr.fragment_and_compile_spell`), and the words that lead to some
state are those with which a word of the language begins (`Expr.compile_eq_ok`).
-/

namespace Recognizer

set_option autoImplicit false

/-! ## From a fragment to an automaton -/

namespace Fragment

variable {f : Fragment} {n m s t : State} {u w : List Symbol}

@[simp] theorem initial_toNfa : f.toNfa.initial = f.initial := Nfa.initial_build

@[simp] theorem mem_states_toNfa : s ∈ f.toNfa.states ↔ s ∈ f.states := by
  simp [toNfa]

@[simp] theorem mem_finals_toNfa : s ∈ f.toNfa.finals ↔ s = f.final := by
  simp [toNfa]

@[simp] theorem mem_transitions_toNfa {t : Transition} :
    t ∈ f.toNfa.transitions ↔ t ∈ f.transitions := by
  simp [toNfa]

theorem path_toNfa : Path f.toNfa.transitions s w t ↔ Path f.transitions s w t :=
  ⟨fun p => p.of_subset fun _ => mem_transitions_toNfa.mp,
    fun p => p.of_subset fun _ => mem_transitions_toNfa.mpr⟩

theorem accepts_toNfa : f.toNfa.Accepts w ↔ f.Spells w := by
  unfold Nfa.Accepts Nfa.Reads Spells
  simp only [mem_finals_toNfa, exists_eq_left, path_toNfa, initial_toNfa]

theorem Proper.check_toNfa (hf : f.Proper n m) : f.toNfa.check = .ok () := by
  rw [Nfa.check_eq_ok]
  refine ⟨?_, ?_, ?_⟩
  · rw [initial_toNfa, mem_states_toNfa]
    exact hf.initial_mem
  · intro s hs
    rw [mem_finals_toNfa] at hs
    subst hs
    exact mem_states_toNfa.mpr hf.final_mem
  · intro t ht
    rw [mem_transitions_toNfa] at ht
    have hs := hf.source t ht
    have ht := hf.target t ht
    rw [mem_states_toNfa, mem_states_toNfa, hf.mem_states, hf.mem_states]
    lia

/-- A path that starts in a state of the fragment does not leave it. -/
theorem Proper.mem_of_path (hf : f.Proper n m) (p : Path f.transitions s w t)
    (hs : s ∈ f.states) : t ∈ f.states := by
  have hstep : ∀ t ∈ f.transitions, t.target ∈ f.states := by
    intro t ht
    have h := hf.target t ht
    rw [hf.mem_states]
    lia
  induction p with
  | nil => exact hs
  | silent h _ ih => exact ih (hstep _ h)
  | symbol h _ ih => exact ih (hstep _ h)

/-- No state is a dead end: what leads to some state can be completed. -/
theorem Threaded.reads_toNfa (hf : f.Proper n m) (ht : f.Threaded) :
    (∃ s, f.toNfa.Reads u s) ↔ ∃ v, f.Spells (u ++ v) := by
  simp only [Nfa.Reads, path_toNfa, initial_toNfa]
  constructor
  · rintro ⟨s, p⟩
    obtain ⟨-, v, q⟩ := ht s (hf.mem_of_path p hf.initial_mem)
    exact ⟨v, p.append q⟩
  · rintro ⟨v, p⟩
    obtain ⟨s, p, -⟩ := Path.append_iff.mp p
    exact ⟨s, p⟩

end Fragment

/-! ## Compilation -/

namespace Expr

variable {x : Expr}

/-- Some word of the language begins with `u`. -/
def Viable (x : Expr) (u : List Symbol) : Prop := ∃ v, x.Matches (u ++ v)

theorem fragmentFrom_eq_ok (hx : x.complete = true) (n : State) :
    ∃ f m, x.fragmentFrom n = (.ok f, m) ∧ f.Proper n m ∧ f.Threaded ∧
      ∀ w, f.Spells w ↔ x.Matches w := by
  obtain ⟨f, m, e, hf, -, ht⟩ := fragment_induction Fragment.threaded_joins x hx n
  obtain ⟨f', m', e', -, hw⟩ := fragment_induction Fragment.spells_joins x hx n
  rw [e] at e'
  cases e'
  exact ⟨f, m, e, hf, ht (Fragment.ne_alternation_nil hx), hw⟩

theorem compile_eq_ok (hx : x.complete = true) :
    ∃ N, x.compile = .ok N ∧ N.check = .ok () ∧ (∀ w, N.Accepts w ↔ x.Matches w) ∧
      ∀ u, (∃ s, N.Reads u s) ↔ x.Viable u := by
  obtain ⟨f, m, e, hf, ht, hw⟩ := fragmentFrom_eq_ok hx 0
  refine ⟨f.toNfa, ?_, hf.check_toNfa, ?_, ?_⟩
  · rw [compile, e]
    rfl
  · intro w
    rw [Fragment.accepts_toNfa, hw]
  · intro u
    rw [ht.reads_toNfa hf]
    exact exists_congr fun v => hw (u ++ v)

/-- The paths of the fragment of a complete expression, over whatever supply it was built, spell the
language of the expression, and so do the accepting paths of its automaton. -/
theorem fragment_and_compile_spell (x : Expr) (hx : x.complete = true) :
    (∀ n, ∃ f m, x.fragmentFrom n = (.ok f, m) ∧
      ∀ w, Path f.transitions f.initial w f.final ↔ x.Matches w) ∧
    ∃ N, x.compile = .ok N ∧
      ∀ w, (∃ s ∈ N.finals, Path N.transitions N.initial w s) ↔ x.Matches w := by
  constructor
  · intro n
    obtain ⟨f, m, e, -, -, hw⟩ := fragmentFrom_eq_ok hx n
    exact ⟨f, m, e, hw⟩
  · obtain ⟨N, e, -, hw, -⟩ := compile_eq_ok hx
    exact ⟨N, e, hw⟩

theorem fragment_and_compile_spell_nested_star :
    let x := Expr.star (.sequence [.star (.literal 'a'), .literal 'b'])
    x.complete = true ∧
      (∃ f m, x.fragmentFrom 7 = (.ok f, m) ∧ Path f.transitions f.initial ['b', 'a', 'b'] f.final) ∧
      ∃ N, x.compile = .ok N ∧ ¬ ∃ s ∈ N.finals, Path N.transitions N.initial ['a'] s := by
  intro x
  have hx : x.complete = true := by rfl
  have hb : (sequence [.star (.literal 'a'), .literal 'b']).Matches ['b'] :=
    .sequence_cons .star_nil (.sequence_cons (.literal 'b') .sequence_nil)
  have hab : (sequence [.star (.literal 'a'), .literal 'b']).Matches ['a', 'b'] :=
    .sequence_cons (.star_append (.literal 'a') .star_nil)
      (.sequence_cons (.literal 'b') .sequence_nil)
  have hm : x.Matches ['b', 'a', 'b'] := .star_append hb (.star_append hab .star_nil)
  have hlast : ∀ w, x.Matches w → w = [] ∨ w.getLast? = some 'b' := by
    intro w h
    refine star_induction (P := fun w => w = [] ∨ w.getLast? = some 'b') (Or.inl rfl) ?_ h
    intro u v hu hv
    obtain ⟨u₁, u₂, rfl, -, hu₂⟩ := matches_sequence_cons.mp hu
    rw [matches_sequence_singleton, matches_literal] at hu₂
    subst hu₂
    rcases hv with rfl | hv
    · simp
    · right
      rw [List.getLast?_append, hv]
      rfl
  obtain ⟨hf, N, hN, hw⟩ := fragment_and_compile_spell x hx
  obtain ⟨f, m, e, hp⟩ := hf 7
  refine ⟨hx, ⟨f, m, e, (hp _).mpr hm⟩, N, hN, ?_⟩
  rw [hw]
  intro h
  rcases hlast _ h with h | h
  · cases h
  · exact absurd h (by decide)

end Expr

end Recognizer

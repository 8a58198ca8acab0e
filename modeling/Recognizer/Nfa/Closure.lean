import Recognizer.Nfa.Basic

/-!
# Silent closure and steps

The closure of a set of states is found with a stack. Every state taken from it is either known
already, or spends its own silent edges by putting their targets on the stack: the edges not yet
spent, together with the stack, measure what is left to do.
-/

namespace Recognizer.Nfa

set_option autoImplicit false

/-! ## Silent edges not yet spent -/

/-- How many silent edges leave states outside `seen`. -/
def unspentIn (seen : StateSet) : List ((State × Label) × StateSet) → Nat
  | [] => 0
  | g :: gs =>
    (if g.1.2 = .silent ∧ g.1.1 ∉ seen then g.2.size else 0) + unspentIn seen gs

def unspent (N : Nfa) (seen : StateSet) : Nat := unspentIn seen N.groups.entries

theorem unspentOf_insert_le (seen : StateSet) (s q : State) (l : Label) (ts : StateSet) :
    (if l = .silent ∧ q ∉ seen.insert s then ts.size else 0) ≤
      if l = .silent ∧ q ∉ seen then ts.size else 0 := by
  split
  · next h =>
    have hq : q ∉ seen := fun m => h.2 (SortedSet.mem_insert.mpr (Or.inr m))
    exact Nat.le_of_eq (if_pos ⟨h.1, hq⟩).symm
  · exact Nat.zero_le _

theorem unspentIn_insert_le (seen : StateSet) (s : State) (gs : List ((State × Label) × StateSet)) :
    unspentIn (seen.insert s) gs ≤ unspentIn seen gs := by
  induction gs with
  | nil => exact Nat.le_refl _
  | cons g gs ih => exact Nat.add_le_add (unspentOf_insert_le seen s g.1.1 g.1.2 g.2) ih

/-- A new state takes its own silent edges off the count. -/
theorem unspentIn_insert {seen : StateSet} {s : State} (hs : s ∉ seen)
    (gs : List ((State × Label) × StateSet)) :
    unspentIn (seen.insert s) gs + ((OrderedMap.lookup (s, Label.silent) gs).getD ∅).size ≤
      unspentIn seen gs := by
  induction gs with
  | nil => exact Nat.le_refl _
  | cons g gs ih =>
    obtain ⟨⟨q, l⟩, ts⟩ := g
    by_cases h : (q, l) = (s, Label.silent)
    · obtain ⟨rfl, rfl⟩ := Prod.mk.injEq .. ▸ h
      have hm : q ∈ seen.insert q := SortedSet.mem_insert.mpr (Or.inl rfl)
      have := unspentIn_insert_le seen q gs
      simp only [unspentIn, OrderedMap.lookup, hm, hs, not_true_eq_false, not_false_eq_true,
        and_false, and_true, if_true, if_false, Option.getD_some]
      omega
    · simp only [unspentIn, OrderedMap.lookup, if_neg h]
      have hq := unspentOf_insert_le seen s q l ts
      omega

theorem unspent_insert (N : Nfa) {seen : StateSet} {s : State} (hs : s ∉ seen) :
    N.unspent (seen.insert s) + (N.targets s .silent).size ≤ N.unspent seen :=
  unspentIn_insert hs N.groups.entries

/-! ## Closure -/

/-- What taking a new state from the stack puts on it: its silent targets that are not known. -/
def pushed (N : Nfa) (seen : StateSet) (s : State) : List State :=
  ((N.targets s .silent).toList.filter (· ∉ seen)).reverse

theorem length_pushed_le (N : Nfa) (seen : StateSet) (s : State) :
    (N.pushed seen s).length ≤ (N.targets s .silent).size := by
  rw [pushed, List.length_reverse]
  exact List.length_filter_le _ _

def closeFrom (N : Nfa) (seen : StateSet) : List State → StateSet
  | [] => seen
  | s :: stack =>
    if s ∈ seen then closeFrom N seen stack
    else closeFrom N (seen.insert s) (N.pushed (seen.insert s) s ++ stack)
termination_by stack => N.unspent seen + stack.length
decreasing_by
  · simp only [List.length_cons]
    omega
  · next hs =>
    have := N.unspent_insert hs
    have := N.length_pushed_le (seen.insert s) s
    simp only [List.length_append, List.length_cons]
    omega

/-- The least superset of `S` closed under silent edges. -/
def closure (N : Nfa) (S : StateSet) : StateSet := N.closeFrom ∅ S.toList.reverse

/-- A property that silent edges keep passes from the states put in to the states found. -/
theorem closeFrom_all {N : Nfa} {P : State → Prop}
    (hN : ∀ s t, P s → t ∈ N.targets s .silent → P t) (seen : StateSet) (stack : List State)
    (h₁ : ∀ s ∈ seen, P s) (h₂ : ∀ s ∈ stack, P s) : ∀ s ∈ N.closeFrom seen stack, P s := by
  fun_induction closeFrom N seen stack with
  | case1 seen => exact h₁
  | case2 seen s stack hs ih => exact ih h₁ fun q hq => h₂ q (List.mem_cons_of_mem _ hq)
  | case3 seen s stack hs ih =>
    refine ih (fun q hq => ?_) fun q hq => ?_
    · rcases SortedSet.mem_insert.mp hq with rfl | hq
      · exact h₂ q List.mem_cons_self
      · exact h₁ q hq
    · rcases List.mem_append.mp hq with hq | hq
      · rw [pushed, List.mem_reverse, List.mem_filter] at hq
        exact hN s q (h₂ s List.mem_cons_self) hq.1
      · exact h₂ q (List.mem_cons_of_mem _ hq)

theorem mem_closeFrom {N : Nfa} (seen : StateSet) (stack : List State) {s : State}
    (h : s ∈ seen ∨ s ∈ stack) : s ∈ N.closeFrom seen stack := by
  fun_induction closeFrom N seen stack with
  | case1 seen => exact h.resolve_right List.not_mem_nil
  | case2 seen q stack hq ih =>
    rcases h with h | h
    · exact ih (Or.inl h)
    · rcases List.mem_cons.mp h with rfl | h
      · exact ih (Or.inl hq)
      · exact ih (Or.inr h)
  | case3 seen q stack hq ih =>
    rcases h with h | h
    · exact ih (Or.inl (SortedSet.mem_insert.mpr (Or.inr h)))
    · rcases List.mem_cons.mp h with rfl | h
      · exact ih (Or.inl (SortedSet.mem_insert.mpr (Or.inl rfl)))
      · exact ih (Or.inr (List.mem_append_right _ h))

/-- If all silent edges of the known states end in a known state or on the stack, the states found are
closed under silent edges. -/
theorem closeFrom_closed {N : Nfa} (seen : StateSet) (stack : List State)
    (h : ∀ s t, s ∈ seen → t ∈ N.targets s .silent → t ∈ seen ∨ t ∈ stack) {s t : State}
    (hs : s ∈ N.closeFrom seen stack) (ht : t ∈ N.targets s .silent) :
    t ∈ N.closeFrom seen stack := by
  fun_induction closeFrom N seen stack with
  | case1 seen => exact (h s t hs ht).resolve_right List.not_mem_nil
  | case2 seen q stack hq ih =>
    refine ih (fun a b ha hb => ?_) hs
    rcases h a b ha hb with m | m
    · exact Or.inl m
    · rcases List.mem_cons.mp m with rfl | m
      · exact Or.inl hq
      · exact Or.inr m
  | case3 seen q stack hq ih =>
    refine ih (fun a b ha hb => ?_) hs
    by_cases hk : b ∈ seen.insert q
    · exact Or.inl hk
    · refine Or.inr (List.mem_append.mpr ?_)
      rcases SortedSet.mem_insert.mp ha with rfl | ha
      · refine Or.inl ?_
        rw [pushed, List.mem_reverse, List.mem_filter]
        exact ⟨hb, decide_eq_true hk⟩
      · rcases h a b ha hb with m | m
        · exact absurd (SortedSet.mem_insert.mpr (Or.inr m)) hk
        · rcases List.mem_cons.mp m with rfl | m
          · exact absurd (SortedSet.mem_insert.mpr (Or.inl rfl)) hk
          · exact Or.inr m

/-! ## The closure is the least closed superset -/

theorem subset_closure {N : Nfa} {S : StateSet} {s : State} (h : s ∈ S) : s ∈ N.closure S :=
  mem_closeFrom ∅ _ (Or.inr (List.mem_reverse.mpr h))

theorem closure_closed {N : Nfa} {S : StateSet} {s t : State} (hs : s ∈ N.closure S)
    (ht : t ∈ N.targets s .silent) : t ∈ N.closure S :=
  closeFrom_closed ∅ _ (fun a _ ha => absurd ha (SortedSet.not_mem_empty a)) hs ht

theorem closure_all {N : Nfa} {P : State → Prop}
    (hN : ∀ s t, P s → t ∈ N.targets s .silent → P t) {S : StateSet} (hS : ∀ s ∈ S, P s) :
    ∀ s ∈ N.closure S, P s :=
  closeFrom_all hN ∅ _ (fun s hs => absurd hs (SortedSet.not_mem_empty s)) fun s hs =>
    hS s (List.mem_reverse.mp hs)

/-! ## Steps -/

def step (N : Nfa) (S : StateSet) (c : Symbol) : StateSet :=
  S.toList.foldl (fun R s => R.union (N.targets s (.symbol c))) ∅

theorem mem_foldl_union {N : Nfa} {c : Symbol} {t : State} (qs : List State) (R : StateSet) :
    t ∈ qs.foldl (fun R s => R.union (N.targets s (.symbol c))) R ↔
      t ∈ R ∨ ∃ s ∈ qs, t ∈ N.targets s (.symbol c) := by
  induction qs generalizing R with
  | nil => simp
  | cons q qs ih =>
    rw [List.foldl_cons, ih, SortedSet.mem_union]
    simp only [List.mem_cons, exists_eq_or_imp]
    rw [or_comm (a := t ∈ N.targets q _), or_assoc]

theorem mem_step {N : Nfa} {S : StateSet} {c : Symbol} {t : State} :
    t ∈ N.step S c ↔ ∃ s ∈ S, t ∈ N.targets s (.symbol c) :=
  (mem_foldl_union S.toList ∅).trans (or_iff_right (SortedSet.not_mem_empty t))

end Recognizer.Nfa

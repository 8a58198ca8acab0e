import Recognizer.Expr.Language
import Recognizer.Proofs.Fragment.Shape

/-!
# The language of fragments

What the paths of a fragment spell from entry to exit. A path that comes from outside enters a part
only at its initial state and leaves it only at its final one, so the language of a joined fragment is
made of the languages of its parts.
-/

namespace Recognizer

set_option autoImplicit false

/-! ## Words ahead of a state -/

/-- What reading a label adds to a word. -/
def Label.word : Label → List Symbol
  | .silent => []
  | .symbol c => [c]

namespace Path

variable {ts : List Transition} {s t u : State} {l : Label} {v w : List Symbol}

theorem edge (m : ⟨s, l, t⟩ ∈ ts) (p : Path ts t w u) : Path ts s (l.word ++ w) u := by
  cases l with
  | silent => exact silent m p
  | symbol c => exact symbol m p

/-- `K s` stands for the words that may lie ahead of `s`. If every transition takes them from its
target back to its source, so does every path. -/
theorem carries {K : State → List Symbol → Prop}
    (hK : ∀ s l t w, ⟨s, l, t⟩ ∈ ts → K t w → K s (l.word ++ w)) (p : Path ts s w u) (hu : K u []) :
    K s w := by
  induction p with
  | nil => exact hu
  | silent m _ ih => exact hK _ .silent _ _ m (ih hu)
  | symbol m _ ih => exact hK _ (.symbol _) _ _ m (ih hu)

end Path

/-! ## Words of joined expressions -/

namespace Expr

variable {x : Expr} {xs ys : List Expr} {w : List Symbol}

theorem matches_alternation_concat :
    (alternation (xs ++ [x])).Matches w ↔ (alternation xs).Matches w ∨ x.Matches w := by
  simp only [matches_alternation, List.mem_append, List.mem_singleton]
  constructor
  · rintro ⟨y, hy | rfl, h⟩
    · exact Or.inl ⟨y, hy, h⟩
    · exact Or.inr h
  · rintro (⟨y, hy, h⟩ | h)
    · exact ⟨y, Or.inl hy, h⟩
    · exact ⟨x, Or.inr rfl, h⟩

theorem matches_sequence_append : (sequence (xs ++ ys)).Matches w ↔
    ∃ u v, w = u ++ v ∧ (sequence xs).Matches u ∧ (sequence ys).Matches v := by
  induction xs generalizing w with
  | nil =>
    constructor
    · intro h
      exact ⟨[], w, rfl, .sequence_nil, h⟩
    · rintro ⟨u, v, rfl, hu, hv⟩
      rw [matches_sequence_nil] at hu
      subst hu
      exact hv
  | cons y xs ih =>
    rw [List.cons_append, matches_sequence_cons]
    constructor
    · rintro ⟨u, v, rfl, hu, hv⟩
      obtain ⟨v₁, v₂, rfl, h₁, h₂⟩ := ih.mp hv
      exact ⟨u ++ v₁, v₂, (List.append_assoc u v₁ v₂).symm, .sequence_cons hu h₁, h₂⟩
    · rintro ⟨u, v, rfl, hu, hv⟩
      obtain ⟨u₁, u₂, rfl, h₁, h₂⟩ := matches_sequence_cons.mp hu
      exact ⟨u₁, u₂ ++ v, List.append_assoc u₁ u₂ v, h₁, ih.mpr ⟨u₂, v, rfl, h₂, hv⟩⟩

theorem matches_sequence_singleton : (sequence [x]).Matches w ↔ x.Matches w := by
  rw [matches_sequence_cons]
  constructor
  · rintro ⟨u, v, rfl, hu, hv⟩
    rw [matches_sequence_nil] at hv
    subst hv
    rwa [List.append_nil]
  · intro h
    exact ⟨w, [], (List.append_nil w).symm, h, .sequence_nil⟩

/-- A property of the empty word that a further part in front keeps holds of every repetition. -/
theorem star_induction {P : List Symbol → Prop} (nil : P [])
    (append : ∀ u v, x.Matches u → P v → P (u ++ v)) (h : (star x).Matches w) : P w := by
  generalize hy : star x = y at h
  induction h with
  | star_nil => exact nil
  | star_append h₁ _ _ ih =>
    cases hy
    exact append _ _ h₁ (ih rfl)
  | _ => cases hy

end Expr

/-! ## Words of joined fragments -/

namespace Fragment

variable {f g : Fragment} {n k m : State} {v w : List Symbol}

/-- Some path from entry to exit spells `w`. -/
def Spells (f : Fragment) (w : List Symbol) : Prop := Path f.transitions f.initial w f.final

theorem Proper.eq_nil_of_final (hf : f.Proper n m) {s : State}
    (p : Path f.transitions f.final w s) : w = [] := by
  cases p with
  | nil => rfl
  | silent h _ => exact absurd rfl (hf.source _ h).2.2
  | symbol h _ => exact absurd rfl (hf.source _ h).2.2

theorem spells_literal (c : Symbol) (n : State) :
    ((bareFrom n).connect (.symbol c) n (n + 1)).Spells w ↔ w = [c] := by
  have hf := proper_literal (.symbol c) n
  constructor
  · intro p
    generalize hs : ((bareFrom n).connect (.symbol c) n (n + 1)).final = q at p
    cases p with
    | silent h p => simp [connect, bareFrom] at h
    | symbol h p =>
      subst hs
      simp only [connect, bareFrom, List.nil_append, List.mem_singleton, Transition.mk.injEq,
        Label.symbol.injEq] at h
      obtain ⟨-, rfl, rfl⟩ := h
      rw [hf.eq_nil_of_final p]
  · rintro rfl
    exact .of_symbol (mem_transitions_connect.mpr (Or.inr rfl))

theorem not_spells_bareFrom (n : State) : ¬ (bareFrom n).Spells w := by
  intro p
  generalize hs : (bareFrom n).final = q at p
  cases p with
  | silent h _ => exact absurd h List.not_mem_nil
  | symbol h _ => exact absurd h List.not_mem_nil

/-! ### Alternation -/

/-- Ahead of a state of `f` in `f.branch g` lies what `f` spells from there, or all of `g` if the state is
the entry. -/
def AheadInBranch (f g : Fragment) (n k s : State) (w : List Symbol) : Prop :=
  (s < k → Path f.transitions s w f.final ∨ s = n ∧ g.Spells w) ∧
    (k ≤ s → Path g.transitions s w g.final)

theorem AheadInBranch.edge (hf : f.Proper n k) (hg : g.Proper k m) {s t : State} {l : Label}
    (h : ⟨s, l, t⟩ ∈ (f.branch g).transitions) (ih : AheadInBranch f g n k t w) :
    AheadInBranch f g n k s (l.word ++ w) := by
  have hb := hf.bounds
  have hb' := hg.bounds
  rcases mem_transitions_branch.mp h with h | h | h | h
  · have hs := hf.source _ h
    have ht := hf.target _ h
    simp only at hs ht
    refine ⟨fun _ => ?_, fun hks => by lia⟩
    rcases ih.1 ht.2 with p | ⟨e, -⟩
    · exact Or.inl (.edge h p)
    · lia
  · cases h
    exact ⟨fun _ => Or.inr ⟨hf.initial, ih.2 (by lia)⟩, fun hks => by lia⟩
  · cases h
    refine ⟨fun hks => by lia, fun _ => ?_⟩
    rcases ih.1 hf.final_lt with p | ⟨e, -⟩
    · rw [hf.eq_nil_of_final p]
      exact .nil _
    · lia
  · have hs := hg.source _ h
    have ht := hg.target _ h
    simp only at hs ht
    exact ⟨fun hks => by lia, fun _ => .edge h (ih.2 (by lia))⟩

theorem spells_branch (hf : f.Proper n k) (hg : g.Proper k m) :
    (f.branch g).Spells w ↔ f.Spells w ∨ g.Spells w := by
  have hb := hf.bounds
  have hb' := hg.bounds
  constructor
  · intro p
    have hfinal : AheadInBranch f g n k f.final [] := ⟨fun _ => Or.inl (.nil _), fun hks => by lia⟩
    have h : AheadInBranch f g n k f.initial w :=
      Path.carries (fun _ _ _ _ => AheadInBranch.edge hf hg) p hfinal
    exact (h.1 (by lia)).imp_right And.right
  · rintro (p | p)
    · exact p.of_subset fun t ht => mem_transitions_branch.mpr (Or.inl ht)
    · have enter : ⟨f.initial, .silent, g.initial⟩ ∈ (f.branch g).transitions :=
        mem_transitions_branch.mpr (Or.inr (Or.inl rfl))
      have leave : ⟨g.final, .silent, f.final⟩ ∈ (f.branch g).transitions :=
        mem_transitions_branch.mpr (Or.inr (Or.inr (Or.inl rfl)))
      have inside : Path (f.branch g).transitions g.initial w g.final :=
        p.of_subset fun t ht => mem_transitions_branch.mpr (Or.inr (Or.inr (Or.inr ht)))
      have h := inside.append (.of_silent leave)
      rw [List.append_nil] at h
      exact .silent enter h

/-! ### Sequence -/

/-- Ahead of a state of `f` in `f.append g` lies what `f` spells from there, and then all of `g`. -/
def AheadInAppend (f g : Fragment) (k s : State) (w : List Symbol) : Prop :=
  (s < k → ∃ u v, w = u ++ v ∧ Path f.transitions s u f.final ∧ g.Spells v) ∧
    (k ≤ s → Path g.transitions s w g.final)

theorem AheadInAppend.edge (hf : f.Proper n k) (hg : g.Proper k m) {s t : State} {l : Label}
    (h : ⟨s, l, t⟩ ∈ (f.append g).transitions) (ih : AheadInAppend f g k t w) :
    AheadInAppend f g k s (l.word ++ w) := by
  have hb := hf.bounds
  have hb' := hg.bounds
  rcases mem_transitions_append.mp h with h | h | h
  · have hs := hf.source _ h
    have ht := hf.target _ h
    simp only at hs ht
    refine ⟨fun _ => ?_, fun hks => by lia⟩
    obtain ⟨u, v, rfl, p, q⟩ := ih.1 ht.2
    exact ⟨l.word ++ u, v, (List.append_assoc _ _ _).symm, .edge h p, q⟩
  · cases h
    exact ⟨fun _ => ⟨[], w, rfl, .nil _, ih.2 (by lia)⟩, fun hks => by lia⟩
  · have hs := hg.source _ h
    have ht := hg.target _ h
    simp only at hs ht
    exact ⟨fun hks => by lia, fun _ => .edge h (ih.2 (by lia))⟩

theorem spells_append (hf : f.Proper n k) (hg : g.Proper k m) :
    (f.append g).Spells w ↔ ∃ u v, w = u ++ v ∧ f.Spells u ∧ g.Spells v := by
  have hb := hf.bounds
  have hb' := hg.bounds
  constructor
  · intro p
    have hfinal : AheadInAppend f g k g.final [] := ⟨fun hks => by lia, fun _ => .nil _⟩
    have h : AheadInAppend f g k f.initial w :=
      Path.carries (fun _ _ _ _ => AheadInAppend.edge hf hg) p hfinal
    exact h.1 (by lia)
  · rintro ⟨u, v, rfl, p, q⟩
    have pass : ⟨f.final, .silent, g.initial⟩ ∈ (f.append g).transitions :=
      mem_transitions_append.mpr (Or.inr (Or.inl rfl))
    have before : Path (f.append g).transitions f.initial u f.final :=
      p.of_subset fun t ht => mem_transitions_append.mpr (Or.inl ht)
    have after : Path (f.append g).transitions g.initial v g.final :=
      q.of_subset fun t ht => mem_transitions_append.mpr (Or.inr (Or.inr ht))
    exact before.append (.silent pass after)

/-! ### Repetition -/

section
variable {x : Expr}

/-- Ahead of a state of `g` in a loop of rounds of `x` lies the rest of one round, and then any number of
further rounds. -/
def AheadInLoop (x : Expr) (g : Fragment) (n s : State) (w : List Symbol) : Prop :=
  (s = n → (Expr.star x).Matches w) ∧ (s = n + 1 → w = []) ∧
    (n + 2 ≤ s → ∃ u v, w = u ++ v ∧ Path g.transitions s u g.final ∧ (Expr.star x).Matches v)

theorem AheadInLoop.round (hg : g.Proper (n + 2) m) (hx : ∀ w, g.Spells w ↔ x.Matches w)
    (h : AheadInLoop x g n g.initial w) : (Expr.star x).Matches w := by
  have hb := hg.bounds
  obtain ⟨u, v, rfl, p, hv⟩ := h.2.2 (by lia)
  exact .star_append ((hx u).mp p) hv

theorem AheadInLoop.edge (hg : g.Proper (n + 2) m) (hx : ∀ w, g.Spells w ↔ x.Matches w)
    {s t : State} {l : Label} (h : ⟨s, l, t⟩ ∈ ((bareFrom n).loop g).transitions)
    (ih : AheadInLoop x g n t w) : AheadInLoop x g n s (l.word ++ w) := by
  have hb := hg.bounds
  rcases mem_transitions_loop.mp h with h | h | h | h | h
  · cases h
    exact ⟨fun _ => ih.round hg hx, fun hs => by lia, fun hs => by lia⟩
  · cases h
    exact ⟨fun hs => by lia, fun hs => by lia, fun _ => ⟨[], w, rfl, .nil _, ih.round hg hx⟩⟩
  · cases h
    refine ⟨fun hs => by lia, fun hs => by lia, fun _ => ?_⟩
    rw [ih.2.1 rfl]
    exact ⟨[], [], rfl, .nil _, .star_nil⟩
  · cases h
    refine ⟨fun _ => ?_, fun hs => by lia, fun hs => by lia⟩
    rw [ih.2.1 rfl]
    exact .star_nil
  · have hs := hg.source _ h
    have ht := hg.target _ h
    simp only at hs ht
    refine ⟨fun hs => by lia, fun hs => by lia, fun _ => ?_⟩
    obtain ⟨u, v, rfl, p, hv⟩ := ih.2.2 (by lia)
    exact ⟨l.word ++ u, v, (List.append_assoc _ _ _).symm, .edge h p, hv⟩

/-- Every repetition leads to the exit, from the entry as well as from the end of a round. -/
theorem loop_paths (hx : ∀ w, g.Spells w ↔ x.Matches w) (h : (Expr.star x).Matches w) :
    Path ((bareFrom n).loop g).transitions n w (n + 1) ∧
      Path ((bareFrom n).loop g).transitions g.final w (n + 1) := by
  have enter : ⟨n, .silent, g.initial⟩ ∈ ((bareFrom n).loop g).transitions :=
    mem_transitions_loop.mpr (Or.inl rfl)
  have again : ⟨g.final, .silent, g.initial⟩ ∈ ((bareFrom n).loop g).transitions :=
    mem_transitions_loop.mpr (Or.inr (Or.inl rfl))
  have leave : ⟨g.final, .silent, n + 1⟩ ∈ ((bareFrom n).loop g).transitions :=
    mem_transitions_loop.mpr (Or.inr (Or.inr (Or.inl rfl)))
  have skip : ⟨n, .silent, n + 1⟩ ∈ ((bareFrom n).loop g).transitions :=
    mem_transitions_loop.mpr (Or.inr (Or.inr (Or.inr (Or.inl rfl))))
  have inside : ∀ u, x.Matches u → Path ((bareFrom n).loop g).transitions g.initial u g.final :=
    fun u hu => ((hx u).mpr hu).of_subset fun t ht =>
      mem_transitions_loop.mpr (Or.inr (Or.inr (Or.inr (Or.inr ht))))
  have happend : ∀ u v, x.Matches u →
      Path ((bareFrom n).loop g).transitions n v (n + 1) ∧
        Path ((bareFrom n).loop g).transitions g.final v (n + 1) →
      Path ((bareFrom n).loop g).transitions n (u ++ v) (n + 1) ∧
        Path ((bareFrom n).loop g).transitions g.final (u ++ v) (n + 1) := by
    rintro u v hu ⟨-, hv⟩
    have p := (inside u hu).append hv
    exact ⟨.silent enter p, .silent again p⟩
  exact Expr.star_induction (P := fun w => Path _ n w _ ∧ Path _ g.final w _)
    ⟨.of_silent skip, .of_silent leave⟩ happend h

theorem spells_loop (hg : g.Proper (n + 2) m) (hx : ∀ w, g.Spells w ↔ x.Matches w) :
    ((bareFrom n).loop g).Spells w ↔ (Expr.star x).Matches w := by
  constructor
  · intro p
    have hfinal : AheadInLoop x g n (n + 1) [] :=
      ⟨fun hs => by lia, fun _ => rfl, fun hs => by lia⟩
    have h : AheadInLoop x g n n w :=
      Path.carries (fun _ _ _ _ => AheadInLoop.edge hg hx) p hfinal
    exact h.1 rfl
  · exact fun h => (loop_paths hx h).1

end

/-! ### Every complete expression -/

theorem spells_joins : Expr.Joins fun x n f m =>
    f.Proper n m ∧ ∀ w, f.Spells w ↔ x.Matches w where
  literal c n := ⟨proper_joins.literal c n, fun w => by
    rw [spells_literal, Expr.matches_literal]⟩
  bare n := ⟨proper_bareFrom n, fun w => by
    simp [not_spells_bareFrom, Expr.matches_alternation]⟩
  branch _ hf hg := ⟨hf.1.branch hg.1, fun w => by
    rw [spells_branch hf.1 hg.1, Expr.matches_alternation_concat, hf.2, hg.2]⟩
  single _ hf := ⟨hf.1, fun w => by
    rw [Expr.matches_sequence_singleton, hf.2]⟩
  append _ _ hf hg := ⟨hf.1.append hg.1, fun w => by
    simp only [spells_append hf.1 hg.1, Expr.matches_sequence_append,
      Expr.matches_sequence_singleton, hf.2, hg.2]⟩
  star _ hg := ⟨hg.1.loop, fun w => spells_loop hg.1 hg.2⟩

end Fragment

end Recognizer

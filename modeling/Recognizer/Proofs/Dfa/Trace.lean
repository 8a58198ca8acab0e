import Recognizer.Dfa.Run

/-!
# How runs end

A run reads some beginning of its word, one transition for each symbol, and halts where the word ends
or its next symbol cannot be followed (`Dfa.runFrom_trace`).
-/

namespace Recognizer

set_option autoImplicit false

/-! ## The part that is read -/

/-- Reading `u` from `s` on visits the states `p`, of which `r` is the last. -/
inductive Dfa.Trace (D : Dfa) : State → List Symbol → List State → State → Prop
  | nil (s : State) : Trace D s [] [s] s
  | cons {s t r : State} {c : Symbol} {u : List Symbol} {p : List State} :
    c ∈ D.alphabet → D.next? s c = some t → Trace D t u p r → Trace D s (c :: u) (s :: p) r

namespace Dfa.Trace

variable {D : Dfa} {s r : State} {u : List Symbol} {p : List State}

theorem length_eq (h : D.Trace s u p r) : p.length = u.length + 1 := by
  induction h with
  | nil => rfl
  | cons _ _ _ ih => rw [List.length_cons, List.length_cons, ih]

theorem getLast?_eq (h : D.Trace s u p r) : p.getLast? = some r := by
  induction h with
  | nil => rfl
  | cons _ _ _ ih => rw [List.getLast?_cons, ih, Option.getD_some]

theorem mem_alphabet (h : D.Trace s u p r) : ∀ c ∈ u, c ∈ D.alphabet := by
  induction h with
  | nil => exact fun c hc => absurd hc List.not_mem_nil
  | cons hc _ _ ih =>
    intro d hd
    rcases List.mem_cons.mp hd with rfl | hd
    · exact hc
    · exact ih d hd

/-- A trace does not leave a set of states that no transition leaves. -/
theorem mem_of_closed {T : StateSet} (hT : ∀ q c t, D.next? q c = some t → t ∈ T)
    (h : D.Trace s u p r) (hs : s ∈ T) : ∀ q ∈ p, q ∈ T := by
  induction h with
  | nil => exact fun q hq => List.mem_singleton.mp hq ▸ hs
  | cons _ hn _ ih =>
    intro q hq
    rcases List.mem_cons.mp hq with rfl | hq
    · exact hs
    · exact ih (hT _ _ _ hn) q hq

theorem concat {c : Symbol} {t : State} (h : D.Trace s u p r) (hc : c ∈ D.alphabet)
    (hn : D.next? r c = some t) : D.Trace s (u ++ [c]) (p ++ [t]) t := by
  induction h with
  | nil => exact .cons hc hn (.nil t)
  | cons hd hn' _ ih => exact .cons hd hn' (ih hn)

theorem of_concat {c : Symbol} {t : State} (h : D.Trace s (u ++ [c]) p t) :
    ∃ p' r, D.Trace s u p' r ∧ c ∈ D.alphabet ∧ D.next? r c = some t := by
  induction u generalizing s p with
  | nil =>
    cases h with
    | cons hc hn h =>
      cases h
      exact ⟨[s], s, .nil s, hc, hn⟩
  | cons d u ih =>
    cases h with
    | cons hd hn h =>
      obtain ⟨p', r, h', hc, hn'⟩ := ih h
      exact ⟨s :: p', r, .cons hd hn h', hc, hn'⟩

end Dfa.Trace

/-! ## Words that lead to a state -/

def Dfa.Leads (D : Dfa) (u : List Symbol) (q : State) : Prop := ∃ p, D.Trace D.start u p q

section
variable {D : Dfa} {u : List Symbol} {q : State}

theorem Dfa.leads_nil : D.Leads [] q ↔ q = D.start := by
  constructor
  · rintro ⟨p, h⟩
    cases h
    rfl
  · rintro rfl
    exact ⟨_, .nil D.start⟩

theorem Dfa.leads_concat {c : Symbol} :
    D.Leads (u ++ [c]) q ↔ ∃ r, D.Leads u r ∧ c ∈ D.alphabet ∧ D.next? r c = some q := by
  constructor
  · rintro ⟨p, h⟩
    obtain ⟨p', r, h', hc, hn⟩ := h.of_concat
    exact ⟨r, ⟨p', h'⟩, hc, hn⟩
  · rintro ⟨r, ⟨p, h⟩, hc, hn⟩
    exact ⟨_, h.concat hc hn⟩

theorem Dfa.Leads.mem_alphabet (h : D.Leads u q) : ∀ c ∈ u, c ∈ D.alphabet :=
  h.choose_spec.mem_alphabet

end

/-! ## The place where it halts -/

/-- In state `r`, with `v` still to be read, a run ends with the given rejection. -/
inductive Dfa.Halts (D : Dfa) (r : State) : List Symbol → Option Rejection → Prop
  | accepting : D.isFinal r = true → Halts D r [] none
  | notFinal : D.isFinal r = false → Halts D r [] (some (.notFinal r))
  | foreign {c : Symbol} {v : List Symbol} : c ∉ D.alphabet → Halts D r (c :: v) (some (.foreign c))
  | stuck {c : Symbol} {v : List Symbol} : c ∈ D.alphabet → D.next? r c = none →
    Halts D r (c :: v) (some (.stuck r c))

theorem Dfa.runFrom_trace (D : Dfa) (s : State) (w : List Symbol) :
    ∃ u v r, w = u ++ v ∧ D.Trace s u (D.runFrom s w).path r ∧
      D.Halts r v (D.runFrom s w).rejection := by
  induction w generalizing s with
  | nil =>
    refine ⟨[], [], s, rfl, .nil s, ?_⟩
    rw [runFrom]
    cases hs : D.isFinal s with
    | true => exact .accepting hs
    | false => exact .notFinal hs
  | cons c w ih =>
    rw [runFrom]
    split
    · next hc => exact ⟨[], c :: w, s, rfl, .nil s, .foreign hc⟩
    · next hc =>
      have hc := Decidable.not_not.mp hc
      split
      · next hn => exact ⟨[], c :: w, s, rfl, .nil s, .stuck hc hn⟩
      · next t ht =>
        obtain ⟨u, v, r, rfl, hu, hv⟩ := ih t
        exact ⟨c :: u, v, r, rfl, .cons hc ht hu, hv⟩

/-! ## The states that a run shows -/

/-- The state that a rejection blames. -/
def Rejection.state? : Rejection → Option State
  | foreign _ => none
  | stuck s _ => some s
  | notFinal s => some s

/-- A run blames no state that it has not visited. -/
theorem Dfa.rejection_mem_path (D : Dfa) (s : State) (w : List Symbol) {q : State}
    (h : (D.runFrom s w).rejection.bind Rejection.state? = some q) : q ∈ (D.runFrom s w).path := by
  obtain ⟨u, v, r, -, ht, hh⟩ := D.runFrom_trace s w
  have hr : r ∈ (D.runFrom s w).path := List.mem_of_getLast? ht.getLast?_eq
  generalize (D.runFrom s w).rejection = x at h hh
  cases hh with
  | accepting => cases h
  | notFinal => exact Option.some.inj h ▸ hr
  | foreign => cases h
  | stuck => exact Option.some.inj h ▸ hr

end Recognizer

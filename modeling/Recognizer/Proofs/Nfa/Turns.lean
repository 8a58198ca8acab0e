import Recognizer.Proofs.Fallible
import Recognizer.Proofs.Nfa.Content

/-!
# The turns of an exploration

An exploration takes turns: each takes the number at the front of the queue and, as a rule, visits its
set, which may put new numbers at the end of the queue. A number might also be unknown, and a move might
be refused. The turns make up a course (`exists_course`), which says how the exploration ends
(`Course.eq_explore`); from the start on every turn is a visit, and numbers are taken as they were put
into the queue, `0, 1, 2, …` (`Sound.course`).
-/

namespace Recognizer

set_option autoImplicit false

/-! ## Turns -/

inductive Turn
  /-- The set with the number taken is followed on all symbols, after which `new` stands at the end of the
  queue. -/
  | visited (q : State) (new : List State)
  /-- No set has the number taken. -/
  | unknown (q : State)
  /-- A move from the number taken is refused. -/
  | refused (q : State) (m : Flaw)

namespace Turn

def taken : Turn → State
  | visited q _ => q
  | unknown q => q
  | refused q _ => q

/-- The numbers put into the queue. -/
def queued : Turn → List State
  | visited _ new => new
  | unknown _ => []
  | refused _ _ => []

inductive IsVisit : Turn → Prop
  | visited (q : State) (new : List State) : IsVisit (.visited q new)

end Turn

namespace Exploration

/-- From `e` on the turns `ts` are taken, after which the exploration is over. -/
inductive Course (N : Nfa) (cs : List Symbol) :
    Exploration → List Turn → Except Flaw Exploration → Prop
  | finished {e : Exploration} : e.waiting = [] → Course N cs e [] (.ok e)
  | unknown {e : Exploration} {q : State} {qs : List State} {ts : List Turn}
    {r : Except Flaw Exploration} : e.waiting = q :: qs → e.found[q]? = none →
    Course N cs e.take ts r → Course N cs e (.unknown q :: ts) r
  | refused {e : Exploration} {q : State} {qs : List State} {S : StateSet} {m : Flaw} :
    e.waiting = q :: qs → e.found[q]? = some S → visit N q S e.take cs = .error m →
    Course N cs e [.refused q m] (.error m)
  | visited {e e' : Exploration} {q : State} {qs new : List State} {S : StateSet} {ts : List Turn}
    {r : Except Flaw Exploration} : e.waiting = q :: qs → e.found[q]? = some S →
    visit N q S e.take cs = .ok e' → e'.waiting = qs ++ new → Course N cs e' ts r →
    Course N cs e (.visited q new :: ts) r

/-! ## Every exploration has a course -/

section
variable {N : Nfa} {cs : List Symbol} {e e' : Exploration} {q : State} {S : StateSet}

theorem waiting_follow {c : Symbol} (h : follow N q S e c = .ok e') :
    ∃ new, e'.waiting = e.waiting ++ new := by
  unfold follow at h
  simp only at h
  split at h
  · cases h
    exact ⟨[], (List.append_nil _).symm⟩
  · split at h
    · next t _ =>
      obtain ⟨D, -, rfl⟩ := map_eq_ok.mp h
      exact ⟨[], (List.append_nil _).symm⟩
    · obtain ⟨D, -, rfl⟩ := map_eq_ok.mp h
      exact ⟨_, rfl⟩

/-- A visit takes nothing from the queue. -/
theorem waiting_visit (h : visit N q S e cs = .ok e') : ∃ new, e'.waiting = e.waiting ++ new := by
  induction cs generalizing e with
  | nil =>
    cases h
    exact ⟨[], (List.append_nil _).symm⟩
  | cons c cs ih =>
    rw [visit, List.foldlM_cons] at h
    obtain ⟨e₁, h₁, h⟩ := bind_eq_ok.mp h
    obtain ⟨new₁, hw₁⟩ := waiting_follow h₁
    obtain ⟨new, hw⟩ := ih h
    exact ⟨new₁ ++ new, by rw [hw, hw₁, List.append_assoc]⟩

theorem exists_course (N : Nfa) (cs : List Symbol) (e : Exploration) :
    ∃ ts, Course N cs e ts (explore N cs e) := by
  fun_induction explore N cs e with
  | case1 e hw => exact ⟨[], .finished hw⟩
  | case2 e q qs hw hn ih =>
    obtain ⟨ts, h⟩ := ih
    exact ⟨_, .unknown hw hn h⟩
  | case3 e q qs hw S hS m hv => exact ⟨_, .refused hw hS hv⟩
  | case4 e q qs hw S hS e' hv ih =>
    obtain ⟨ts, h⟩ := ih
    obtain ⟨new, hnew⟩ := waiting_visit hv
    have htail : e.take.waiting = qs := congrArg List.tail hw
    exact ⟨_, .visited hw hS hv (htail ▸ hnew) h⟩

theorem Course.eq_explore {ts : List Turn} {r : Except Flaw Exploration} (h : Course N cs e ts r) :
    explore N cs e = r := by
  induction h with
  | finished hw => exact explore_nil hw
  | unknown hw hn _ ih => rw [explore_unknown hw hn, ih]
  | refused hw hS hv =>
    rw [explore_cons hw hS, hv]
    rfl
  | visited hw hS hv _ _ ih =>
    rw [explore_cons hw hS, hv]
    exact ih

end

/-! ## The course of a sound exploration -/

variable {N : Nfa} {A : Alphabet} {v : Nat} {e : Exploration}

/-- All turns are visits. Numbers are put into the queue one after the other and taken from it in the
same order. -/
theorem Sound.course (h : Sound N A v (rows A v) e) {ts : List Turn} {r : Except Flaw Exploration}
    (hc : Course N A.toList e ts r) :
    ∃ e', r = .ok e' ∧ v ≤ e'.found.length ∧ (∀ t ∈ ts, t.IsVisit) ∧
      ts.map Turn.taken = List.range' v (e'.found.length - v) ∧
      e.waiting ++ ts.flatMap Turn.queued = List.range' v (e'.found.length - v) := by
  induction hc generalizing v with
  | @finished e hw =>
    obtain rfl := h.length_found hw
    refine ⟨e, rfl, Nat.le_refl _, fun t ht => absurd ht List.not_mem_nil, ?_, ?_⟩
    · rw [Nat.sub_self]
      rfl
    · rw [Nat.sub_self, hw]
      rfl
  | @unknown e q qs ts r hw hn _ _ =>
    obtain ⟨S, hS⟩ := h.exists_found hw
    cases hS.symm.trans hn
  | @refused e q qs S m hw hS hv =>
    obtain ⟨e', he', -⟩ := h.visit_next hw hS
    cases he'.symm.trans hv
  | @visited e e₁ q qs new S ts r hw hS hv hnew _ ih =>
    have h' := h.of_visit hw hS hv
    obtain ⟨rfl, -, -⟩ := h.take hw
    obtain ⟨e', hr, hle, hvisits, htaken, hqueued⟩ := ih h'
    have hlen : e'.found.length - q = e'.found.length - (q + 1) + 1 := by omega
    refine ⟨e', hr, Nat.le_of_succ_le hle, ?_, ?_, ?_⟩
    · intro t ht
      rcases List.mem_cons.mp ht with rfl | ht
      · exact .visited q new
      · exact hvisits t ht
    · rw [hlen, List.range'_succ, List.map_cons, htaken]
      rfl
    · rw [hlen, List.range'_succ, ← hqueued, hnew, hw, List.flatMap_cons, List.append_assoc]
      rfl

end Exploration

end Recognizer

import Mathlib.Data.List.Forall2

/-!
# Computations that may fail
-/

namespace Recognizer

set_option autoImplicit false

variable {ε α β σ : Type}

@[simp] theorem ok_bind (a : α) (f : α → Except ε β) : Except.ok a >>= f = f a := rfl

@[simp] theorem error_bind (e : ε) (f : α → Except ε β) : Except.error e >>= f = .error e := rfl

theorem bind_eq_ok {x : Except ε α} {f : α → Except ε β} {b : β} :
    x >>= f = .ok b ↔ ∃ a, x = .ok a ∧ f a = .ok b := by
  cases x with
  | error e =>
    constructor
    · intro h
      cases h
    · rintro ⟨a, h, -⟩
      cases h
  | ok a =>
    constructor
    · intro h
      exact ⟨a, rfl, h⟩
    · rintro ⟨a, h, hb⟩
      cases h
      exact hb

theorem bind_eq_error {x : Except ε α} {f : α → Except ε β} {e : ε} :
    x >>= f = .error e ↔ x = .error e ∨ ∃ a, x = .ok a ∧ f a = .error e := by
  cases x with
  | error d =>
    constructor
    · intro h
      cases h
      exact Or.inl rfl
    · rintro (h | ⟨a, h, -⟩)
      · cases h
        rfl
      · cases h
  | ok a =>
    constructor
    · intro h
      exact Or.inr ⟨a, rfl, h⟩
    · rintro (h | ⟨a, h, he⟩)
      · cases h
      · cases h
        exact he

theorem map_eq_ok {x : Except ε α} {f : α → β} {b : β} :
    x.map f = .ok b ↔ ∃ a, x = .ok a ∧ f a = b := by
  cases x <;> simp [Except.map]

/-- The fault that keeps a computation from its result. -/
def fault? : Except ε α → Option ε
  | .ok _ => none
  | .error e => some e

theorem fault?_eq_some {x : Except ε α} {e : ε} : fault? x = some e ↔ x = .error e := by
  cases x <;> simp [fault?]

theorem fault?_eq_none {x : Except ε α} : fault? x = none ↔ ∃ a, x = .ok a := by
  cases x <;> simp [fault?]

theorem fault?_map (x : Except ε α) (f : α → β) : fault? (x.map f) = fault? x := by
  cases x <;> rfl

/-- What follows may fail only where what comes first does not. -/
theorem fault?_bind {x : Except ε α} {f : α → Except ε β} {e : Option ε}
    (h : ∀ a, x = .ok a → fault? (f a) = e) : fault? (x >>= f) = (fault? x).or e := by
  cases x with
  | error d => rfl
  | ok a => exact h a rfl

theorem mapError_eq_ok {δ : Type} {x : Except ε α} {g : ε → δ} {a : α} :
    x.mapError g = .ok a ↔ x = .ok a := by
  cases x <;> simp [Except.mapError]

theorem mapError_eq_error {δ : Type} {x : Except ε α} {g : ε → δ} {d : δ} :
    x.mapError g = .error d ↔ ∃ e, x = .error e ∧ g e = d := by
  cases x <;> simp [Except.mapError]

theorem mapError_map {δ : Type} (x : Except ε α) (f : α → β) (g : ε → δ) :
    (x.map f).mapError g = (x.mapError g).map f := by
  cases x <;> rfl

/-- Computations that are the same up to how their faults are told. -/
theorem mapError_bind_congr {δ : Type} {x y : Except ε α} {f f' : α → Except ε β} {g : ε → δ}
    (h : x.mapError g = y.mapError g) (hf : ∀ a, (f a).mapError g = (f' a).mapError g) :
    (x >>= f).mapError g = (y >>= f').mapError g := by
  cases x with
  | error d =>
    cases y with
    | error e => exact congrArg Except.error (Except.error.inj h)
    | ok b => cases h
  | ok a =>
    cases y with
    | error e => cases h
    | ok b =>
      cases h
      exact hf a

/-! ## Lists of computations -/

theorem mapM_eq_ok {f : α → Except ε β} {as : List α} {bs : List β} :
    as.mapM f = .ok bs ↔ List.Forall₂ (fun a b => f a = .ok b) as bs := by
  induction as generalizing bs with
  | nil =>
    rw [List.mapM_nil, List.forall₂_nil_left_iff]
    exact ⟨fun h => by cases h; rfl, fun h => h ▸ rfl⟩
  | cons a as ih =>
    rw [List.mapM_cons, List.forall₂_cons_left_iff]
    constructor
    · intro h
      obtain ⟨b, hb, h⟩ := bind_eq_ok.mp h
      obtain ⟨bs', hbs, h⟩ := bind_eq_ok.mp h
      cases h
      exact ⟨b, bs', hb, ih.mp hbs, rfl⟩
    · rintro ⟨b, bs', hb, hbs, rfl⟩
      rw [hb, ok_bind, ih.mpr hbs]
      rfl

/-- The first of the computations that fails is the one that is reported. -/
theorem fault?_mapM (f : α → Except ε β) (as : List α) :
    fault? (as.mapM f) = as.findSome? fun a => fault? (f a) := by
  induction as with
  | nil => rfl
  | cons a as ih =>
    rw [List.mapM_cons, List.findSome?_cons]
    cases f a with
    | error e => rfl
    | ok b =>
      rw [ok_bind, ← ih]
      cases as.mapM f <;> rfl

/-- The same, where what a step fails with does not depend on the steps before it. -/
theorem fault?_foldlM {f : σ → α → Except ε σ} {g : α → Option ε} {as : List α}
    (h : ∀ a ∈ as, ∀ s, fault? (f s a) = g a) (s : σ) :
    fault? (as.foldlM f s) = as.findSome? g := by
  induction as generalizing s with
  | nil => rfl
  | cons a as ih =>
    rw [List.foldlM_cons, List.findSome?_cons, ← h a List.mem_cons_self s]
    cases f s a with
    | error e => rfl
    | ok s' => exact ih (fun b hb => h b (List.mem_cons_of_mem _ hb)) s'

/-- A sequence of steps that all succeed, where it is known what each of them then makes. -/
theorem foldlM_eq_foldl {f : σ → α → Except ε σ} {g : σ → α → σ} {as : List α} {s s' : σ}
    (h : ∀ a s s', f s a = .ok s' → s' = g s a) (hf : as.foldlM f s = .ok s') :
    s' = as.foldl g s := by
  induction as generalizing s with
  | nil =>
    cases hf
    rfl
  | cons a as ih =>
    rw [List.foldlM_cons] at hf
    obtain ⟨s₁, h₁, hf⟩ := bind_eq_ok.mp hf
    rw [List.foldl_cons, ← h a s s₁ h₁]
    exact ih hf

/-- Where no step fails, neither does their sequence. -/
theorem foldlM_eq_ok {f : σ → α → Except ε σ} {g : σ → α → σ} {as : List α}
    (h : ∀ a ∈ as, ∀ s, f s a = .ok (g s a)) (s : σ) : as.foldlM f s = .ok (as.foldl g s) := by
  induction as generalizing s with
  | nil => rfl
  | cons a as ih =>
    rw [List.foldlM_cons, h a List.mem_cons_self s]
    exact ih (fun b hb => h b (List.mem_cons_of_mem _ hb)) (g s a)

/-- What no step breaks, their sequence does not break. -/
theorem foldlM_preserves {f : σ → α → Except ε σ} {P : σ → Prop} {as : List α} {s s' : σ}
    (h : ∀ a s s', P s → f s a = .ok s' → P s') (hs : P s) (hf : as.foldlM f s = .ok s') : P s' := by
  induction as generalizing s with
  | nil =>
    cases hf
    exact hs
  | cons a as ih =>
    rw [List.foldlM_cons] at hf
    obtain ⟨s₁, h₁, hf⟩ := bind_eq_ok.mp hf
    exact ih (h a s s₁ hs h₁) hf

theorem foldlM_congr {f g : σ → α → Except ε σ} {as : List α} (h : ∀ a ∈ as, ∀ s, f s a = g s a)
    (s : σ) : as.foldlM f s = as.foldlM g s := by
  induction as generalizing s with
  | nil => rfl
  | cons a as ih =>
    rw [List.foldlM_cons, List.foldlM_cons, h a List.mem_cons_self s]
    exact congrArg (g s a >>= ·) (funext fun t => ih (fun b hb => h b (List.mem_cons_of_mem _ hb)) t)

theorem foldlM_flatMap {f : σ → β → Except ε σ} {g : α → List β} {as : List α} (s : σ) :
    (as.flatMap g).foldlM f s = as.foldlM (fun s a => (g a).foldlM f s) s := by
  induction as generalizing s with
  | nil => rfl
  | cons a as ih =>
    rw [List.flatMap_cons, List.foldlM_append, List.foldlM_cons]
    exact congrArg (_ >>= ·) (funext ih)

/-! ## Lists of results that may be missing -/

def results (xs : List (Except ε α)) : List α := xs.filterMap Except.toOption

theorem mem_results {xs : List (Except ε α)} {a : α} : a ∈ results xs ↔ .ok a ∈ xs := by
  have h : ∀ x : Except ε α, x.toOption = some a ↔ x = .ok a := fun x => by
    cases x <;> simp [Except.toOption]
  simp [results, h]

theorem foldlM_bind_eq_ok {f : σ → α → Except ε σ} {xs : List (Except ε α)} {s s' : σ} :
    xs.foldlM (fun s x => x >>= f s) s = .ok s' ↔
      (∀ x ∈ xs, ∃ a, x = .ok a) ∧ (results xs).foldlM f s = .ok s' := by
  induction xs generalizing s with
  | nil => simp [results]
  | cons x xs ih =>
    cases x with
    | error e =>
      have hno : ¬ ∃ a, (.error e : Except ε α) = .ok a := fun ⟨_, h⟩ => nomatch h
      rw [List.foldlM_cons, error_bind, error_bind, List.forall_mem_cons]
      exact iff_of_false (fun h => nomatch h) fun h => hno h.1.1
    | ok a =>
      have hresults : results (.ok a :: xs : List (Except ε α)) = a :: results xs := rfl
      rw [List.foldlM_cons, hresults, List.foldlM_cons, ok_bind, List.forall_mem_cons,
        and_iff_right (show ∃ b, Except.ok a = Except.ok b from ⟨a, rfl⟩)]
      cases f s a with
      | error e => exact iff_of_false (fun h => nomatch h) fun h => nomatch h.2
      | ok s₁ => exact ih

theorem foldlM_map_eq_ok {g : σ → α → σ} {xs : List (Except ε α)} {s s' : σ} :
    xs.foldlM (fun s x => x.map (g s)) s = .ok s' ↔
      (∀ x ∈ xs, ∃ a, x = .ok a) ∧ s' = (results xs).foldl g s := by
  have hmap : ∀ x ∈ xs, ∀ s, x.map (g s) = x >>= fun a => .ok (g s a) := fun x _ s => by
    cases x <;> rfl
  rw [foldlM_congr hmap, foldlM_bind_eq_ok (f := fun s a => .ok (g s a)),
    foldlM_eq_ok fun _ _ _ => rfl, Except.ok.injEq, eq_comm]

/-- A sequence of steps fails in one of them, and what the steps before it did not break still holds. -/
theorem exists_of_foldlM_eq_error {f : σ → α → Except ε σ} {P : σ → Prop} {as : List α} {s : σ} {e : ε}
    (h : ∀ a ∈ as, ∀ s s', P s → f s a = .ok s' → P s') (hs : P s)
    (hf : as.foldlM f s = .error e) : ∃ a ∈ as, ∃ s, P s ∧ f s a = .error e := by
  induction as generalizing s with
  | nil => cases hf
  | cons a as ih =>
    rw [List.foldlM_cons] at hf
    rcases bind_eq_error.mp hf with ha | ⟨s₁, h₁, hf⟩
    · exact ⟨a, List.mem_cons_self, s, hs, ha⟩
    · obtain ⟨b, hb, t, ht, he⟩ := ih (fun b hb => h b (List.mem_cons_of_mem _ hb))
        (h a List.mem_cons_self s s₁ hs h₁) hf
      exact ⟨b, List.mem_cons_of_mem _ hb, t, ht, he⟩

theorem error_mem_of_foldlM_map {g : σ → α → σ} {xs : List (Except ε α)} {s : σ} {e : ε}
    (h : xs.foldlM (fun s x => x.map (g s)) s = .error e) : .error e ∈ xs := by
  obtain ⟨x, hx, s, -, he⟩ :=
    exists_of_foldlM_eq_error (P := fun _ => True) (fun _ _ _ _ _ _ => trivial) trivial h
  cases x with
  | error d =>
    cases he
    exact hx
  | ok a => cases he

end Recognizer

import Recognizer.SortedSet

/-!
# All subsets of a set

A set has finitely many subsets, so a search that finds a new one at every step comes to an end: the
subsets that are left get fewer (`countP_lt_countP`).
-/

namespace Recognizer.SortedSet

set_option autoImplicit false

variable {α : Type}

/-- All lists that keep some members of a list in their order. -/
def sublists : List α → List (List α)
  | [] => [[]]
  | x :: xs => sublists xs ++ (sublists xs).map (x :: ·)

theorem mem_sublists [Ranked α] {us ts : List α} (hu : Ascending us) (ht : Ascending ts)
    (h : ∀ t ∈ ts, t ∈ us) : ts ∈ sublists us := by
  induction us generalizing ts with
  | nil =>
    cases ts with
    | nil => exact List.mem_singleton.mpr rfl
    | cons t ts => exact absurd (h t List.mem_cons_self) List.not_mem_nil
  | cons u us ih =>
    obtain ⟨hu1, hu2⟩ := List.pairwise_cons.mp hu
    rw [sublists, List.mem_append]
    cases ts with
    | nil => exact Or.inl (ih hu2 List.Pairwise.nil fun t ht => absurd ht List.not_mem_nil)
    | cons t ts =>
      obtain ⟨ht1, ht2⟩ := List.pairwise_cons.mp ht
      rcases List.mem_cons.mp (h t List.mem_cons_self) with rfl | hm
      · refine Or.inr (List.mem_map.mpr ⟨ts, ih hu2 ht2 fun s hs => ?_, rfl⟩)
        rcases List.mem_cons.mp (h s (List.mem_cons_of_mem _ hs)) with rfl | m
        · exact absurd (ht1 _ hs) (Nat.lt_irrefl _)
        · exact m
      · have hlt : ∀ s ∈ t :: ts, Ranked.rank u < Ranked.rank s := fun s hs => by
          rcases List.mem_cons.mp hs with rfl | hs
          · exact hu1 _ hm
          · exact Nat.lt_trans (hu1 t hm) (ht1 s hs)
        refine Or.inl (ih hu2 ht fun s hs => ?_)
        rcases List.mem_cons.mp (h s hs) with rfl | m
        · exact absurd (hlt _ hs) (Nat.lt_irrefl _)
        · exact m

def subsets [Ranked α] (s : SortedSet α) : List (List α) := sublists s.toList

theorem mem_subsets [Ranked α] {s t : SortedSet α} (h : ∀ x ∈ t, x ∈ s) : t.toList ∈ s.subsets :=
  mem_sublists s.ascending t.ascending h

theorem countP_lt_countP {p q : α → Bool} {xs : List α} (h : ∀ x, q x = true → p x = true) {a : α}
    (ha : a ∈ xs) (hp : p a = true) (hq : q a = false) : xs.countP q < xs.countP p := by
  induction xs with
  | nil => exact absurd ha List.not_mem_nil
  | cons x xs ih =>
    have hle : xs.countP q ≤ xs.countP p := List.countP_mono_left fun y _ => h y
    rw [List.countP_cons, List.countP_cons]
    rcases List.mem_cons.mp ha with rfl | ha
    · simp only [hp, hq, if_true, Bool.false_eq_true, if_false]
      omega
    · have hlt := ih ha
      have hx : (if q x = true then 1 else 0) ≤ if p x = true then 1 else 0 := by
        by_cases e : q x = true
        · simp [e, h x e]
        · simp [e]
      omega

end Recognizer.SortedSet

import Mathlib.Data.List.Induction
import Mathlib.Data.List.Nodup

/-!
# Lists grouped by a key

Elements with the same key are brought together. The groups stand in the order in which their keys first
occur, and inside a group the order is kept.
-/

namespace Recognizer

set_option autoImplicit false

variable {α β κ : Type} [DecidableEq κ]

/-! ## Keys in the order of their first occurrence -/

def distinct (ks : List κ) : List κ := ks.eraseDups

theorem mem_distinct {ks : List κ} {k : κ} : k ∈ distinct ks ↔ k ∈ ks := List.mem_eraseDups

theorem distinct_concat (ks : List κ) (k : κ) :
    distinct (ks ++ [k]) = if k ∈ ks then distinct ks else distinct ks ++ [k] := by
  unfold distinct
  rw [List.eraseDups_append]
  by_cases hk : k ∈ ks <;> simp [List.removeAll, hk, List.eraseDups_cons]

theorem nodup_distinct (ks : List κ) : (distinct ks).Nodup := by
  induction ks using List.reverseRecOn with
  | nil => exact List.nodup_nil
  | append_singleton ks k ih =>
    rw [distinct_concat]
    split
    · exact ih
    · next hk =>
      rw [← List.concat_eq_append]
      exact ih.concat (fun h => hk (mem_distinct.mp h))

theorem find?_distinct (p : κ → Bool) (ks : List κ) : (distinct ks).find? p = ks.find? p := by
  induction ks using List.reverseRecOn with
  | nil => rfl
  | append_singleton ks k ih =>
    rw [distinct_concat, List.find?_append]
    split
    · next hk =>
      cases hp : ks.find? p with
      | some j => rw [ih, hp, Option.some_or]
      | none =>
        have hpk : ¬ p k := List.find?_eq_none.mp hp k hk
        rw [ih, hp, Option.none_or, List.find?_cons_of_neg hpk, List.find?_nil]
    · rw [List.find?_append, ih]

theorem distinct_map [DecidableEq β] {f : κ → β} {ks : List κ}
    (hf : ∀ k ∈ ks, ∀ j ∈ ks, f k = f j → k = j) : distinct (ks.map f) = (distinct ks).map f := by
  induction ks using List.reverseRecOn with
  | nil => rfl
  | append_singleton ks k ih =>
    have hk : f k ∈ ks.map f ↔ k ∈ ks := by
      constructor
      · intro h
        obtain ⟨j, hj, e⟩ := List.mem_map.mp h
        have hjk := hf j (List.mem_append_left _ hj) k (by simp) e
        exact hjk ▸ hj
      · exact List.mem_map_of_mem
    have ih := ih fun a ha b hb => hf a (List.mem_append_left _ ha) b (List.mem_append_left _ hb)
    rw [List.map_append, List.map_singleton, distinct_concat, distinct_concat, ih]
    simp only [hk]
    split
    · rfl
    · rw [List.map_append, List.map_singleton]

theorem distinct_replicate {n : Nat} (h : n ≠ 0) (k : κ) : distinct (List.replicate n k) = [k] := by
  obtain ⟨n, rfl⟩ := Nat.exists_eq_succ_of_ne_zero h
  rw [distinct, List.replicate_succ, List.eraseDups_cons]
  simp

/-- Where each key comes in one run, the runs give the keys. -/
theorem distinct_flatMap_replicate {as : List α} {key : α → κ} {size : α → Nat}
    (h : (as.map key).Nodup) (hs : ∀ a ∈ as, size a ≠ 0) :
    distinct (as.flatMap fun a => List.replicate (size a) (key a)) = as.map key := by
  induction as with
  | nil => rfl
  | cons a as ih =>
    obtain ⟨ha, h⟩ := List.nodup_cons.mp h
    have ih := ih h fun b hb => hs b (List.mem_cons_of_mem _ hb)
    have hrest : (as.flatMap fun b => List.replicate (size b) (key b)).removeAll
        (List.replicate (size a) (key a)) = as.flatMap fun b => List.replicate (size b) (key b) := by
      refine List.filter_eq_self.mpr fun k hk => ?_
      obtain ⟨b, hb, hkb⟩ := List.mem_flatMap.mp hk
      have hab : key b ≠ key a := fun e => ha (List.mem_map.mpr ⟨b, hb, e⟩)
      rw [List.eq_of_mem_replicate hkb]
      simp [hab]
    have ha := distinct_replicate (hs a List.mem_cons_self) (key a)
    unfold distinct at ih ha ⊢
    rw [List.flatMap_cons, List.eraseDups_append, ha, hrest, ih]
    rfl

/-! ## Groups -/

def groupedBy (key : α → κ) (xs : List α) : List α :=
  (distinct (xs.map key)).flatMap fun k => xs.filter (key · = k)

variable {key : α → κ} {xs : List α}

theorem mem_groupedBy {x : α} : x ∈ groupedBy key xs ↔ x ∈ xs := by
  simp only [groupedBy, List.mem_flatMap, mem_distinct, List.mem_filter, decide_eq_true_eq]
  constructor
  · rintro ⟨k, -, hx, -⟩
    exact hx
  · intro hx
    exact ⟨key x, List.mem_map_of_mem hx, hx, rfl⟩

theorem groupedBy_perm (h : xs.Nodup) : (groupedBy key xs).Perm xs := by
  rw [List.perm_ext_iff_of_nodup ?_ h]
  · exact fun x => mem_groupedBy
  · rw [groupedBy, List.nodup_flatMap]
    refine ⟨fun k _ => h.filter _, (nodup_distinct _).imp fun {k j} hkj x hk hj => hkj ?_⟩
    simp only [List.mem_filter, decide_eq_true_eq] at hk hj
    exact hk.2.symm.trans hj.2

end Recognizer

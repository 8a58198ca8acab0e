import Mathlib.Data.Finset.Sort
import Recognizer.SortedSet

/-!
# Sets in ascending order as finite sets

What is done with sets in ascending order is what is done with finite sets, and a set of numbers is
listed as a finite set is when it is sorted (`sort_toFinset`).
-/

namespace Recognizer.SortedSet

set_option autoImplicit false

section
variable {α : Type} [Ranked α] {s : SortedSet α}

def toFinset (s : SortedSet α) : Finset α := ⟨s.toList, s.nodup_toList⟩

@[simp] theorem mem_toFinset {x : α} : x ∈ s.toFinset ↔ x ∈ s := Iff.rfl

theorem toFinset_injective : Function.Injective (toFinset : SortedSet α → Finset α) := fun s t h =>
  ext_mem fun x => by rw [← mem_toFinset, h, mem_toFinset]

@[simp] theorem toFinset_empty : (∅ : SortedSet α).toFinset = ∅ := rfl

theorem card_toFinset (s : SortedSet α) : s.toFinset.card = s.size := rfl

@[simp] theorem toFinset_singleton (x : α) : (singleton x).toFinset = {x} := by
  ext z
  simp

variable [DecidableEq α]

@[simp] theorem toFinset_ofList (xs : List α) : (ofList xs).toFinset = xs.toFinset := by
  ext z
  simp

@[simp] theorem toFinset_insert (s : SortedSet α) (x : α) :
    (s.insert x).toFinset = Insert.insert x s.toFinset := by
  ext z
  simp

@[simp] theorem toFinset_insertAll (s : SortedSet α) (xs : List α) :
    (s.insertAll xs).toFinset = s.toFinset ∪ xs.toFinset := by
  ext z
  simp [mem_insertAll, or_comm]

@[simp] theorem toFinset_union (s t : SortedSet α) :
    (s.union t).toFinset = s.toFinset ∪ t.toFinset := by
  ext z
  simp [or_comm]

theorem contains_eq_decide (s : SortedSet α) (x : α) : s.contains x = decide (x ∈ s.toFinset) := rfl

theorem isEmpty_eq_decide (s : SortedSet α) : s.isEmpty = decide (s.toFinset = ∅) := by
  rw [Bool.eq_iff_iff, isEmpty_eq_true, decide_eq_true_eq, ← toFinset_empty,
    toFinset_injective.eq_iff]

theorem meets_eq_decide (s t : SortedSet α) :
    s.meets t = decide (s.toFinset ∩ t.toFinset).Nonempty := by
  rw [Bool.eq_iff_iff, meets_eq_true, decide_eq_true_eq]
  simp only [Finset.Nonempty, Finset.mem_inter, mem_toFinset]

theorem isSubset_eq_decide (s t : SortedSet α) : s.isSubset t = decide (s.toFinset ⊆ t.toFinset) := by
  rw [Bool.eq_iff_iff, isSubset_eq_true, decide_eq_true_eq]
  exact Iff.rfl

end

theorem sort_toFinset (s : SortedSet Nat) : s.toFinset.sort = s.toList := by
  refine ascending_unique (Finset.sortedLT_sort s.toFinset).pairwise s.ascending fun x => ?_
  rw [Finset.mem_sort, mem_toFinset, mem_toList]

end Recognizer.SortedSet

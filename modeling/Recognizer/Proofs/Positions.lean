import Mathlib.Data.List.Nodup
import Recognizer.SortedSet

/-!
# Positions in lists and sets

In a list without repeats the position of a member tells it apart. In a set the position of a member is
the number of members below it (`SortedSet.getElem?_countBelow`).
-/

namespace Recognizer

set_option autoImplicit false

/-! ## Lists -/

section
variable {α : Type} [DecidableEq α]

theorem idxOf?_eq_some_iff_of_nodup {xs : List α} (h : xs.Nodup) {x : α} {i : Nat} :
    xs.idxOf? x = some i ↔ xs[i]? = some x := by
  rw [List.idxOf?_eq_some_iff, List.getElem?_eq_some_iff]
  constructor
  · rintro ⟨hi, hx, -⟩
    exact ⟨hi, hx⟩
  · rintro ⟨hi, hx⟩
    refine ⟨hi, hx, fun j hj e => ?_⟩
    have hji := h.getElem_inj_iff.mp (e.trans hx.symm)
    exact Nat.ne_of_lt hj hji

theorem idxOf?_append {xs ys : List α} {x : α} :
    (xs ++ ys).idxOf? x = (xs.idxOf? x).or ((ys.idxOf? x).map (· + xs.length)) :=
  List.findIdx?_append

theorem idxOf?_append_of_mem {xs ys : List α} {x : α} (h : x ∈ xs) :
    (xs ++ ys).idxOf? x = xs.idxOf? x := by
  obtain ⟨i, hi⟩ := Option.isSome_iff_exists.mp (List.isSome_idxOf?.mpr h)
  rw [idxOf?_append, hi, Option.some_or]

theorem idxOf?_append_singleton {xs : List α} {x : α} (h : x ∉ xs) :
    (xs ++ [x]).idxOf? x = some xs.length := by
  rw [idxOf?_append, List.idxOf?_eq_none_iff.mpr h, Option.none_or]
  simp

end

/-! ## Sets -/

section
variable {α : Type} [Ranked α]

open Ranked (rank)

theorem getElem?_countP_rank {xs : List α} (h : Ascending xs) {x : α} (hx : x ∈ xs) :
    xs[xs.countP fun y => rank y < rank x]? = some x := by
  induction xs with
  | nil => exact absurd hx List.not_mem_nil
  | cons y ys ih =>
    obtain ⟨hy, hys⟩ := List.pairwise_cons.mp h
    rw [List.countP_cons]
    rcases List.mem_cons.mp hx with rfl | hx
    · have hz : ys.countP (fun y => rank y < rank x) = 0 := by
        rw [List.countP_eq_zero]
        intro z hz
        have := hy z hz
        simp only [decide_eq_true_eq]
        omega
      simp [hz]
    · simp [hy x hx, ih hys hx]

namespace SortedSet

variable {s : SortedSet α} {x : α}

theorem insert_of_mem (h : x ∈ s) : s.insert x = s :=
  ext_mem fun _ => mem_insert.trans (or_iff_right_of_imp fun e => e ▸ h)

theorem ofList_toList (s : SortedSet α) : ofList s.toList = s := ext_mem fun _ => mem_ofList

/-- How many members of `s` rank below `x`. -/
def countBelow (s : SortedSet α) (x : α) : Nat := s.toList.countP fun y => rank y < rank x

theorem getElem?_countBelow (hx : x ∈ s) : s.toList[s.countBelow x]? = some x :=
  getElem?_countP_rank s.ascending hx

theorem map_countBelow (s : SortedSet α) : s.toList.map s.countBelow = List.range s.size := by
  refine List.ext_getElem (by simp [size]) fun i hi _ => ?_
  have hi : i < s.toList.length := by simpa using hi
  have hm : s.toList[i] ∈ s := List.getElem_mem hi
  obtain ⟨_, hc⟩ := List.getElem?_eq_some_iff.mp (getElem?_countBelow hm)
  rw [List.getElem_map, List.getElem_range]
  exact s.nodup_toList.getElem_inj_iff.mp hc

/-- No two members have the same name. -/
def ToldApart {β : Type} (s : SortedSet α) (name : α → β) : Prop :=
  ∀ x ∈ s, ∀ y ∈ s, name x = name y → x = y

theorem nodup_map_iff {β : Type} {name : α → β} : (s.toList.map name).Nodup ↔ s.ToldApart name := by
  rw [List.nodup_map_iff_inj_on s.nodup_toList]
  exact Iff.rfl

theorem toldApart_countBelow (s : SortedSet α) : s.ToldApart s.countBelow := by
  intro x hx y hy h
  have hs := getElem?_countBelow hx
  rw [h, getElem?_countBelow hy] at hs
  exact (Option.some.inj hs).symm

/-- Where names tell the members apart, the place of a name is the place of its member. -/
theorem idxOf?_map_countBelow {β : Type} [DecidableEq β] {name : α → β} (h : s.ToldApart name)
    (hx : x ∈ s) : (s.toList.map name).idxOf? (name x) = some (s.countBelow x) := by
  rw [idxOf?_eq_some_iff_of_nodup (nodup_map_iff.mpr h), List.getElem?_map, getElem?_countBelow hx,
    Option.map_some]

end SortedSet

end

end Recognizer

/-!
# Finite sets in ascending order

A set is the ascending list of its members without repeats, so two sets with the same members are
the same list (`SortedSet.ext_mem`) and the list itself is the canonical form of the set.
-/

namespace Recognizer

set_option autoImplicit false

/-- A type ordered by a number that tells its values apart. -/
class Ranked (α : Type) where
  rank : α → Nat
  rank_inj : ∀ {a b : α}, rank a = rank b → a = b

instance : Ranked Nat := ⟨id, id⟩

instance : Ranked Char := ⟨Char.toNat, Char.toNat_inj.mp⟩

open Ranked (rank rank_inj)

/-- Every member ranks below all that follow it. -/
abbrev Ascending {α : Type} [Ranked α] (xs : List α) : Prop :=
  xs.Pairwise fun a b => rank a < rank b

structure SortedSet (α : Type) [Ranked α] where
  toList : List α
  ascending : Ascending toList
deriving DecidableEq

namespace SortedSet

variable {α : Type} [Ranked α]

/-! ## Insertion into an ascending list -/

/-- Puts `x` before the first member that ranks above it, unless it is there already. -/
def place (x : α) : List α → List α
  | [] => [x]
  | y :: ys =>
    if rank x < rank y then x :: y :: ys
    else if rank y < rank x then y :: place x ys
    else y :: ys

theorem mem_place {x z : α} {ys : List α} : z ∈ place x ys ↔ z = x ∨ z ∈ ys := by
  induction ys with
  | nil => simp [place]
  | cons y ys ih =>
    unfold place
    split
    · simp
    · next h =>
      split
      · simp only [List.mem_cons, ih]
        exact or_left_comm
      · next h' =>
        have e : x = y := rank_inj (by omega)
        simp [e]

theorem ascending_place {x : α} {ys : List α} (h : Ascending ys) : Ascending (place x ys) := by
  induction ys with
  | nil => simp [place, Ascending]
  | cons y ys ih =>
    obtain ⟨hy, hys⟩ := List.pairwise_cons.mp h
    unfold place
    split
    · next hlt =>
      refine List.pairwise_cons.mpr ⟨fun z hz => ?_, h⟩
      rcases List.mem_cons.mp hz with rfl | hz
      · exact hlt
      · exact Nat.lt_trans hlt (hy z hz)
    · split
      · next hlt =>
        refine List.pairwise_cons.mpr ⟨fun z hz => ?_, ih hys⟩
        rcases mem_place.mp hz with rfl | hz
        · exact hlt
        · exact hy z hz
      · exact h

/-! ## Sets -/

instance : Membership α (SortedSet α) := ⟨fun s x => x ∈ s.toList⟩

instance [DecidableEq α] (x : α) (s : SortedSet α) : Decidable (x ∈ s) :=
  inferInstanceAs (Decidable (x ∈ s.toList))

instance : EmptyCollection (SortedSet α) := ⟨⟨[], List.Pairwise.nil⟩⟩

instance : Inhabited (SortedSet α) := ⟨∅⟩

theorem mem_toList {x : α} {s : SortedSet α} : x ∈ s.toList ↔ x ∈ s := Iff.rfl

@[simp] theorem toList_empty : (∅ : SortedSet α).toList = [] := rfl

@[simp] theorem not_mem_empty (x : α) : x ∉ (∅ : SortedSet α) := List.not_mem_nil

def insert (s : SortedSet α) (x : α) : SortedSet α :=
  ⟨place x s.toList, ascending_place s.ascending⟩

@[simp] theorem mem_insert {x z : α} {s : SortedSet α} : z ∈ s.insert x ↔ z = x ∨ z ∈ s := mem_place

def insertAll (s : SortedSet α) (xs : List α) : SortedSet α := xs.foldl insert s

theorem mem_insertAll {z : α} {xs : List α} {s : SortedSet α} :
    z ∈ s.insertAll xs ↔ z ∈ xs ∨ z ∈ s := by
  induction xs generalizing s with
  | nil => simp [insertAll]
  | cons x xs ih =>
    have h : z ∈ s.insertAll (x :: xs) ↔ z ∈ xs ∨ z ∈ s.insert x := ih
    rw [h, mem_insert, List.mem_cons]
    exact or_left_comm.trans or_assoc.symm

def ofList (xs : List α) : SortedSet α := (∅ : SortedSet α).insertAll xs

@[simp] theorem mem_ofList {z : α} {xs : List α} : z ∈ ofList xs ↔ z ∈ xs :=
  mem_insertAll.trans (or_iff_left (not_mem_empty z))

def singleton (x : α) : SortedSet α := (∅ : SortedSet α).insert x

@[simp] theorem mem_singleton {x z : α} : z ∈ singleton x ↔ z = x :=
  mem_insert.trans (or_iff_left (not_mem_empty z))

def union (s t : SortedSet α) : SortedSet α := s.insertAll t.toList

@[simp] theorem mem_union {z : α} {s t : SortedSet α} : z ∈ s.union t ↔ z ∈ t ∨ z ∈ s := mem_insertAll

def size (s : SortedSet α) : Nat := s.toList.length

def isEmpty (s : SortedSet α) : Bool := s.toList.isEmpty

section
variable [DecidableEq α]

def contains (s : SortedSet α) (x : α) : Bool := decide (x ∈ s)

/-- Whether some member of `s` is also in `t`. -/
def meets (s t : SortedSet α) : Bool := s.toList.any t.contains

def isSubset (s t : SortedSet α) : Bool := s.toList.all t.contains

@[simp] theorem contains_eq_true {s : SortedSet α} {x : α} : s.contains x = true ↔ x ∈ s := by
  simp [contains]

theorem meets_eq_true {s t : SortedSet α} : s.meets t = true ↔ ∃ x, x ∈ s ∧ x ∈ t := by
  simp [meets, mem_toList]

theorem isSubset_eq_true {s t : SortedSet α} : s.isSubset t = true ↔ ∀ x, x ∈ s → x ∈ t := by
  simp [isSubset, mem_toList]

end

/-! ## The list is the canonical form -/

theorem ascending_unique {xs ys : List α} (hx : Ascending xs) (hy : Ascending ys)
    (h : ∀ z, z ∈ xs ↔ z ∈ ys) : xs = ys := by
  induction xs generalizing ys with
  | nil =>
    cases ys with
    | nil => rfl
    | cons y ys => exact absurd ((h y).mpr List.mem_cons_self) List.not_mem_nil
  | cons x xs ih =>
    cases ys with
    | nil => exact absurd ((h x).mp List.mem_cons_self) List.not_mem_nil
    | cons y ys =>
      obtain ⟨hx1, hx2⟩ := List.pairwise_cons.mp hx
      obtain ⟨hy1, hy2⟩ := List.pairwise_cons.mp hy
      have e : x = y := by
        rcases List.mem_cons.mp ((h x).mp List.mem_cons_self) with e | m
        · exact e
        · rcases List.mem_cons.mp ((h y).mpr List.mem_cons_self) with e | m'
          · exact e.symm
          · have := hy1 x m
            have := hx1 y m'
            omega
      subst e
      have t : ∀ z, z ∈ xs ↔ z ∈ ys := fun z => by
        have hz := h z
        rw [List.mem_cons, List.mem_cons] at hz
        constructor
        · intro m
          rcases hz.mp (Or.inr m) with rfl | m'
          · exact absurd (hx1 _ m) (Nat.lt_irrefl _)
          · exact m'
        · intro m
          rcases hz.mpr (Or.inr m) with rfl | m'
          · exact absurd (hy1 _ m) (Nat.lt_irrefl _)
          · exact m'
      rw [ih hx2 hy2 t]

theorem ext_toList {s t : SortedSet α} (h : s.toList = t.toList) : s = t := by
  cases s
  cases t
  cases h
  rfl

theorem ext_mem {s t : SortedSet α} (h : ∀ x, x ∈ s ↔ x ∈ t) : s = t :=
  ext_toList (ascending_unique s.ascending t.ascending h)

theorem isEmpty_eq_true {s : SortedSet α} : s.isEmpty = true ↔ s = ∅ := by
  rw [isEmpty, List.isEmpty_iff]
  exact ⟨fun h => ext_toList h, fun h => h ▸ rfl⟩

theorem nodup_toList (s : SortedSet α) : s.toList.Nodup :=
  s.ascending.imp fun h e => Nat.ne_of_lt h (congrArg rank e)

/-- Counting below any bound above its members gives the size of a set. -/
theorem countP_range {T : SortedSet Nat} {p : Nat → Bool} {n : Nat}
    (hp : ∀ i, p i = true ↔ i ∈ T) (hn : ∀ i ∈ T, i < n) : (List.range n).countP p = T.size := by
  have hasc : Ascending ((List.range n).filter p) := List.pairwise_lt_range.filter p
  have hmem : ∀ i, i ∈ (List.range n).filter p ↔ i ∈ T.toList := fun i => by
    rw [List.mem_filter, List.mem_range, hp]
    exact and_iff_right_of_imp (hn i)
  rw [List.countP_eq_length_filter, ascending_unique hasc T.ascending hmem, size]

end SortedSet

end Recognizer

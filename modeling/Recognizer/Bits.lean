import Recognizer.SortedSet

/-!
# Growable rows of bits

What is done with the bits of a row, what these operations promise (`LawfulBitRow`), and rows that keep
the promises (`Bits`).
-/

namespace Recognizer

set_option autoImplicit false

/-- Rows of bits. A row has a length, which can grow. -/
class BitRow (B : Type) where
  /-- A row without bits. -/
  empty : B
  /-- All bits are off. -/
  ofLength (n : Nat) : B
  length (b : B) : Nat
  /-- Whether a bit is on, also past the end of the row. -/
  get (b : B) (i : Nat) : Bool
  /-- Makes a row `n` bits long if it is shorter. -/
  grow (b : B) (n : Nat) : B
  /-- Turns a bit on and tells whether it was on before; this fails past the end of the row. -/
  put (b : B) (i : Nat) : Option (Bool × B)
  isClear (b : B) : Bool
  /-- How many bits are on. -/
  count (b : B) : Nat
  /-- The numbers of the bits that are on. -/
  ones (b : B) : List Nat
  /-- The first row, grown to the length of the second if that is longer, with the bits of both on. -/
  union (b c : B) : B
  /-- The numbers of the bits that are on in both rows. -/
  common (b c : B) : List Nat

/-- What sets in rows of bits rely on. -/
class LawfulBitRow (B : Type) [BitRow B] : Prop where
  get_empty (i : Nat) : BitRow.get (BitRow.empty : B) i = false
  get_ofLength (n i : Nat) : BitRow.get (BitRow.ofLength n : B) i = false
  /-- Bits past the end are off. -/
  lt_length {b : B} {i : Nat} : BitRow.get b i = true → i < BitRow.length b
  /-- A row that is grown is long enough. -/
  le_length_grow (b : B) (n : Nat) : n ≤ BitRow.length (BitRow.grow b n)
  /-- The bits that a row grows by are off. -/
  get_grow (b : B) (n i : Nat) : BitRow.get (BitRow.grow b n) i = BitRow.get b i
  /-- Before its end, a row can take any bit, and no other bit changes. -/
  exists_put {b : B} {i : Nat} : i < BitRow.length b →
    ∃ c, BitRow.put b i = some (BitRow.get b i, c) ∧
      ∀ j, BitRow.get c j = true ↔ j = i ∨ BitRow.get b j = true
  isClear_iff (b : B) : BitRow.isClear b = true ↔ ∀ i, BitRow.get b i = false
  count_eq (b : B) : BitRow.count b = (List.range (BitRow.length b)).countP (BitRow.get b)
  mem_ones (b : B) (i : Nat) : i ∈ BitRow.ones b ↔ BitRow.get b i = true
  /-- Bits are listed from the first to the last. -/
  ascending_ones (b : B) : Ascending (BitRow.ones b)
  get_union (b c : B) (i : Nat) :
    BitRow.get (BitRow.union b c) i = true ↔ BitRow.get b i = true ∨ BitRow.get c i = true
  mem_common (b c : B) (i : Nat) :
    i ∈ BitRow.common b c ↔ BitRow.get b i = true ∧ BitRow.get c i = true

/-- A row by its length and the bits that are on. -/
structure Bits where
  length : Nat
  on : SortedSet Nat
  below : ∀ i ∈ on, i < length

namespace Bits

def clear (n : Nat) : Bits := ⟨n, ∅, fun i hi => absurd hi (SortedSet.not_mem_empty i)⟩

/-- Rows are of this kind where nothing else is said. -/
@[default_instance]
instance : BitRow Bits where
  empty := clear 0
  ofLength := clear
  length := Bits.length
  get b i := b.on.contains i
  grow b n := ⟨max b.length n, b.on, fun i hi => Nat.lt_of_lt_of_le (b.below i hi) (Nat.le_max_left _ _)⟩
  put b i :=
    if h : i < b.length then
      some (b.on.contains i, ⟨b.length, b.on.insert i, fun j hj =>
        (SortedSet.mem_insert.mp hj).elim (fun e => e ▸ h) (b.below j)⟩)
    else none
  isClear b := b.on.isEmpty
  count b := b.on.size
  ones b := b.on.toList
  union b c := ⟨max b.length c.length, b.on.union c.on, fun i hi =>
    (SortedSet.mem_union.mp hi).elim
      (fun h => Nat.lt_of_lt_of_le (c.below i h) (Nat.le_max_right _ _))
      (fun h => Nat.lt_of_lt_of_le (b.below i h) (Nat.le_max_left _ _))⟩
  common b c := b.on.toList.filter c.on.contains

theorem get_iff {b : Bits} {i : Nat} : BitRow.get b i = true ↔ i ∈ b.on := SortedSet.contains_eq_true

theorem get_eq_false {b : Bits} {i : Nat} : BitRow.get b i = false ↔ i ∉ b.on := by
  rw [← Bool.not_eq_true, get_iff]

instance : LawfulBitRow Bits where
  get_empty i := get_eq_false.mpr (SortedSet.not_mem_empty i)
  get_ofLength _ i := get_eq_false.mpr (SortedSet.not_mem_empty i)
  lt_length {b i} h := b.below i (get_iff.mp h)
  le_length_grow b n := Nat.le_max_right b.length n
  get_grow _ _ _ := rfl
  exists_put {b i} h := ⟨_, dif_pos h, fun j => by rw [get_iff, get_iff, SortedSet.mem_insert]⟩
  isClear_iff b := by
    simp only [get_eq_false]
    exact SortedSet.isEmpty_eq_true.trans
      ⟨fun h i hi => absurd (h ▸ hi) (SortedSet.not_mem_empty i),
        fun h => SortedSet.ext_mem fun i => iff_of_false (h i) (SortedSet.not_mem_empty i)⟩
  count_eq b := (SortedSet.countP_range (fun _ => get_iff) b.below).symm
  mem_ones _ _ := get_iff.symm
  ascending_ones b := b.on.ascending
  get_union _ _ _ := by
    rw [get_iff, get_iff, get_iff]
    exact SortedSet.mem_union.trans or_comm
  mem_common b c i := by
    rw [get_iff, get_iff]
    exact List.mem_filter.trans (and_congr_right fun _ => SortedSet.contains_eq_true)

end Bits

end Recognizer

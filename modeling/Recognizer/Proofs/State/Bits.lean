import Recognizer.State.Bits

/-!
# What sets of states in rows of bits hold

A set over any lawful rows of bits holds the same states as a set in ascending order
(`BitSet.Holds`), every change of the one is the same change of the other, and questions to them have the
same answers, so automata are built over sets in ascending order. The length of a row matters in one place
only: a bit can be put once the row is long enough (`Holds.insert`).
-/

namespace Recognizer.BitSet

set_option autoImplicit false

variable {B : Type} [BitRow B] {S S' : BitSet B} {T T' : StateSet} {s : State}

/-- The bits that are on are those of the members of `T`. -/
structure Holds (S : BitSet B) (T : StateSet) : Prop where
  get_iff : ∀ i, BitRow.get S.row i = true ↔ i ∈ T
  bounded : ∀ s ∈ T, s < bound

theorem holds_of_clear (h : ∀ i, BitRow.get S.row i = false) : S.Holds ∅ where
  get_iff i := iff_of_false (Bool.eq_false_iff.mp (h i)) (SortedSet.not_mem_empty i)
  bounded s hs := absurd hs (SortedSet.not_mem_empty s)

theorem Holds.contains_eq (h : S.Holds T) (s : State) : S.contains s = T.contains s := by
  rw [Bool.eq_iff_iff, SortedSet.contains_eq_true]
  exact h.get_iff s

variable [LawfulBitRow B]

/-! ## Making and changing sets -/

theorem holds_empty : (empty : BitSet B).Holds ∅ := holds_of_clear LawfulBitRow.get_empty

theorem holds_withRoom (room : Nat) : (withRoom room : BitSet B).Holds ∅ :=
  holds_of_clear (LawfulBitRow.get_ofLength room)

/-- The row that a state is put into is long enough and has the bits of the old one. -/
theorem exists_room (row : B) (s : State) :
    ∃ row' : B, (if BitRow.length row ≤ s then BitRow.grow row (s + 1) else row) = row' ∧
      s < BitRow.length row' ∧ ∀ i, BitRow.get row' i = BitRow.get row i := by
  refine ⟨_, rfl, ?_⟩
  split
  · exact ⟨LawfulBitRow.le_length_grow row (s + 1), LawfulBitRow.get_grow row (s + 1)⟩
  · next h => exact ⟨Nat.lt_of_not_le h, fun _ => rfl⟩

theorem Holds.insert (h : S.Holds T) (hs : s < bound) :
    ∃ S', S.insert s = some (!T.contains s, S') ∧ S'.Holds (T.insert s) := by
  obtain ⟨row', hrow, hlt, hget⟩ := exists_room S.row s
  obtain ⟨c, hput, hc⟩ := LawfulBitRow.exists_put hlt
  have hnew : BitRow.get row' s = T.contains s := (hget s).trans (h.contains_eq s)
  refine ⟨⟨c⟩, ?_, fun i => ?_, fun t ht => ?_⟩
  · simp only [BitSet.insert, hrow, hput, hnew]
    rfl
  · rw [hc, hget, h.get_iff, SortedSet.mem_insert]
  · exact (SortedSet.mem_insert.mp ht).elim (fun e => e ▸ hs) (h.bounded t)

theorem Holds.add (h : S.Holds T) (hs : s < bound) :
    ∃ S', S.add s = some S' ∧ S'.Holds (T.insert s) := by
  obtain ⟨S', hS', hT⟩ := h.insert hs
  exact ⟨S', congrArg (Option.map Prod.snd) hS', hT⟩

theorem exists_singleton (hs : s < bound) (room : Nat) :
    ∃ S' : BitSet B, singleton s room = some S' ∧ S'.Holds (SortedSet.singleton s) :=
  (holds_withRoom room).add hs

theorem Holds.insertAll (h : S.Holds T) (ss : List State) (hss : ∀ s ∈ ss, s < bound) :
    ∃ S', S.insertAll ss = some S' ∧ S'.Holds (T.insertAll ss) := by
  induction ss generalizing S T with
  | nil => exact ⟨S, rfl, h⟩
  | cons s ss ih =>
    obtain ⟨S₁, hadd, h₁⟩ := h.add (hss s List.mem_cons_self)
    obtain ⟨S₂, hall, h₂⟩ := ih h₁ fun t ht => hss t (List.mem_cons_of_mem s ht)
    refine ⟨S₂, ?_, h₂⟩
    rw [BitSet.insertAll, List.foldlM_cons, hadd]
    exact hall

theorem exists_ofList (ss : List State) (hss : ∀ s ∈ ss, s < bound) :
    ∃ S' : BitSet B, ofList ss = some S' ∧ S'.Holds (SortedSet.ofList ss) :=
  holds_empty.insertAll ss hss

theorem Holds.union (h : S.Holds T) (h' : S'.Holds T') : (S.union S').Holds (T.union T') where
  get_iff i := by
    rw [BitSet.union, LawfulBitRow.get_union, h.get_iff, h'.get_iff, SortedSet.mem_union]
    exact or_comm
  bounded s hs := (SortedSet.mem_union.mp hs).elim (h'.bounded s) (h.bounded s)

/-! ## Questions -/

/-- No number of a bit is cut down, since only states have been put into the row. -/
theorem Holds.toList_eq (h : S.Holds T) : S.toList = T.toList := by
  have hmem : ∀ i, i ∈ BitRow.ones S.row ↔ i ∈ T.toList := fun i => by
    rw [LawfulBitRow.mem_ones, h.get_iff, SortedSet.mem_toList]
  have hones : BitRow.ones S.row = T.toList :=
    SortedSet.ascending_unique (LawfulBitRow.ascending_ones S.row) T.ascending hmem
  rw [toList, hones]
  calc T.toList.map (· % bound)
    _ = T.toList.map id := List.map_congr_left fun i hi => Nat.mod_eq_of_lt (h.bounded i hi)
    _ = T.toList := List.map_id _

theorem Holds.isEmpty_eq (h : S.Holds T) : S.isEmpty = T.isEmpty := by
  rw [Bool.eq_iff_iff, isEmpty, LawfulBitRow.isClear_iff, SortedSet.isEmpty_eq_true]
  simp only [← Bool.not_eq_true, h.get_iff]
  constructor
  · exact fun hT => SortedSet.ext_mem fun i => iff_of_false (hT i) (SortedSet.not_mem_empty i)
  · rintro rfl
    exact SortedSet.not_mem_empty

theorem Holds.size_eq (h : S.Holds T) : S.size = T.size := by
  rw [size, LawfulBitRow.count_eq]
  exact SortedSet.countP_range h.get_iff fun i hi => LawfulBitRow.lt_length ((h.get_iff i).mpr hi)

theorem Holds.meets_eq (h : S.Holds T) (h' : S'.Holds T') : S.meets S' = T.meets T' := by
  have hmem : ∀ i, i ∈ BitRow.common S.row S'.row ↔ i ∈ T ∧ i ∈ T' := fun i => by
    rw [LawfulBitRow.mem_common, h.get_iff, h'.get_iff]
  rw [Bool.eq_iff_iff, SortedSet.meets_eq_true, meets, List.isSome_head?]
  constructor
  · intro hne
    obtain ⟨i, hi⟩ := List.exists_mem_of_ne_nil _ hne
    exact ⟨i, (hmem i).mp hi⟩
  · rintro ⟨i, hi⟩
    exact List.ne_nil_of_mem ((hmem i).mpr hi)

theorem Holds.isSubset_eq (h : S.Holds T) (h' : S'.Holds T') : S.isSubset S' = T.isSubset T' := by
  rw [isSubset, SortedSet.isSubset, h.toList_eq]
  exact congrArg (List.all T.toList) (funext h'.contains_eq)

theorem Holds.equal_eq (h : S.Holds T) (h' : S'.Holds T') : S.equal S' = decide (T = T') := by
  rw [Bool.eq_iff_iff, equal, decide_eq_true_eq, decide_eq_true_eq, h.toList_eq, h'.toList_eq]
  exact ⟨SortedSet.ext_toList, congrArg SortedSet.toList⟩

end Recognizer.BitSet

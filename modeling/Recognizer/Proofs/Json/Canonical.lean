import Mathlib.Data.List.Forall2
import Mathlib.Data.List.Sort
import Mathlib.Data.String.Basic
import Recognizer.Json.Basic

/-!
# The last value of a key

Of a repeated key the last value counts. `Json.LastWins` says so of a whole value, at every depth and in
whatever order the keys are left. The canonical form is one such value (`Json.lastWins_canonical`), and it
is the same for all of them (`Json.LastWins.canonical_eq`).
-/

namespace Recognizer.Json

set_option autoImplicit false

variable {k l : String} {v : Json} {ms ms' set : List (String × Json)}

/-! ## Fields -/

theorem field?_eq_none : field? k ms = none ↔ k ∉ ms.map Prod.fst := by
  induction ms with
  | nil => exact iff_of_true rfl List.not_mem_nil
  | cons m ms ih =>
    rw [field?, Option.or_eq_none_iff, ih, List.map_cons, List.mem_cons, not_or, and_comm]
    by_cases h : m.1 = k
    · simp [h]
    · simp [h, Ne.symm h]

theorem mem_of_field? (h : field? k ms = some v) : (k, v) ∈ ms := by
  induction ms with
  | nil => cases h
  | cons m ms ih =>
    rw [field?, Option.or_eq_some_iff] at h
    rcases h with h | ⟨-, h⟩
    · exact List.mem_cons_of_mem _ (ih h)
    · split at h
      · next e =>
        cases h
        exact e ▸ List.mem_cons_self
      · cases h

theorem occurrences_pos (h : field? k ms = some v) : 0 < occurrences k ms :=
  List.count_pos_iff.mpr (List.mem_map_of_mem (mem_of_field? h))

/-! ## Ascending keys -/

def KeysAscend (ms : List (String × Json)) : Prop := ms.Pairwise fun m m' => m.1 < m'.1

theorem KeysAscend.nodup (h : KeysAscend ms) : (ms.map Prod.fst).Nodup :=
  List.pairwise_map.mpr (h.imp fun hlt => ne_of_lt hlt)

theorem KeysAscend.field?_eq_some (h : KeysAscend ms) : field? k ms = some v ↔ (k, v) ∈ ms := by
  refine ⟨mem_of_field?, fun hm => ?_⟩
  cases hf : field? k ms with
  | none => exact absurd (List.mem_map_of_mem hm) (field?_eq_none.mp hf)
  | some w =>
    have heq := List.inj_on_of_nodup_map h.nodup (mem_of_field? hf) hm rfl
    rw [(Prod.mk.inj heq).2]

/-- Ascending members are known by their fields. -/
theorem KeysAscend.ext (h : KeysAscend ms) (h' : KeysAscend ms')
    (hf : ∀ k, field? k ms = field? k ms') : ms = ms' := by
  have hanti : Std.Antisymm fun m m' : String × Json => m.1 < m'.1 :=
    ⟨fun _ _ h h' => absurd h' (lt_asymm h)⟩
  have hirrefl : Std.Irrefl fun m m' : String × Json => m.1 < m'.1 := ⟨fun m => lt_irrefl m.1⟩
  refine h.eq_of_mem_iff h' fun m => ?_
  rw [← h.field?_eq_some, ← h'.field?_eq_some, hf]

theorem mem_keys_setField : l ∈ (setField k v ms).map Prod.fst ↔ l = k ∨ l ∈ ms.map Prod.fst := by
  induction ms with
  | nil => simp [setField]
  | cons m ms ih =>
    unfold setField
    split
    · simp
    · split
      · next e => simp [e]
      · rw [List.map_cons, List.mem_cons, ih, List.map_cons, List.mem_cons, or_left_comm]

theorem KeysAscend.setField (h : KeysAscend ms) : KeysAscend (setField k v ms) := by
  induction ms with
  | nil => exact List.pairwise_singleton _ _
  | cons m ms ih =>
    have hm := List.pairwise_cons.mp h
    unfold Json.setField
    split
    · next hlt =>
      refine List.pairwise_cons.mpr ⟨List.forall_mem_cons.mpr ⟨hlt, fun m' hm' => ?_⟩, h⟩
      exact lt_trans hlt (hm.1 m' hm')
    · next hnlt =>
      split
      · next e => exact List.pairwise_cons.mpr ⟨fun m' hm' => e ▸ hm.1 m' hm', hm.2⟩
      · next hne =>
        refine List.pairwise_cons.mpr ⟨fun m' hm' => ?_, ih hm.2⟩
        rcases mem_keys_setField.mp (List.mem_map_of_mem hm') with e | hmem
        · exact e ▸ lt_of_le_of_ne (le_of_not_gt hnlt) (Ne.symm hne)
        · obtain ⟨m'', hm'', e⟩ := List.mem_map.mp hmem
          exact e ▸ hm.1 m'' hm''

/-- Keys below the first one are found nowhere. -/
theorem KeysAscend.field?_eq_none {m : String × Json} (h : KeysAscend (m :: ms)) (hk : k ≤ m.1) :
    field? k ms = none :=
  Json.field?_eq_none.mpr fun hmem => by
    obtain ⟨m', hm', rfl⟩ := List.mem_map.mp hmem
    exact not_lt_of_ge hk ((List.pairwise_cons.mp h).1 m' hm')

theorem KeysAscend.field?_setField (h : KeysAscend ms) :
    field? l (Json.setField k v ms) = if k = l then some v else field? l ms := by
  induction ms with
  | nil => rfl
  | cons m ms ih =>
    by_cases e : k = l
    · subst e
      rw [if_pos rfl]
      unfold Json.setField
      split
      · next hlt =>
        rw [field?, field?, h.field?_eq_none hlt.le, if_neg hlt.ne', if_pos rfl]
        rfl
      · split
        · next e' =>
          rw [field?, h.field?_eq_none (le_of_eq e'), if_pos rfl]
          rfl
        · rw [field?, ih (List.pairwise_cons.mp h).2, if_pos rfl]
          rfl
    · rw [if_neg e]
      unfold Json.setField
      split
      · rw [field?, if_neg e, Option.or_none]
      · split
        · next e' => rw [field?, field?, if_neg e, if_neg (e' ▸ e)]
        · rw [field?, ih (List.pairwise_cons.mp h).2, if_neg e, field?]

/-! ## Canonical members -/

theorem KeysAscend.canonicalMembers (h : KeysAscend set) (ms : List (String × Json)) :
    KeysAscend (canonicalMembers set ms) := by
  induction ms generalizing set with
  | nil => exact h
  | cons m ms ih => exact ih h.setField

theorem KeysAscend.field?_canonicalMembers (h : KeysAscend set) (ms : List (String × Json)) (k : String) :
    field? k (Json.canonicalMembers set ms) =
      ((field? k ms).map canonical).or (field? k set) := by
  induction ms generalizing set with
  | nil => rfl
  | cons m ms ih =>
    rw [Json.canonicalMembers, ih h.setField, h.field?_setField, field?]
    cases field? k ms with
    | some w => rfl
    | none =>
      by_cases e : m.1 = k
      · rw [if_pos e, if_pos e]
        rfl
      · rw [if_neg e, if_neg e]
        rfl

theorem canonicalElements_eq_map (xs : List Json) : canonicalElements xs = xs.map canonical := by
  induction xs with
  | nil => rfl
  | cons x xs ih => rw [canonicalElements, ih, List.map_cons]

theorem field?_canonical (ms : List (String × Json)) (k : String) :
    field? k (Json.canonicalMembers [] ms) = (field? k ms).map canonical := by
  rw [KeysAscend.field?_canonicalMembers List.Pairwise.nil, field?, Option.or_none]

/-! ## Values in which the last one wins -/

/-- Neither a list nor an object. -/
def isScalar : Json → Bool
  | array _ => false
  | object _ => false
  | _ => true

/-- Values are taken apart along their elements and the last values of their keys. -/
theorem field_induction {P : Json → Prop} (scalar : ∀ j, j.isScalar = true → P j)
    (array : ∀ xs, (∀ x ∈ xs, P x) → P (.array xs))
    (object : ∀ ms, (∀ k v, field? k ms = some v → P v) → P (.object ms)) : (j : Json) → P j
  | .null => scalar _ rfl
  | .bool _ => scalar _ rfl
  | .integer _ => scalar _ rfl
  | .float _ => scalar _ rfl
  | .string _ => scalar _ rfl
  | .array xs => array xs fun x hx => by
    have := List.sizeOf_lt_of_mem hx
    exact field_induction scalar array object x
  | .object ms => object ms fun k v h => by
    have := sizeOf_field?_lt h
    exact field_induction scalar array object v
termination_by j => sizeOf j

/-- The second value is the first one with the last value of each key alone, at every depth. The order of
the keys is free. -/
inductive LastWins : Json → Json → Prop
  | scalar {j : Json} : j.isScalar = true → LastWins j j
  | array {xs ys : List Json} : List.Forall₂ LastWins xs ys → LastWins (.array xs) (.array ys)
  | object {ms ms' : List (String × Json)} : (ms'.map Prod.fst).Nodup →
    (∀ k, Option.Rel LastWins (field? k ms) (field? k ms')) → LastWins (.object ms) (.object ms')

theorem lastWins_canonical (j : Json) : LastWins j j.canonical := by
  induction j using field_induction with
  | scalar j h =>
    have hj : j.canonical = j := by cases j <;> first | rfl | cases h
    rw [hj]
    exact .scalar h
  | array xs ih =>
    rw [canonical, canonicalElements_eq_map]
    exact .array (List.forall₂_map_right_iff.mpr (List.forall₂_same.mpr ih))
  | object ms ih =>
    have hnil : KeysAscend [] := List.Pairwise.nil
    rw [canonical]
    refine .object (hnil.canonicalMembers ms).nodup fun k => ?_
    rw [field?_canonical]
    cases h : field? k ms with
    | none => exact .none
    | some v => exact .some (ih k v h)

theorem map_canonical_eq {a b : Option Json} (h : Option.Rel LastWins a b)
    (ha : ∀ v, a = some v → ∀ w, LastWins v w → v.canonical = w.canonical) :
    a.map canonical = b.map canonical := by
  cases h with
  | none => rfl
  | some hv => rw [Option.map_some, Option.map_some, ha _ rfl _ hv]

/-- The order in which the keys were left is lost. -/
theorem LastWins.canonical_eq {j r : Json} (h : LastWins j r) : j.canonical = r.canonical := by
  induction j using field_induction generalizing r with
  | scalar j hj =>
    cases h with
    | scalar => rfl
    | array | object => cases hj
  | array xs ih =>
    cases h with
    | scalar => rfl
    | @array _ ys hall =>
      have hxs : List.Forall₂ (fun x y => x.canonical = y.canonical) xs ys :=
        ((List.forall₂_and_left ..).mpr ⟨ih, hall⟩).imp fun x y h => h.1 h.2
      rw [canonical, canonical, canonicalElements_eq_map, canonicalElements_eq_map]
      refine congrArg Json.array ?_
      rwa [← List.forall₂_eq_eq_eq, List.forall₂_map_left_iff, List.forall₂_map_right_iff]
  | object ms ih =>
    cases h with
    | scalar => rfl
    | @object _ ms' _ hf =>
      have hnil : KeysAscend [] := List.Pairwise.nil
      rw [canonical, canonical]
      refine congrArg Json.object ((hnil.canonicalMembers ms).ext (hnil.canonicalMembers ms') fun k => ?_)
      rw [field?_canonical, field?_canonical]
      exact map_canonical_eq (hf k) fun v e w hv => ih k v e hv

end Recognizer.Json

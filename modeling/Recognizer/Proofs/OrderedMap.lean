import Recognizer.OrderedMap
import Recognizer.Proofs.Grouping

/-!
# How maps that remember their order grow

A map is known by its entries, and these by the order of the keys and by what is found under them. A
fold of updates lists the keys in the order in which they first occur (`keys_foldl_update`) and leaves
under each key what the updates of that key make (`get?_foldl_update`).
-/

namespace Recognizer.OrderedMap

set_option autoImplicit false

variable {κ ν : Type}

theorem ext_entries {m m' : OrderedMap κ ν} (h : m.entries = m'.entries) : m = m' := by
  cases m
  cases m'
  cases h
  rfl

variable [DecidableEq κ]

theorem get?_eq_none {m : OrderedMap κ ν} {k : κ} : m.get? k = none ↔ k ∉ m.keys := by
  rw [Option.eq_none_iff_forall_ne_some]
  constructor
  · intro h hk
    obtain ⟨⟨k, v⟩, hm, rfl⟩ := List.mem_map.mp hk
    exact h v (get?_eq_some.mpr hm)
  · intro hk v hv
    exact hk (List.mem_map.mpr ⟨(k, v), get?_eq_some.mp hv, rfl⟩)

theorem eq_of_key_eq {m : OrderedMap κ ν} {e e' : κ × ν} (h : e ∈ m.entries) (h' : e' ∈ m.entries)
    (hk : e.1 = e'.1) : e.2 = e'.2 := by
  have hfound := get?_eq_some.mpr h
  rw [hk, get?_eq_some.mpr h'] at hfound
  exact (Option.some.inj hfound).symm

theorem lookup_eq_find? (k : κ) (es : List (κ × ν)) :
    lookup k es = (es.find? (·.1 = k)).map Prod.snd := by
  induction es with
  | nil => rfl
  | cons e es ih =>
    rw [lookup, List.find?_cons]
    by_cases h : e.1 = k
    · simp [h]
    · simp [h, ih]

/-! ## Folds of updates -/

section
variable {β : Type} (key : β → κ) (f : β → Option ν → ν)

theorem keys_foldl_update (bs : List β) :
    (bs.foldl (fun (m : OrderedMap κ ν) b => m.update (key b) (f b)) ∅).keys =
      distinct (bs.map key) := by
  induction bs using List.reverseRecOn with
  | nil => rfl
  | append_singleton bs b ih =>
    rw [List.foldl_append, List.foldl_cons, List.foldl_nil, keys_update, ih, List.map_append,
      List.map_singleton, distinct_concat]
    simp only [mem_distinct]

theorem get?_foldl_update (bs : List β) (m : OrderedMap κ ν) (k : κ) :
    (bs.foldl (fun m b => m.update (key b) (f b)) m).get? k =
      (bs.filter (key · = k)).foldl (fun v b => some (f b v)) (m.get? k) := by
  induction bs generalizing m with
  | nil => rfl
  | cons b bs ih =>
    rw [List.foldl_cons, ih, get?_update, List.filter_cons]
    by_cases h : key b = k
    · simp [h]
    · have h' : ¬ k = key b := fun e => h e.symm
      simp [h, h']

/-- Updates of one key that start from `d` where nothing is found. -/
theorem foldl_some_getD {f : ν → β → ν} {d : ν} {bs : List β} (h : bs ≠ []) :
    bs.foldl (fun v b => some (f (v.getD d) b)) none = some (bs.foldl f d) := by
  cases bs with
  | nil => exact absurd rfl h
  | cons b bs =>
    rw [List.foldl_cons, List.foldl_cons, Option.getD_none]
    exact List.foldl_hom some fun v b => rfl

theorem entries_foldl_insert (value : β → ν) {bs : List β} {m : OrderedMap κ ν}
    (h : (m.keys ++ bs.map key).Nodup) :
    (bs.foldl (fun m b => m.insert (key b) (value b)) m).entries =
      m.entries ++ bs.map fun b => (key b, value b) := by
  induction bs generalizing m with
  | nil => exact (List.append_nil _).symm
  | cons b bs ih =>
    have hb : key b ∉ m.keys := fun hm =>
      (List.nodup_append.mp h).2.2 _ hm _ (List.mem_map_of_mem List.mem_cons_self) rfl
    have hkeys : (m.insert (key b) (value b)).keys = m.keys ++ [key b] := by
      rw [insert, keys_update, if_neg hb]
    have ih := ih (m := m.insert (key b) (value b)) (by simpa [hkeys] using h)
    rw [List.foldl_cons, ih, entries_insert (get?_eq_none.mpr hb)]
    simp

end

/-! ## Entries from keys -/

theorem entries_eq_filterMap (m : OrderedMap κ ν) :
    m.entries = m.keys.filterMap fun k => (m.get? k).map (k, ·) := by
  have h : ∀ e ∈ m.entries, (m.get? e.1).map (e.1, ·) = some e := by
    intro e he
    rw [get?_eq_some.mpr he]
    rfl
  rw [keys, List.filterMap_map]
  exact (List.filterMap_some.symm.trans (List.filterMap_congr fun e he => (h e he).symm))

/-- The order of the keys and what is found under each of them make up a map. -/
theorem ext_get? {m m' : OrderedMap κ ν} (hk : m.keys = m'.keys) (h : ∀ k ∈ m'.keys, m.get? k = m'.get? k) :
    m = m' := by
  apply ext_entries
  rw [entries_eq_filterMap, entries_eq_filterMap, hk]
  exact List.filterMap_congr fun k hm => by rw [h k hm]

theorem update_eq_self {m : OrderedMap κ ν} {k : κ} {v : ν} {f : Option ν → ν} (hk : m.get? k = some v)
    (hv : f (some v) = v) : m.update k f = m := by
  have hmem : k ∈ m.keys := List.mem_map.mpr ⟨(k, v), get?_eq_some.mp hk, rfl⟩
  apply ext_get?
  · rw [keys_update, if_pos hmem]
  · intro j _
    rw [get?_update, hk, hv]
    split
    · next e => rw [e, hk]
    · rfl

theorem entries_eq_map {ι : Type} {m : OrderedMap κ ν} {is : List ι} {key : ι → κ} {value : ι → ν}
    (hk : m.keys = is.map key) (hv : ∀ i ∈ is, m.get? (key i) = some (value i)) :
    m.entries = is.map fun i => (key i, value i) := by
  have h : ∀ i ∈ is, (m.get? (key i)).map (key i, ·) = some (key i, value i) := by
    intro i hi
    rw [hv i hi]
    rfl
  rw [entries_eq_filterMap, hk, List.filterMap_map, ← List.filterMap_eq_map']
  exact List.filterMap_congr h

/-! ## Look-up after renaming -/

/-- Keys may be renamed where no other key gets the new name. -/
theorem lookup_map {κ' ν' : Type} [DecidableEq κ'] (f : κ → κ') (g : ν → ν') {es : List (κ × ν)}
    {k : κ} (h : ∀ e ∈ es, f e.1 = f k → e.1 = k) :
    lookup (f k) (es.map fun e => (f e.1, g e.2)) = (lookup k es).map g := by
  induction es with
  | nil => rfl
  | cons e es ih =>
    obtain ⟨j, v⟩ := e
    have ih := ih fun e he => h e (List.mem_cons_of_mem _ he)
    by_cases hj : j = k
    · simp [lookup, hj]
    · have hf : f j ≠ f k := fun hf => hj (h (j, v) List.mem_cons_self hf)
      simp [lookup, hj, hf, ih]

end Recognizer.OrderedMap

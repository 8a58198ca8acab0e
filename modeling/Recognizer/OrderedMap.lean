/-!
# Maps that remember the order of first insertion

A map is its list of entries. A key keeps the place it was first given, whatever happens to its
value later; `keys_update` says so.
-/

namespace Recognizer

set_option autoImplicit false

structure OrderedMap (κ ν : Type) where
  entries : List (κ × ν)
  nodup : (entries.map Prod.fst).Nodup
deriving DecidableEq

namespace OrderedMap

variable {κ ν : Type}

instance : EmptyCollection (OrderedMap κ ν) := ⟨⟨[], List.Pairwise.nil⟩⟩

instance : Inhabited (OrderedMap κ ν) := ⟨∅⟩

@[simp] theorem entries_empty : (∅ : OrderedMap κ ν).entries = [] := rfl

def keys (m : OrderedMap κ ν) : List κ := m.entries.map Prod.fst

def size (m : OrderedMap κ ν) : Nat := m.entries.length

variable [DecidableEq κ]

/-! ## Entries -/

def lookup (k : κ) : List (κ × ν) → Option ν
  | [] => none
  | (k', v) :: es => if k' = k then some v else lookup k es

/-- Changes the value at `k` where it stands, or appends one. -/
def revise (k : κ) (f : Option ν → ν) : List (κ × ν) → List (κ × ν)
  | [] => [(k, f none)]
  | (k', v) :: es => if k' = k then (k', f (some v)) :: es else (k', v) :: revise k f es

theorem map_fst_revise (k : κ) (f : Option ν → ν) (es : List (κ × ν)) :
    (revise k f es).map Prod.fst =
      if k ∈ es.map Prod.fst then es.map Prod.fst else es.map Prod.fst ++ [k] := by
  induction es with
  | nil => simp [revise]
  | cons e es ih =>
    obtain ⟨k', v⟩ := e
    unfold revise
    by_cases h : k' = k
    · simp [h]
    · have h' : ¬ k = k' := fun e => h e.symm
      simp only [if_neg h, List.map_cons, ih, List.mem_cons, h', false_or]
      split <;> simp

theorem nodup_revise {k : κ} {f : Option ν → ν} {es : List (κ × ν)}
    (h : (es.map Prod.fst).Nodup) : ((revise k f es).map Prod.fst).Nodup := by
  rw [map_fst_revise]
  split
  · exact h
  · next hk =>
    refine List.nodup_append.mpr ⟨h, by simp, fun a ha b hb e => hk ?_⟩
    rw [List.mem_singleton] at hb
    rwa [← hb, ← e]

theorem lookup_revise (k j : κ) (f : Option ν → ν) (es : List (κ × ν)) :
    lookup j (revise k f es) = if j = k then some (f (lookup k es)) else lookup j es := by
  induction es with
  | nil =>
    by_cases h : k = j
    · simp [revise, lookup, h]
    · have h' : ¬ j = k := fun e => h e.symm
      simp [revise, lookup, h, h']
  | cons e es ih =>
    obtain ⟨k', v⟩ := e
    by_cases h : k' = k
    · subst h
      by_cases hj : k' = j
      · simp [revise, lookup, hj]
      · have h' : ¬ j = k' := fun e => hj e.symm
        simp [revise, lookup, hj, h']
    · by_cases hj : k' = j
      · subst hj
        simp [revise, lookup, h]
      · simp [revise, lookup, h, hj, ih]

/-- The entries made of a list of keys are found under those keys, repeated ones included. -/
theorem lookup_filterMap (g : κ → Option ν) (k : κ) (ks : List κ) :
    lookup k (ks.filterMap fun j => (g j).map (j, ·)) = if k ∈ ks then g k else none := by
  induction ks with
  | nil => rfl
  | cons j ks ih =>
    rw [List.filterMap_cons]
    by_cases hj : k = j
    · subst hj
      cases hg : g k with
      | none => simp [ih, hg]
      | some v => simp [lookup]
    · have hj' : ¬ j = k := fun e => hj e.symm
      cases g j with
      | none => simp [ih, hj]
      | some v => simp [lookup, ih, hj, hj']

theorem revise_eq_append {k : κ} {f : Option ν → ν} {es : List (κ × ν)}
    (h : lookup k es = none) : revise k f es = es ++ [(k, f none)] := by
  induction es with
  | nil => rfl
  | cons e es ih =>
    obtain ⟨j, v⟩ := e
    by_cases hj : j = k
    · simp [lookup, hj] at h
    · rw [lookup, if_neg hj] at h
      rw [revise, if_neg hj, ih h, List.cons_append]

/-! ## Maps -/

def get? (m : OrderedMap κ ν) (k : κ) : Option ν := lookup k m.entries

def update (m : OrderedMap κ ν) (k : κ) (f : Option ν → ν) : OrderedMap κ ν :=
  ⟨revise k f m.entries, nodup_revise m.nodup⟩

def insert (m : OrderedMap κ ν) (k : κ) (v : ν) : OrderedMap κ ν := m.update k fun _ => v

theorem get?_empty (k : κ) : (∅ : OrderedMap κ ν).get? k = none := rfl

theorem get?_update (m : OrderedMap κ ν) (k j : κ) (f : Option ν → ν) :
    (m.update k f).get? j = if j = k then some (f (m.get? k)) else m.get? j :=
  lookup_revise k j f m.entries

theorem keys_update (m : OrderedMap κ ν) (k : κ) (f : Option ν → ν) :
    (m.update k f).keys = if k ∈ m.keys then m.keys else m.keys ++ [k] :=
  map_fst_revise k f m.entries

theorem entries_insert {m : OrderedMap κ ν} {k : κ} (h : m.get? k = none) (v : ν) :
    (m.insert k v).entries = m.entries ++ [(k, v)] := revise_eq_append h

theorem lookup_eq_some {es : List (κ × ν)} (h : (es.map Prod.fst).Nodup) {k : κ} {v : ν} :
    lookup k es = some v ↔ (k, v) ∈ es := by
  induction es with
  | nil => simp [lookup]
  | cons e es ih =>
    obtain ⟨k', w⟩ := e
    rw [List.map_cons, List.nodup_cons] at h
    unfold lookup
    by_cases hk : k' = k
    · subst hk
      have n : (k', v) ∉ es := fun m => h.1 (List.mem_map.mpr ⟨(k', v), m, rfl⟩)
      simp [n, eq_comm]
    · have hk' : ¬ k = k' := fun e => hk e.symm
      simp [hk, hk', ih h.2]

theorem get?_eq_some {m : OrderedMap κ ν} {k : κ} {v : ν} :
    m.get? k = some v ↔ (k, v) ∈ m.entries := lookup_eq_some m.nodup

end OrderedMap

end Recognizer

/-!
# JSON values

An object keeps its members as they were written, repeats included. Where a key is repeated, its
last value is the one that counts (`Json.field?`); `Json.canonical` keeps that one alone and puts
the keys in ascending order, so two objects with the same fields have the same canonical form.
-/

namespace Recognizer

set_option autoImplicit false

/-- What keeps a text from being read, or a document from being written. -/
inductive Json.Fault
  | eof
  | grammar
  /-- The text is JSON, but of the wrong shape. -/
  | data
  /-- The text does not fit where it is to be written. -/
  | write
deriving DecidableEq

inductive Json
  | null
  | bool (b : Bool)
  | integer (i : Int)
  | float (x : Float)
  | string (s : String)
  | array (xs : List Json)
  | object (ms : List (String × Json))
deriving Inhabited

namespace Json

/-! ## Fields -/

def field? (k : String) : List (String × Json) → Option Json
  | [] => none
  | (k', v) :: ms => (field? k ms).or (if k' = k then some v else none)

def occurrences (k : String) (ms : List (String × Json)) : Nat := (ms.map Prod.fst).count k

theorem sizeOf_field?_lt {k : String} {ms : List (String × Json)} {v : Json}
    (h : field? k ms = some v) : sizeOf v < sizeOf ms := by
  induction ms with
  | nil => exact absurd h (by simp [field?])
  | cons m ms ih =>
    obtain ⟨k', w⟩ := m
    rw [field?, Option.or_eq_some_iff] at h
    rcases h with h | ⟨-, h⟩
    · have := ih h
      simp only [List.cons.sizeOf_spec, Prod.mk.sizeOf_spec]
      omega
    · split at h
      · cases h
        simp only [List.cons.sizeOf_spec, Prod.mk.sizeOf_spec]
        omega
      · exact absurd h (by simp)

/-! ## Canonical form -/

def setField (k : String) (v : Json) : List (String × Json) → List (String × Json)
  | [] => [(k, v)]
  | (k', w) :: ms =>
    if k < k' then (k, v) :: (k', w) :: ms
    else if k = k' then (k, v) :: ms
    else (k', w) :: setField k v ms

mutual

def canonical : Json → Json
  | .array xs => .array (canonicalElements xs)
  | .object ms => .object (canonicalMembers [] ms)
  | j => j

def canonicalElements : List Json → List Json
  | [] => []
  | x :: xs => canonical x :: canonicalElements xs

/-- Sets the members one after another, so that the last value of a key stays. -/
def canonicalMembers (set : List (String × Json)) : List (String × Json) → List (String × Json)
  | [] => set
  | (k, v) :: ms => canonicalMembers (setField k (canonical v) set) ms

end

end Json

end Recognizer

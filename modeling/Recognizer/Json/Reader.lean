import Recognizer.Json.Basic
import Recognizer.Text.Utf8

/-!
# Reading JSON from the left

A reader takes what it needs from the front of the input, or stops at the first fault. What a text
is read as is known while it is read, so a value of the wrong shape is refused where it starts, ahead
of any fault behind it.
-/

namespace Recognizer.Json

set_option autoImplicit false

open Text (Input)

abbrev Reader (α : Type) := StateT Input (Except Fault) α

/-! ## Blanks and words -/

def isBlank : Option Char → Bool
  | some ' ' | some '\t' | some '\n' | some '\r' => true
  | _ => false

def blanks : Reader Unit := modify (List.dropWhile isBlank)

def word : List Char → Reader Unit
  | [] => pure ()
  | c :: cs => do
    match ← get with
    | [] => throw .eof
    | u :: rest => if u = some c then set rest; word cs else throw .grammar

def colon : Reader Unit := do
  blanks
  match ← get with
  | [] => throw .eof
  | some ':' :: rest => set rest
  | _ => throw .grammar

/-! ## Strings -/

def hexDigit? : Option Char → Option Nat
  | none => none
  | some c =>
    if '0' ≤ c ∧ c ≤ '9' then some (c.toNat - '0'.toNat)
    else if 'a' ≤ c ∧ c ≤ 'f' then some (c.toNat - 'a'.toNat + 10)
    else if 'A' ≤ c ∧ c ≤ 'F' then some (c.toNat - 'A'.toNat + 10)
    else none

def byteSize : Option Char → Nat
  | some c => c.utf8Size
  | none => 1

def byteLength (i : Input) : Nat := i.foldl (fun n u => n + byteSize u) 0

/-- Four hexadecimal digits. The text has ended too early if fewer than four bytes are left, whatever
they are. -/
def hexFour : Input → Except Fault (Nat × Input)
  | a :: b :: c :: d :: rest =>
    match hexDigit? a, hexDigit? b, hexDigit? c, hexDigit? d with
    | some w, some x, some y, some z => .ok (((w * 16 + x) * 16 + y) * 16 + z, rest)
    | _, _, _, _ => .error .grammar
  | few => if byteLength few < 4 then .error .eof else .error .grammar

def isLeading (n : Nat) : Bool := 0xD800 ≤ n && n < 0xDC00

def isTrailing (n : Nat) : Bool := 0xDC00 ≤ n && n < 0xE000

def trailing : Input → Except Fault (Nat × Input)
  | [] => .error .eof
  | [some '\\'] => .error .eof
  | some '\\' :: some 'u' :: rest =>
    match hexFour rest with
    | .ok (m, rest) => if isTrailing m then .ok (m, rest) else .error .grammar
    | .error f => .error f
  | _ => .error .grammar

/-- What follows a backslash and the letter `u`: one code point, in one escape or in a pair. -/
def codePoint (i : Input) : Except Fault (Char × Input) :=
  match hexFour i with
  | .ok (n, rest) =>
    if isTrailing n then .error .grammar
    else if isLeading n then
      match trailing rest with
      | .ok (m, rest) => .ok (Char.ofNat (0x10000 + (n - 0xD800) * 0x400 + (m - 0xDC00)), rest)
      | .error f => .error f
    else .ok (Char.ofNat n, rest)
  | .error f => .error f

def anyCodePoint (i : Input) : Except Fault (Char × Input) :=
  match hexFour i with
  | .ok (_, rest) => .ok ('\x00', rest)
  | .error f => .error f

def simpleEscape? : Char → Option Char
  | '"' => some '"'
  | '\\' => some '\\'
  | '/' => some '/'
  | 'b' => some '\x08'
  | 'f' => some '\x0c'
  | 'n' => some '\n'
  | 'r' => some '\r'
  | 't' => some '\t'
  | _ => none

def escape (point : Input → Except Fault (Char × Input)) : Input → Except Fault (Char × Input)
  | [] => .error .eof
  | some 'u' :: rest => point rest
  | some c :: rest =>
    match simpleEscape? c with
    | some d => .ok (d, rest)
    | none => .error .grammar
  | none :: _ => .error .grammar

def isControl : Option Char → Bool
  | some c => c.toNat < 0x20
  | none => false

theorem length_hexFour {i r : Input} {n : Nat} (h : hexFour i = .ok (n, r)) :
    r.length < i.length := by
  unfold hexFour at h
  split at h
  · split at h
    · cases h
      simp only [List.length_cons]
      omega
    · cases h
  · split at h <;> cases h

theorem length_trailing {i r : Input} {m : Nat} (h : trailing i = .ok (m, r)) :
    r.length < i.length := by
  unfold trailing at h
  split at h
  · cases h
  · cases h
  · split at h
    · next hx =>
      split at h
      · cases h
        have := length_hexFour hx
        simp only [List.length_cons]
        omega
      · cases h
    · cases h
  · cases h

theorem length_codePoint {i r : Input} {c : Char} (h : codePoint i = .ok (c, r)) :
    r.length < i.length := by
  unfold codePoint at h
  split at h
  · next hx =>
    have hr := length_hexFour hx
    split at h
    · cases h
    · split at h
      · split at h
        · next hy =>
          simp only [Except.ok.injEq, Prod.mk.injEq] at h
          have hs := length_trailing hy
          rw [h.2] at hs
          omega
        · cases h
      · cases h
        exact hr
  · cases h

theorem length_anyCodePoint {i r : Input} {c : Char} (h : anyCodePoint i = .ok (c, r)) :
    r.length < i.length := by
  unfold anyCodePoint at h
  split at h
  · next hx =>
    cases h
    exact length_hexFour hx
  · cases h

theorem length_escape {point : Input → Except Fault (Char × Input)} {i r : Input} {c : Char}
    (hp : ∀ {j s d}, point j = .ok (d, s) → s.length < j.length)
    (h : escape point i = .ok (c, r)) : r.length < i.length := by
  unfold escape at h
  split at h
  · cases h
  · have := hp h
    simp only [List.length_cons]
    omega
  · split at h
    · cases h
      simp
    · cases h
  · cases h

/-- What stands before the closing quote, escapes resolved, and what follows it. -/
def body (point : Input → Except Fault (Char × Input))
    (hp : ∀ {j s d}, point j = .ok (d, s) → s.length < j.length) :
    Input → Except Fault (Input × Input)
  | [] => .error .eof
  | some '"' :: rest => .ok ([], rest)
  | some '\\' :: rest =>
    match _ : escape point rest with
    | .ok (c, rest') => (body point hp rest').map fun p => (some c :: p.1, p.2)
    | .error f => .error f
  | u :: rest =>
    if isControl u then .error .grammar
    else (body point hp rest).map fun p => (u :: p.1, p.2)
termination_by i => i.length
decreasing_by
  · next h =>
    have := length_escape hp h
    simp only [List.length_cons]
    omega
  · simp

/-- The rest of a string after its opening quote. A byte that belongs to no character is noticed at
the closing quote. -/
def stringRest : Reader String := do
  match body codePoint length_codePoint (← get) with
  | .ok (us, rest) =>
    if us.all Option.isSome then set rest; return String.ofList (us.filterMap id)
    else throw .grammar
  | .error f => throw f

def skipString : Reader Unit := do
  match body anyCodePoint length_anyCodePoint (← get) with
  | .ok (_, rest) => set rest
  | .error f => throw f

/-! ## Elements and members -/

/-- Moves to the next element of a list. At the closing bracket, takes it and answers `false`. -/
def nextElement (first : Bool) : Reader Bool := do
  blanks
  match ← get with
  | [] => throw .eof
  | some ']' :: rest => set rest; return false
  | some ',' :: rest =>
    if first then return true
    set rest
    blanks
    match ← get with
    | [] => throw .eof
    | some ']' :: _ => throw .grammar
    | _ => return true
  | _ => if first then return true else throw .grammar

/-- The elements up to the closing bracket, at most `n` of them. -/
def elements {α : Type} (item : Reader α) : Nat → Bool → Reader (List α)
  | 0, _ => throw .eof
  | n + 1, first => do
    if ← nextElement first then
      let x ← item
      let xs ← elements item n false
      return x :: xs
    else return []

def openKey : Reader Bool := do
  match ← get with
  | [] => throw .eof
  | some '"' :: rest => set rest; return true
  | _ => throw .grammar

/-- Moves into the key of the next member. At the closing brace, takes it and answers `false`. -/
def nextMember (first : Bool) : Reader Bool := do
  blanks
  match ← get with
  | [] => throw .eof
  | some '\x7d' :: rest => set rest; return false
  | some ',' :: rest =>
    if first then throw .grammar
    set rest
    blanks
    openKey
  | _ => if first then openKey else throw .grammar

/-- The members up to the closing brace, at most `n` of them. `member` starts behind the key. -/
def members {κ σ : Type} (key : Reader κ) (member : κ → σ → Reader σ) :
    Nat → Bool → σ → Reader σ
  | 0, _, _ => throw .eof
  | n + 1, first, s => do
    if ← nextMember first then
      let k ← key
      let s ← member k s
      members key member n false s
    else return s

def closeList : Reader Unit := do
  blanks
  match ← get with
  | [] => throw .eof
  | some ']' :: rest => set rest
  | _ => throw .grammar

/-- Nothing but blanks may follow the value of a text. -/
def finish : Reader Unit := do
  blanks
  match ← get with
  | [] => pure ()
  | _ => throw .grammar

end Recognizer.Json

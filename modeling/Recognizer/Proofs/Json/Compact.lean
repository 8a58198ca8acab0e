import Recognizer.Proofs.Json.ReadBack

/-!
# Values read back from their compact text

`Kept n depth j`: wherever the compact text of `j` stands, `value` takes exactly this text and keeps `j`,
members in the order in which they are written, repeats included. Lists and objects keep the relation from
their items, which stand one level further in.
-/

namespace Recognizer.Json

set_option autoImplicit false

open Text (Input)

variable {n depth : Nat}

/-- `value` reads the compact text of `j` as `j`, also as part of a longer text. -/
structure Kept (n depth : Nat) (j : Json) : Prop where
  opens : ∃ c cs, compactText j = c :: cs ∧ Opens c
  run : ∀ {rest : Input}, Ended rest →
    (value n depth).run ((compactText j).map some ++ rest) = .ok (j, rest)

/-! ## Scalars -/

/-- A scalar is read alike on every level. -/
theorem run_value_scalar {j : Json} {i rest : Input} {c : Char} (blank : ¬ isBlank (some c))
    (bracket : c ≠ '[') (brace : c ≠ '\x7b') (h : scalar.run (some c :: i) = .ok (j, rest)) :
    (value n depth).run (some c :: i) = .ok (j, rest) := by
  have skip : blanks.run (some c :: i) = .ok ((), some c :: i) :=
    run_blanks (b := []) (by simp) (by rintro u ⟨⟩; exact blank)
  cases depth <;>
  · rw [value]
    refine (run_bind_of_ok skip).trans ?_
    rw [run_get_bind]
    split
    · next e =>
      cases e
      exact absurd rfl bracket
    · next e =>
      cases e
      exact absurd rfl brace
    · exact h

theorem kept_string (s : String) : Kept n depth (.string s) where
  opens := ⟨'"', _, rfl, by decide⟩
  run {rest} _ := by
    have body := run_stringRest s rest
    refine run_value_scalar (by decide) (by decide) (by decide) ?_
    rw [scalar, run_get_bind]
    exact run_bind_of_ok (f := fun s => pure (string s)) body

theorem kept_integer {i : Int} (nonneg : 0 ≤ i) (hi : i ≤ maxWord) : Kept n depth (.integer i) := by
  obtain ⟨k, rfl⟩ := Int.eq_ofNat_of_zero_le nonneg
  obtain ⟨c, cs, e, hc⟩ := exists_repr k
  refine ⟨⟨c, cs, e, opens_of_isDigit hc⟩, fun {rest} hr => ?_⟩
  have number := run_number (Int.ofNat_le.mp hi) hr
  have text : compactText (.integer k) = (Int.repr k).toList := rfl
  have starts : startsNumber (some c) := by simp [startsNumber, hc]
  have other : ∀ d : Char, d.isDigit = false → c ≠ d := by
    rintro d hd rfl
    cases hc.symm.trans hd
  rw [text]
  rw [e, List.map_cons, List.cons_append] at number ⊢
  refine run_value_scalar (opens_of_isDigit hc).1 (other _ rfl) (other _ rfl) ?_
  rw [scalar, run_get_bind]
  split
  · next h => cases h
  iterate 4
    · next h =>
      cases h
      cases hc
  · next h =>
    cases h
    rw [if_pos starts]
    exact run_bind_of_ok number

/-! ## Lists -/

theorem ended_compactElements (js : List Json) (rest : Input) :
    Ended ((compactElements false js).map some ++ some ']' :: rest) := by
  cases js with
  | nil => exact ended_cons (c := ']') (by decide) rest
  | cons j js => exact ended_cons (c := ',') (by decide) _

theorem run_elements_compact {js : List Json} (h : ∀ j ∈ js, Kept n depth j) {fuel : Nat} (first : Bool)
    (rest : Input) (hl : js.length < fuel) :
    (elements (value n depth) fuel first).run
      ((compactElements first js).map some ++ some ']' :: rest) = .ok (js, rest) := by
  induction js generalizing fuel first with
  | nil =>
    cases fuel with
    | zero => cases hl
    | succ fuel => exact run_elements_nil (run_nextElement_close (b := []) first (by simp) rest)
  | cons j js ih =>
    cases fuel with
    | zero => cases hl
    | succ fuel =>
      have hj := h j List.mem_cons_self
      have head := hj.run (ended_compactElements js rest)
      have tail := ih (fun j m => h j (List.mem_cons_of_mem _ m)) false (Nat.lt_of_succ_lt_succ hl)
      obtain ⟨c, cs, e, hc⟩ := hj.opens
      have next := run_nextElement_open (b := []) first (by simp) hc
        (cs.map some ++ ((compactElements false js).map some ++ some ']' :: rest))
      rw [List.append_nil] at next
      rw [compactElements, List.map_append, List.map_append, List.append_assoc, List.append_assoc]
      rw [e] at head ⊢
      exact run_elements_cons next head tail

theorem kept_array {js : List Json} (h : ∀ j ∈ js, Kept n depth j) (hl : js.length < n) :
    Kept n (depth + 1) (.array js) where
  opens := ⟨'[', _, rfl, by decide⟩
  run {rest} _ := by
    have items := run_elements_compact h true rest hl
    rw [compactText]
    simp only [List.cons_append, List.map_cons, List.map_append, List.append_assoc, List.map_nil,
      List.nil_append]
    rw [value]
    exact run_bind_of_ok (f := fun js => pure (array js)) items

/-! ## Objects -/

theorem ended_compactMembers (ms : List (String × Json)) (rest : Input) :
    Ended ((compactMembers false ms).map some ++ some '\x7d' :: rest) := by
  cases ms with
  | nil => exact ended_cons (c := '\x7d') (by decide) rest
  | cons m ms => exact ended_cons (c := ',') (by decide) _

/-- A member is put before those that have been read. -/
theorem run_member {i rest : Input} {j : Json} (h : (value n depth).run i = .ok (j, rest)) (k : String)
    (s : List (String × Json)) :
    (do colon; return (k, ← value n depth) :: s : Reader (List (String × Json))).run (some ':' :: i) =
      .ok ((k, j) :: s, rest) := by
  have split : colon.run (some ':' :: i) = .ok ((), i) := rfl
  exact (run_bind_of_ok split).trans (run_bind_of_ok h)

theorem run_members_compact {ms : List (String × Json)} (h : ∀ m ∈ ms, Kept n depth m.2) {fuel : Nat}
    (first : Bool) (s : List (String × Json)) (rest : Input) (hl : ms.length < fuel) :
    (members stringRest (fun k s => do colon; return (k, ← value n depth) :: s) fuel first s).run
      ((compactMembers first ms).map some ++ some '\x7d' :: rest) = .ok (ms.reverse ++ s, rest) := by
  induction ms generalizing fuel first s with
  | nil =>
    cases fuel with
    | zero => cases hl
    | succ fuel => exact run_members_nil (run_nextMember_close (b := []) first (by simp) rest)
  | cons m ms ih =>
    cases fuel with
    | zero => cases hl
    | succ fuel =>
      obtain ⟨k, j⟩ := m
      have item := (h (k, j) List.mem_cons_self).run (ended_compactMembers ms rest)
      have head := run_member item k s
      have name := run_stringRest k (some ':' :: ((compactText j).map some ++
        ((compactMembers false ms).map some ++ some '\x7d' :: rest)))
      have next := run_nextMember_open (b := []) first (by simp)
        ((k.toList.flatMap escapedChar ++ ['"']).map some ++ (some ':' :: ((compactText j).map some ++
          ((compactMembers false ms).map some ++ some '\x7d' :: rest))))
      have tail := ih (fun m hm => h m (List.mem_cons_of_mem _ hm)) false ((k, j) :: s)
        (Nat.lt_of_succ_lt_succ hl)
      rw [List.append_nil] at next
      rw [compactMembers, List.map_append, List.map_append, List.map_append, List.append_assoc,
        List.append_assoc, List.append_assoc, List.reverse_cons, List.append_assoc]
      exact run_members_cons next name head tail

theorem kept_object {ms : List (String × Json)} (h : ∀ m ∈ ms, Kept n depth m.2) (hl : ms.length < n) :
    Kept n (depth + 1) (.object ms) where
  opens := ⟨'\x7b', _, rfl, by decide⟩
  run {rest} _ := by
    have gathered := run_members_compact h true [] rest hl
    rw [compactText]
    simp only [List.cons_append, List.map_cons, List.map_append, List.append_assoc, List.map_nil,
      List.nil_append]
    rw [value]
    refine (run_bind_of_ok (f := fun ms => pure (object ms.reverse)) gathered).trans ?_
    rw [List.append_nil, List.reverse_reverse]
    rfl

/-! ## Whole texts -/

theorem Kept.read_compact {j : Json} (h : Kept ((compactText j).length + 1) maxDepth j) :
    read (Input.ofString j.compact) = .ok j := by
  have text : Input.ofString j.compact = (compactText j).map some ++ [] := by
    rw [Input.ofString, compact, String.toList_ofList, List.append_nil]
  have whole := h.run ended_nil
  rw [read, readWithin, readWith, StateT.run'_eq, text, List.append_nil, List.length_map]
  rw [List.append_nil] at whole
  rw [run_bind_of_ok whole]
  rfl

end Recognizer.Json

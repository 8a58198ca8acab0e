import Recognizer.Json.Printer
import Recognizer.Json.Value

/-!
# Printed texts and numbers read back

What `stringText` prints for one character is read by `body` as that character (`body_escapedChar`),
so a printed text is read as the text itself. The digits printed for a number are taken in one run and
have its value, which is found without loss while it fits in 64 bits.
-/

namespace Recognizer.Json

set_option autoImplicit false

open Text (Input)

/-! ## Runs of readers -/

theorem run_bind_of_ok {α β : Type} {x : Reader α} {f : α → Reader β} {i j : Input} {a : α}
    (h : x.run i = .ok (a, j)) : (x >>= f).run i = (f a).run j := by
  rw [StateT.run_bind, h]
  rfl

theorem run_get_bind {α : Type} (f : Input → Reader α) (i : Input) :
    (get >>= f).run i = (f i).run i := rfl

theorem run_set_bind {α : Type} (f : PUnit → Reader α) (i j : Input) :
    (set j >>= f).run i = (f ⟨⟩).run j := rfl

theorem isBlank_some {c : Char} : isBlank (some c) ↔ c = ' ' ∨ c = '\t' ∨ c = '\n' ∨ c = '\r' := by
  unfold isBlank
  split <;> simp_all

theorem run_blanks {b i : Input} (hb : ∀ u ∈ b, isBlank u) (hi : ∀ u ∈ i.head?, ¬ isBlank u) :
    blanks.run (b ++ i) = .ok ((), i) := by
  have h : (b ++ i).dropWhile isBlank = i := by
    rw [List.dropWhile_append_of_pos hb]
    cases i with
    | nil => rfl
    | cons u i => exact List.dropWhile_cons_of_neg (hi u rfl)
  exact congrArg (fun j => Except.ok ((), j)) h

/-! ## Texts -/

theorem hexDigit?_digitChar : ∀ n < 16, hexDigit? (some (Nat.digitChar n)) = some n := by decide

theorem hexFour_hexPair {n : Nat} (hn : n < 0x100) (rest : Input) :
    hexFour ((['0', '0'] ++ hexPair n).map some ++ rest) = .ok (n, rest) := by
  have zero : hexDigit? (some '0') = some 0 := hexDigit?_digitChar 0 (by decide)
  have high := hexDigit?_digitChar (n / 16) (by omega)
  have low := hexDigit?_digitChar (n % 16) (by omega)
  have value : ((0 * 16 + 0) * 16 + n / 16) * 16 + n % 16 = n := by omega
  simp only [hexPair, List.cons_append, List.nil_append, List.map_cons, List.map_nil, hexFour, zero,
    high, low, value]

theorem codePoint_hexPair {c : Char} (hc : c.toNat < 0x20) (rest : Input) :
    codePoint ((['0', '0'] ++ hexPair c.toNat).map some ++ rest) = .ok (c, rest) := by
  have leading : isLeading c.toNat = false :=
    Bool.and_eq_false_imp.mpr fun h => absurd (of_decide_eq_true h) (by omega)
  have trailing : isTrailing c.toNat = false :=
    Bool.and_eq_false_imp.mpr fun h => absurd (of_decide_eq_true h) (by omega)
  rw [codePoint, hexFour_hexPair (by omega)]
  simp [leading, trailing]

section
variable {point : Input → Except Fault (Char × Input)}
  {hp : ∀ {j s d}, point j = .ok (d, s) → s.length < j.length}

theorem body_quote (rest : Input) : body point hp (some '"' :: rest) = .ok ([], rest) := by
  rw [body]

theorem body_escape {i rest : Input} {c : Char} (h : escape point i = .ok (c, rest)) :
    body point hp (some '\\' :: i) = (body point hp rest).map fun p => (some c :: p.1, p.2) := by
  rw [body]
  split
  · next h' =>
    cases h.symm.trans h'
    rfl
  · next h' => cases h.symm.trans h'

theorem body_plain {c : Char} (quote : c ≠ '"') (backslash : c ≠ '\\') (control : ¬ c.toNat < 0x20)
    (rest : Input) :
    body point hp (some c :: rest) = (body point hp rest).map fun p => (some c :: p.1, p.2) := by
  rw [body]
  · simp [isControl, control]
  · exact fun h => quote (Option.some.inj h)
  · exact fun h => backslash (Option.some.inj h)

end

/-- One case for each way a character is printed. -/
theorem body_escapedChar (c : Char) (rest : Input) :
    body codePoint length_codePoint ((escapedChar c).map some ++ rest) =
      (body codePoint length_codePoint rest).map fun p => (some c :: p.1, p.2) := by
  unfold escapedChar
  split
  iterate 7 exact body_escape rfl
  · next c quote backslash _ _ _ _ _ =>
    split
    · next control => exact body_escape (codePoint_hexPair control rest)
    · next control => exact body_plain quote backslash control rest

theorem body_printed (cs : List Char) (rest : Input) :
    body codePoint length_codePoint ((cs.flatMap escapedChar ++ ['"']).map some ++ rest) =
      .ok (cs.map some, rest) := by
  induction cs with
  | nil => exact body_quote rest
  | cons c cs ih =>
    rw [List.flatMap_cons, List.append_assoc, List.map_append, List.append_assoc, body_escapedChar, ih]
    rfl

theorem run_stringRest (s : String) (rest : Input) :
    stringRest.run ((s.toList.flatMap escapedChar ++ ['"']).map some ++ rest) = .ok (s, rest) := by
  rw [stringRest, run_get_bind, body_printed]
  have whole : (s.toList.map some).all Option.isSome = true := by simp
  have same : String.ofList ((s.toList.map some).filterMap id) = s := by simp
  simp only [whole, same, if_true]
  rfl

/-! ## Numbers -/

/-- What follows a number is not read as part of it. -/
def Ended (rest : Input) : Prop :=
  ∀ c, rest.head? = some (some c) → c.isDigit = false ∧ c ≠ '.' ∧ c ≠ 'e' ∧ c ≠ 'E'

theorem ended_nil : Ended [] := fun _ h => nomatch h

theorem ended_cons {c : Char} (h : c.isDigit = false ∧ c ≠ '.' ∧ c ≠ 'e' ∧ c ≠ 'E') (i : Input) :
    Ended (some c :: i) := by
  rintro _ ⟨⟩
  exact h

theorem ended_of_blanks {b i : Input} (hb : ∀ u ∈ b, isBlank u) (hi : Ended i) : Ended (b ++ i) := by
  cases b with
  | nil => exact hi
  | cons u b =>
    rintro c ⟨⟩
    rcases isBlank_some.mp (hb _ List.mem_cons_self) with rfl | rfl | rfl | rfl <;> decide

theorem Ended.not_exponent {rest : Input} (h : Ended rest) :
    rest.head?.any isExponentLetter = false := by
  rw [← Bool.not_eq_true, Option.any_eq_true]
  rintro ⟨u, hu, letter⟩
  unfold isExponentLetter at letter
  split at letter
  · exact (h 'e' hu).2.2.1 rfl
  · exact (h 'E' hu).2.2.2 rfl
  · cases letter

theorem digits_append {cs : List Char} {rest : Input} (hd : ∀ c ∈ cs, c.isDigit) (hr : Ended rest) :
    digits (cs.map some ++ rest) = (cs.map fun c => c.toNat - '0'.toNat, rest) := by
  induction cs with
  | nil =>
    cases rest with
    | nil => rfl
    | cons u rest =>
      cases u with
      | none => rfl
      | some c => simp [digits, (hr c rfl).1]
  | cons c cs ih =>
    have ih := ih fun d h => hd d (List.mem_cons_of_mem _ h)
    simp [digits, hd c List.mem_cons_self, ih]

theorem le_foldl_digits (ds : List Nat) (n : Nat) : n ≤ ds.foldl (fun n d => n * 10 + d) n := by
  induction ds generalizing n with
  | nil => exact Nat.le_refl n
  | cons d ds ih => exact Nat.le_trans (by omega) (ih (n * 10 + d))

theorem extend_of_le {ds : List Nat} {n : Nat} (h : ds.foldl (fun n d => n * 10 + d) n ≤ maxWord) :
    extend n ds = (ds.foldl (fun n d => n * 10 + d) n, []) := by
  induction ds generalizing n with
  | nil => rfl
  | cons d ds ih =>
    have hd : n * 10 + d ≤ maxWord := Nat.le_trans (le_foldl_digits ds _) h
    rw [extend, if_pos hd]
    exact ih h

/-- The values of the digits printed for a number. -/
def printedDigits (n : Nat) : List Nat := (Nat.toDigits 10 n).map fun c => c.toNat - '0'.toNat

theorem valueOf_printedDigits (n : Nat) : valueOf (printedDigits n) = n := by
  have h := Nat.ofDigitChars_ten_toDigits (n := n)
  rw [Nat.ofDigitChars_eq_foldl] at h
  rw [valueOf, printedDigits, List.foldl_map]
  simpa only [Nat.mul_comm] using h

/-- No leading zero. -/
theorem exists_printedDigits {n : Nat} (hn : 0 < n) : ∃ d ds, printedDigits n = d :: ds ∧ d ≠ 0 := by
  induction n using Nat.strongRecOn with
  | ind n ih =>
    by_cases h : n < 10
    · refine ⟨n, [], ?_, by omega⟩
      rw [printedDigits, Nat.toDigits_of_lt_base h, List.map_singleton]
      exact congrArg (fun d => [d]) (Nat.toNat_digitChar_sub_48_of_lt_ten h)
    · obtain ⟨d, ds, e, hd⟩ := ih (n / 10) (by omega) (by omega)
      refine ⟨d, ds ++ [(n % 10).digitChar.toNat - '0'.toNat], ?_, hd⟩
      rw [← List.cons_append, ← e, printedDigits, Nat.toDigits_of_base_le (by decide) (by omega),
        List.map_append]
      rfl

theorem toList_repr (n : Nat) : (Int.repr n).toList = Nat.toDigits 10 n := by
  rw [← String.toList_ofList (l := Nat.toDigits 10 n), ← Nat.repr_eq_ofList_toDigits]
  rfl

theorem exists_repr (n : Nat) : ∃ c cs, (Int.repr n).toList = c :: cs ∧ c.isDigit := by
  obtain ⟨c, cs, e⟩ := List.exists_cons_of_ne_nil (Nat.toDigits_ne_nil (n := n) (b := 10))
  have hc : c ∈ Nat.toDigits 10 n := by simp [e]
  exact ⟨c, cs, (toList_repr n).trans e, Nat.isDigit_of_mem_toDigits (by decide) (by decide) hc⟩

theorem run_someDigits (n : Nat) {rest : Input} (hr : Ended rest) :
    someDigits.run ((Int.repr n).toList.map some ++ rest) = .ok (printedDigits n, rest) := by
  have take : takeDigits.run ((Int.repr n).toList.map some ++ rest) = .ok (printedDigits n, rest) := by
    have hd : ∀ c ∈ Nat.toDigits 10 n, c.isDigit :=
      fun c => Nat.isDigit_of_mem_toDigits (by decide) (by decide)
    rw [toList_repr]
    exact congrArg Except.ok (digits_append hd hr)
  rw [someDigits, run_bind_of_ok take]
  have hne : (printedDigits n).isEmpty = false := by simp [printedDigits, Nat.toDigits_ne_nil]
  simp [hne]
  rfl

theorem run_wholeDigits (n : Nat) {rest : Input} (hr : Ended rest) :
    wholeDigits.run ((Int.repr n).toList.map some ++ rest) = .ok (printedDigits n, rest) := by
  rw [wholeDigits, run_bind_of_ok (run_someDigits n hr)]
  split
  · next h =>
    rcases Nat.eq_zero_or_pos n with h0 | h0
    · subst h0
      cases h
    · obtain ⟨d, ds, e, hd⟩ := exists_printedDigits h0
      rw [h] at e
      cases e
      exact absurd rfl hd
  · rfl

/-- A printed number has no sign, no leading zero and no digit beyond 64 bits. -/
theorem run_number {n : Nat} (hn : n ≤ maxWord) {rest : Input} (hr : Ended rest) :
    number.run ((Int.repr n).toList.map some ++ rest) = .ok (.integer n, rest) := by
  have plus : sign.run ((Int.repr n).toList.map some ++ rest) =
      .ok (false, (Int.repr n).toList.map some ++ rest) := by
    obtain ⟨c, cs, e, hc⟩ := exists_repr n
    rw [e, sign, run_get_bind]
    split
    · next h =>
      cases h
      cases hc
    · rfl
  have whole : extend 0 (printedDigits n) = (n, []) := by
    have h := valueOf_printedDigits n
    rw [valueOf] at h
    rw [extend_of_le (by rw [h]; exact hn), h]
  rw [number, run_bind_of_ok plus, run_bind_of_ok (run_wholeDigits n hr), whole]
  simp only [run_get_bind]
  split
  · exact absurd rfl (hr '.' rfl).2.1
  · simp [hr.not_exponent]
    rfl

end Recognizer.Json

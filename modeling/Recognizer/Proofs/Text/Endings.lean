import Mathlib.Data.List.TakeWhile
import Recognizer.Text.Basic

/-!
# Texts that show where they end

A text that is put together from parts can be taken apart again in one way only, if each part shows where it
ends. Then so does a list of such parts, up to what cannot be one of them (`flatMap_append_inj`). A number
ends where no digit follows (`toDigits_append_inj`), and a list of numbers with its bracket
(`bracketed_injective`).
-/

namespace Recognizer.Text

set_option autoImplicit false

/-! ## Parts in a row -/

/-- `Ends` holds of what may follow a part, and `view` is what can be seen of a part in its text. -/
theorem flatMap_append_inj {α β : Type} {text : α → List Char} (view : α → β) {Ends : List Char → Prop}
    (hpart : ∀ a b r r', Ends r → Ends r' → text a ++ r = text b ++ r' → view a = view b ∧ r = r')
    (hends : ∀ a r, Ends (text a ++ r)) {as bs : List α} {r r' : List Char} (hr : Ends r) (hr' : Ends r')
    (hstop : ∀ a t, text a ++ t ≠ r) (hstop' : ∀ a t, text a ++ t ≠ r')
    (h : as.flatMap text ++ r = bs.flatMap text ++ r') : as.map view = bs.map view ∧ r = r' := by
  have hall : ∀ (cs : List α) (t : List Char), Ends t → Ends (cs.flatMap text ++ t) := by
    intro cs t ht
    cases cs with
    | nil => exact ht
    | cons c cs =>
      rw [List.flatMap_cons, List.append_assoc]
      exact hends c _
  induction as generalizing bs with
  | nil =>
    cases bs with
    | nil => exact ⟨rfl, h⟩
    | cons b bs =>
      rw [List.flatMap_cons, List.append_assoc] at h
      exact absurd h.symm (hstop b _)
  | cons a as ih =>
    cases bs with
    | nil =>
      rw [List.flatMap_cons, List.append_assoc] at h
      exact absurd h (hstop' a _)
    | cons b bs =>
      rw [List.flatMap_cons, List.flatMap_cons, List.append_assoc, List.append_assoc] at h
      obtain ⟨hab, h⟩ := hpart a b _ _ (hall as r hr) (hall bs r' hr') h
      obtain ⟨hrest, h⟩ := ih h
      exact ⟨by rw [List.map_cons, List.map_cons, hab, hrest], h⟩

/-! ## Numbers -/

variable {m n : Nat} {ms ns : List Nat} {r r' : List Char}

theorem toDigits_injective (h : Nat.toDigits 10 m = Nat.toDigits 10 n) : m = n := by
  rw [← Nat.ofDigitChars_ten_toDigits (n := m), h, Nat.ofDigitChars_ten_toDigits]

/-- The text does not go on with a digit. -/
def NoDigit (r : List Char) : Prop := ∀ c ∈ r.head?, c.isDigit = false

theorem noDigit_cons {c : Char} (h : c.isDigit = false) : NoDigit (c :: r) := by
  rintro _ ⟨⟩
  exact h

theorem takeWhile_toDigits_append (hr : NoDigit r) :
    (Nat.toDigits 10 n ++ r).takeWhile Char.isDigit = Nat.toDigits 10 n := by
  have hn : ∀ c ∈ Nat.toDigits 10 n, c.isDigit := fun c =>
    Nat.isDigit_of_mem_toDigits (by decide) (by decide)
  rw [List.takeWhile_append_of_pos hn]
  cases r with
  | nil => exact List.append_nil _
  | cons c r => rw [List.takeWhile_cons, hr c rfl, if_neg Bool.false_ne_true, List.append_nil]

theorem toDigits_append_inj (hr : NoDigit r) (hr' : NoDigit r')
    (h : Nat.toDigits 10 m ++ r = Nat.toDigits 10 n ++ r') : m = n ∧ r = r' := by
  have hmn : m = n := by
    apply toDigits_injective
    rw [← takeWhile_toDigits_append hr, h, takeWhile_toDigits_append hr']
  subst hmn
  exact ⟨rfl, List.append_cancel_left h⟩

theorem toDigits_append_ne_cons {c : Char} (hc : c.isDigit = false) :
    Nat.toDigits 10 n ++ r ≠ c :: r' := by
  obtain ⟨d, ds, e⟩ := List.exists_cons_of_ne_nil (Nat.toDigits_ne_nil (n := n) (b := 10))
  have hd : d.isDigit := Nat.isDigit_of_mem_toDigits (by decide) (by decide) (e ▸ List.mem_cons_self)
  intro h
  rw [e] at h
  cases h
  rw [hc] at hd
  cases hd

/-! ## Lists of numbers -/

/-- A number after another one. -/
def further (n : Nat) : List Char := ',' :: ' ' :: Nat.toDigits 10 n

theorem numbers_cons (n : Nat) (ns : List Nat) : numbers (n :: ns) = Nat.toDigits 10 n ++ ns.flatMap further := by
  induction ns generalizing n with
  | nil => exact List.intercalate_singleton.trans (List.append_nil _).symm
  | cons m ns ih =>
    have ih := ih m
    rw [numbers, List.map_cons] at ih
    rw [numbers, List.map_cons, List.map_cons, List.intercalate_cons_cons, ih, List.flatMap_cons, further,
      List.append_assoc]
    rfl

theorem further_append_inj (hr : NoDigit r) (hr' : NoDigit r') (h : further m ++ r = further n ++ r') :
    m = n ∧ r = r' :=
  toDigits_append_inj hr hr' (List.cons.inj (List.cons.inj h).2).2

theorem numbers_append_inj (h : numbers ms ++ ']' :: r = numbers ns ++ ']' :: r') : ms = ns ∧ r = r' := by
  have hclose : ∀ r, NoDigit (']' :: r) := fun r => noDigit_cons rfl
  have hfurther : ∀ n r, NoDigit (further n ++ r) := fun n r => noDigit_cons rfl
  have hstop : ∀ n t r, further n ++ t ≠ ']' :: r := fun n t r h => nomatch h
  have hafter : ∀ (ns : List Nat) (r : List Char), NoDigit (ns.flatMap further ++ ']' :: r) := by
    intro ns r
    cases ns with
    | nil => exact hclose r
    | cons n ns => exact noDigit_cons rfl
  cases ms with
  | nil =>
    cases ns with
    | nil => exact ⟨rfl, (List.cons.inj h).2⟩
    | cons n ns =>
      rw [numbers_cons, List.append_assoc] at h
      exact absurd h.symm (toDigits_append_ne_cons rfl)
  | cons m ms =>
    cases ns with
    | nil =>
      rw [numbers_cons, List.append_assoc] at h
      exact absurd h (toDigits_append_ne_cons rfl)
    | cons n ns =>
      rw [numbers_cons, numbers_cons, List.append_assoc, List.append_assoc] at h
      obtain ⟨rfl, htail⟩ := toDigits_append_inj (hafter ms r) (hafter ns r') h
      obtain ⟨hrest, hclosed⟩ := flatMap_append_inj id (fun _ _ _ _ hr hr' h => further_append_inj hr hr' h)
        hfurther (hclose r) (hclose r') (fun n t => hstop n t r) (fun n t => hstop n t r') htail
      rw [List.map_id, List.map_id] at hrest
      exact ⟨by rw [hrest], (List.cons.inj hclosed).2⟩

theorem bracketed_injective (h : bracketed ms = bracketed ns) : ms = ns :=
  (numbers_append_inj (List.cons.inj (String.ofList_injective h)).2).1

theorem bracketed_ne_repr : bracketed ms ≠ n.repr := by
  intro h
  rw [Nat.repr_eq_ofList_toDigits] at h
  have h : '[' :: (numbers ms ++ [']']) = Nat.toDigits 10 n := String.ofList_injective h
  rw [← List.append_nil (Nat.toDigits 10 n)] at h
  exact toDigits_append_ne_cons rfl h.symm

end Recognizer.Text

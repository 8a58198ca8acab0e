import Mathlib.Data.List.Duplicate
import Recognizer.Document.Names
import Recognizer.Proofs.Fallible
import Recognizer.Proofs.Positions

/-!
# Names that are declared and found again

Symbols come back from the texts they are written as. The names of the members of a set are declared
without complaint when they tell the members apart (`declare_eq_ok`), and each is then found at the rank
of its member (`locate_eq_ok`). A complaint quotes a name that two members share (`declare_eq_error`).
-/

namespace Recognizer.Document

set_option autoImplicit false

/-! ## Symbols -/

theorem symbol_toString (c : Symbol) : symbol c.toString = .ok c := by
  unfold symbol Text.onlyChar?
  rw [show c.toString.toList = [c] from String.toList_singleton c]

theorem onlyChar?_eq_some {text : String} {c : Symbol} :
    Text.onlyChar? text = some c ↔ text = c.toString := by
  rw [← String.toList_inj, show c.toString.toList = [c] from String.toList_singleton c]
  unfold Text.onlyChar?
  split
  · next d hd => simp [hd]
  · next hn =>
    simp only [reduceCtorEq, false_iff]
    exact hn c

theorem symbol_eq_ok {text : String} {c : Symbol} : symbol text = .ok c ↔ text = c.toString := by
  rw [← onlyChar?_eq_some, symbol]
  cases Text.onlyChar? text <;> simp

/-- A text of exactly one character. -/
def IsSymbol (text : String) : Prop := ∃ c : Symbol, text = c.toString

instance : DecidablePred IsSymbol := fun text =>
  decidable_of_iff ((Text.onlyChar? text).isSome = true) <| by
    rw [Option.isSome_iff_exists]
    exact exists_congr fun _ => onlyChar?_eq_some

theorem fault?_symbol (text : String) :
    fault? (symbol text) = if IsSymbol text then none else some (.notSymbol text) := by
  split
  · next h =>
    obtain ⟨c, rfl⟩ := h
    rw [symbol_toString]
    rfl
  · next h =>
    unfold symbol
    cases hc : Text.onlyChar? text with
    | none => rfl
    | some c => exact absurd ⟨c, onlyChar?_eq_some.mp hc⟩ h

theorem toString_injective {c d : Symbol} (h : c.toString = d.toString) : c = d := by
  have hs := symbol_toString c
  rw [h, symbol_toString] at hs
  cases hs
  rfl

theorem mapM_symbol (cs : List Symbol) : (cs.map Char.toString).mapM symbol = .ok cs := by
  have h : symbol ∘ Char.toString = pure := funext symbol_toString
  rw [List.mapM_map, h]
  induction cs with
  | nil => rfl
  | cons c cs ih =>
    rw [List.mapM_cons, ih]
    rfl

theorem alphabet_symbolTexts (A : Alphabet) : alphabet (symbolTexts A) = .ok A := by
  unfold alphabet symbolTexts
  rw [mapM_symbol]
  show Except.ok (SortedSet.ofList A.toList) = _
  rw [SortedSet.ofList_toList]

theorem exists_symbols {texts : List String} (h : ∀ x ∈ texts, IsSymbol x) :
    ∃ cs : List Symbol, texts = cs.map Char.toString := by
  induction texts with
  | nil => exact ⟨[], rfl⟩
  | cons x xs ih =>
    obtain ⟨⟨c, rfl⟩, hxs⟩ := List.forall_mem_cons.mp h
    obtain ⟨cs, rfl⟩ := ih hxs
    exact ⟨c :: cs, rfl⟩

/-- The alphabet is settled by its members, so there is one at most. -/
theorem alphabet_eq_ok {texts : List String} {A : Alphabet} : alphabet texts = .ok A ↔
    (∀ x ∈ texts, IsSymbol x) ∧ ∀ c : Symbol, c ∈ A ↔ c.toString ∈ texts := by
  have hmem : ∀ (cs : List Symbol) (c : Symbol), c.toString ∈ cs.map Char.toString ↔ c ∈ cs :=
    fun cs c => List.mem_map_of_injective fun _ _ => toString_injective
  constructor
  · intro h
    obtain ⟨cs, hcs, h⟩ := bind_eq_ok.mp h
    cases h
    have htexts : texts = cs.map Char.toString := by
      rw [← List.forall₂_eq_eq_eq, List.forall₂_map_right_iff]
      exact (mapM_eq_ok.mp hcs).imp fun _ _ => symbol_eq_ok.mp
    subst htexts
    refine ⟨List.forall_mem_map.mpr fun c _ => ⟨c, rfl⟩, fun c => ?_⟩
    rw [SortedSet.mem_ofList, hmem]
  · rintro ⟨hx, hA⟩
    obtain ⟨cs, rfl⟩ := exists_symbols hx
    unfold alphabet
    rw [mapM_symbol, ok_bind]
    refine congrArg Except.ok (SortedSet.ext_mem fun c => ?_)
    rw [SortedSet.mem_ofList, hA, hmem]

theorem fault?_alphabet (texts : List String) : fault? (alphabet texts) =
    ((texts.filter fun x => ¬ IsSymbol x).map Flaw.notSymbol).head? := by
  have h : fault? (alphabet texts) = fault? (texts.mapM symbol) := by
    unfold alphabet
    cases texts.mapM symbol <;> rfl
  rw [h, fault?_mapM]
  clear h
  induction texts with
  | nil => rfl
  | cons x xs ih =>
    rw [List.findSome?_cons, fault?_symbol, ih]
    by_cases hx : IsSymbol x <;> simp [hx]

theorem exists_alphabet {texts : List String} (h : ∀ x ∈ texts, IsSymbol x) :
    ∃ A, alphabet texts = .ok A := by
  rw [← fault?_eq_none, fault?_alphabet, List.head?_eq_none_iff, List.map_eq_nil_iff,
    List.filter_eq_nil_iff]
  simpa using h

/-! ## States -/

variable {S : Type} {shown : S → String} {xs : List S} {x : S}

/-- A name that occurs twice belongs to two of the things that are named. -/
theorem exists_of_duplicate_map {α : Type} {name : α → S} {as : List α} (hn : as.Nodup)
    (h : List.Duplicate x (as.map name)) :
    ∃ a ∈ as, ∃ b ∈ as, a ≠ b ∧ name a = x ∧ name b = x := by
  induction as with
  | nil => exact h.elim_nil.elim
  | cons a as ih =>
    obtain ⟨ha, hn⟩ := List.nodup_cons.mp hn
    rw [List.map_cons, List.duplicate_cons_iff] at h
    rcases h with ⟨e, hx⟩ | h
    · obtain ⟨b, hb, hbx⟩ := List.mem_map.mp hx
      have hab : a ≠ b := fun e => ha (e ▸ hb)
      exact ⟨a, List.mem_cons_self, b, List.mem_cons_of_mem _ hb, hab, e, hbx⟩
    · obtain ⟨c, hc, b, hb, h⟩ := ih hn h
      exact ⟨c, List.mem_cons_of_mem _ hc, b, List.mem_cons_of_mem _ hb, h⟩

variable [DecidableEq S]

theorem firstRepeat?_eq_none {seen : List S} :
    firstRepeat? seen xs = none ↔ xs.Nodup ∧ ∀ x ∈ xs, x ∉ seen := by
  induction xs generalizing seen with
  | nil => simp [firstRepeat?]
  | cons y ys ih =>
    unfold firstRepeat?
    split
    · next hy => simp [hy]
    · next hy =>
      rw [ih]
      simp only [List.mem_cons, not_or, List.nodup_cons, forall_eq_or_imp]
      constructor
      · rintro ⟨hn, h⟩
        exact ⟨⟨fun m => (h y m).1 rfl, hn⟩, hy, fun z hz => (h z hz).2⟩
      · rintro ⟨⟨hm, hn⟩, -, h⟩
        exact ⟨hn, fun z hz => ⟨fun e => hm (e ▸ hz), h z hz⟩⟩

theorem firstRepeat?_eq_some {seen : List S} (h : firstRepeat? seen xs = some x) :
    x ∈ xs ∧ x ∈ seen ∨ List.Duplicate x xs := by
  induction xs generalizing seen with
  | nil => cases h
  | cons y ys ih =>
    unfold firstRepeat? at h
    split at h
    · next hy =>
      cases h
      exact Or.inl ⟨List.mem_cons_self, hy⟩
    · rcases ih h with ⟨hx, hs⟩ | hd
      · rcases List.mem_cons.mp hs with rfl | hs
        · exact Or.inr (hx.duplicate_cons_self)
        · exact Or.inl ⟨List.mem_cons_of_mem _ hx, hs⟩
      · exact Or.inr (hd.duplicate_cons y)

theorem firstRepeat?_nil_eq_none : firstRepeat? [] xs = none ↔ xs.Nodup := by
  rw [firstRepeat?_eq_none]
  exact and_iff_left fun y _ => List.not_mem_nil

section
variable {names : List S} {i : State} {m : Flaw}

theorem declare_eq_ok_iff : declare shown names = .ok () ↔ names.Nodup := by
  rw [← firstRepeat?_nil_eq_none, declare]
  cases firstRepeat? [] names <;> simp

theorem exists_of_declare_eq_error (h : declare shown names = .error m) :
    ∃ x, m = .repeatedName (shown x) := by
  unfold declare at h
  cases hx : firstRepeat? [] names with
  | none =>
    rw [hx] at h
    cases h
  | some x =>
    rw [hx] at h
    cases h
    exact ⟨x, rfl⟩

theorem locate_eq_ok_iff_idxOf? : locate shown names x = .ok i ↔ names.idxOf? x = some i := by
  unfold locate
  cases names.idxOf? x <;> simp

theorem exists_locate : (∃ i, locate shown names x = .ok i) ↔ x ∈ names := by
  simp only [locate_eq_ok_iff_idxOf?, ← Option.isSome_iff_exists, List.isSome_idxOf?]

theorem getElem?_of_locate (h : locate shown names x = .ok i) : names[i]? = some x := by
  obtain ⟨hi, hx, -⟩ := List.idxOf?_eq_some_iff.mp (locate_eq_ok_iff_idxOf?.mp h)
  exact List.getElem?_eq_some_iff.mpr ⟨hi, hx⟩

/-- Where no name is declared twice, a name stands for its place. -/
theorem locate_eq_ok_iff (h : names.Nodup) : locate shown names x = .ok i ↔ names[i]? = some x := by
  rw [locate_eq_ok_iff_idxOf?, idxOf?_eq_some_iff_of_nodup h]

theorem locate_eq_error (h : locate shown names x = .error m) : m = .unknownName (shown x) := by
  unfold locate at h
  cases hx : names.idxOf? x with
  | none =>
    rw [hx] at h
    cases h
    rfl
  | some i =>
    rw [hx] at h
    cases h

end

/-! ## Names of the members of a set -/

section
variable {α : Type} [Ranked α] {s : SortedSet α} {name : α → S}

theorem declare_eq_ok (h : s.ToldApart name) : declare shown (s.toList.map name) = .ok () := by
  unfold declare
  rw [firstRepeat?_nil_eq_none.mpr (SortedSet.nodup_map_iff.mpr h)]

theorem declare_eq_error (h : ¬ s.ToldApart name) :
    ∃ a ∈ s, ∃ b ∈ s, a ≠ b ∧ name a = name b ∧
      declare shown (s.toList.map name) = .error (.repeatedName (shown (name a))) := by
  cases hx : firstRepeat? [] (s.toList.map name) with
  | none => exact absurd (SortedSet.nodup_map_iff.mp (firstRepeat?_nil_eq_none.mp hx)) h
  | some x =>
    have hdup : List.Duplicate x (s.toList.map name) := by
      rcases firstRepeat?_eq_some hx with ⟨-, hm⟩ | hd
      · exact absurd hm List.not_mem_nil
      · exact hd
    obtain ⟨a, ha, b, hb, hab, rfl, e⟩ := exists_of_duplicate_map s.nodup_toList hdup
    refine ⟨a, ha, b, hb, hab, e.symm, ?_⟩
    unfold declare
    rw [hx]

theorem locate_eq_ok (h : s.ToldApart name) {a : α} (ha : a ∈ s) :
    locate shown (s.toList.map name) (name a) = .ok (s.countBelow a) := by
  unfold locate
  rw [SortedSet.idxOf?_map_countBelow h ha]

end

end Recognizer.Document

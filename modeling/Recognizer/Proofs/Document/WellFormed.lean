import Recognizer.Document.Table
import Recognizer.Proofs.Document.Names

/-!
# Well-formed listings

What a listing has to satisfy to describe an automaton (`Listing.WellFormed`), and what else it has to
satisfy to describe a deterministic one (`Listing.Deterministic`), whatever its states are called.
-/

namespace Recognizer.Document

set_option autoImplicit false

variable {S : Type}

namespace Listing

/-- The texts of the symbols that make the alphabet. -/
def alphabetTexts (d : Listing S) : List String := d.alphabet.getD (d.edges.filterMap Edge.symbol)

theorem symbols_eq (d : Listing S) : d.symbols = Document.alphabet d.alphabetTexts := by
  unfold symbols alphabetTexts
  cases d.alphabet <;> rfl

/-- Texts of symbols are single characters, edges use symbols of the alphabet if one is given, and all
states in use are listed. -/
structure WellFormed (d : Listing S) : Prop where
  alphabet : ∀ xs, d.alphabet = some xs → ∀ x ∈ xs, IsSymbol x
  symbols : ∀ e ∈ d.edges, ∀ x, e.symbol = some x → IsSymbol x
  declared : ∀ xs, d.alphabet = some xs → ∀ e ∈ d.edges, ∀ x, e.symbol = some x → x ∈ xs
  initial : d.initial ∈ d.states
  finals : ∀ s ∈ d.finals, s ∈ d.states
  ends : ∀ e ∈ d.edges, e.source ∈ d.states ∧ e.target ∈ d.states

/-- No edge is silent, and edges that leave one state on one symbol enter one state. -/
structure Deterministic (d : Listing S) : Prop extends d.WellFormed where
  audible : ∀ e ∈ d.edges, e.symbol ≠ none
  functional : ∀ e ∈ d.edges, ∀ f ∈ d.edges, e.source = f.source → e.symbol = f.symbol →
    e.target = f.target

variable {d : Listing S}

theorem mem_alphabetTexts_of_none (h : d.alphabet = none) {x : String} :
    x ∈ d.alphabetTexts ↔ ∃ e ∈ d.edges, e.symbol = some x := by
  rw [alphabetTexts, h, Option.getD_none, List.mem_filterMap]

/-- Whether the alphabet is given or not, its texts are single characters and those of the edges are
among them. -/
theorem wellFormed_iff : d.WellFormed ↔
    ((∀ x ∈ d.alphabetTexts, IsSymbol x) ∧
      ∀ e ∈ d.edges, ∀ x, e.symbol = some x → x ∈ d.alphabetTexts) ∧
    d.initial ∈ d.states ∧ (∀ s ∈ d.finals, s ∈ d.states) ∧
      ∀ e ∈ d.edges, e.source ∈ d.states ∧ e.target ∈ d.states := by
  constructor
  · intro h
    refine ⟨⟨fun x hx => ?_, fun e he x hx => ?_⟩, h.initial, h.finals, h.ends⟩
    · cases ha : d.alphabet with
      | none =>
        obtain ⟨e, he, hex⟩ := (mem_alphabetTexts_of_none ha).mp hx
        exact h.symbols e he x hex
      | some xs =>
        rw [alphabetTexts, ha] at hx
        exact h.alphabet xs ha x hx
    · cases ha : d.alphabet with
      | none => exact (mem_alphabetTexts_of_none ha).mpr ⟨e, he, hx⟩
      | some xs =>
        rw [alphabetTexts, ha]
        exact h.declared xs ha e he x hx
  · rintro ⟨⟨ht, he⟩, hi, hf, hends⟩
    refine ⟨fun xs ha x hx => ht x ?_, fun e hm x hx => ht x (he e hm x hx), fun xs ha e hm x hx => ?_,
      hi, hf, hends⟩
    · rw [alphabetTexts, ha]
      exact hx
    · have := he e hm x hx
      rwa [alphabetTexts, ha] at this

end Listing

/-! ## Tables -/

namespace Table

/-- Names are declared once each, rows have symbols of the alphabet for keys, and all names in use are
declared, those of empty rows included. -/
structure WellFormed (d : Table) : Prop where
  names : d.states.Nodup
  alphabet : ∀ x ∈ d.alphabet, IsSymbol x
  keys : ∀ r ∈ d.rows.entries, ∀ e ∈ r.2.entries, IsSymbol e.1 ∧ e.1 ∈ d.alphabet
  initial : d.initial ∈ d.states
  finals : ∀ x ∈ d.finals, x ∈ d.states
  sources : ∀ r ∈ d.rows.entries, r.1 ∈ d.states
  targets : ∀ r ∈ d.rows.entries, ∀ e ∈ r.2.entries, e.2 ∈ d.states

/-- The entries of a table as edges. -/
def listing (d : Table) : Listing String where
  states := d.states
  alphabet := some d.alphabet
  initial := d.initial
  finals := d.finals
  edges := d.rows.entries.flatMap fun r => r.2.entries.map fun e => ⟨r.1, e.2, some e.1⟩

end Table

end Recognizer.Document

import Recognizer.Document.Table
import Recognizer.Proofs.Json.ReadBack

/-!
# Texts of documents

A listing and a table are read from their text as they were, whatever texts they hold.
-/

namespace Recognizer.Document

set_option autoImplicit false

open Json (Reads Fills Gathers reads_text reads_list reads_map reads_record reads_null)
open Text (Input)

variable {S : Type} {sp : Spelling S}

/-! ## Edges -/

theorem reads_symbol (symbol : Option String) :
    Reads (fun _ => Json.optional Json.text) (symbol.elim .null .string) symbol := by
  cases symbol with
  | none => exact reads_null
  | some s => exact (reads_text s).optional fun _ h => nomatch h

theorem reads_edge {e : Edge S} (hs : Reads sp.read (sp.write e.source) e.source)
    (ht : Reads sp.read (sp.write e.target) e.target) :
    Reads (Edge.reader sp) (e.toJson sp) e := by
  have source : Gathers (EdgeFields.add sp) "from" (sp.write e.source) {} ⟨some e.source, none, none⟩ :=
    .once hs (fun x => ⟨x, none, none⟩) (fun n => rfl) rfl
  have target : Gathers (EdgeFields.add sp) "to" (sp.write e.target) ⟨some e.source, none, none⟩
      ⟨some e.source, some e.target, none⟩ :=
    .once ht (fun x => ⟨some e.source, x, none⟩) (fun n => rfl) rfl
  have symbol : Gathers (EdgeFields.add sp) "symbol" (e.symbol.elim .null .string)
      ⟨some e.source, some e.target, none⟩ ⟨some e.source, some e.target, some e.symbol⟩ :=
    .once (reads_symbol e.symbol) (fun x => ⟨some e.source, some e.target, x⟩) (fun n => rfl) rfl
  exact reads_record (.cons source (.cons target (.cons symbol (.nil _)))) (fun i => rfl) _

/-! ## Listings -/

/-- The states at all places of a listing. -/
def Listing.mentioned (d : Listing S) : List S :=
  d.states ++ d.initial :: d.finals ++ d.edges.flatMap fun e => [e.source, e.target]

theorem reads_texts (ss : List String) : Reads (Json.listOf Json.text) (texts ss) ss :=
  reads_list fun s _ => reads_text s

/-- The alphabet is written only if it is given. -/
theorem fills_alphabet {f : ListingFields S} (hf : f.alphabet = none) (A : Option (List String)) :
    Fills (ListingFields.add sp) (A.map fun ss => ("alphabet", texts ss)).toList f
      { f with alphabet := A.map some } := by
  obtain ⟨states, _, initial, finals, edges⟩ := f
  cases hf
  cases A with
  | none => exact .nil _
  | some ss =>
    have alphabet := (reads_texts ss).optional fun level => by
      rw [texts, Json.head?_prettyText_array]
      decide
    exact .cons (.once alphabet (fun x => ⟨states, x, initial, finals, edges⟩) (fun n => rfl) rfl)
      (.nil _)

theorem reads_listing {d : Listing S} (h : ∀ x ∈ d.mentioned, Reads sp.read (sp.write x) x) :
    Reads (Listing.reader sp) (d.toJson sp) d := by
  have states : Reads (fun n => Json.listOf (sp.read n) n) (.array (d.states.map sp.write)) d.states :=
    reads_list fun x hx => h x (by simp [Listing.mentioned, hx])
  have initial : Reads sp.read (sp.write d.initial) d.initial := h _ (by simp [Listing.mentioned])
  have finals : Reads (fun n => Json.listOf (sp.read n) n) (.array (d.finals.map sp.write)) d.finals :=
    reads_list fun x hx => h x (by simp [Listing.mentioned, hx])
  have edges : Reads (fun n => Json.listOf (Edge.reader sp n) n)
      (.array (d.edges.map (Edge.toJson sp))) d.edges := by
    refine reads_list fun e he => ?_
    have ends : ∀ x ∈ [e.source, e.target], x ∈ d.mentioned := fun x hx =>
      List.mem_append_right _ (List.mem_flatMap.mpr ⟨e, he, hx⟩)
    exact reads_edge (h _ (ends _ (by simp))) (h _ (ends _ (by simp)))
  have takeStates : Gathers (ListingFields.add sp) "states" (.array (d.states.map sp.write)) {}
      ⟨some d.states, none, none, none, none⟩ :=
    .once states (fun x => ⟨x, none, none, none, none⟩) (fun n => rfl) rfl
  have takeInitial (A : Option (Option (List String))) :
      Gathers (ListingFields.add sp) "initial_state" (sp.write d.initial)
        ⟨some d.states, A, none, none, none⟩ ⟨some d.states, A, some d.initial, none, none⟩ :=
    .once initial (fun x => ⟨some d.states, A, x, none, none⟩) (fun n => rfl) rfl
  have takeFinals (A : Option (Option (List String))) :
      Gathers (ListingFields.add sp) "final_states" (.array (d.finals.map sp.write))
        ⟨some d.states, A, some d.initial, none, none⟩
        ⟨some d.states, A, some d.initial, some d.finals, none⟩ :=
    .once finals (fun x => ⟨some d.states, A, some d.initial, x, none⟩) (fun n => rfl) rfl
  have takeEdges (A : Option (Option (List String))) :
      Gathers (ListingFields.add sp) "transitions" (.array (d.edges.map (Edge.toJson sp)))
        ⟨some d.states, A, some d.initial, some d.finals, none⟩
        ⟨some d.states, A, some d.initial, some d.finals, some d.edges⟩ :=
    .once edges (fun x => ⟨some d.states, A, some d.initial, some d.finals, x⟩) (fun n => rfl) rfl
  have before := Fills.cons takeStates (.nil _)
  have behind (A) := Fills.cons (takeInitial A) (.cons (takeFinals A) (.cons (takeEdges A) (.nil _)))
  have fills := (before.append (fills_alphabet rfl d.alphabet)).append (behind _)
  have alphabet : (d.alphabet.map some).getD none = d.alphabet := by
    cases d.alphabet <;> rfl
  refine reads_record fills (fun i => ?_) _
  rw [alphabet]
  rfl

/-! ## Tables -/

theorem reads_rows (rows : OrderedMap String (OrderedMap String String)) :
    Reads Table.rowsReader (.object (rows.entries.map fun e => (e.1, Table.rowJson e.2))) rows :=
  reads_map fun _ _ => reads_map fun _ _ => reads_text _

theorem reads_table (d : Table) : Reads Table.reader d.toJson d := by
  have states : Gathers Table.Fields.add "states" (texts d.states) {}
      ⟨some d.states, none, none, none, none⟩ :=
    .once (reads_texts _) (fun x => ⟨x, none, none, none, none⟩) (fun n => rfl) rfl
  have alphabet : Gathers Table.Fields.add "alphabet" (texts d.alphabet)
      ⟨some d.states, none, none, none, none⟩ ⟨some d.states, some d.alphabet, none, none, none⟩ :=
    .once (reads_texts _) (fun x => ⟨some d.states, x, none, none, none⟩) (fun n => rfl) rfl
  have initial : Gathers Table.Fields.add "initial_state" (.string d.initial)
      ⟨some d.states, some d.alphabet, none, none, none⟩
      ⟨some d.states, some d.alphabet, some d.initial, none, none⟩ :=
    .once (reads_text _) (fun x => ⟨some d.states, some d.alphabet, x, none, none⟩) (fun n => rfl) rfl
  have finals : Gathers Table.Fields.add "final_states" (texts d.finals)
      ⟨some d.states, some d.alphabet, some d.initial, none, none⟩
      ⟨some d.states, some d.alphabet, some d.initial, some d.finals, none⟩ :=
    .once (reads_texts _) (fun x => ⟨some d.states, some d.alphabet, some d.initial, x, none⟩)
      (fun n => rfl) rfl
  have rows : Gathers Table.Fields.add "transitions"
      (.object (d.rows.entries.map fun e => (e.1, Table.rowJson e.2)))
      ⟨some d.states, some d.alphabet, some d.initial, some d.finals, none⟩
      ⟨some d.states, some d.alphabet, some d.initial, some d.finals, some d.rows⟩ :=
    .once (reads_rows d.rows)
      (fun x => ⟨some d.states, some d.alphabet, some d.initial, some d.finals, x⟩) (fun n => rfl) rfl
  exact reads_record
    (.cons states (.cons alphabet (.cons initial (.cons finals (.cons rows (.nil _))))))
    (fun i => rfl) _

/-! ## Texts read back -/

/-- Nothing is lost in a text: a listing of either spelling and a table are read back as they were,
the order of lists and of keys included. Only the numbers of states have to be below `stateBound`. -/
theorem read_text :
    (∀ d : Listing State, (∀ s ∈ d.mentioned, s < stateBound) →
      Listing.read .number (Input.ofString (d.text .number)) = .ok d) ∧
    (∀ d : Listing (List State), (∀ ss ∈ d.mentioned, ∀ s ∈ ss, s < stateBound) →
      Listing.read .members (Input.ofString (d.text .members)) = .ok d) ∧
    ∀ d : Table, Table.read (Input.ofString d.text) = .ok d := by
  have number (s : State) (hs : s < stateBound) :
      Reads Spelling.number.read (Spelling.number.write s) s :=
    Json.reads_natural hs (by decide)
  refine ⟨fun d h => ?_, fun d h => ?_, fun d => (reads_table d).readWith_pretty⟩
  · exact (reads_listing fun s hs => number s (h s hs)).readWith_pretty
  · exact (reads_listing fun ss hs => reads_list fun s m => number s (h ss hs s m)).readWith_pretty

theorem read_text_unusual :
    let d : Listing State := ⟨[0, 4294967295], some [], 0, [],
      [⟨0, 4294967295, none⟩, ⟨4294967295, 0, some "\"\\\n\x01é𝄞"⟩]⟩
    let e : Listing (List State) := ⟨[[], [1, 0]], none, [1, 0], [[]], []⟩
    let rows : OrderedMap String (OrderedMap String String) :=
      ⟨[("q", ⟨[("", "q"), ("ab", "\t")], by decide⟩), ("", ∅)], by decide⟩
    let f : Table := ⟨["q", ""], [], "q", ["", ""], rows⟩
    ((∀ s ∈ d.mentioned, s < stateBound) ∧
      Listing.read .number (Input.ofString (d.text .number)) = .ok d) ∧
    ((∀ ss ∈ e.mentioned, ∀ s ∈ ss, s < stateBound) ∧
      Listing.read .members (Input.ofString (e.text .members)) = .ok e) ∧
    Table.read (Input.ofString f.text) = .ok f := by
  intro d e rows f
  have hd : ∀ s ∈ d.mentioned, s < stateBound := by decide
  have he : ∀ ss ∈ e.mentioned, ∀ s ∈ ss, s < stateBound := by decide
  exact ⟨⟨hd, read_text.1 d hd⟩, ⟨he, read_text.2.1 e he⟩, read_text.2.2 f⟩

end Recognizer.Document

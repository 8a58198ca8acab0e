import Recognizer.Json.Record
import Recognizer.Proofs.Json.Scalars
import Recognizer.Proofs.OrderedMap

/-!
# Printed values read back

`Reads r j a`: wherever the indented text of `j` stands, the reader `r` takes exactly this text and
gives `a`. Lists and maps keep the relation from their items. An object is read member by member;
`Fills` follows what has been gathered while its members pass.
-/

namespace Recognizer.Json

set_option autoImplicit false

open Text (Input)

variable {α σ : Type}

/-! ## Layout -/

theorem isBlank_newline (level : Nat) : ∀ u ∈ (newline level).map some, isBlank u := by
  intro u hu
  obtain ⟨c, hc, rfl⟩ := List.mem_map.mp hu
  rcases List.mem_cons.mp hc with rfl | hc
  · rfl
  · rw [List.eq_of_mem_replicate hc]
    rfl

/-- A list that is not empty is closed on a line of its own. -/
theorem prettyText_array (level : Nat) (js : List Json) :
    ∃ b : List Char, (∀ u ∈ b.map some, isBlank u) ∧
      prettyText level (.array js) = '[' :: prettyElements (level + 1) true js ++ (b ++ [']']) := by
  cases js with
  | nil => exact ⟨[], by simp, rfl⟩
  | cons j js =>
    exact ⟨newline level, isBlank_newline level, by simp [prettyText]⟩

theorem head?_prettyText_array (level : Nat) (js : List Json) :
    (prettyText level (.array js)).head? = some '[' := by
  obtain ⟨b, -, e⟩ := prettyText_array level js
  rw [e]
  rfl

theorem prettyText_object (level : Nat) (ms : List (String × Json)) :
    ∃ b : List Char, (∀ u ∈ b.map some, isBlank u) ∧
      prettyText level (.object ms) = '\x7b' :: prettyMembers (level + 1) true ms ++ (b ++ ['\x7d']) := by
  cases ms with
  | nil => exact ⟨[], by simp, rfl⟩
  | cons m ms =>
    exact ⟨newline level, isBlank_newline level, by simp [prettyText]⟩

/-! ## Values -/

/-- No blank, and nothing that ends or parts the elements of a list. -/
def Opens (c : Char) : Prop := ¬ isBlank (some c) ∧ c ≠ ']' ∧ c ≠ ','

instance : DecidablePred Opens := fun c => inferInstanceAs (Decidable (¬ isBlank (some c) ∧ _))

theorem opens_of_isDigit {c : Char} (h : c.isDigit) : Opens c := by
  refine ⟨fun hb => ?_, ?_, ?_⟩
  · rcases isBlank_some.mp hb with rfl | rfl | rfl | rfl <;> cases h
  · rintro rfl
    cases h
  · rintro rfl
    cases h

/-- `r` reads the text of `j` as `a`: on every level, behind blanks, and as part of a longer text. -/
structure Reads (r : Nat → Reader α) (j : Json) (a : α) : Prop where
  opens : ∀ level, ∃ c cs, prettyText level j = c :: cs ∧ Opens c
  run : ∀ {n level : Nat} {b rest : Input}, (∀ u ∈ b, isBlank u) → (prettyText level j).length < n →
    Ended rest → (r n).run (b ++ ((prettyText level j).map some ++ rest)) = .ok (a, rest)

theorem Reads.run_self {r : Nat → Reader α} {j : Json} {a : α} (h : Reads r j a) {n : Nat} (level : Nat)
    {rest : Input} (hn : (prettyText level j).length < n) (hr : Ended rest) :
    (r n).run ((prettyText level j).map some ++ rest) = .ok (a, rest) :=
  h.run (b := []) (by simp) hn hr

/-- A reader that skips blanks first need only be looked at behind them. -/
theorem reads_of_blanks {r : Nat → Reader α} {j : Json} {a : α}
    (opens : ∀ level, ∃ c cs, prettyText level j = c :: cs ∧ Opens c)
    (run : ∀ {n level : Nat} {rest : Input}, (prettyText level j).length < n → Ended rest →
      (r n).run ((prettyText level j).map some ++ rest) = .ok (a, rest)) :
    Reads (fun n => do blanks; r n) j a where
  opens := opens
  run {n level b rest} hb hn hr := by
    have skip : blanks.run (b ++ ((prettyText level j).map some ++ rest)) =
        .ok ((), (prettyText level j).map some ++ rest) := by
      refine run_blanks hb fun u hu => ?_
      obtain ⟨c, cs, e, hc⟩ := opens level
      rw [e] at hu
      cases hu
      exact hc.1
    rw [run_bind_of_ok skip]
    exact run hn hr

theorem reads_text (s : String) : Reads (fun _ => text) (.string s) s :=
  reads_of_blanks (fun _ => ⟨'"', _, rfl, by decide⟩) fun _ _ => run_stringRest s _

theorem reads_natural {bound k : Nat} (hk : k < bound) (hb : bound ≤ maxWord) :
    Reads (fun _ => natural bound) (.integer k) k := by
  obtain ⟨c, cs, e, hc⟩ := exists_repr k
  refine reads_of_blanks (fun _ => ⟨c, cs, e, opens_of_isDigit hc⟩) fun {n level rest} _ hr => ?_
  have number := run_number (n := k) (by omega) hr
  have text : prettyText level (.integer k) = (Int.repr k).toList := rfl
  have starts : startsNumber (some c) := by simp [startsNumber, hc]
  have bounds : 0 ≤ (k : Int) ∧ (k : Int) < bound := by omega
  rw [text, run_get_bind]
  rw [e, List.map_cons, List.cons_append] at number ⊢
  simp only [if_pos starts]
  rw [run_bind_of_ok number]
  simp only [if_pos bounds]
  rfl

theorem reads_null {r : Nat → Reader α} : Reads (fun n => optional (r n)) .null none :=
  reads_of_blanks (fun _ => ⟨'n', _, rfl, by decide⟩) fun _ _ => rfl

theorem Reads.optional {r : Nat → Reader α} {j : Json} {a : α} (h : Reads r j a)
    (hn : ∀ level, (prettyText level j).head? ≠ some 'n') :
    Reads (fun n => optional (r n)) j (some a) := by
  refine reads_of_blanks h.opens fun {n level rest} hl hr => ?_
  have item := h.run_self level hl hr
  have head := hn level
  obtain ⟨c, cs, e, -⟩ := h.opens level
  rw [run_get_bind]
  rw [e] at head item ⊢
  split
  · next h =>
    cases h
    exact absurd rfl head
  · exact run_bind_of_ok item

/-! ## Lists -/

theorem run_nextElement_open (first : Bool) {b : List Char} (hb : ∀ u ∈ b.map some, isBlank u) {c : Char}
    (hc : Opens c) (i : Input) :
    (nextElement first).run (((if first then [] else [',']) ++ b).map some ++ some c :: i) =
      .ok (true, some c :: i) := by
  have skip : blanks.run (b.map some ++ some c :: i) = .ok ((), some c :: i) :=
    run_blanks hb (by rintro u ⟨⟩; exact hc.1)
  cases first with
  | true =>
    rw [nextElement]
    refine (run_bind_of_ok skip).trans ?_
    rw [run_get_bind]
    split
    · next h => cases h
    · next h =>
      cases h
      exact absurd rfl hc.2.1
    · rfl
    · rfl
  | false =>
    have comma : blanks.run (some ',' :: (b.map some ++ some c :: i)) =
        .ok ((), some ',' :: (b.map some ++ some c :: i)) := rfl
    rw [nextElement]
    refine (run_bind_of_ok comma).trans ?_
    simp only [run_get_bind, run_set_bind, Bool.false_eq_true, if_false]
    rw [run_bind_of_ok skip, run_get_bind]
    split
    · next h => cases h
    · next h =>
      cases h
      exact absurd rfl hc.2.1
    · rfl

theorem run_nextElement_close (first : Bool) {b : Input} (hb : ∀ u ∈ b, isBlank u) (rest : Input) :
    (nextElement first).run (b ++ some ']' :: rest) = .ok (false, rest) := by
  rw [nextElement, run_bind_of_ok (run_blanks hb (by rintro u ⟨⟩; decide))]
  rfl

section
variable {item : Reader α} {first : Bool} {n : Nat} {i j k l : Input}

theorem run_elements_nil (next : (nextElement first).run i = .ok (false, j)) :
    (elements item (n + 1) first).run i = .ok ([], j) := by
  rw [elements]
  exact run_bind_of_ok next

theorem run_elements_cons {a : α} {as : List α} (next : (nextElement first).run i = .ok (true, j))
    (head : item.run j = .ok (a, k)) (tail : (elements item n false).run k = .ok (as, l)) :
    (elements item (n + 1) first).run i = .ok (a :: as, l) := by
  rw [elements]
  refine (run_bind_of_ok next).trans ?_
  refine (run_bind_of_ok head).trans ?_
  exact run_bind_of_ok tail

end

section
variable {item : Nat → Reader α} {f : α → Json}

theorem ended_prettyElements (level : Nat) (js : List Json) {b : Input} (hb : ∀ u ∈ b, isBlank u)
    (rest : Input) :
    Ended ((prettyElements level false js).map some ++ (b ++ some ']' :: rest)) := by
  cases js with
  | nil =>
    have close : Ended (some ']' :: rest) := ended_cons (by decide) rest
    exact ended_of_blanks (b := b) hb close
  | cons j js => exact ended_cons (c := ',') (by decide) _

theorem run_elements {as : List α} (h : ∀ a ∈ as, Reads item (f a) a) {n fuel : Nat}
    (hn : fuel ≤ n) (first : Bool) (level : Nat) {b : Input} (hb : ∀ u ∈ b, isBlank u) (rest : Input)
    (hl : (prettyElements level first (as.map f)).length < fuel) :
    (elements (item n) fuel first).run
      ((prettyElements level first (as.map f)).map some ++ (b ++ some ']' :: rest)) = .ok (as, rest) := by
  induction as generalizing fuel first with
  | nil =>
    cases fuel with
    | zero => cases hl
    | succ fuel => exact run_elements_nil (run_nextElement_close first hb rest)
  | cons a as ih =>
    have ha := h a List.mem_cons_self
    rw [List.map_cons, prettyElements, List.length_append, List.length_append] at hl
    have line : 0 < ((if first then [] else [',']) ++ newline level).length := by
      rw [List.length_append]
      exact Nat.lt_add_left _ (Nat.succ_pos _)
    cases fuel with
    | zero => cases hl
    | succ fuel =>
      have item := ha.run_self (n := n) level (by omega)
        (ended_prettyElements level (as.map f) hb rest)
      have items := ih (fun a m => h a (List.mem_cons_of_mem _ m)) (Nat.le_of_succ_le hn) false
        (by omega)
      obtain ⟨c, cs, e, hc⟩ := ha.opens level
      have next := run_nextElement_open first (isBlank_newline level) hc
        (cs.map some ++ ((prettyElements level false (as.map f)).map some ++ (b ++ some ']' :: rest)))
      rw [List.map_cons, prettyElements, List.map_append, List.map_append, List.append_assoc,
        List.append_assoc]
      rw [e] at item ⊢
      exact run_elements_cons next item items

theorem reads_list {as : List α} (h : ∀ a ∈ as, Reads item (f a) a) :
    Reads (fun n => listOf (item n) n) (.array (as.map f)) as := by
  refine reads_of_blanks (fun level => ?_) fun {n level rest} hl hr => ?_
  · obtain ⟨b, -, e⟩ := prettyText_array level (as.map f)
    exact ⟨'[', _, e, by decide⟩
  · obtain ⟨b, hb, e⟩ := prettyText_array level (as.map f)
    rw [e] at hl ⊢
    have items := run_elements h (Nat.le_refl n) true (level + 1) hb rest (by
      simp only [List.length_append, List.length_cons] at hl
      omega)
    simp only [List.map_append, List.map_cons, List.map_nil, List.cons_append, List.nil_append,
      List.append_assoc]
    exact items

end

/-! ## Objects -/

theorem run_nextMember_open (first : Bool) {b : List Char} (hb : ∀ u ∈ b.map some, isBlank u)
    (i : Input) :
    (nextMember first).run (((if first then [] else [',']) ++ b).map some ++ some '"' :: i) =
      .ok (true, i) := by
  have skip : blanks.run (b.map some ++ some '"' :: i) = .ok ((), some '"' :: i) :=
    run_blanks hb (by rintro u ⟨⟩; decide)
  cases first with
  | true =>
    rw [nextMember]
    exact run_bind_of_ok skip
  | false =>
    have comma : blanks.run (some ',' :: (b.map some ++ some '"' :: i)) =
        .ok ((), some ',' :: (b.map some ++ some '"' :: i)) := rfl
    rw [nextMember]
    refine (run_bind_of_ok comma).trans ?_
    simp only [run_get_bind, run_set_bind, Bool.false_eq_true, if_false]
    exact run_bind_of_ok skip

theorem run_nextMember_close (first : Bool) {b : Input} (hb : ∀ u ∈ b, isBlank u) (rest : Input) :
    (nextMember first).run (b ++ some '\x7d' :: rest) = .ok (false, rest) := by
  rw [nextMember, run_bind_of_ok (run_blanks hb (by rintro u ⟨⟩; decide))]
  rfl

theorem ended_prettyMembers (level : Nat) (ms : List (String × Json)) {b : Input}
    (hb : ∀ u ∈ b, isBlank u) (rest : Input) :
    Ended ((prettyMembers level false ms).map some ++ (b ++ some '\x7d' :: rest)) := by
  cases ms with
  | nil =>
    have close : Ended (some '\x7d' :: rest) := ended_cons (by decide) rest
    exact ended_of_blanks (b := b) hb close
  | cons m ms => exact ended_cons (c := ',') (by decide) _

section
variable {key : Reader α} {member : α → σ → Reader σ} {first : Bool} {n : Nat} {s t u : σ}
  {i j k l m : Input}

theorem run_members_nil (next : (nextMember first).run i = .ok (false, j)) :
    (members key member (n + 1) first s).run i = .ok (s, j) := by
  rw [members]
  exact run_bind_of_ok next

theorem run_members_cons {a : α} (next : (nextMember first).run i = .ok (true, j))
    (name : key.run j = .ok (a, k)) (head : (member a s).run k = .ok (t, l))
    (tail : (members key member n false t).run l = .ok (u, m)) :
    (members key member (n + 1) first s).run i = .ok (u, m) := by
  rw [members]
  refine (run_bind_of_ok next).trans ?_
  refine (run_bind_of_ok name).trans ?_
  exact (run_bind_of_ok head).trans tail

end

section
variable {member : Nat → String → σ → Reader σ}

/-- A member `k` with the value `j` makes `t` of what has been gathered before it. -/
def Gathers (member : Nat → String → σ → Reader σ) (k : String) (j : Json) (s t : σ) : Prop :=
  ∀ (n level : Nat) (rest : Input), (prettyText level j).length < n → Ended rest →
    (member n k s).run ((':' :: ' ' :: prettyText level j).map some ++ rest) = .ok (t, rest)

/-- The members `ms`, one after another, make `t` of `s`. -/
inductive Fills (member : Nat → String → σ → Reader σ) : List (String × Json) → σ → σ → Prop
  | nil (s : σ) : Fills member [] s s
  | cons {k : String} {j : Json} {ms : List (String × Json)} {s t u : σ} :
    Gathers member k j s t → Fills member ms t u → Fills member ((k, j) :: ms) s u

theorem Fills.append {ms ms' : List (String × Json)} {s t u : σ} (h : Fills member ms s t)
    (h' : Fills member ms' t u) : Fills member (ms ++ ms') s u := by
  induction h with
  | nil s => exact h'
  | cons hm _ ih => exact .cons hm (ih h')

theorem Fills.run {ms : List (String × Json)} {s t : σ} (h : Fills member ms s t) {n fuel : Nat}
    (hn : fuel ≤ n) (first : Bool) (level : Nat) {b : Input} (hb : ∀ u ∈ b, isBlank u) (rest : Input)
    (hl : (prettyMembers level first ms).length < fuel) :
    (members stringRest (member n) fuel first s).run
      ((prettyMembers level first ms).map some ++ (b ++ some '\x7d' :: rest)) = .ok (t, rest) := by
  induction h generalizing fuel first with
  | nil s =>
    cases fuel with
    | zero => cases hl
    | succ fuel => exact run_members_nil (run_nextMember_close first hb rest)
  | @cons k j ms s t u hm hs ih =>
    rw [prettyMembers, List.length_append, List.length_append, List.length_append] at hl
    simp only [stringText, List.length_cons, List.length_append] at hl
    cases fuel with
    | zero => cases hl
    | succ fuel =>
      have next := run_nextMember_open first (isBlank_newline level)
        ((k.toList.flatMap escapedChar ++ ['"']).map some ++
          ((':' :: ' ' :: prettyText level j).map some ++
            ((prettyMembers level false ms).map some ++ (b ++ some '\x7d' :: rest))))
      have key := run_stringRest k ((':' :: ' ' :: prettyText level j).map some ++
        ((prettyMembers level false ms).map some ++ (b ++ some '\x7d' :: rest)))
      have item := hm n level _ (by omega) (ended_prettyMembers level ms hb rest)
      have items := ih (Nat.le_of_succ_le hn) false (by omega)
      rw [prettyMembers, List.map_append, List.map_append, List.map_append, List.append_assoc,
        List.append_assoc, List.append_assoc]
      exact run_members_cons next key item items

/-- The text of an object is its opening brace and what `fields` takes. -/
theorem Fills.run_fields {ms : List (String × Json)} {s t : σ} (h : Fills member ms s t) {n : Nat}
    (level : Nat) (hl : (prettyText level (.object ms)).length < n) (rest : Input) :
    ∃ i, (prettyText level (.object ms)).map some ++ rest = some '\x7b' :: i ∧
      (fields (member n) n s).run i = .ok (t, rest) := by
  obtain ⟨b, hb, e⟩ := prettyText_object level ms
  rw [e] at hl ⊢
  simp only [List.length_append, List.length_cons] at hl
  refine ⟨_, ?_, h.run (Nat.le_refl n) true (level + 1) hb rest (by omega)⟩
  simp only [List.map_append, List.map_cons, List.map_nil, List.cons_append, List.nil_append,
    List.append_assoc]

theorem opens_object (ms : List (String × Json)) (level : Nat) :
    ∃ c cs, prettyText level (.object ms) = c :: cs ∧ Opens c := by
  obtain ⟨b, -, e⟩ := prettyText_object level ms
  exact ⟨'\x7b', _, e, by decide⟩

theorem Gathers.item {r : Nat → Reader α} {j : Json} {a : α} (hr : Reads r j a) {k : String} {s t : σ}
    (put : α → σ) (h : ∀ n, member n k s = do colon; return put (← r n)) (ht : put a = t) :
    Gathers member k j s t := by
  intro n level rest hl he
  have item := hr.run (b := [some ' ']) (by rintro u ⟨⟩ <;> trivial) hl he
  have split : colon.run ((':' :: ' ' :: prettyText level j).map some ++ rest) =
      .ok ((), [some ' '] ++ ((prettyText level j).map some ++ rest)) := rfl
  rw [h, ← ht]
  exact (run_bind_of_ok split).trans (run_bind_of_ok item)

/-- The first time a field is given. -/
theorem Gathers.once {r : Nat → Reader α} {j : Json} {a : α} (hr : Reads r j a) {k : String} {s t : σ}
    (put : Option α → σ) (h : ∀ n, member n k s = do return put (← once none (r n)))
    (ht : put (some a) = t) : Gathers member k j s t :=
  .item hr (fun a => put (some a)) (fun n => by rw [h, Json.once]; simp) ht

theorem reads_record {ms : List (String × Json)} {s t : σ} (h : Fills member ms s t) {a : α}
    {close : σ → Reader α} (hc : ∀ i, (close t).run i = .ok (a, i)) (list : Nat → Reader α) :
    Reads (fun n => record (do close (← fields (member n) n s)) (list n)) (.object ms) a := by
  refine reads_of_blanks (opens_object ms) fun {n level rest} hl _ => ?_
  obtain ⟨i, e, gathered⟩ := h.run_fields level hl rest
  rw [e]
  exact (run_bind_of_ok gathered).trans (hc rest)

end

/-! ## Maps -/

section
variable {item : Nat → Reader α} {f : α → Json}

/-- The members of a map are put into it one after another. -/
theorem fills_map {es : List (String × α)} (h : ∀ e ∈ es, Reads item (f e.2) e.2)
    (m : OrderedMap String α) :
    Fills (fun n k (m : OrderedMap String α) => do colon; return m.insert k (← item n))
      (es.map fun e => (e.1, f e.2)) m (es.foldl (fun m e => m.insert e.1 e.2) m) := by
  induction es generalizing m with
  | nil => exact .nil m
  | cons e es ih =>
    have entry := h e List.mem_cons_self
    exact .cons (.item entry (m.insert e.1) (fun n => rfl) rfl)
      (ih (fun e he => h e (List.mem_cons_of_mem _ he)) (m.insert e.1 e.2))

theorem reads_map {m : OrderedMap String α} (h : ∀ e ∈ m.entries, Reads item (f e.2) e.2) :
    Reads (fun n => mapOf (item n) n) (.object (m.entries.map fun e => (e.1, f e.2))) m := by
  have same : m.entries.foldl (fun m e => m.insert e.1 e.2) ∅ = m := by
    apply OrderedMap.ext_entries
    rw [OrderedMap.entries_foldl_insert Prod.fst Prod.snd (m := ∅) m.nodup]
    exact List.map_id _
  refine reads_of_blanks (opens_object _) fun {n level rest} hl _ => ?_
  obtain ⟨i, e, gathered⟩ := (fills_map h ∅).run_fields level hl rest
  rw [same] at gathered
  rw [e]
  exact gathered

end

/-! ## Whole texts -/

theorem Reads.readWith_pretty {r : Nat → Reader α} {j : Json} {a : α} (h : Reads r j a) :
    readWith r (Input.ofString j.pretty) = .ok a := by
  have text : Input.ofString j.pretty = (prettyText 0 j).map some ++ [] := by
    rw [Input.ofString, pretty, String.toList_ofList, List.append_nil]
  have fuel : (prettyText 0 j).length < (Input.ofString j.pretty).length + 1 := by
    rw [text, List.append_nil, List.length_map]
    exact Nat.lt_succ_self _
  have whole := h.run_self 0 fuel ended_nil
  rw [← text] at whole
  rw [readWith, StateT.run'_eq, run_bind_of_ok whole]
  rfl

end Recognizer.Json

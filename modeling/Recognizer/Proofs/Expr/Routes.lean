import Recognizer.Proofs.Expr.Decoding
import Recognizer.Proofs.Json.Canonical
import Recognizer.Proofs.Json.Compact

/-!
# An expression as a text of its own and as one value among others

The outermost node of an expression that is read as one value is looked at as it was written, all other
nodes and all nodes of an expression that is a text of its own are looked at after the last value of each
key has replaced those before it. That makes no difference unless the outermost node repeats one of the
keys that make a node (`Expr.readValue_of_shaped`).
-/

namespace Recognizer.Expr

set_option autoImplicit false

open Text (Input)

variable {i : Input} {j : Json} {text name : String} {args ys : List Json}

/-! ## Where only the last value of a key is left -/

def Shape.map (f : Json → Json) : Shape → Shape
  | literal text => literal text
  | operator name args => operator name (args.map f)
  | malformed => malformed

theorem canonical_eq_string : j.canonical = .string text ↔ j = .string text := by
  cases j <;> simp [Json.canonical]

theorem canonical_eq_array :
    j.canonical = .array ys ↔ ∃ xs, j = .array xs ∧ xs.map Json.canonical = ys := by
  cases j <;> simp [Json.canonical, Json.canonicalElements_eq_map]

theorem field?_canonical_string {k : String} {ms : List (String × Json)} :
    Json.field? k (Json.canonicalMembers [] ms) = some (.string text) ↔
      Json.field? k ms = some (.string text) := by
  rw [Json.field?_canonical, Option.map_eq_some_iff]
  simp only [canonical_eq_string, exists_eq_right]

theorem field?_canonical_array {k : String} {ms : List (String × Json)} :
    Json.field? k (Json.canonicalMembers [] ms) = some (.array ys) ↔
      ∃ xs, Json.field? k ms = some (.array xs) ∧ xs.map Json.canonical = ys := by
  rw [Json.field?_canonical, Option.map_eq_some_iff]
  constructor
  · rintro ⟨v, h, hv⟩
    obtain ⟨xs, rfl, e⟩ := canonical_eq_array.mp hv
    exact ⟨xs, h, e⟩
  · rintro ⟨xs, h, e⟩
    exact ⟨.array xs, h, canonical_eq_array.mpr ⟨xs, rfl, e⟩⟩

theorem shape_of_literal {ms : List (String × Json)} (hs : Json.field? "simb" ms = some (.string text)) :
    Shape.of (.object ms) = .literal text := by
  unfold Shape.of
  simp only [hs]

theorem shape_of_operator {ms : List (String × Json)}
    (hs : ∀ text, Json.field? "simb" ms ≠ some (.string text))
    (ho : Json.field? "op" ms = some (.string name)) (ha : Json.field? "args" ms = some (.array args)) :
    Shape.of (.object ms) = .operator name args := by
  unfold Shape.of
  dsimp only
  split
  · next hs' => exact absurd hs' (hs _)
  · next ho' ha' _ =>
    cases ho.symm.trans ho'
    cases ha.symm.trans ha'
    rfl
  · next hn => exact absurd ha (hn _ _ ho)

/-- The shape of a node is settled by the last values of its keys. -/
theorem Shape.of_canonical (j : Json) : Shape.of j.canonical = (Shape.of j).map Json.canonical := by
  cases j with
  | object ms =>
    rw [Json.canonical]
    conv_rhs => unfold Shape.of
    dsimp only
    split
    · next hs => exact shape_of_literal (field?_canonical_string.mpr hs)
    · next ho ha hs =>
      refine shape_of_operator (fun text h => hs text (field?_canonical_string.mp h))
        (field?_canonical_string.mpr ho) (field?_canonical_array.mpr ⟨_, ha, rfl⟩)
    · next hs hn =>
      unfold Shape.of
      dsimp only
      split
      · next hs' => exact absurd (field?_canonical_string.mp hs') (hs _)
      · next ho ha _ =>
        obtain ⟨xs, ha, -⟩ := field?_canonical_array.mp ha
        exact absurd ha (hn _ _ (field?_canonical_string.mp ho))
      · rfl
  | _ => rfl

theorem mapError_allToExpr
    (h : ∀ x ∈ args, (ofJson x.canonical).mapError Defect.detail = (ofJson x).mapError Defect.detail) :
    (Node.allToExpr ((args.map Json.canonical).map Node.ofJson)).mapError Defect.detail =
      (Node.allToExpr (args.map Node.ofJson)).mapError Defect.detail := by
  induction args with
  | nil => rfl
  | cons x args ih =>
    obtain ⟨hx, h⟩ := List.forall_mem_cons.mp h
    rw [List.map_cons, List.map_cons, List.map_cons, allToExpr_cons, allToExpr_cons]
    refine mapError_bind_congr hx fun y => ?_
    rw [mapError_map, mapError_map, ih h]

theorem detail_shapelessNode (j : Json) : Defect.detail (.shapelessNode j) =
    "malformed expression node: " ++ j.canonical.compact := rfl

theorem mapError_ofJson_canonical (j : Json) :
    (ofJson j.canonical).mapError Defect.detail = (ofJson j).mapError Defect.detail := by
  induction j using shape_induction with
  | literal j text h =>
    have h' : Shape.of j.canonical = .literal text := by rw [Shape.of_canonical, h, Shape.map]
    rw [ofJson, ofJson, ofJson_of_literal h, ofJson_of_literal h']
  | operator j name args h ih =>
    have h' : Shape.of j.canonical = .operator name (args.map Json.canonical) := by
      rw [Shape.of_canonical, h, Shape.map]
    rw [ofJson, ofJson, ofJson_of_operator h, ofJson_of_operator h', toExpr_operator, toExpr_operator]
    exact mapError_bind_congr (mapError_allToExpr ih) fun _ => rfl
  | malformed j h =>
    have h' : Shape.of j.canonical = .malformed := by rw [Shape.of_canonical, h, Shape.map]
    have hd : Defect.detail (.shapelessNode j.canonical) = Defect.detail (.shapelessNode j) := by
      rw [detail_shapelessNode, detail_shapelessNode, ← (Json.lastWins_canonical j).canonical_eq]
    rw [ofJson, ofJson, ofJson_of_malformed h, ofJson_of_malformed h']
    rw [Node.toExpr, Node.toExpr, Except.mapError, Except.mapError, hd]

/-- What comes of a value depends on the last values of its keys alone. -/
theorem mapError_ofJson_of_lastWins {r : Json} (h : j.LastWins r) :
    (ofJson j).mapError Defect.detail = (ofJson r).mapError Defect.detail := by
  rw [← mapError_ofJson_canonical j, h.canonical_eq, mapError_ofJson_canonical]

/-! ## The outermost node -/

/-- No object, or one in which none of the keys that make a node is repeated. -/
def RootOnce : Json → Prop
  | .object ms => ∀ k ∈ ["simb", "op", "args"], Json.occurrences k ms ≤ 1
  | _ => True

theorem RootOnce.occurrences_eq_one {ms : List (String × Json)} (h : RootOnce (.object ms)) {k : String}
    (hk : k ∈ ["simb", "op", "args"]) {v : Json} (hv : Json.field? k ms = some v) :
    Json.occurrences k ms = 1 :=
  Nat.le_antisymm (h k hk) (Json.occurrences_pos hv)

theorem ofWritten?_of_literal (hj : RootOnce j) (h : Shape.of j = .literal text) :
    Node.ofWritten? j = some (Node.ofJson j) := by
  rw [ofJson_of_literal h]
  obtain ⟨ms, rfl, hs⟩ := shape_eq_literal h
  unfold Node.ofWritten?
  simp only [hs, hj.occurrences_eq_one (by simp) hs]

theorem ofWritten?_of_operator (hj : RootOnce j) (h : Shape.of j = .operator name args) :
    Node.ofWritten? j = some (Node.ofJson j) := by
  rw [ofJson_of_operator h]
  obtain ⟨ms, rfl, hs, ho, ha⟩ := shape_eq_operator h
  have hone := And.intro (hj.occurrences_eq_one (by simp) ho) (hj.occurrences_eq_one (by simp) ha)
  unfold Node.ofWritten?
  dsimp only
  split
  · next hs' _ => exact absurd hs' (hs _)
  · simp only [ho, ha, if_pos hone]

theorem ofWritten?_of_malformed (h : Shape.of j = .malformed) : Node.ofWritten? j = none := by
  unfold Shape.of at h
  split at h
  · next ms =>
    unfold Node.ofWritten?
    dsimp only
    split at h
    · cases h
    · cases h
    · next hs hn =>
      split
      · next hs' _ => exact absurd hs' (hs _)
      · split
        · next ho ha => exact absurd ha (hn _ _ ho)
        · rfl
  · next hj =>
    unfold Node.ofWritten?
    split
    · exact absurd rfl (hj _)
    · rfl

/-! ## Both ways of reading -/

/-- A text is read if it is one value with nothing but blanks behind it. -/
theorem json_read_eq_ok : Json.read i = .ok j ↔ ∃ rest p,
    Json.value (i.length + 1) Json.maxDepth i = .ok (j, rest) ∧ Json.finish rest = .ok p := by
  have hread : Json.read i = (Json.value (i.length + 1) Json.maxDepth).run i >>= fun p =>
      (Json.finish.run p.2).map fun _ => p.1 := by
    rw [Json.read, Json.readWithin, Json.readWith, StateT.run'_eq, StateT.run_bind]
    cases (Json.value (i.length + 1) Json.maxDepth).run i with
    | error f => rfl
    | ok p =>
      rw [ok_bind, ok_bind, StateT.run_bind]
      cases Json.finish.run p.2 <;> rfl
  rw [hread, bind_eq_ok]
  constructor
  · rintro ⟨p, hv, h⟩
    obtain ⟨q, hq, rfl⟩ := map_eq_ok.mp h
    exact ⟨p.2, q, hv, hq⟩
  · rintro ⟨rest, p, hv, hp⟩
    exact ⟨(j, rest), hv, map_eq_ok.mpr ⟨p, hp, rfl⟩⟩

theorem read_of_json (h : Json.read i = .ok j) : read i = (ofJson j).mapError .expression := by
  rw [read, h]
  rfl

theorem readValue_of_malformed (h : Json.read i = .ok j) (hs : Shape.of j = .malformed) :
    readValue i = .error .shapeless := by
  obtain ⟨rest, p, hv, -⟩ := json_read_eq_ok.mp h
  rw [readValue, hv]
  simp only [Except.mapError, ok_bind, ofWritten?_of_malformed hs]
  rfl

theorem readValue_of_shaped (h : Json.read i = .ok j) (hj : RootOnce j) (hs : Shape.of j ≠ .malformed) :
    readValue i = (ofJson j).mapError .defect := by
  obtain ⟨rest, p, hv, hp⟩ := json_read_eq_ok.mp h
  have hw : Node.ofWritten? j = some (Node.ofJson j) := by
    cases e : Shape.of j with
    | literal text => exact ofWritten?_of_literal hj e
    | operator name args => exact ofWritten?_of_operator hj e
    | malformed => exact absurd e hs
  rw [readValue, hv]
  simp only [Except.mapError, ok_bind, hw, hp]
  unfold ofJson
  cases (Node.ofJson j).toExpr <;> rfl

theorem exists_json_read_of_read {x : Expr} (h : read i = .ok x) : ∃ j, Json.read i = .ok j := by
  obtain ⟨j, hj, -⟩ := bind_eq_ok.mp h
  exact ⟨j, mapError_eq_ok.mp hj⟩

theorem exists_json_read_of_read_error {d : Defect} (h : read i = .error (.expression d)) :
    ∃ j, Json.read i = .ok j ∧ ofJson j = .error d := by
  rcases bind_eq_error.mp h with h | ⟨j, hj, h⟩
  · obtain ⟨f, -, e⟩ := mapError_eq_error.mp h
    cases e
  · obtain ⟨d', hd, e⟩ := mapError_eq_error.mp h
    cases e
    exact ⟨j, mapError_eq_ok.mp hj, hd⟩

theorem exists_json_read_of_readValue {x : Expr} (h : readValue i = .ok x) :
    ∃ j, Json.read i = .ok j := by
  unfold readValue at h
  obtain ⟨⟨j, rest⟩, hv, h⟩ := bind_eq_ok.mp h
  dsimp only at h
  split at h
  · cases h
  · obtain ⟨x', -, h⟩ := bind_eq_ok.mp h
    obtain ⟨p, hp, -⟩ := bind_eq_ok.mp h
    exact ⟨j, json_read_eq_ok.mpr ⟨rest, p, mapError_eq_ok.mp hv, mapError_eq_ok.mp hp⟩⟩

theorem read_eq_ok_iff {x : Expr} (h : Json.read i = .ok j) : read i = .ok x ↔ ofJson j = .ok x := by
  rw [read_of_json h, mapError_eq_ok]

theorem readValue_eq_ok_iff {x : Expr} (h : Json.read i = .ok j) (hj : RootOnce j) :
    readValue i = .ok x ↔ ofJson j = .ok x := by
  by_cases hs : Shape.of j = .malformed
  · rw [readValue_of_malformed h hs, ofJson, ofJson_of_malformed hs, Node.toExpr]
    exact iff_of_false (fun e => nomatch e) fun e => nomatch e
  · rw [readValue_of_shaped h hj hs, mapError_eq_ok]

theorem exists_valueFault {d : Defect} (h : Json.read i = .ok j) (hj : RootOnce j)
    (hd : ofJson j = .error d) : ∃ f, readValue i = .error f ∧ f.category = .data ∧
      (Shape.of j ≠ .malformed → f.message? = some d.detail) ∧
      (Shape.of j = .malformed →
        f.message? = some "data did not match any variant of untagged enum RawExpr") := by
  by_cases hs : Shape.of j = .malformed
  · exact ⟨.shapeless, readValue_of_malformed h hs, rfl, fun hn => absurd hs hn, fun _ => rfl⟩
  · refine ⟨.defect d, ?_, rfl, fun _ => rfl, fun hs' => absurd hs' hs⟩
    rw [readValue_of_shaped h hj hs, hd]
    rfl

/-- Where the outermost node repeats no key that makes a node, an expression comes out of a text read as one
value if and only if it comes out of the text on its own. What is wrong with an expression is told in the
same words, unless the outermost value has the shape of no node. The outcome is that of any value in which
the last value of each key stands alone. -/
theorem read_by_both_routes (i : Input) (h : ∀ j, Json.read i = .ok j → RootOnce j) :
    (∀ x, readValue i = .ok x ↔ read i = .ok x) ∧
    (∀ d, read i = .error (.expression d) → ∃ j f, Json.read i = .ok j ∧ readValue i = .error f ∧
      f.category = .data ∧ (Shape.of j ≠ .malformed → f.message? = some d.detail) ∧
      (Shape.of j = .malformed →
        f.message? = some "data did not match any variant of untagged enum RawExpr")) ∧
    ∀ j, Json.read i = .ok j → (∃ r, j.LastWins r) ∧ ∀ r, j.LastWins r →
      (∀ x, (read i = .ok x ↔ ofJson r = .ok x) ∧ (readValue i = .ok x ↔ ofJson r = .ok x)) ∧
      ∀ d, ofJson r = .error d → ∃ e, read i = .error (.expression e) ∧ e.detail = d.detail := by
  have hroutes : ∀ x, readValue i = .ok x ↔ read i = .ok x := by
    intro x
    constructor
    · intro hx
      obtain ⟨j, hj⟩ := exists_json_read_of_readValue hx
      exact (read_eq_ok_iff hj).mpr ((readValue_eq_ok_iff hj (h j hj)).mp hx)
    · intro hx
      obtain ⟨j, hj⟩ := exists_json_read_of_read hx
      exact (readValue_eq_ok_iff hj (h j hj)).mpr ((read_eq_ok_iff hj).mp hx)
  refine ⟨hroutes, fun d hd => ?_, fun j hj =>
    ⟨⟨j.canonical, Json.lastWins_canonical j⟩, fun r hr => ?_⟩⟩
  · obtain ⟨j, hj, hd⟩ := exists_json_read_of_read_error hd
    obtain ⟨f, hf⟩ := exists_valueFault hj (h j hj) hd
    exact ⟨j, f, hj, hf⟩
  · have hsame := mapError_ofJson_of_lastWins hr
    have hok : ∀ x, read i = .ok x ↔ ofJson r = .ok x := fun x => by
      rw [read_eq_ok_iff hj, ← mapError_eq_ok, hsame, mapError_eq_ok]
    refine ⟨fun x => ⟨hok x, (hroutes x).trans (hok x)⟩, fun d hd => ?_⟩
    rw [hd] at hsame
    obtain ⟨e, he, hdetail⟩ := mapError_eq_error.mp hsame
    exact ⟨e, by rw [read_of_json hj, he]; rfl, hdetail⟩

/-- The literal repeats its key, the star has no argument, and a number has the shape of no node. -/
theorem read_by_both_routes_repeated_key :
    let i := Input.ofString "\x7b\"op\":\"seq\",\"args\":[\x7b\"simb\":\"a\",\"simb\":\"b\"\x7d]\x7d"
    let i' := Input.ofString "\x7b\"args\":[],\"x\":0,\"x\":1,\"op\":\"kle\"\x7d"
    let i'' := Input.ofString "7"
    let x := Expr.sequence [.literal 'b']
    read i = .ok x ∧ readValue i = .ok x ∧
      (∃ f, readValue i' = .error f ∧ f.category = .data ∧
        f.message? = some "kleene star requires exactly one argument, found 0") ∧
      ∃ f, readValue i'' = .error f ∧ f.category = .data ∧
        f.message? = some "data did not match any variant of untagged enum RawExpr" := by
  intro i i' i'' x
  let j := Json.object [("op", .string "seq"), ("args", .array [.object [("simb", .string "a"),
    ("simb", .string "b")]])]
  let j' := Json.object [("args", .array []), ("x", .integer 0), ("x", .integer 1), ("op", .string "kle")]
  have hi : Json.read i = .ok j := by
    have text : i = Input.ofString j.compact := congrArg Input.ofString rfl
    have letter : Json.Kept ((Json.compactText j).length + 1) 125
        (.object [("simb", .string "a"), ("simb", .string "b")]) :=
      Json.kept_object (by simp [Json.kept_string]) (by decide)
    have args : Json.Kept ((Json.compactText j).length + 1) 126
        (.array [.object [("simb", .string "a"), ("simb", .string "b")]]) :=
      Json.kept_array (List.forall_mem_singleton.mpr letter) (by decide)
    have kept : Json.Kept ((Json.compactText j).length + 1) Json.maxDepth j :=
      Json.kept_object (by simp [Json.kept_string, args]) (by decide)
    rw [text]
    exact kept.read_compact
  have hi' : Json.read i' = .ok j' := by
    have text : i' = Input.ofString j'.compact := congrArg Input.ofString rfl
    have zero : Json.Kept ((Json.compactText j').length + 1) 126 (.integer 0) :=
      Json.kept_integer (by decide) (by decide)
    have one : Json.Kept ((Json.compactText j').length + 1) 126 (.integer 1) :=
      Json.kept_integer (by decide) (by decide)
    have kept : Json.Kept ((Json.compactText j').length + 1) Json.maxDepth j' :=
      Json.kept_object (by simp [Json.kept_array, zero, one, Json.kept_string]) (by decide)
    rw [text]
    exact kept.read_compact
  have hi'' : Json.read i'' = .ok (.integer 7) := by
    have text : i'' = Input.ofString (Json.integer 7).compact := congrArg Input.ofString rfl
    rw [text]
    exact (Json.kept_integer (by decide) (by decide)).read_compact
  have hj : ∀ j₁, Json.read i = .ok j₁ → RootOnce j₁ := fun j₁ h => by
    cases hi.symm.trans h
    show ∀ k ∈ _, _
    decide
  have hj' : ∀ j₁, Json.read i' = .ok j₁ → RootOnce j₁ := fun j₁ h => by
    cases hi'.symm.trans h
    show ∀ k ∈ _, _
    decide
  have hj'' : ∀ j₁, Json.read i'' = .ok j₁ → RootOnce j₁ := fun j₁ h => by
    cases hi''.symm.trans h
    trivial
  have hx : ofJson j.canonical = .ok x := by
    subst x j
    cbv
  have hd' : read i' = .error (.expression (.starArity 0)) := by
    rw [read_of_json hi']
    subst i' j'
    cbv
  have hd'' : read i'' = .error (.expression (.shapelessNode (.integer 7))) := by
    rw [read_of_json hi'']
    subst i''
    cbv
  have hlast := ((read_by_both_routes i hj).2.2 j hi).2 _ (Json.lastWins_canonical j)
  obtain ⟨j₁, f, hj₁, hf, hdata, hshaped, -⟩ := (read_by_both_routes i' hj').2.1 _ hd'
  obtain ⟨j₂, g, hj₂, hg, hdata', -, hshapeless⟩ := (read_by_both_routes i'' hj'').2.1 _ hd''
  cases hi'.symm.trans hj₁
  cases hi''.symm.trans hj₂
  refine ⟨(hlast.1 x).1.mpr hx, (hlast.1 x).2.mpr hx, ⟨f, hf, hdata, hshaped ?_⟩,
    g, hg, hdata', hshapeless rfl⟩
  simp [j', Shape.of, Json.field?]

end Recognizer.Expr

import Mathlib.Data.List.Forall2
import Recognizer.Expr.Node
import Recognizer.Proofs.Fallible

/-!
# What JSON describes an expression

The nodes of a value are the value itself and, if it is an operator, the nodes of its arguments. They
are looked at in post-order: the arguments from the left to the right, then the operator. A value
describes the expression that mirrors it, if all nodes are sound; otherwise it is turned down for what is
wrong with the first node that is not (`Expr.ofJson_grammar`).
-/

namespace Recognizer.Expr

set_option autoImplicit false

/-! ## Nodes -/

/-- What a value is as a node, its arguments left as they are. -/
inductive Shape
  | literal (text : String)
  | operator (name : String) (args : List Json)
  | malformed

def Shape.of : Json → Shape
  | .object ms =>
    match Json.field? "simb" ms, Json.field? "op" ms, Json.field? "args" ms with
    | some (.string text), _, _ => .literal text
    | _, some (.string name), some (.array args) => .operator name args
    | _, _, _ => .malformed
  | _ => .malformed

variable {j : Json} {text name : String} {args : List Json}

theorem shape_eq_literal (h : Shape.of j = .literal text) :
    ∃ ms, j = .object ms ∧ Json.field? "simb" ms = some (.string text) := by
  unfold Shape.of at h
  split at h
  · next ms =>
    split at h
    · next hs =>
      cases h
      exact ⟨ms, rfl, hs⟩
    · cases h
    · cases h
  · cases h

theorem shape_eq_operator (h : Shape.of j = .operator name args) :
    ∃ ms, j = .object ms ∧ (∀ text, Json.field? "simb" ms ≠ some (.string text)) ∧
      Json.field? "op" ms = some (.string name) ∧ Json.field? "args" ms = some (.array args) := by
  unfold Shape.of at h
  split at h
  · next ms =>
    split at h
    · cases h
    · next ho ha hs =>
      cases h
      exact ⟨ms, rfl, hs, ho, ha⟩
    · cases h
  · cases h

theorem sizeOf_lt_of_shape (h : Shape.of j = .operator name args) {x : Json} (hx : x ∈ args) :
    sizeOf x < sizeOf j := by
  obtain ⟨ms, rfl, -, -, ha⟩ := shape_eq_operator h
  have := Json.sizeOf_field?_lt ha
  have := List.sizeOf_lt_of_mem hx
  simp only [Json.object.sizeOf_spec, Json.array.sizeOf_spec] at *
  omega

theorem ofJson_of_literal (h : Shape.of j = .literal text) : Node.ofJson j = .literal text := by
  obtain ⟨ms, rfl, hs⟩ := shape_eq_literal h
  rw [Node.ofJson]
  simp only [hs]

theorem ofJson_of_operator (h : Shape.of j = .operator name args) :
    Node.ofJson j = .operator name (args.map Node.ofJson) := by
  obtain ⟨ms, rfl, hs, ho, ha⟩ := shape_eq_operator h
  rw [Node.ofJson]
  split
  · next hs' => exact absurd hs' (hs _)
  · split
    · next ho' ha' =>
      cases ho.symm.trans ho'
      cases ha.symm.trans ha'
      rw [List.map_attach_eq_pmap, List.pmap_eq_map]
    · next hn => exact absurd ha (hn _ _ ho)

theorem ofJson_of_malformed (h : Shape.of j = .malformed) : Node.ofJson j = .malformed j := by
  unfold Shape.of at h
  split at h
  · next ms =>
    rw [Node.ofJson]
    split at h
    · cases h
    · cases h
    · next hs hn =>
      split
      · next hs' => exact absurd hs' (hs _)
      · split
        · next ho ha => exact absurd ha (hn _ _ ho)
        · rfl
  · next hj =>
    rw [Node.ofJson]
    exact hj

/-- The nodes of a value in post-order. -/
def postorder (j : Json) : List Json :=
  match _h : Shape.of j with
  | .operator _ args => (args.attach.flatMap fun x => postorder x.1) ++ [j]
  | _ => [j]
termination_by sizeOf j
decreasing_by exact sizeOf_lt_of_shape _h x.2

theorem postorder_of_operator (h : Shape.of j = .operator name args) :
    postorder j = args.flatMap postorder ++ [j] := by
  rw [postorder]
  split
  · next h' =>
    cases h.symm.trans h'
    simp
  · next hn => exact absurd h (hn _ _)

theorem postorder_of_leaf (h : ∀ name args, Shape.of j ≠ .operator name args) :
    postorder j = [j] := by
  rw [postorder]
  split
  · next h' => exact absurd h' (h _ _)
  · rfl

/-- Values are taken apart along their arguments. -/
theorem shape_induction {P : Json → Prop}
    (literal : ∀ j text, Shape.of j = .literal text → P j)
    (operator : ∀ j name args, Shape.of j = .operator name args → (∀ x ∈ args, P x) → P j)
    (malformed : ∀ j, Shape.of j = .malformed → P j) (j : Json) : P j :=
  match h : Shape.of j with
  | .literal text => literal j text h
  | .operator name args =>
    operator j name args h fun x _ => shape_induction literal operator malformed x
  | .malformed => malformed j h
termination_by sizeOf j
decreasing_by exact sizeOf_lt_of_shape h ‹_›

/-! ## Defects of single nodes -/

/-- What is wrong with an operator of so many arguments. -/
def operatorDefect? (name : String) (arity : Nat) : Option Defect :=
  if name = "alt" then if arity = 0 then some .emptyAlternation else none
  else if name = "seq" then if arity = 0 then some .emptySequence else none
  else if name = "kle" then if arity = 1 then none else some (.starArity arity)
  else some (.unknownOperator name)

/-- What is wrong with a node when its arguments are left aside. -/
def nodeDefect? (j : Json) : Option Defect :=
  match Shape.of j with
  | .literal text => if text.length = 1 then none else some (.literalLength text)
  | .operator name args => operatorDefect? name args.length
  | .malformed => some (.shapelessNode j)

/-- A literal of one character, an alternation or sequence of something, or a star of one thing. -/
def SoundNode (j : Json) : Prop :=
  (∃ text, Shape.of j = .literal text ∧ text.length = 1) ∨
  ∃ name args, Shape.of j = .operator name args ∧
    ((name = "alt" ∨ name = "seq") ∧ args ≠ [] ∨ name = "kle" ∧ args.length = 1)

theorem soundNode_iff : SoundNode j ↔ nodeDefect? j = none := by
  unfold SoundNode nodeDefect? operatorDefect?
  cases Shape.of j with
  | literal text => simp
  | operator name args =>
    by_cases h₁ : name = "alt"
    · simp [h₁]
    · by_cases h₂ : name = "seq"
      · simp [h₂]
      · by_cases h₃ : name = "kle" <;> simp [h₁, h₂, h₃]
  | malformed => simp

/-! ## The first defect -/

theorem fault?_assemble (name : String) (xs : List Expr) :
    fault? (assemble name xs) = operatorDefect? name xs.length := by
  unfold assemble operatorDefect?
  by_cases h₁ : name = "alt"
  · cases xs <;> simp [h₁, fault?]
  by_cases h₂ : name = "seq"
  · cases xs <;> simp [h₂, fault?]
  by_cases h₃ : name = "kle"
  · rcases xs with _ | ⟨x, _ | ⟨y, ys⟩⟩ <;> simp [h₃, fault?]
  · simp [h₁, h₂, h₃, fault?]

theorem allToExpr_cons (n : Node) (ns : List Node) : Node.allToExpr (n :: ns) =
    n.toExpr >>= fun x => (Node.allToExpr ns).map (x :: ·) := by
  rw [Node.allToExpr]
  cases n.toExpr with
  | error d => rfl
  | ok x => cases Node.allToExpr ns <;> rfl

theorem length_allToExpr {ns : List Node} {xs : List Expr} (h : Node.allToExpr ns = .ok xs) :
    xs.length = ns.length := by
  induction ns generalizing xs with
  | nil =>
    cases h
    rfl
  | cons n ns ih =>
    rw [allToExpr_cons] at h
    obtain ⟨x, -, h⟩ := bind_eq_ok.mp h
    obtain ⟨ys, hys, rfl⟩ := map_eq_ok.mp h
    rw [List.length_cons, ih hys, List.length_cons]

theorem toExpr_operator (name : String) (ns : List Node) :
    (Node.operator name ns).toExpr = Node.allToExpr ns >>= assemble name := rfl

theorem fault?_literal (text : String) :
    fault? (Node.literal text).toExpr =
      if text.length = 1 then none else some (.literalLength text) := by
  rw [Node.toExpr, Text.onlyChar?, ← String.length_toList]
  rcases text.toList with _ | ⟨c, _ | ⟨d, cs⟩⟩ <;> simp [fault?]

/-- Arguments are decoded one after another until one of them fails. -/
theorem fault?_allToExpr {args : List Json}
    (h : ∀ x ∈ args, fault? (ofJson x) = (postorder x).findSome? nodeDefect?) :
    fault? (Node.allToExpr (args.map Node.ofJson)) =
      (args.flatMap postorder).findSome? nodeDefect? := by
  induction args with
  | nil => rfl
  | cons x args ih =>
    obtain ⟨hx, h⟩ := List.forall_mem_cons.mp h
    rw [List.map_cons, allToExpr_cons, List.flatMap_cons, List.findSome?_append, ← hx, ← ih h]
    exact fault?_bind fun y _ => fault?_map _ _

theorem fault?_ofJson (j : Json) : fault? (ofJson j) = (postorder j).findSome? nodeDefect? := by
  induction j using shape_induction with
  | literal j text h =>
    have hd : nodeDefect? j = if text.length = 1 then none else some (.literalLength text) := by
      rw [nodeDefect?, h]
    rw [postorder_of_leaf (by simp [h]), ofJson, ofJson_of_literal h, fault?_literal, ← hd]
    simp
  | operator j name args h ih =>
    have hd : nodeDefect? j = operatorDefect? name args.length := by rw [nodeDefect?, h]
    rw [postorder_of_operator h, ofJson, ofJson_of_operator h, toExpr_operator,
      List.findSome?_append, ← fault?_allToExpr ih, List.findSome?_singleton, hd]
    refine fault?_bind fun xs hxs => ?_
    rw [fault?_assemble, length_allToExpr hxs, List.length_map]
  | malformed j h =>
    have hd : nodeDefect? j = some (.shapelessNode j) := by rw [nodeDefect?, h]
    rw [postorder_of_leaf (by simp [h]), ofJson, ofJson_of_malformed h, List.findSome?_singleton, hd]
    rfl

/-! ## Trees and values of one form -/

/-- The tree `x` has the nodes of `j`, each of the same kind and with the children in the same order. -/
inductive Mirrors : Json → Expr → Prop
  | literal {j : Json} {text : String} {c : Symbol} : Shape.of j = .literal text →
    text.toList = [c] → Mirrors j (.literal c)
  | alternation {j : Json} {args : List Json} {xs : List Expr} :
    Shape.of j = .operator "alt" args → List.Forall₂ Mirrors args xs → Mirrors j (.alternation xs)
  | sequence {j : Json} {args : List Json} {xs : List Expr} :
    Shape.of j = .operator "seq" args → List.Forall₂ Mirrors args xs → Mirrors j (.sequence xs)
  | star {j arg : Json} {x : Expr} : Shape.of j = .operator "kle" [arg] → Mirrors arg x →
    Mirrors j (.star x)

theorem assemble_eq_ok {xs : List Expr} {x : Expr} (h : assemble name xs = .ok x) :
    name = "alt" ∧ xs ≠ [] ∧ x = .alternation xs ∨ name = "seq" ∧ xs ≠ [] ∧ x = .sequence xs ∨
      name = "kle" ∧ ∃ y, xs = [y] ∧ x = .star y := by
  unfold assemble at h
  split at h
  · next hname =>
    split at h <;> cases h
    next hxs => exact Or.inl ⟨hname, fun e => hxs (e ▸ rfl), rfl⟩
  · split at h
    · next hname =>
      split at h <;> cases h
      next hxs => exact Or.inr (Or.inl ⟨hname, fun e => hxs (e ▸ rfl), rfl⟩)
    · split at h
      · next hname =>
        split at h <;> cases h
        exact Or.inr (Or.inr ⟨hname, _, rfl, rfl⟩)
      · cases h

theorem mirrors_allToExpr {args : List Json} {xs : List Expr}
    (h : ∀ j ∈ args, ∀ x, ofJson j = .ok x → Mirrors j x)
    (hxs : Node.allToExpr (args.map Node.ofJson) = .ok xs) : List.Forall₂ Mirrors args xs := by
  induction args generalizing xs with
  | nil =>
    cases hxs
    exact .nil
  | cons j args ih =>
    obtain ⟨hj, h⟩ := List.forall_mem_cons.mp h
    rw [List.map_cons, allToExpr_cons] at hxs
    obtain ⟨x, hx, hxs⟩ := bind_eq_ok.mp hxs
    obtain ⟨ys, hys, rfl⟩ := map_eq_ok.mp hxs
    exact .cons (hj x hx) (ih h hys)

theorem mirrors_of_ofJson (j : Json) : ∀ x, ofJson j = .ok x → Mirrors j x := by
  induction j using shape_induction with
  | literal j text h =>
    intro x hx
    rw [ofJson, ofJson_of_literal h, Node.toExpr] at hx
    split at hx
    · next c hc =>
      cases hx
      refine .literal h ?_
      unfold Text.onlyChar? at hc
      split at hc
      · next hl =>
        cases hc
        exact hl
      · cases hc
    · cases hx
  | operator j name args h ih =>
    intro x hx
    rw [ofJson, ofJson_of_operator h, toExpr_operator] at hx
    obtain ⟨xs, hxs, hx⟩ := bind_eq_ok.mp hx
    have hm := mirrors_allToExpr ih hxs
    rcases assemble_eq_ok hx with ⟨rfl, -, rfl⟩ | ⟨rfl, -, rfl⟩ | ⟨rfl, y, rfl, rfl⟩
    · exact .alternation h hm
    · exact .sequence h hm
    · cases hm with
      | cons hy hnil =>
        cases hnil
        exact .star h hy
  | malformed j h =>
    intro x hx
    rw [ofJson, ofJson_of_malformed h] at hx
    cases hx

mutual

theorem Mirrors.unique : (x : Expr) → ∀ {j y}, Mirrors j x → Mirrors j y → x = y
  | .literal c, j, y, .literal h hc, hy => by
    cases hy <;> simp_all
  | .alternation xs, j, y, .alternation h hm, hy => by
    cases hy with
    | alternation h' hm' =>
      cases h.symm.trans h'
      rw [forall₂_mirrors_unique xs hm hm']
    | _ => simp_all
  | .sequence xs, j, y, .sequence h hm, hy => by
    cases hy with
    | sequence h' hm' =>
      cases h.symm.trans h'
      rw [forall₂_mirrors_unique xs hm hm']
    | _ => simp_all
  | .star x, j, y, .star h hm, hy => by
    cases hy with
    | star h' hm' =>
      cases h.symm.trans h'
      rw [Mirrors.unique x hm hm']
    | _ => simp_all

theorem forall₂_mirrors_unique : (xs : List Expr) → ∀ {args ys}, List.Forall₂ Mirrors args xs →
    List.Forall₂ Mirrors args ys → xs = ys
  | [], _, _, .nil, .nil => rfl
  | x :: xs, _, _, .cons h hm, .cons h' hm' => by
    rw [Mirrors.unique x h h', forall₂_mirrors_unique xs hm hm']

end

/-! ## What is decoded is complete -/

mutual

theorem complete_of_toExpr : (n : Node) → ∀ {x}, n.toExpr = .ok x → x.complete = true
  | .literal text, x, h => by
    rw [Node.toExpr] at h
    split at h <;> cases h
    rfl
  | .operator name ns, x, h => by
    rw [toExpr_operator] at h
    obtain ⟨xs, hxs, h⟩ := bind_eq_ok.mp h
    have hc := allComplete_of_allToExpr ns hxs
    rcases assemble_eq_ok h with ⟨-, hne, rfl⟩ | ⟨-, hne, rfl⟩ | ⟨-, y, rfl, rfl⟩
    · simp [complete, hne, hc]
    · simp [complete, hne, hc]
    · rw [allComplete, Bool.and_eq_true] at hc
      exact hc.1
  | .malformed j, x, h => by cases h

theorem allComplete_of_allToExpr : (ns : List Node) → ∀ {xs}, Node.allToExpr ns = .ok xs →
    allComplete xs = true
  | [], xs, h => by
    cases h
    rfl
  | n :: ns, xs, h => by
    rw [allToExpr_cons] at h
    obtain ⟨x, hx, h⟩ := bind_eq_ok.mp h
    obtain ⟨ys, hys, rfl⟩ := map_eq_ok.mp h
    rw [allComplete, complete_of_toExpr n hx, allComplete_of_allToExpr ns hys]
    rfl

end

/-! ## Expressions written as values -/

def operatorJson (name : String) (args : List Json) : Json :=
  .object [("op", .string name), ("args", .array args)]

mutual

/-- The plainest value that describes an expression. -/
def toJson : Expr → Json
  | literal c => .object [("simb", .string c.toString)]
  | alternation xs => operatorJson "alt" (allToJson xs)
  | sequence xs => operatorJson "seq" (allToJson xs)
  | star x => operatorJson "kle" [toJson x]

def allToJson : List Expr → List Json
  | [] => []
  | x :: xs => toJson x :: allToJson xs

end

theorem ofJson_operatorJson (name : String) (args : List Json) : ofJson (operatorJson name args) =
    Node.allToExpr (args.map Node.ofJson) >>= assemble name := by
  have h : Shape.of (operatorJson name args) = .operator name args := by
    simp [operatorJson, Shape.of, Json.field?]
  rw [ofJson, ofJson_of_operator h, toExpr_operator]

mutual

theorem ofJson_toJson : (x : Expr) → x.complete = true → ofJson x.toJson = .ok x
  | .literal c, _ => by
    have h : Shape.of (literal c).toJson = .literal c.toString := by
      simp [toJson, Shape.of, Json.field?]
    rw [ofJson, ofJson_of_literal h, Node.toExpr, Text.onlyChar?]
    simp
  | .alternation xs, h => by
    rw [complete, Bool.and_eq_true, Bool.not_eq_true'] at h
    rw [toJson, ofJson_operatorJson, allToExpr_allToJson xs h.2]
    simp [assemble, h.1]
  | .sequence xs, h => by
    rw [complete, Bool.and_eq_true, Bool.not_eq_true'] at h
    rw [toJson, ofJson_operatorJson, allToExpr_allToJson xs h.2]
    simp [assemble, h.1]
  | .star x, h => by
    have hx : (Node.ofJson x.toJson).toExpr = .ok x := ofJson_toJson x h
    rw [toJson, ofJson_operatorJson, List.map_singleton, allToExpr_cons, hx]
    rfl

theorem allToExpr_allToJson : (xs : List Expr) → allComplete xs = true →
    Node.allToExpr ((allToJson xs).map Node.ofJson) = .ok xs
  | [], _ => rfl
  | x :: xs, h => by
    rw [allComplete, Bool.and_eq_true] at h
    have hx : (Node.ofJson x.toJson).toExpr = .ok x := ofJson_toJson x h.1
    rw [allToJson, List.map_cons, allToExpr_cons, hx, allToExpr_allToJson xs h.2]
    rfl

end

/-! ## The grammar -/

/-- A value is decoded to the tree that mirrors it when all its nodes are sound, and otherwise refused for
what is wrong with the first node in post-order that is not. Every complete expression is decoded from
some value. -/
theorem ofJson_grammar :
    (∀ (j : Json) (x : Expr),
      ofJson j = .ok x ↔ (∀ n ∈ postorder j, SoundNode n) ∧ Mirrors j x) ∧
    (∀ (j : Json) (d : Defect),
      ofJson j = .error d ↔ (postorder j).findSome? nodeDefect? = some d) ∧
    ∀ x : Expr, x.complete = true → ∃ j, ofJson j = .ok x := by
  have hsound : ∀ j, (∀ n ∈ postorder j, SoundNode n) ↔ ∃ x, ofJson j = .ok x := by
    intro j
    simp only [soundNode_iff]
    rw [← List.findSome?_eq_none_iff, ← fault?_ofJson, fault?_eq_none]
  refine ⟨fun j x => ⟨fun h => ⟨(hsound j).mpr ⟨x, h⟩, mirrors_of_ofJson j x h⟩, ?_⟩,
    fun j d => ?_, fun x hx => ⟨x.toJson, ofJson_toJson x hx⟩⟩
  · rintro ⟨hj, hm⟩
    obtain ⟨y, hy⟩ := (hsound j).mp hj
    rw [hy, Mirrors.unique x hm (mirrors_of_ofJson j y hy)]
  · rw [← fault?_eq_some, fault?_ofJson]

/-- A value of both forms is a literal. Of an unknown operator, a value of no form and a star of nothing
the star is the first node in post-order, so it is the one that is reported. -/
theorem ofJson_grammar_overlapping :
    let both := Json.object [("simb", .string "a"), ("op", .string "opt"), ("args", .array [])]
    let star := Json.object [("op", .string "kle"), ("args", .array [])]
    let bad := Json.object [("args", .array [both, star, .null]), ("op", .string "opt")]
    let x := Expr.alternation [.star (.literal 'a'), .sequence [.literal 'b']]
    ofJson both = .ok (.literal 'a') ∧ ofJson bad = .error (.starArity 0) ∧
      x.complete = true ∧ ∃ j, ofJson j = .ok x := by
  intro both star bad x
  have hboth : Shape.of both = .literal "a" := by simp [both, Shape.of, Json.field?]
  have hstar : Shape.of star = .operator "kle" [] := by simp [star, Shape.of, Json.field?]
  have hbad : Shape.of bad = .operator "opt" [both, star, .null] := by
    simp [bad, Shape.of, Json.field?]
  have hnodes : postorder both = [both] := postorder_of_leaf (by simp [hboth])
  have hsound : SoundNode both := Or.inl ⟨"a", hboth, rfl⟩
  have harity : nodeDefect? star = some (.starArity 0) := by
    simp [nodeDefect?, hstar, operatorDefect?]
  refine ⟨(ofJson_grammar.1 both _).mpr ⟨?_, .literal hboth rfl⟩, ?_, rfl, ?_⟩
  · rw [hnodes]
    exact List.forall_mem_singleton.mpr hsound
  · rw [ofJson_grammar.2.1, postorder_of_operator hbad, List.flatMap_cons, List.flatMap_cons, hnodes,
      postorder_of_operator hstar]
    simp [soundNode_iff.mp hsound, harity]
  · exact ofJson_grammar.2.2 x rfl

end Recognizer.Expr

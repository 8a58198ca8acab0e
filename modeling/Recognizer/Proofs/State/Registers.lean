import Recognizer.Proofs.SortedSet
import Recognizer.Proofs.State.Bits
import Recognizer.State.Registers

/-!
# Registers of sets as registers of finite sets

The same commands are given to registers of sets in rows of bits and to registers of finite sets
(`Holding`). Whatever the rows and however long they are, each command takes registers that agree to
registers that agree and has the same answer from both (`Agrees.follows_step`), and so does every sequence
of commands (`Agrees.follows_run`).
-/

namespace Recognizer

set_option autoImplicit false

open Registers (Command Answer)

/-! ## Registers of finite sets -/

/-- The finite set in each register. -/
abbrev Holding := String → Finset State

namespace Holding

/-- A register takes a finite set, whose members are the answer. -/
def put (F : Holding) (r : String) (X : Finset State) : Holding × Answer :=
  (Function.update F r X, .members X.sort)

/-- The room that a set is made with plays no part. -/
def step (F : Holding) : Command → Holding × Answer
  | .new r => F.put r ∅
  | .withCapacity r _ => F.put r ∅
  | .singleton r s _ => F.put r {s}
  | .ofList r ss => F.put r ss.toFinset
  | .copy r q => F.put r (F q)
  | .insert r s => (Function.update F r (insert s (F r)), .flag (decide (s ∉ F r)))
  | .insertAll r ss => F.put r (F r ∪ ss.toFinset)
  | .union r q => F.put r (F r ∪ F q)
  | .contains r s => (F, .flag (decide (s ∈ F r)))
  | .isEmpty r => (F, .flag (decide (F r = ∅)))
  | .size r => (F, .number (F r).card)
  | .meets r q => (F, .flag (decide (F r ∩ F q).Nonempty))
  | .isSubset r q => (F, .flag (decide (F r ⊆ F q)))
  | .equal r q => (F, .flag (decide (F r = F q)))
  | .toList r => (F, .members (F r).sort)
  | .shown r => (F, .text (Text.braced (F r).sort))

def run (F : Holding) : List Command → Holding × List Answer
  | [] => (F, [])
  | c :: cs => (((F.step c).1.run cs).1, (F.step c).2 :: ((F.step c).1.run cs).2)

end Holding

namespace Registers

/-- The states that a command names. -/
def Command.states : Command → List State
  | .singleton _ s _ => [s]
  | .ofList _ ss => ss
  | .insert _ s => [s]
  | .insertAll _ ss => ss
  | .contains _ s => [s]
  | _ => []

variable {B : Type} [BitRow B] {R : Registers B} {F : Holding} {S : BitSet B} {T : StateSet}

theorem get_set (R : Registers B) (r q : String) (S : BitSet B) :
    (R.set r S).get q = if q = r then S else R.get q := by
  unfold get set
  rw [List.lookup_cons]
  by_cases h : q = r
  · rw [if_pos h, beq_iff_eq.mpr h]
    rfl
  · rw [if_neg h, beq_eq_false_iff_ne.mpr h]

/-- Every register holds the states of its finite set. -/
def Agrees (R : Registers B) (F : Holding) : Prop :=
  ∀ r, ∃ T : StateSet, (R.get r).Holds T ∧ T.toFinset = F r

/-- What is carried out has the answers of `y` and leaves registers that agree with those of `y`. -/
def Follows {α : Type} (x : Option (Registers B × α)) (y : Holding × α) : Prop :=
  ∃ R : Registers B, x = some (R, y.2) ∧ R.Agrees y.1

/-- Sets are listed as their finite sets are, and equal when these are. -/
structure Represents (R : Registers B) (F : Holding) : Prop where
  toList_eq : ∀ r, (R.get r).toList = (F r).sort
  ascending : ∀ r, (R.get r).toList.Pairwise (· < ·)
  equal_iff : ∀ r q, (R.get r).equal (R.get q) = true ↔ (R.get r).toList = (R.get q).toList
  toList_eq_iff : ∀ r q, (R.get r).toList = (R.get q).toList ↔ F r = F q

namespace Agrees

theorem set (h : R.Agrees F) (hS : S.Holds T) (r : String) :
    (R.set r S).Agrees (Function.update F r T.toFinset) := by
  intro q
  rw [get_set]
  by_cases hq : q = r
  · subst hq
    rw [if_pos rfl, Function.update_self]
    exact ⟨T, hS, rfl⟩
  · rw [if_neg hq, Function.update_of_ne hq]
    exact h q

theorem exists_sets (h : R.Agrees F) : ∃ T : String → StateSet,
    (∀ r, (R.get r).Holds (T r)) ∧ F = fun r => (T r).toFinset := by
  choose T hT hF using h
  exact ⟨T, hT, funext fun r => (hF r).symm⟩

theorem follows_answer (h : R.Agrees F) {a a' : Answer} (ha : a = a') :
    Follows (some (R, a)) (F, a') :=
  ⟨R, by rw [ha], h⟩

variable [LawfulBitRow B]

theorem nil : Agrees ([] : Registers B) fun _ => ∅ := fun _ => ⟨∅, BitSet.holds_empty, rfl⟩

theorem follows_put (h : R.Agrees F) (hS : S.Holds T) (r : String) :
    Follows (some (R.put r S)) (F.put r T.toFinset) := by
  refine ⟨_, ?_, h.set hS r⟩
  rw [Registers.put, Holding.put, hS.toList_eq, SortedSet.sort_toFinset]

theorem follows_step (h : R.Agrees F) {c : Command} (hc : ∀ s ∈ c.states, s < BitSet.bound) :
    Follows (R.step c) (F.step c) := by
  obtain ⟨T, hT, rfl⟩ := h.exists_sets
  cases c with
  | new r => exact h.follows_put BitSet.holds_empty r
  | withCapacity r room => exact h.follows_put (BitSet.holds_withRoom room) r
  | singleton r s room =>
    obtain ⟨S, hS, hs⟩ := BitSet.exists_singleton (B := B) (hc s List.mem_cons_self) room
    rw [Registers.step, hS, Holding.step, ← SortedSet.toFinset_singleton]
    exact h.follows_put hs r
  | ofList r ss =>
    obtain ⟨S, hS, hss⟩ := BitSet.exists_ofList (B := B) ss hc
    rw [Registers.step, hS, Holding.step, ← SortedSet.toFinset_ofList]
    exact h.follows_put hss r
  | copy r q => exact h.follows_put (hT q) r
  | insert r s =>
    obtain ⟨S, hS, hs⟩ := (hT r).insert (hc s List.mem_cons_self)
    rw [Registers.step, hS, Holding.step, ← SortedSet.toFinset_insert]
    refine ⟨_, ?_, h.set hs r⟩
    rw [Option.map_some, SortedSet.contains_eq_decide, ← decide_not]
  | insertAll r ss =>
    obtain ⟨S, hS, hss⟩ := (hT r).insertAll ss hc
    rw [Registers.step, hS, Holding.step, ← SortedSet.toFinset_insertAll]
    exact h.follows_put hss r
  | union r q =>
    rw [Registers.step, Holding.step, ← SortedSet.toFinset_union]
    exact h.follows_put ((hT r).union (hT q)) r
  | contains r s =>
    exact h.follows_answer
      (congrArg Answer.flag (((hT r).contains_eq s).trans ((T r).contains_eq_decide s)))
  | isEmpty r =>
    exact h.follows_answer (congrArg Answer.flag ((hT r).isEmpty_eq.trans (T r).isEmpty_eq_decide))
  | size r =>
    exact h.follows_answer (congrArg Answer.number ((hT r).size_eq.trans (T r).card_toFinset.symm))
  | meets r q =>
    exact h.follows_answer
      (congrArg Answer.flag (((hT r).meets_eq (hT q)).trans ((T r).meets_eq_decide (T q))))
  | isSubset r q =>
    exact h.follows_answer
      (congrArg Answer.flag (((hT r).isSubset_eq (hT q)).trans ((T r).isSubset_eq_decide (T q))))
  | equal r q =>
    exact h.follows_answer (congrArg Answer.flag (((hT r).equal_eq (hT q)).trans
      (decide_eq_decide.mpr SortedSet.toFinset_injective.eq_iff.symm)))
  | toList r =>
    exact h.follows_answer
      (congrArg Answer.members ((hT r).toList_eq.trans (T r).sort_toFinset.symm))
  | shown r =>
    exact h.follows_answer (congrArg (Answer.text ∘ Text.braced)
      ((hT r).toList_eq.trans (T r).sort_toFinset.symm))

theorem follows_run (h : R.Agrees F) {cs : List Command}
    (hcs : ∀ c ∈ cs, ∀ s ∈ c.states, s < BitSet.bound) : Follows (R.run cs) (F.run cs) := by
  induction cs generalizing R F with
  | nil => exact ⟨R, rfl, h⟩
  | cons c cs ih =>
    obtain ⟨R₁, hstep, h₁⟩ := h.follows_step (hcs c List.mem_cons_self)
    obtain ⟨R₂, hrun, h₂⟩ := ih h₁ fun d hd => hcs d (List.mem_cons_of_mem c hd)
    refine ⟨R₂, ?_, h₂⟩
    rw [Registers.run, hstep]
    simp only [Option.bind_eq_bind, Option.bind_some, hrun]
    rfl

theorem represents (h : R.Agrees F) : R.Represents F := by
  have hsort : ∀ r, (R.get r).toList = (F r).sort := fun r => by
    obtain ⟨T, hT, hF⟩ := h r
    rw [hT.toList_eq, ← hF, SortedSet.sort_toFinset]
  refine ⟨hsort, fun r => ?_, fun r q => decide_eq_true_iff, fun r q => ?_⟩
  · rw [hsort]
    exact (Finset.sortedLT_sort (F r)).pairwise
  · rw [hsort, hsort]
    refine ⟨fun e => Finset.ext fun s => ?_, fun e => by rw [e]⟩
    rw [← Finset.mem_sort (· ≤ ·), e, Finset.mem_sort]

end Agrees

/-- Sets of states are finite sets, whatever the rows of bits that they are kept in and however much room
they are made with: no sequence of commands on registers fails, all its answers are those of finite sets
with the same history, and the registers represent these sets at its end. -/
theorem run_finite_sets {B : Type} [BitRow B] [LawfulBitRow B] (cs : List Command)
    (hcs : ∀ c ∈ cs, ∀ s ∈ c.states, s < BitSet.bound) :
    ∃ R : Registers B, Registers.run [] cs = some (R, (Holding.run (fun _ => ∅) cs).2) ∧
      R.Represents (Holding.run (fun _ => ∅) cs).1 := by
  obtain ⟨R, hrun, hR⟩ := Agrees.follows_run (B := B) Agrees.nil hcs
  exact ⟨R, hrun, hR.represents⟩

/-- The rows of the first two sets have lengths 41 and 128, and the third one is longer than the first. -/
theorem run_finite_sets_lengths :
    let cs : List Command := [.withCapacity "a" 2, .insert "a" 40, .insert "a" 40,
      .singleton "b" 40 128, .equal "a" "b", .ofList "c" [63, 0, 40, 0], .meets "c" "b",
      .isSubset "c" "b", .union "a" "c", .copy "b" "a", .insert "a" 4294967295, .size "a",
      .isSubset "b" "a", .equal "a" "b", .contains "b" 500, .isEmpty "d"]
    (∀ c ∈ cs, ∀ s ∈ c.states, s < BitSet.bound) ∧
      (∃ R : Registers Bits, Registers.run [] cs = some (R, (Holding.run (fun _ => ∅) cs).2) ∧
        R.Represents (Holding.run (fun _ => ∅) cs).1) ∧
      Registers.answers ([] : Registers Bits) cs = [.members [], .flag true, .flag false,
        .members [40], .flag true, .members [0, 40, 63], .flag true, .flag false,
        .members [0, 40, 63], .members [0, 40, 63], .flag true, .number 4, .flag true, .flag false,
        .flag false, .flag true] := by
  intro cs
  have hcs : ∀ c ∈ cs, ∀ s ∈ c.states, s < BitSet.bound := by decide
  exact ⟨hcs, run_finite_sets cs hcs, by decide⟩

end Registers

end Recognizer

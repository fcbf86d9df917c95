import FullNode.Interpreter

/-!
# The stack of conditions

A size and the place of the first false value stand for a vector of booleans. Both have 32 bits.
-/

namespace FullNode.Script

open ConditionStack

/-! ## The vector -/

inductive ConditionOp where
  | pushBack (f : Bool)
  | popBack
  | toggleTop
  deriving DecidableEq

def ConditionOp.run (c : ConditionStack) : ConditionOp → Eval ConditionStack
  | .pushBack f => .ok (c.pushBack f)
  | .popBack => c.popBack
  | .toggleTop => c.toggleTop

/-- The same on a vector, its last element first. -/
def ConditionOp.onVector : List Bool → ConditionOp → Option (List Bool)
  | l, .pushBack f => some (f :: l)
  | _ :: l, .popBack => some l
  | b :: l, .toggleTop => some ((!b) :: l)
  | [], _ => none

/-- Every call is allowed, with fewer than `2 ^ 32` elements. -/
def Counted : List Bool → List ConditionOp → Prop
  | _, [] => True
  | l, op :: ops => ∃ l', op.onVector l = some l' ∧ l'.length < 2 ^ 32 ∧ Counted l' ops

/-- The first place in the vector with a false value. -/
def firstFalse : List Bool → Option Nat
  | [] => none
  | b :: l => (firstFalse l).or (if b then none else some l.length)

def ofVector (l : List Bool) : ConditionStack :=
  ⟨BitVec.ofNat 32 l.length, (firstFalse l).elim NO_FALSE (BitVec.ofNat 32)⟩

variable {b : Bool} {l l' : List Bool} {p n : Nat} {op : ConditionOp} {ops : List ConditionOp}

theorem firstFalse_lt (h : firstFalse l = some p) : p < l.length := by
  induction l with
  | nil => cases h
  | cons b l ih =>
    rcases Option.or_eq_some_iff.mp h with h | ⟨-, h⟩
    · exact Nat.lt_succ_of_lt (ih h)
    · cases b <;> simp at h
      exact h ▸ Nat.lt_succ_self _

theorem firstFalse_eq_none : firstFalse l = none ↔ l.all id = true := by
  induction l with
  | nil => exact ⟨fun _ => rfl, fun _ => rfl⟩
  | cons b l ih => cases b <;> simp [firstFalse, ih]

theorem ofNat_inj (hn : n < 2 ^ 32) (hp : p < 2 ^ 32) : BitVec.ofNat 32 n = BitVec.ofNat 32 p ↔ n = p := by
  rw [← BitVec.toNat_inj, BitVec.toNat_ofNat, BitVec.toNat_ofNat, Nat.mod_eq_of_lt hn, Nat.mod_eq_of_lt hp]

theorem ofNat_eq_noFalse (hn : n < 2 ^ 32) : BitVec.ofNat 32 n = NO_FALSE ↔ n = 2 ^ 32 - 1 := ofNat_inj hn (by decide)

theorem succ_sub_one (n : Nat) : BitVec.ofNat 32 (n + 1) - 1 = BitVec.ofNat 32 n := by
  rw [BitVec.ofNat_add]
  exact BitVec.add_sub_cancel _ _

section

variable (hl : l.length + 1 < 2 ^ 32)
include hl

theorem pushBack_ofVector (f : Bool) : (ofVector l).pushBack f = ofVector (f :: l) := by
  unfold pushBack ofVector
  rw [mk.injEq]
  refine ⟨(BitVec.ofNat_add ..).symm, ?_⟩
  cases hfirst : firstFalse l with
  | none => cases f <;> simp [firstFalse, hfirst]
  | some p =>
    have hp := firstFalse_lt hfirst
    have hne := mt (ofNat_eq_noFalse (by omega : p < 2 ^ 32)).mp (by omega)
    simp [firstFalse, hfirst, hne]

/-- What lies below the last element. -/
theorem ofVector_cons (b : Bool) : (ofVector (b :: l)).stackSize ≠ 0 ∧
    (ofVector (b :: l)).stackSize - 1 = BitVec.ofNat 32 l.length ∧ BitVec.ofNat 32 l.length ≠ NO_FALSE ∧
    ∀ p, firstFalse l = some p → BitVec.ofNat 32 p ≠ BitVec.ofNat 32 l.length ∧ BitVec.ofNat 32 p ≠ NO_FALSE := by
  refine ⟨mt (ofNat_inj hl (by decide)).mp (Nat.succ_ne_zero _), succ_sub_one _, ?_, fun p hp => ⟨?_, ?_⟩⟩
  · exact mt (ofNat_eq_noFalse (by omega)).mp (by omega)
  · have hlt := firstFalse_lt hp
    exact mt (ofNat_inj (by omega) (by omega)).mp (by omega)
  · have hlt := firstFalse_lt hp
    exact mt (ofNat_eq_noFalse (by omega)).mp (by omega)

theorem popBack_ofVector (b : Bool) : (ofVector (b :: l)).popBack = .ok (ofVector l) := by
  obtain ⟨hsize, hlast, -, hsome⟩ := ofVector_cons hl b
  unfold popBack
  rw [if_neg hsize, hlast]
  unfold ofVector
  cases hfirst : firstFalse l with
  | none => cases b <;> simp [firstFalse, hfirst]
  | some p => simp [firstFalse, hfirst, (hsome p hfirst).1]

theorem toggleTop_ofVector (b : Bool) : (ofVector (b :: l)).toggleTop = .ok (ofVector ((!b) :: l)) := by
  obtain ⟨hsize, hlast, hnone, hsome⟩ := ofVector_cons hl b
  unfold toggleTop
  rw [if_neg hsize, hlast]
  unfold ofVector
  cases hfirst : firstFalse l with
  | none => cases b <;> simp [firstFalse, hfirst, hnone]
  | some p => simp [firstFalse, hfirst, hsome p hfirst]

end

theorem run_ofVector (hl : l.length < 2 ^ 32) (hop : op.onVector l = some l') (hl' : l'.length < 2 ^ 32) :
    op.run (ofVector l) = .ok (ofVector l') := by
  cases op with
  | pushBack f =>
    cases hop
    exact congrArg Except.ok (pushBack_ofVector hl' f)
  | popBack =>
    cases l with
    | nil => cases hop
    | cons b l =>
      cases hop
      exact popBack_ofVector hl b
  | toggleTop =>
    cases l with
    | nil => cases hop
    | cons b l =>
      cases hop
      exact toggleTop_ofVector hl b

/-- While 32 bits count its elements, the stack answers as the vector. -/
theorem conditionStack_exact (h : Counted [] ops) : ∃ c l, ops.foldlM ConditionOp.run {} = .ok c ∧
    ops.foldlM ConditionOp.onVector [] = some l ∧ c.empty = l.isEmpty ∧ c.allTrue = l.all id := by
  have hrun : ∀ (ops : List ConditionOp) (l : List Bool), l.length < 2 ^ 32 → Counted l ops → ∃ l', l'.length < 2 ^ 32 ∧
      ops.foldlM ConditionOp.run (ofVector l) = .ok (ofVector l') ∧ ops.foldlM ConditionOp.onVector l = some l' := by
    intro ops
    induction ops with
    | nil => exact fun l hl _ => ⟨l, hl, rfl, rfl⟩
    | cons op ops ih =>
      rintro l hl ⟨l1, hop, hl1, hrest⟩
      obtain ⟨l', hl', hcode, hvector⟩ := ih l1 hl1 hrest
      refine ⟨l', hl', ?_, ?_⟩
      · rw [List.foldlM_cons, run_ofVector hl hop hl1]
        exact hcode
      · rw [List.foldlM_cons, hop]
        exact hvector
  obtain ⟨l, hl, hcode, hvector⟩ := hrun ops [] (by decide) h
  refine ⟨_, l, hcode, hvector, ?_, ?_⟩
  · have hzero : BitVec.ofNat 32 l.length = 0 ↔ l.length = 0 := ofNat_inj hl (by decide)
    rw [empty, ofVector, Bool.eq_iff_iff, beq_iff_eq, hzero, List.isEmpty_iff, List.length_eq_zero_iff]
  · rw [allTrue, ofVector, Bool.eq_iff_iff, beq_iff_eq, ← firstFalse_eq_none]
    cases hfirst : firstFalse l with
    | none => simp
    | some p =>
      have hp := firstFalse_lt hfirst
      simpa using mt (ofNat_eq_noFalse (by omega : p < 2 ^ 32)).mp (by omega)

theorem nested_conditions :
    ∃ c l, [.pushBack true, .pushBack false, .toggleTop, .popBack].foldlM ConditionOp.run {} = .ok c ∧
    [.pushBack true, .pushBack false, .toggleTop, .popBack].foldlM ConditionOp.onVector [] = some l ∧
      c.empty = l.isEmpty ∧ c.allTrue = l.all id :=
  conditionStack_exact ⟨[true], rfl, by decide, [false, true], rfl, by decide, [true, true], rfl, by decide,
    [true], rfl, by decide, trivial⟩

def overflowingOps : List ConditionOp := List.replicate (2 ^ 32 - 1) (.pushBack true) ++ [.pushBack false]

/-- `2 ^ 32` values, a false one on top: `NO_FALSE`, and size 0. -/
theorem conditionStack_overflows : ∃ c l, overflowingOps.foldlM ConditionOp.run {} = .ok c ∧
    overflowingOps.foldlM ConditionOp.onVector [] = some l ∧ l.length = 2 ^ 32 ∧
    (c.allTrue = true ∧ l.all id = false) ∧ c.empty = true ∧ l.isEmpty = false := by
  have htrue : ∀ n, (List.replicate n (.pushBack true)).foldlM ConditionOp.onVector [] = some (List.replicate n true) ∧
      (List.replicate n (.pushBack true)).foldlM ConditionOp.run {} = .ok ⟨BitVec.ofNat 32 n, NO_FALSE⟩ := by
    intro n
    induction n with
    | zero => exact ⟨rfl, rfl⟩
    | succ n ih =>
      rw [List.replicate_succ', List.foldlM_append, List.foldlM_append, ih.1, ih.2, List.replicate_succ,
        BitVec.ofNat_add]
      exact ⟨rfl, rfl⟩
  obtain ⟨hvector, hcode⟩ := htrue (2 ^ 32 - 1)
  refine ⟨⟨0, NO_FALSE⟩, false :: List.replicate (2 ^ 32 - 1) true, ?_, ?_, ?_, ⟨rfl, rfl⟩, rfl, rfl⟩
  · rw [overflowingOps, List.foldlM_append, hcode]
    rfl
  · rw [overflowingOps, List.foldlM_append, hvector]
    rfl
  · rw [List.length_cons, List.length_replicate]
    decide

end FullNode.Script

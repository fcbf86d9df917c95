import FullNode.CoinSelection
import FullNode.MempoolUpdate
import Mathlib.Algebra.Order.BigOperators.Group.List

/-!
# What a selection returns

`SelectionResult`: the coins that are selected, their weight, and their waste once it is computed. A coin stands for the
pointer to it. Amounts have 64 bits and weights 32, and a sum that does not fit is a fault.
-/

namespace FullNode.CoinSelection

open List
open Mempool (int64 int32Sum INT64_MIN INT64_MAX)

/-- `util::Result`. Without a text nothing was found. -/
abbrev Result (α : Type) := Except String α

def errorMaxWeightExceeded : String :=
  "The inputs size exceeds the maximum weight. Please try sending a smaller amount or manually consolidating your wallet's UTXOs"

def sharedUtxos : Fault := .runtimeError "Shared UTXOs among selection results"

inductive SelectionAlgorithm where
  | bnb
  | knapsack
  | srd
  | cg
  | manual
  deriving DecidableEq

structure SelectionResult where
  selectedInputs : List COutput := []
  target : Int
  algo : SelectionAlgorithm
  useEffective : Bool := false
  waste : Option Int := none
  algoCompleted : Bool := true
  /-- Not set by the constructor. -/
  selectionsEvaluated : Option Nat := none
  weight : Int := 0
  bumpFeeGroupDiscount : Int := 0
  deriving DecidableEq

/-- `std::accumulate` of amounts. -/
def accumulate (value : COutput → Checked Int) (coins : List COutput) : Checked Int :=
  coins.foldlM (fun sum coin => do int64 (sum + (← value coin))) 0

namespace SelectionResult

def insertAll (coins inputs : List COutput) : List COutput :=
  inputs.foldl (fun coins coin => if coin ∈ coins then coins else coins ++ [coin]) coins

def insertInputs (inputs : List COutput) (result : SelectionResult) : Checked SelectionResult :=
  let selected := insertAll result.selectedInputs inputs
  if selected.length ≠ result.selectedInputs.length + inputs.length then .error sharedUtxos
  else .ok { result with selectedInputs := selected }

def addInput (group : OutputGroup) (result : SelectionResult) : Checked SelectionResult := do
  let result ← result.insertInputs group.outputs
  let weight ← int32Sum (result.weight + group.weight)
  return { result with useEffective := !group.subtractFeeOutputs, weight := weight }

def addGroups (groups : List OutputGroup) (result : SelectionResult) : Checked SelectionResult :=
  groups.foldlM (fun result group => result.addInput group) result

def clear (result : SelectionResult) : SelectionResult :=
  { result with selectedInputs := [], waste := none, weight := 0 }

def getSelectedValue (result : SelectionResult) : Checked Int :=
  accumulate (fun coin => .ok coin.txout.nValue) result.selectedInputs

def getSelectedEffectiveValue (result : SelectionResult) : Checked Int := do
  let sum ← accumulate COutput.getEffectiveValue result.selectedInputs
  int64 (sum + result.bumpFeeGroupDiscount)

def getSelected (result : SelectionResult) : Checked Int :=
  if result.useEffective then result.getSelectedEffectiveValue else result.getSelectedValue

def getChange (minViableChange changeFee : Int) (result : SelectionResult) : Checked Int := do
  let selected ← result.getSelected
  let change ← int64 (selected - result.target)
  let change ← (if result.useEffective then int64 (change - changeFee) else .ok change)
  return if change < minViableChange then 0 else change

def recalculateWaste (minViableChange changeCost changeFee : Int)
    (result : SelectionResult) : Checked SelectionResult := do
  check (!result.selectedInputs.isEmpty)
  let waste ← accumulate (fun coin => do int64 ((← coin.getFee) - coin.longTermFee)) result.selectedInputs
  let waste ← int64 (waste - result.bumpFeeGroupDiscount)
  let change ← result.getChange minViableChange changeFee
  let waste ← (if change ≠ 0 then int64 (waste + changeCost) else do
    let selected ← result.getSelected
    check (selected ≥ result.target)
    int64 (waste + (← int64 (selected - result.target))))
  return { result with waste := some waste }

def getWaste (result : SelectionResult) : Checked Int := COutput.asserted result.waste

end SelectionResult

/-! ## Sums that fit -/

theorem check_ensures {bad : Fault → Prop} {c : Prop} [Decidable c] (h : c) :
    Ensures bad (fun _ => True) (check c) := by
  rw [decide_eq_true h]
  trivial

variable {x : Int}

theorem int64_of_abs (h : |x| ≤ INT64_MAX) : int64 x = .ok x := by
  have := abs_le.mp h
  rw [int64, if_pos]
  simp only [INT64_MAX, INT64_MIN] at *
  omega

theorem int32Sum_of_nonneg (h : 0 ≤ x) (hlt : x < 2 ^ 31) : int32Sum x = .ok x := by
  rw [int32Sum, if_pos]
  omega

theorem int64_ensures {P : Prop} (h : P → |x| ≤ INT64_MAX) :
    Ensures (fun e => e = .overflow ∧ ¬ P) (· = x) (int64 x) := by
  unfold int64
  split
  · rfl
  · next hout =>
    refine ⟨rfl, fun hP => hout ?_⟩
    have := abs_le.mp (h hP)
    simp only [INT64_MAX, INT64_MIN] at *
    omega

theorem int32Sum_ensures {P : Prop} (h : P → 0 ≤ x ∧ x < 2 ^ 31) :
    Ensures (fun e => e = .overflow ∧ ¬ P) (· = x) (int32Sum x) := by
  unfold int32Sum
  split
  · rfl
  · next hout =>
    refine ⟨rfl, fun hP => hout ?_⟩
    have := h hP
    omega

theorem accumulate_ok {value : COutput → Checked Int} {v : COutput → Int} {coins : List COutput}
    (hvalue : ∀ coin ∈ coins, value coin = .ok (v coin)) (hP : (coins.map fun coin => |v coin|).sum ≤ INT64_MAX) :
    accumulate value coins = .ok (coins.map v).sum := by
  suffices h : ∀ sum : Int, |sum| + (coins.map fun coin => |v coin|).sum ≤ INT64_MAX →
      coins.foldlM (fun sum coin => do int64 (sum + (← value coin))) sum = .ok (sum + (coins.map v).sum) by
    rw [accumulate, h 0 (by rw [abs_zero, zero_add]; exact hP), zero_add]
  clear hP
  induction coins with
  | nil =>
    intro sum _
    rw [map_nil, sum_nil, add_zero]
    rfl
  | cons coin coins ih =>
    intro sum hsum
    rw [map_cons, sum_cons] at hsum
    have habs := abs_add_le sum (v coin)
    have hrest : 0 ≤ (coins.map fun coin => |v coin|).sum := sum_nonneg (by simp)
    rw [foldlM_cons, hvalue coin mem_cons_self, ok_bind, int64_of_abs (by omega), ok_bind,
      ih (fun coin hcoin => hvalue coin (mem_cons_of_mem _ hcoin)) _ (by omega), map_cons, sum_cons, add_assoc]

/-! ## Coins are selected once -/

namespace SelectionResult

variable {coins inputs : List COutput} {groups : List OutputGroup} {result : SelectionResult}

theorem insertAll_cons (coin : COutput) :
    insertAll coins (coin :: inputs) = insertAll (if coin ∈ coins then coins else coins ++ [coin]) inputs :=
  rfl

theorem length_insertAll_le (coins inputs : List COutput) :
    (insertAll coins inputs).length ≤ coins.length + inputs.length := by
  induction inputs generalizing coins with
  | nil => exact le_rfl
  | cons coin inputs ih =>
    rw [insertAll_cons, length_cons]
    refine (ih _).trans ?_
    split
    · omega
    · rw [length_append, length_singleton]
      omega

theorem insertAll_of_length (h : (insertAll coins inputs).length = coins.length + inputs.length) :
    insertAll coins inputs = coins ++ inputs := by
  induction inputs generalizing coins with
  | nil => exact (append_nil _).symm
  | cons coin inputs ih =>
    rw [insertAll_cons] at h ⊢
    rw [length_cons] at h
    split at h
    · have := length_insertAll_le coins inputs
      omega
    · next hnew =>
      rw [if_neg hnew, ih (by rw [h, length_append, length_singleton]; omega), append_assoc, singleton_append]

theorem length_insertAll (h : (coins ++ inputs).Nodup) :
    (insertAll coins inputs).length = coins.length + inputs.length := by
  induction inputs generalizing coins with
  | nil => rfl
  | cons coin inputs ih =>
    have hnew : coin ∉ coins := fun hcoin => (nodup_append.mp h).2.2 coin hcoin coin mem_cons_self rfl
    rw [insertAll_cons, if_neg hnew, ih (by rwa [append_assoc]), length_append, length_singleton, length_cons]
    omega

def added (groups : List OutputGroup) (result : SelectionResult) : SelectionResult := { result with
  selectedInputs := result.selectedInputs ++ groups.flatMap OutputGroup.outputs
  useEffective := groups.foldl (fun _ group => !group.subtractFeeOutputs) result.useEffective
  weight := result.weight + (groups.map OutputGroup.weight).sum }

def SharedAmong (coins : List COutput) (e : Fault) : Prop := e = sharedUtxos ∧ ¬ coins.Nodup

theorem insertInputs_spec : Ensures (SharedAmong (result.selectedInputs ++ inputs))
    (· = { result with selectedInputs := result.selectedInputs ++ inputs }) (result.insertInputs inputs) := by
  unfold insertInputs
  dsimp only
  split
  · next h => exact ⟨rfl, fun hnodup => h (length_insertAll hnodup)⟩
  · next h => rw [Ensures.ok_iff, insertAll_of_length (by simpa using h)]

theorem addInput_spec {P : Prop} (result : SelectionResult) (group : OutputGroup)
    (h : P → 0 ≤ result.weight + group.weight ∧ result.weight + group.weight < 2 ^ 31) :
    Ensures (fun e => SharedAmong (result.selectedInputs ++ group.outputs) e ∨ e = .overflow ∧ ¬ P)
      (· = result.added [group]) (result.addInput group) := by
  unfold addInput
  refine (insertInputs_spec.weaken fun _ => .inl).bind ?_
  rintro _ rfl
  refine ((int32Sum_ensures h).weaken fun _ => .inr).bind ?_
  rintro _ rfl
  simp [added, pure, Except.pure]

theorem added_cons (group : OutputGroup) (groups : List OutputGroup) :
    (result.added [group]).added groups = result.added (group :: groups) := by
  simp [added, append_assoc, add_assoc]

theorem addGroups_spec {P : Prop} (result : SelectionResult) (groups : List OutputGroup)
    (h : P → (∀ group ∈ groups, 0 ≤ group.weight) ∧ 0 ≤ result.weight ∧
      result.weight + (groups.map OutputGroup.weight).sum < 2 ^ 31) :
    Ensures (fun e => SharedAmong (result.selectedInputs ++ groups.flatMap OutputGroup.outputs) e ∨ e = .overflow ∧ ¬ P)
      (· = result.added groups) (result.addGroups groups) := by
  induction groups generalizing result with
  | nil => simp [addGroups, added, pure, Except.pure]
  | cons group groups ih =>
    have hparts : P → (∀ group ∈ groups, 0 ≤ group.weight) ∧ 0 ≤ group.weight ∧ 0 ≤ result.weight ∧
        result.weight + (group.weight + (groups.map OutputGroup.weight).sum) < 2 ^ 31 ∧
          0 ≤ (groups.map OutputGroup.weight).sum := by
      intro hP
      obtain ⟨hweights, hnonneg, hlt⟩ := h hP
      have hgroups := fun g hg => hweights g (mem_cons_of_mem group hg)
      rw [map_cons, sum_cons] at hlt
      exact ⟨hgroups, hweights group mem_cons_self, hnonneg, hlt, sum_nonneg (by simpa using hgroups)⟩
    have hfirst := addInput_spec result group (fun hP => by have := hparts hP; omega)
    have hweight : (result.added [group]).weight = result.weight + group.weight := by simp [added]
    rw [flatMap_cons, addGroups, foldlM_cons]
    cases hadd : result.addInput group with
    | error e =>
      rw [hadd] at hfirst
      refine hfirst.imp_left fun hshared => ⟨hshared.1, fun h => hshared.2 ?_⟩
      rw [← append_assoc] at h
      exact (nodup_append.mp h).1
    | ok result' =>
      rw [hadd] at hfirst
      obtain rfl : result' = result.added [group] := hfirst
      have hadded := ih (result.added [group]) fun hP => by
        have := hparts hP
        exact ⟨this.1, by omega, by omega⟩
      have hinputs : (result.added [group]).selectedInputs ++ groups.flatMap OutputGroup.outputs =
          result.selectedInputs ++ (group.outputs ++ groups.flatMap OutputGroup.outputs) := by
        simp [added]
      rw [hinputs, added_cons] at hadded
      exact hadded

end SelectionResult
end FullNode.CoinSelection

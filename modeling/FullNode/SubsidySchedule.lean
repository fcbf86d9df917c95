import FullNode.Emission
import FullNode.Mempool

/-! # The schedule of subsidies -/

namespace FullNode

open Finset
open Mempool (int64 INT64_MIN INT64_MAX)

variable {n : Nat} {nSubsidy : Int} {params : Params}

/-! ## In 64 bits -/

def reduceSubsidy64 : Nat → Int → Checked Int
  | 0, nSubsidy => .ok nSubsidy
  | n + 1, nSubsidy => do
    let product ← int64 (nSubsidy * 99)
    let nSubsidy := product.tdiv 100
    if nSubsidy = 0 then return nSubsidy else reduceSubsidy64 n nSubsidy

def getBlockSubsidy64 (nHeight : Int) (params : Params) : Checked Int := do
  let product ← int64 (239726 * COIN)
  let reductions ← cdiv nHeight params.nSubsidyHalvingInterval
  reduceSubsidy64 reductions.toNat (product.tdiv 100)

/-- The sum of the subsidies of the first `n` heights, in `int64_t`. -/
def cumulativeSubsidy64 (params : Params) : Nat → Checked Int
  | 0 => .ok 0
  | n + 1 => do
    let sum ← cumulativeSubsidy64 params n
    let subsidy ← getBlockSubsidy64 n params
    int64 (sum + subsidy)

theorem int64_ok {x : Int} (h0 : 0 ≤ x) (h : x ≤ INT64_MAX) : int64 x = .ok x := by
  have hmin : INT64_MIN ≤ 0 := by decide
  exact if_pos ⟨hmin.trans h0, h⟩

theorem INT64_MAX_eq : INT64_MAX = 9223372036854775807 := by decide

/-! ## Periods -/

def periodSubsidy (n : Nat) : Int := reduceSubsidy n 239726000000

theorem reduceSubsidy_succ (h : 0 ≤ nSubsidy) :
    reduceSubsidy (n + 1) nSubsidy = reduceSubsidy n nSubsidy * 99 / 100 := by
  induction n generalizing nSubsidy with
  | zero =>
    have hone : reduceSubsidy 1 nSubsidy = (nSubsidy * 99).tdiv 100 := by
      rw [reduceSubsidy]
      split <;> rfl
    rw [hone, reduceSubsidy]
    exact Int.tdiv_eq_ediv_of_nonneg (by omega)
  | succ n ih =>
    have hnext : 0 ≤ (nSubsidy * 99).tdiv 100 := Int.tdiv_nonneg (by omega) (by decide)
    rw [reduceSubsidy]
    split
    · next hzero =>
      -- what is left is nothing, for both
      rw [reduceSubsidy]
      simp [hzero]
    · next hsome =>
      rw [ih hnext]
      conv_rhs => rw [reduceSubsidy]
      simp only [hsome, if_false]

theorem periodSubsidy_succ : periodSubsidy (n + 1) = periodSubsidy n * 99 / 100 := reduceSubsidy_succ (by decide)

theorem periodSubsidy_nonneg : 0 ≤ periodSubsidy n := reduceSubsidy_nonneg n (by decide)

theorem periodSubsidy_le_of_le {m : Nat} (h : m ≤ n) : periodSubsidy n ≤ periodSubsidy m := by
  induction h with
  | refl => exact le_refl _
  | @step n _ ih =>
    have hnonneg : 0 ≤ periodSubsidy n := periodSubsidy_nonneg
    rw [Nat.succ_eq_add_one, periodSubsidy_succ]
    omega

theorem periodSubsidy_zero (h : 2300 ≤ n) : periodSubsidy n = 0 := by
  have hend : periodSubsidy 2300 = 0 := by decide +kernel
  have hle := periodSubsidy_le_of_le h
  have hnonneg : 0 ≤ periodSubsidy n := periodSubsidy_nonneg
  omega

theorem sum_periodSubsidy_le : ∑ p ∈ Finset.range n, periodSubsidy p ≤ 100 * (239726000000 - periodSubsidy n) := by
  induction n with
  | zero => decide
  | succ n ih =>
    rw [sum_range_succ, periodSubsidy_succ]
    omega

theorem sum_blocks (K N : Nat) :
    ∑ i ∈ Finset.range (K * N), periodSubsidy (i / K) = K * ∑ p ∈ Finset.range N, periodSubsidy p := by
  induction N with
  | zero => simp
  | succ N ih =>
    have hperiod : ∀ j ∈ range K, periodSubsidy ((K * N + j) / K) = periodSubsidy N := by
      intro j hj
      have hlt := mem_range.mp hj
      rw [Nat.mul_add_div (by omega), Nat.div_eq_of_lt hlt, Nat.add_zero]
    rw [Nat.mul_succ, sum_range_add, ih, sum_congr rfl hperiod, sum_range_succ]
    simp [mul_add]

/-! ## Heights -/

theorem reduceSubsidy64_eq (h0 : 0 ≤ nSubsidy) (h : nSubsidy ≤ 239726000000) :
    reduceSubsidy64 n nSubsidy = .ok (reduceSubsidy n nSubsidy) := by
  induction n generalizing nSubsidy with
  | zero => rfl
  | succ n ih =>
    have hproduct : int64 (nSubsidy * 99) = .ok (nSubsidy * 99) := by
      apply int64_ok (by omega)
      rw [INT64_MAX_eq]
      omega
    have hdiv : (nSubsidy * 99).tdiv 100 = nSubsidy * 99 / 100 := Int.tdiv_eq_ediv_of_nonneg (by omega)
    unfold reduceSubsidy64 reduceSubsidy
    rw [hproduct, ok_bind]
    simp only
    split
    · rfl
    · apply ih
      · omega
      · omega

section Schedule

variable (hinterval : params.nSubsidyHalvingInterval = 87600)

include hinterval

theorem getBlockSubsidy_eq (nHeight : Int) :
    getBlockSubsidy nHeight params = .ok (periodSubsidy (nHeight.tdiv 87600).toNat) := by
  unfold getBlockSubsidy cdiv
  rw [hinterval]
  rfl

theorem subsidyAt_eq (i : Nat) : subsidyAt params i = periodSubsidy (i / 87600) := by
  unfold subsidyAt
  rw [getBlockSubsidy_eq hinterval]
  rfl

theorem sum_subsidyAt_le (h : Nat) : ∑ i ∈ Finset.range h, subsidyAt params i ≤ 21000000000 * COIN := by
  have hblocks : ∑ i ∈ range h, subsidyAt params i ≤
      ∑ i ∈ range (87600 * (h / 87600 + 1)), periodSubsidy (i / 87600) := by
    rw [sum_congr rfl fun i _ => subsidyAt_eq hinterval i]
    apply sum_le_sum_of_subset_of_nonneg
    · exact range_mono (by omega)
    · intro i _ _
      exact periodSubsidy_nonneg
  have hperiods : ∑ p ∈ range (h / 87600 + 1), periodSubsidy p ≤ 100 * (239726000000 - periodSubsidy (h / 87600 + 1)) :=
    sum_periodSubsidy_le
  have hnonneg : 0 ≤ periodSubsidy (h / 87600 + 1) := periodSubsidy_nonneg
  rw [sum_blocks] at hblocks
  simp only [COIN]
  push_cast at hblocks
  omega

theorem getBlockSubsidy64_eq (nHeight : Int) : getBlockSubsidy64 nHeight params = getBlockSubsidy nHeight params := by
  have hproduct : int64 (239726 * COIN) = .ok (239726 * COIN) := by decide
  unfold getBlockSubsidy64 getBlockSubsidy cdiv
  rw [hproduct, ok_bind, hinterval]
  exact reduceSubsidy64_eq (by decide) (by decide)

theorem cumulativeSubsidy64_eq (n : Nat) :
    cumulativeSubsidy64 params n = .ok (∑ i ∈ Finset.range n, subsidyAt params i) := by
  induction n with
  | zero => rfl
  | succ n ih =>
    have hsubsidy : getBlockSubsidy64 n params = .ok (subsidyAt params n) := by
      rw [getBlockSubsidy64_eq hinterval, subsidyAt_eq hinterval, getBlockSubsidy_eq hinterval]
      rfl
    have hle := sum_subsidyAt_le hinterval (n + 1)
    rw [sum_range_succ] at hle
    have hnonneg : 0 ≤ ∑ i ∈ range n, subsidyAt params i := sum_nonneg fun i _ => subsidyAt_nonneg params i
    have hnonneg' := subsidyAt_nonneg params n
    unfold cumulativeSubsidy64
    rw [ih, ok_bind, hsubsidy, ok_bind, sum_range_succ]
    apply int64_ok (by omega)
    rw [INT64_MAX_eq]
    simp only [COIN] at hle
    omega

/-- Subsidies go down to zero, at most 21 billion coins in all. -/
theorem subsidy_schedule :
    (∀ h1 h2 : Int, h1 ≤ h2 → ∃ s1 s2, getBlockSubsidy h1 params = .ok s1 ∧ getBlockSubsidy h2 params = .ok s2 ∧
    0 ≤ s2 ∧ s2 ≤ s1) ∧ (∃ H : Int, H < 2 ^ 31 ∧ ∀ h, H ≤ h → getBlockSubsidy h params = .ok 0) ∧
    (∀ h : Nat, ∑ i ∈ Finset.range (h + 1), subsidyAt params i ≤ 21000000000 * COIN) ∧
    (∀ h : Int, getBlockSubsidy64 h params = getBlockSubsidy h params) ∧
    ∀ h : Nat, cumulativeSubsidy64 params (h + 1) = .ok (∑ i ∈ Finset.range (h + 1), subsidyAt params i) := by
  refine ⟨?_, ⟨2300 * 87600, by decide, ?_⟩, fun h => sum_subsidyAt_le hinterval (h + 1),
    getBlockSubsidy64_eq hinterval, fun h => cumulativeSubsidy64_eq hinterval (h + 1)⟩
  · intro h1 h2 hle
    refine ⟨_, _, getBlockSubsidy_eq hinterval h1, getBlockSubsidy_eq hinterval h2, periodSubsidy_nonneg, ?_⟩
    apply periodSubsidy_le_of_le
    exact Int.toNat_le_toNat (Int.tdiv_le_tdiv (by decide) hle)
  · intro h hh
    rw [getBlockSubsidy_eq hinterval, periodSubsidy_zero]
    rw [Int.tdiv_eq_ediv_of_nonneg (by omega)]
    omega

end Schedule

theorem subsidy_schedule_main :
    (mainParams 0).nSubsidyHalvingInterval = 87600 ∧
      (∃ H : Int, H < 2 ^ 31 ∧ ∀ h, H ≤ h → getBlockSubsidy h (mainParams 0) = .ok 0) ∧
    ∀ h : Nat, ∑ i ∈ Finset.range (h + 1), subsidyAt (mainParams 0) i ≤ 21000000000 * COIN := by
  obtain ⟨-, hzero, hcap, -⟩ := subsidy_schedule (show (mainParams 0).nSubsidyHalvingInterval = 87600 from rfl)
  exact ⟨rfl, hzero, hcap⟩

end FullNode

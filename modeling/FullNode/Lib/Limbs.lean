import Mathlib.Algebra.BigOperators.Intervals
import Mathlib.Algebra.BigOperators.Ring.Finset
import Mathlib.Algebra.Order.BigOperators.Group.Finset
import Mathlib.Tactic.Linarith
import Mathlib.Tactic.Ring

/-!
# Numbers in limbs

A number is a list of limbs, the lowest first, in a base that the limbs may or may not be below.
-/

namespace FullNode.Limbs

open List Finset

variable {R : Type} [CommSemiring R] {b : R}

def value (b : R) : List R → R
  | [] => 0
  | limb :: limbs => limb + b * value b limbs

@[simp] theorem value_nil : value b [] = 0 := rfl
@[simp] theorem value_cons (limb : R) (limbs : List R) : value b (limb :: limbs) = limb + b * value b limbs := rfl

theorem value_append (high low : List R) : value b (low ++ high) = value b low + b ^ low.length * value b high := by
  induction low with
  | nil => simp
  | cons limb low ih =>
    rw [cons_append, value_cons, value_cons, ih, length_cons, pow_succ]
    ring

theorem value_replicate_zero (n : Nat) : value b (replicate n 0) = 0 := by
  induction n with
  | zero => rfl
  | succ n ih => rw [replicate_succ, value_cons, ih, mul_zero, add_zero]

theorem value_eq_sum (limbs : List R) : value b limbs = ∑ i ∈ Finset.range limbs.length, limbs.getD i 0 * b ^ i := by
  induction limbs with
  | nil => simp
  | cons limb limbs ih =>
    rw [value_cons, ih, length_cons, Finset.sum_range_succ', mul_sum, add_comm]
    congr 1
    · apply sum_congr rfl
      intro i _
      rw [getD_cons_succ, pow_succ]
      ring
    · simp

/-! ## Products by columns -/

/-- The products of one column: the indices sum up to `s`. -/
def column (x y : Nat → R) (s low high : Nat) : R := ∑ i ∈ Finset.Ico low high, x i * y (s - i)

theorem column_succ_bot (x y : Nat → R) (s : Nat) {low high : Nat} (h : low < high) :
    column x y s low high = x low * y (s - low) + column x y s (low + 1) high := sum_eq_sum_Ico_succ_bot h _

theorem row_eq (y : Nat → R) {i n : Nat} (h : i ≤ n) : ∑ j ∈ Finset.range n, y j * b ^ (i + j) =
    (∑ k ∈ Finset.Ico i n, y (k - i) * b ^ k) + b ^ n * ∑ k ∈ Finset.range i, y (n + k - i) * b ^ k := by
  have hshift : ∑ j ∈ range n, y j * b ^ (i + j) = ∑ k ∈ Finset.Ico i (n + i), y (k - i) * b ^ k := by
    rw [sum_Ico_eq_sum_range]
    have hcount : n + i - i = n := by omega
    rw [hcount]
    apply sum_congr rfl
    intro j _
    rw [Nat.add_sub_cancel_left]
  have htop : ∑ k ∈ Finset.Ico n (n + i), y (k - i) * b ^ k = b ^ n * ∑ k ∈ range i, y (n + k - i) * b ^ k := by
    rw [sum_Ico_eq_sum_range, Nat.add_sub_cancel_left, mul_sum]
    apply sum_congr rfl
    intro k _
    rw [pow_add]
    ring
  rw [hshift, ← sum_Ico_consecutive _ h (Nat.le_add_right n i), htop]

theorem mul_columns (x y : Nat → R) (n : Nat) :
    (∑ i ∈ Finset.range n, x i * b ^ i) * (∑ j ∈ Finset.range n, y j * b ^ j) =
    (∑ k ∈ Finset.range n, column x y k 0 (k + 1) * b ^ k) +
      b ^ n * ∑ k ∈ Finset.range (n - 1), column x y (n + k) (k + 1) n * b ^ k := by
  have hrows : (∑ i ∈ Finset.range n, x i * b ^ i) * (∑ j ∈ Finset.range n, y j * b ^ j) =
      (∑ i ∈ Finset.range n, ∑ k ∈ Finset.Ico i n, x i * (y (k - i) * b ^ k)) +
        b ^ n * ∑ i ∈ Finset.range n, ∑ k ∈ Finset.range i, x i * (y (n + k - i) * b ^ k) := by
    rw [sum_mul, mul_sum (Finset.range n) _ (b ^ n), ← sum_add_distrib]
    apply sum_congr rfl
    intro i hi
    have hrow := row_eq (b := b) y (Nat.le_of_lt (Finset.mem_range.mp hi))
    calc x i * b ^ i * ∑ j ∈ Finset.range n, y j * b ^ j
        = x i * ∑ j ∈ Finset.range n, y j * b ^ (i + j) := by
          rw [mul_assoc, mul_sum]
          congr 1
          apply sum_congr rfl
          intro j _
          rw [pow_add]
          ring
      _ = _ := by
          rw [hrow, mul_add, ← mul_assoc, mul_comm (x i) (b ^ n), mul_assoc, mul_sum, mul_sum]
  have hlow : ∀ i k, i ∈ Finset.range n ∧ k ∈ Finset.Ico i n ↔ i ∈ Finset.Ico 0 (k + 1) ∧ k ∈ Finset.range n := by
    intro i k
    simp only [Finset.mem_range, mem_Ico]
    omega
  have hhigh : ∀ i k, i ∈ Finset.range n ∧ k ∈ Finset.range i ↔
      i ∈ Finset.Ico (k + 1) n ∧ k ∈ Finset.range (n - 1) := by
    intro i k
    simp only [Finset.mem_range, mem_Ico]
    omega
  rw [hrows]
  congr 1
  · rw [sum_comm' hlow]
    apply sum_congr rfl
    intro k _
    rw [column, sum_mul]
    apply sum_congr rfl
    intro i _
    ring
  · congr 1
    rw [sum_comm' hhigh]
    apply sum_congr rfl
    intro k _
    rw [column, sum_mul]
    apply sum_congr rfl
    intro i _
    ring

/-! ## Limbs below the base -/

variable {B : Nat}

variable {limbs : List Nat}

theorem value_lt (h : ∀ limb ∈ limbs, limb < B) : value B limbs < B ^ limbs.length := by
  induction limbs with
  | nil => simp
  | cons limb limbs ih =>
    have hlimb := h limb mem_cons_self
    have hrest := ih fun l hl => h l (mem_cons_of_mem _ hl)
    rw [value_cons, length_cons, pow_succ]
    nlinarith

theorem value_injective {limbs' : List Nat} (hlength : limbs.length = limbs'.length) (h : ∀ limb ∈ limbs, limb < B)
    (h' : ∀ limb ∈ limbs', limb < B) (hvalue : value B limbs = value B limbs') : limbs = limbs' := by
  induction limbs generalizing limbs' with
  | nil => exact (length_eq_zero_iff.mp hlength.symm).symm
  | cons limb limbs ih =>
    obtain ⟨limb', _, rfl⟩ := exists_cons_of_length_eq_add_one hlength.symm
    rw [List.forall_mem_cons] at h h'
    rw [value_cons, value_cons] at hvalue
    have hlow : limb = limb' := by
      have hmod := congrArg (· % B) hvalue
      simpa [Nat.mod_eq_of_lt h.1, Nat.mod_eq_of_lt h'.1] using hmod
    subst hlow
    have hpos : 0 < B := Nat.lt_of_le_of_lt (Nat.zero_le _) h.1
    rw [ih (Nat.succ.inj hlength) h.2 h'.2 (Nat.eq_of_mul_eq_mul_left hpos (Nat.add_left_cancel hvalue))]

theorem value_succ_eq_iff (h : ∀ limb ∈ limbs, limb < B) : value B limbs + 1 = B ^ limbs.length ↔ ∀ limb ∈ limbs,
    limb + 1 = B := by
  induction limbs with
  | nil => simp
  | cons limb limbs ih =>
    rw [List.forall_mem_cons] at h
    have hlt := value_lt h.2
    rw [List.forall_mem_cons, ← ih h.2, value_cons, length_cons, pow_succ, mul_comm _ B]
    constructor
    · intro hmax
      have htop : value B limbs + 1 = B ^ limbs.length := by
        by_contra hne
        have hle : value B limbs + 2 ≤ B ^ limbs.length := by omega
        have hmul := Nat.mul_le_mul_left B hle
        rw [Nat.mul_add] at hmul
        omega
      rw [← htop, Nat.mul_add] at hmax
      exact ⟨by omega, htop⟩
    · rintro ⟨_, htop⟩
      rw [← htop, Nat.mul_add]
      omega

theorem add_mul_lt_of_lt {P x d e : Nat} (y : Nat) (hx : x < P) (h : d < e) : x + P * d < y + P * e := by
  have hle : P * (d + 1) ≤ P * e := Nat.mul_le_mul_left P h
  rw [Nat.mul_succ] at hle
  omega

theorem testBit_value {w : Nat} (hw : 0 < w) (h : ∀ limb ∈ limbs, limb < 2 ^ w) (i : Nat) :
    (value (2 ^ w) limbs).testBit i = (limbs.getD (i / w) 0).testBit (i % w) := by
  induction limbs generalizing i with
  | nil => simp
  | cons limb limbs ih =>
    rw [List.forall_mem_cons] at h
    rw [value_cons, add_comm, Nat.testBit_two_pow_mul_add _ h.1]
    split
    · next hlt => rw [Nat.div_eq_of_lt hlt, Nat.mod_eq_of_lt hlt, getD_cons_zero]
    · next hge =>
      obtain ⟨j, rfl⟩ : ∃ j, i = j + w := ⟨i - w, by omega⟩
      rw [Nat.add_sub_cancel, ih h.2, Nat.add_div_right j hw, Nat.add_mod_right, getD_cons_succ]

theorem column_le {x y : Nat → Nat} {M : Nat} (hx : ∀ i, x i ≤ M) (hy : ∀ i, y i ≤ M) (s low high : Nat) :
    column x y s low high ≤ (high - low) * (M * M) := by
  have hsum := sum_le_card_nsmul (Finset.Ico low high) (fun i => x i * y (s - i)) (M * M)
    fun i _ => Nat.mul_le_mul (hx i) (hy _)
  rwa [Nat.card_Ico] at hsum

end FullNode.Limbs

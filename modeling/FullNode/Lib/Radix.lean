import Mathlib.Data.List.TakeWhile
import Mathlib.Data.Nat.Digits.Lemmas

/-!
# Conversion between bases

A number is kept as its digits, least digit first, in a list that grows or in an array of fixed size. One
pass over the digits with a carry multiplies the number and adds to it.
-/

namespace FullNode.Radix

open List Nat

variable {base mult : Nat}

/-- Reads digits, most significant digit first, behind those of `n`. -/
def read (mult : Nat) : Nat → List Nat → Nat
  | n, [] => n
  | n, digit :: digits => read mult (mult * n + digit) digits

def carryDigits (base : Nat) : Nat → Nat → List Nat
  | 0, _ => []
  | fuel + 1, carry => if carry > 0 then carry % base :: carryDigits base fuel (carry / base) else []

def mulAdd (base mult : Nat) : List Nat → Nat → List Nat
  | [], carry => carryDigits base carry carry
  | digit :: digits, carry =>
    (carry + mult * digit) % base :: mulAdd base mult digits ((carry + mult * digit) / base)

/-- The pass over an array with `length` places in use, with its place and the rest. -/
def carryLoop (base mult length : Nat) : Nat → Nat → List Nat → List Nat × Nat × Nat
  | i, carry, [] => ([], i, carry)
  | i, carry, digit :: digits =>
    if carry ≠ 0 ∨ i < length then
      let total := carry + mult * digit
      let (digits, i, carry) := carryLoop base mult length (i + 1) (total / base) digits
      (total % base :: digits, i, carry)
    else (digit :: digits, i, carry)

/-- The first `k` digits of a number, with zeros behind its last. -/
def places (base : Nat) : Nat → Nat → List Nat
  | 0, _ => []
  | k + 1, n => n % base :: places base k (n / base)

/-! ## Reading -/

theorem le_read (hmult : 0 < mult) (n : Nat) (digits : List Nat) : n ≤ read mult n digits := by
  induction digits generalizing n with
  | nil => exact le_rfl
  | cons digit digits ih =>
    rw [read]
    have hle : n ≤ mult * n := Nat.le_mul_of_pos_left n hmult
    have hrest := ih (mult * n + digit)
    omega

variable {n : Nat}

theorem read_lt {digits : List Nat} (h : ∀ digit ∈ digits, digit < mult) :
    read mult n digits < (n + 1) * mult ^ digits.length := by
  induction digits generalizing n with
  | nil => simp [read]
  | cons digit digits ih =>
    have hdigit := h digit mem_cons_self
    have hrest := ih (n := mult * n + digit) fun d hd => h d (mem_cons_of_mem _ hd)
    have hle : (mult * n + digit + 1) * mult ^ digits.length ≤ (n + 1) * mult ^ (digits.length + 1) := by
      calc (mult * n + digit + 1) * mult ^ digits.length ≤ (mult * n + mult) * mult ^ digits.length :=
            mul_le_mul_right _ (by omega)
        _ = (n + 1) * mult ^ (digits.length + 1) := by ring
    exact lt_of_lt_of_le hrest hle

theorem mul_pow_le_read (mult n : Nat) (digits : List Nat) : n * mult ^ digits.length ≤ read mult n digits := by
  induction digits generalizing n with
  | nil => simp [read]
  | cons digit digits ih =>
    calc n * mult ^ (digits.length + 1) = (mult * n) * mult ^ digits.length := by ring
      _ ≤ (mult * n + digit) * mult ^ digits.length := mul_le_mul_right _ (le_add_right _ _)
      _ ≤ read mult n (digit :: digits) := ih (mult * n + digit)

/-- How many digits of one base make up for those of another. -/
theorem pow_lt_of_rate {a b p q : Nat} (hp : 0 < p) (hb : 1 < b) (h : a ^ p ≤ b ^ q) (n : Nat) :
    a ^ n < b ^ (n * q / p + 1) := by
  by_contra hge
  have hraised : b ^ ((n * q / p + 1) * p) ≤ b ^ (n * q) := by
    calc b ^ ((n * q / p + 1) * p) = (b ^ (n * q / p + 1)) ^ p := Nat.pow_mul _ _ _
      _ ≤ (a ^ n) ^ p := Nat.pow_le_pow_left (not_lt.mp hge) p
      _ = (a ^ p) ^ n := Nat.pow_right_comm _ _ _
      _ ≤ (b ^ q) ^ n := Nat.pow_le_pow_left h n
      _ = b ^ (n * q) := by rw [← Nat.pow_mul, Nat.mul_comm]
  have hle : (n * q / p + 1) * p ≤ n * q := (Nat.pow_le_pow_iff_right hb).mp hraised
  have hlt : n * q < (n * q / p + 1) * p := lt_mul_of_div_lt (lt_succ_self _) hp
  omega

/-! ## One pass -/

theorem places_zero (k : Nat) : places base k 0 = replicate k 0 := by
  induction k with
  | zero => rfl
  | succ k ih => rw [places, zero_mod, Nat.zero_div, ih, replicate_succ]

theorem carryDigits_eq (hbase : 1 < base) {fuel carry : Nat} (h : carry ≤ fuel) :
    carryDigits base fuel carry = Nat.digits base carry := by
  induction fuel generalizing carry with
  | zero =>
    obtain rfl := le_zero.mp h
    simp [carryDigits]
  | succ fuel ih =>
    unfold carryDigits
    split
    · next hpos =>
      have hlt := div_lt_self hpos hbase
      rw [ih (by omega), digits_def' hbase hpos]
    · next hzero =>
      obtain rfl : carry = 0 := by omega
      simp

theorem step_div (hbase : 0 < base) (mult n carry : Nat) :
    mult * (n / base) + (carry + mult * (n % base)) / base = (mult * n + carry) / base := by
  have hsplit : mult * n + carry = (carry + mult * (n % base)) + base * (mult * (n / base)) := by
    conv_lhs => rw [← div_add_mod n base]
    ring
  rw [hsplit, add_mul_div_left _ _ hbase, add_comm]

theorem step_mod (base mult n carry : Nat) : (carry + mult * (n % base)) % base = (mult * n + carry) % base := by
  conv_rhs => rw [add_comm, ← div_add_mod n base, mul_add, ← add_assoc, add_right_comm,
    mul_left_comm, add_mul_mod_self_left]

theorem mulAdd_digits (hbase : 1 < base) (hmult : 0 < mult) (n carry : Nat) :
    mulAdd base mult (Nat.digits base n) carry = Nat.digits base (mult * n + carry) := by
  induction n using Nat.strong_induction_on generalizing carry with
  | _ n ih =>
    rcases Nat.eq_zero_or_pos n with rfl | hpos
    · rw [digits_zero, mulAdd, carryDigits_eq hbase le_rfl, Nat.mul_zero, Nat.zero_add]
    · have hresult : 0 < mult * n + carry := by positivity
      rw [digits_def' hbase hpos, mulAdd, ih _ (Nat.div_lt_self hpos hbase), step_div (by omega), step_mod,
        digits_def' hbase hresult]

theorem length_digits_pos (hbase : 1 < base) (hpos : 0 < n) :
    (Nat.digits base n).length = (Nat.digits base (n / base)).length + 1 := by
  rw [digits_def' hbase hpos, length_cons]

/-- A large enough array takes all the carry. -/
theorem carryLoop_places (hbase : 1 < base) (hmult : 0 < mult) {k carry i length : Nat}
    (hlength : length - i = (Nat.digits base n).length) (hfit : mult * n + carry < base ^ k) :
    carryLoop base mult length i carry (places base k n) =
      (places base k (mult * n + carry), i + (Nat.digits base (mult * n + carry)).length, 0) := by
  induction k generalizing n carry i with
  | zero =>
    have hzero : mult * n + carry = 0 := by simpa using hfit
    obtain rfl : carry = 0 := by omega
    simp [hzero, places, carryLoop]
  | succ k ih =>
    have hdiv : (mult * n + carry) / base < base ^ k := by
      rw [Nat.div_lt_iff_lt_mul (by omega), ← Nat.pow_succ]
      exact hfit
    rw [← step_div (by omega)] at hdiv
    rw [places, carryLoop]
    split
    · next hmore =>
      have hpos : 0 < mult * n + carry := by
        rcases hmore with hcarry | hi
        · omega
        · have hn : n ≠ 0 := by
            rintro rfl
            rw [digits_zero, length_nil] at hlength
            omega
          positivity
      have hrest : length - (i + 1) = (Nat.digits base (n / base)).length := by
        rcases Nat.eq_zero_or_pos n with rfl | hn
        · rw [digits_zero, length_nil] at hlength
          rw [Nat.zero_div, digits_zero, length_nil]
          omega
        · rw [length_digits_pos hbase hn] at hlength
          omega
      simp only [ih hrest hdiv]
      rw [step_div (by omega), step_mod, places, length_digits_pos hbase hpos]
      simp only [Prod.mk.injEq, true_and, and_true]
      omega
    · next hdone =>
      rw [not_or, not_not] at hdone
      obtain ⟨rfl, hi⟩ := hdone
      obtain rfl : n = 0 := by
        by_contra hn
        rw [length_digits_pos hbase (Nat.pos_of_ne_zero hn)] at hlength
        omega
      simp [places]

theorem take_places (hbase : 1 < base) {k : Nat} (h : n < base ^ k) :
    (places base k n).take (Nat.digits base n).length = Nat.digits base n := by
  induction k generalizing n with
  | zero =>
    obtain rfl : n = 0 := by simpa using h
    simp
  | succ k ih =>
    rcases Nat.eq_zero_or_pos n with rfl | hpos
    · simp
    · have hdiv : n / base < base ^ k := by
        rw [Nat.div_lt_iff_lt_mul (by omega), ← Nat.pow_succ]
        exact h
      rw [length_digits_pos hbase hpos, places, take_succ_cons, ih hdiv, ← digits_def' hbase hpos]

theorem dropWhile_reverse_digits (n : Nat) :
    (Nat.digits base n).reverse.dropWhile (· == 0) = (Nat.digits base n).reverse := by
  rcases Nat.eq_zero_or_pos n with rfl | hpos
  · simp
  · rw [dropWhile_eq_self_iff]
    intro hlength hzero
    rw [getElem_zero, head_reverse] at hzero
    exact getLast_digit_ne_zero base (by omega) (beq_iff_eq.mp hzero)

end FullNode.Radix

import Mathlib.Data.Nat.Cast.Order.Field
import Mathlib.Tactic.Ring
import Mathlib.Tactic.FieldSimp
import Mathlib.Tactic.Linarith

/-!
# Decimal numbers as text

The grammar of JSON numbers and the rational number that one denotes. `absorb` reads digits with the
trailing zeros kept apart, so that the number before them is not divisible by ten.
-/

namespace FullNode.Decimal

open List

/-! ## Digits -/

def isDigit (c : UInt8) : Bool := 0x30 ≤ c && c ≤ 0x39

def digit (c : UInt8) : Nat := c.toNat - 0x30

/-- Reads digits behind those of `n`. -/
def read (n : Nat) (chars : List UInt8) : Nat := chars.foldl (fun n c => 10 * n + digit c) n

structure Digits where
  chars : List UInt8
  nonempty : chars ≠ []
  digits : ∀ c ∈ chars, isDigit c = true

variable {c : UInt8} {chars : List UInt8} {n : Nat}

theorem digit_lt (h : isDigit c = true) : digit c < 10 := by
  unfold isDigit at h
  unfold digit
  rw [Bool.and_eq_true, decide_eq_true_eq, decide_eq_true_eq, UInt8.le_iff_toNat_le, UInt8.le_iff_toNat_le] at h
  have hupper : (0x39 : UInt8).toNat = 57 := rfl
  omega

theorem toNat_of_isDigit (h : isDigit c = true) : c.toNat = 0x30 + digit c := by
  unfold isDigit at h
  unfold digit
  rw [Bool.and_eq_true, decide_eq_true_eq, decide_eq_true_eq, UInt8.le_iff_toNat_le, UInt8.le_iff_toNat_le] at h
  have hlower : (0x30 : UInt8).toNat = 48 := rfl
  omega

theorem digit_eq_zero (h : isDigit c = true) : digit c = 0 ↔ c = 0x30 := by
  have htoNat := toNat_of_isDigit h
  constructor
  · intro hzero
    rw [hzero] at htoNat
    exact UInt8.toNat_inj.mp htoNat
  · rintro rfl
    rfl

@[simp] theorem read_nil (n : Nat) : read n [] = n := rfl

theorem read_cons (n : Nat) (c : UInt8) (chars : List UInt8) : read n (c :: chars) = read (10 * n + digit c) chars := by
  unfold read
  rw [foldl_cons]

theorem read_eq (n : Nat) (chars : List UInt8) : read n chars = n * 10 ^ chars.length + read 0 chars := by
  induction chars generalizing n with
  | nil => simp
  | cons c chars ih =>
    rw [read_cons, read_cons, ih, ih (10 * 0 + digit c), length_cons, pow_succ]
    ring

theorem read_append (n : Nat) (chars chars' : List UInt8) : read n (chars ++ chars') = read (read n chars) chars' := by
  induction chars generalizing n with
  | nil => rfl
  | cons c chars ih => exact ih _

theorem le_read (n : Nat) (chars : List UInt8) : n ≤ read n chars := by
  rw [read_eq]
  have hpow : 0 < 10 ^ chars.length := by positivity
  exact (Nat.le_mul_of_pos_right n hpow).trans (Nat.le_add_right _ _)

/-! ## Trailing zeros kept apart -/

/-- The number without its trailing zeros, and how many there are. -/
def absorb (m : Nat × Nat) (c : UInt8) : Nat × Nat :=
  if c = 0x30 then (m.1, m.2 + 1) else (m.1 * 10 ^ (m.2 + 1) + digit c, 0)

def absorbAll (m : Nat × Nat) (chars : List UInt8) : Nat × Nat := chars.foldl absorb m

variable (m : Nat × Nat)

theorem absorbAll_cons (c : UInt8) (chars : List UInt8) : absorbAll m (c :: chars) = absorbAll (absorb m c) chars := rfl

theorem absorbAll_value (hdigits : ∀ c ∈ chars, isDigit c = true) :
    (absorbAll m chars).1 * 10 ^ (absorbAll m chars).2 = read (m.1 * 10 ^ m.2) chars := by
  induction chars generalizing m with
  | nil => rfl
  | cons c chars ih =>
    rw [absorbAll_cons, ih _ fun c' hc' => hdigits c' (mem_cons_of_mem _ hc'), read_cons]
    congr 1
    unfold absorb
    split
    · next hzero =>
      rw [(digit_eq_zero (hdigits c mem_cons_self)).mpr hzero]
      ring
    · simp only
      ring

theorem absorbAll_mono (chars : List UInt8) : m.1 ≤ (absorbAll m chars).1 := by
  induction chars generalizing m with
  | nil => exact le_rfl
  | cons c chars ih =>
    refine le_trans ?_ (ih (absorb m c))
    unfold absorb
    split
    · exact le_rfl
    · have hpow : 0 < 10 ^ (m.2 + 1) := by positivity
      exact (Nat.le_mul_of_pos_right m.1 hpow).trans (Nat.le_add_right _ _)

def Stripped (m : Nat) : Prop := m = 0 ∨ ¬ 10 ∣ m

theorem absorbAll_stripped {m : Nat × Nat} (hdigits : ∀ c ∈ chars, isDigit c = true) (hm : Stripped m.1) :
    Stripped (absorbAll m chars).1 := by
  induction chars generalizing m with
  | nil => exact hm
  | cons c chars ih =>
    refine ih (fun c' hc' => hdigits c' (mem_cons_of_mem _ hc')) ?_
    unfold absorb
    split
    · exact hm
    · next hne =>
      right
      have hdigit := hdigits c mem_cons_self
      have hlt := digit_lt hdigit
      have hpos : digit c ≠ 0 := fun h => hne ((digit_eq_zero hdigit).mp h)
      rw [pow_succ, ← mul_assoc]
      omega

theorem absorbAll_zeros (chars : List UInt8) : (absorbAll m chars).2 ≤ m.2 + chars.length := by
  induction chars generalizing m with
  | nil => exact le_rfl
  | cons c chars ih =>
    have h := ih (absorb m c)
    have habsorb : (absorb m c).2 ≤ m.2 + 1 := by
      unfold absorb
      split <;> simp
    rw [absorbAll_cons, length_cons]
    omega

/-! ## Numbers -/

structure Exponent where
  letter : UInt8
  isLetter : letter = 0x65 ∨ letter = 0x45
  /-- A sign, true for minus. -/
  sign : Option Bool
  digits : Digits

structure JsonNumber where
  negative : Bool
  whole : Digits
  noLeadingZero : whole.chars = [0x30] ∨ whole.chars.head? ≠ some 0x30
  fraction : Option Digits
  exponent : Option Exponent

def signChar (negative : Bool) : UInt8 := if negative then 0x2d else 0x2b

def Exponent.render (e : Exponent) : List UInt8 := e.letter :: ((e.sign.map signChar).toList ++ e.digits.chars)

def Exponent.value (e : Exponent) : Int :=
  if e.sign = some true then -(read 0 e.digits.chars) else read 0 e.digits.chars

namespace JsonNumber

def fractionChars (number : JsonNumber) : List UInt8 := (number.fraction.map Digits.chars).getD []

def exponentValue (number : JsonNumber) : Int := (number.exponent.map Exponent.value).getD 0

def render (number : JsonNumber) : List UInt8 :=
  (if number.negative then [0x2d] else []) ++ (number.whole.chars ++
    ((number.fraction.map fun digits => 0x2e :: digits.chars).getD [] ++ (number.exponent.map Exponent.render).getD []))

def value (number : JsonNumber) : ℚ :=
  (if number.negative then -1 else 1) * read 0 (number.whole.chars ++ number.fractionChars) *
    10 ^ (number.exponentValue - number.fractionChars.length)

end JsonNumber

/-! ## Whole multiples -/

theorem pow_nonneg_of_whole {m : Nat} {e k : Int} (hm : Stripped m) (hpos : m ≠ 0) (h : (m : ℚ) * 10 ^ e = k) :
    0 ≤ e := by
  by_contra hneg
  obtain ⟨d, rfl⟩ : ∃ d : Nat, e = -((d + 1 : Nat) : Int) := ⟨(-e - 1).toNat, by omega⟩
  have hpow : (10 : ℚ) ^ (d + 1) ≠ 0 := by positivity
  rw [zpow_neg, zpow_natCast, ← div_eq_mul_inv, div_eq_iff hpow] at h
  have hint : (m : Int) = k * 10 ^ (d + 1) := by exact_mod_cast h
  rcases hm with hzero | hdvd
  · exact hpos hzero
  · apply hdvd
    have hdvdInt : (10 : Int) ∣ m := by
      rw [hint, pow_succ]
      exact Dvd.intro_left (k * 10 ^ d) (by ring)
    exact_mod_cast hdvdInt

end FullNode.Decimal

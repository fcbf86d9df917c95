import FullNode.FixedPoint
import FullNode.MiniMiner
import Mathlib.Algebra.Order.Field.Rat
import Mathlib.Data.Int.ConditionallyCompleteOrder
import Mathlib.Data.Prod.Lex
import Mathlib.Data.Rat.Cast.Order
import Mathlib.Order.WithBot

/-!
# The order of feerates

Feerates are compared by products across. Where the compiler has no 128 bits, a product is a pair of words.
-/

namespace FullNode.FeeRates

open FixedPoint (signed signed_ok)
open MiniMiner (FeeFrac)

/-! ## The code -/

def mulFallback (a b : Int) : Checked (Int ×ₗ Int) := do
  let low ← signed 64 (a % 2 ^ 32 * b)
  let high ← signed 64 (a / 2 ^ 32 * b)
  let top ← signed 64 (high + low / 2 ^ 32)
  return toLex (top, low % 2 ^ 32)

def mul128 (a b : Int) : Checked Int := signed 128 (a * b)

/-- `operator<=>`, for either product. -/
def spaceship {M : Type} [DecidableEq M] [Ord M] (mul : Int → Int → Checked M) (a b : FeeFrac) : Checked Ordering := do
  let cross_a ← mul a.fee b.size
  let cross_b ← mul b.fee a.size
  if cross_a = cross_b then return compare b.size a.size
  return compare cross_a cross_b

/-! ## The order -/

structure Valid (x : FeeFrac) : Prop where
  fee : -2 ^ 63 ≤ x.fee ∧ x.fee < 2 ^ 63
  size : 0 ≤ x.size ∧ x.size < 2 ^ 31
  empty : x.size = 0 → x.fee = 0

/-- The feerate, then the size downwards, then the empty value. -/
def rank (x : FeeFrac) : WithTop (ℚ ×ₗ ℤ) := if x.size = 0 then ⊤ else ↑(toLex ((x.fee : ℚ) / x.size, -x.size))

variable {a b a' b' : Int} {x y : FeeFrac} {p : Int ×ₗ Int}

theorem compare_eq_compare {α β : Type} [LinearOrder α] [LinearOrder β] {a b : α} {c d : β} (hlt : a < b ↔ c < d)
    (hgt : b < a ↔ d < c) : compare a b = compare c d := by
  rcases lt_trichotomy a b with h | h | h
  · rw [compare_lt_iff_lt.mpr h, compare_lt_iff_lt.mpr (hlt.mp h)]
  · subst h
    have heq : c = d := le_antisymm (not_lt.mp fun hdc => lt_irrefl a (hgt.mpr hdc)) (not_lt.mp fun hcd =>
        lt_irrefl a (hlt.mpr hcd))
    rw [compare_eq_iff_eq.mpr rfl, compare_eq_iff_eq.mpr heq]
  · rw [compare_gt_iff_gt.mpr h, compare_gt_iff_gt.mpr (hgt.mp h)]

theorem abs_mul_le {m n : Int} (ha : |a| ≤ m) (hb : |b| ≤ n) : |a * b| ≤ m * n := by
  rw [abs_mul]
  exact mul_le_mul ha hb (abs_nonneg b) ((abs_nonneg a).trans ha)

theorem mulFallback_spec (ha : -2 ^ 63 ≤ a ∧ a < 2 ^ 63) (hb : -2 ^ 31 ≤ b ∧ b < 2 ^ 31) :
    ∃ high low, mulFallback a b = .ok (toLex (high, low)) ∧ 0 ≤ low ∧ low < 2 ^ 32 ∧ high * 2 ^ 32 + low = a * b := by
  have hb' : |b| ≤ 2 ^ 31 := abs_le.mpr ⟨by omega, by omega⟩
  have hlow := abs_le.mp (abs_mul_le (abs_le.mpr ⟨by omega, by omega⟩ : |a % 2 ^ 32| ≤ 2 ^ 32 - 1) hb')
  have hhigh := abs_le.mp (abs_mul_le (abs_le.mpr ⟨by omega, by omega⟩ : |a / 2 ^ 32| ≤ 2 ^ 31) hb')
  have hsplit : a / 2 ^ 32 * b * 2 ^ 32 + a % 2 ^ 32 * b = a * b := by
    calc a / 2 ^ 32 * b * 2 ^ 32 + a % 2 ^ 32 * b = (2 ^ 32 * (a / 2 ^ 32) + a % 2 ^ 32) * b := by ring
      _ = a * b := by rw [Int.mul_ediv_add_emod]
  unfold mulFallback
  generalize a % 2 ^ 32 * b = low at *
  generalize a / 2 ^ 32 * b = high at *
  refine ⟨high + low / 2 ^ 32, low % 2 ^ 32, ?_, by omega, by omega, by omega⟩
  rw [signed_ok (by omega) (by omega), ok_bind, signed_ok (by omega) (by omega), ok_bind,
    signed_ok (by omega) (by omega)]
  rfl

theorem pair_lt {high low high' low' : Int} (hlow : 0 ≤ low ∧ low < 2 ^ 32) (hlow' : 0 ≤ low' ∧ low' < 2 ^ 32) :
    toLex (high, low) < toLex (high', low') ↔ high * 2 ^ 32 + low < high' * 2 ^ 32 + low' := by
  rw [Prod.Lex.toLex_lt_toLex]
  omega

/-- The pairs are in the order of the products. -/
theorem mulFallback_compare (ha : -2 ^ 63 ≤ a ∧ a < 2 ^ 63) (hb : -2 ^ 31 ≤ b ∧ b < 2 ^ 31)
    (ha' : -2 ^ 63 ≤ a' ∧ a' < 2 ^ 63) (hb' : -2 ^ 31 ≤ b' ∧ b' < 2 ^ 31) :
    ∃ p p', mulFallback a b = .ok p ∧ mulFallback a' b' = .ok p' ∧ compare p p' = compare (a * b) (a' * b') := by
  obtain ⟨_, _, hrun, hlow, hlt, hvalue⟩ := mulFallback_spec ha hb
  obtain ⟨_, _, hrun', hlow', hlt', hvalue'⟩ := mulFallback_spec ha' hb'
  refine ⟨_, _, hrun, hrun', ?_⟩
  rw [← hvalue, ← hvalue']
  exact compare_eq_compare (pair_lt ⟨hlow, hlt⟩ ⟨hlow', hlt'⟩) (pair_lt ⟨hlow', hlt'⟩ ⟨hlow, hlt⟩)

theorem rank_lt (hx : 0 < x.size) (hy : 0 < y.size) :
    rank x < rank y ↔ x.fee * y.size < y.fee * x.size ∨ x.fee * y.size = y.fee * x.size ∧ y.size < x.size := by
  have hx' : (0 : ℚ) < x.size := Int.cast_pos.mpr hx
  have hy' : (0 : ℚ) < y.size := Int.cast_pos.mpr hy
  unfold rank
  rw [if_neg hx.ne', if_neg hy.ne', WithTop.coe_lt_coe, Prod.Lex.toLex_lt_toLex, div_lt_div_iff₀ hx' hy',
    div_eq_div_iff hx'.ne' hy'.ne', neg_lt_neg_iff]
  exact_mod_cast Iff.rfl

/-- What `operator<=>` makes of the exact products. -/
theorem compare_rank (hx : Valid x) (hy : Valid y) :
    (if x.fee * y.size = y.fee * x.size then compare y.size x.size else compare (x.fee * y.size) (y.fee * x.size)) =
      compare (rank x) (rank y) := by
  rcases hx.size.1.eq_or_lt with hx0 | hx0
  · rw [hx.empty hx0.symm, ← hx0, zero_mul, mul_zero, if_pos rfl]
    have htop : rank x = ⊤ := if_pos hx0.symm
    rw [htop]
    rcases hy.size.1.eq_or_lt with hy0 | hy0
    · rw [← hy0, show rank y = ⊤ from if_pos hy0.symm, compare_eq_iff_eq.mpr rfl, compare_eq_iff_eq.mpr rfl]
    · rw [show rank y = _ from if_neg hy0.ne', compare_gt_iff_gt.mpr hy0, compare_gt_iff_gt.mpr (WithTop.coe_lt_top _)]
  rcases hy.size.1.eq_or_lt with hy0 | hy0
  · rw [hy.empty hy0.symm, ← hy0, zero_mul, mul_zero, if_pos rfl, show rank y = ⊤ from if_pos hy0.symm,
      show rank x = _ from if_neg hx0.ne',
      compare_lt_iff_lt.mpr hx0, compare_lt_iff_lt.mpr (WithTop.coe_lt_top _)]
  · have hlt := rank_lt hx0 hy0
    have hgt := rank_lt hy0 hx0
    split
    · next heq =>
      exact compare_eq_compare (by rw [hlt]; omega) (by rw [hgt]; omega)
    · next hne =>
      exact compare_eq_compare (by rw [hlt]; omega) (by rw [hgt]; omega)

theorem rank_inj (hx : Valid x) (hy : Valid y) : rank x = rank y ↔ x = y := by
  refine ⟨fun h => ?_, congrArg rank⟩
  obtain ⟨_, _⟩ := x
  obtain ⟨_, _⟩ := y
  unfold rank at h
  have hempty := hx.empty
  have hempty' := hy.empty
  dsimp only at h hempty hempty'
  split at h
  · next hsize =>
    split at h
    · next hsize' => rw [hempty hsize, hempty' hsize', hsize, hsize']
    · exact absurd h.symm (WithTop.coe_ne_top)
  · next hsize =>
    split at h
    · exact absurd h (WithTop.coe_ne_top)
    · obtain ⟨hrate, hsizes⟩ := Prod.mk.inj (toLex.injective (WithTop.coe_inj.mp h))
      obtain rfl := neg_inj.mp hsizes
      rw [div_left_inj' (Int.cast_ne_zero.mpr hsize)] at hrate
      rw [Int.cast_inj.mp hrate]

/-- No product overflows, and `operator<=>` orders as the ranks. -/
theorem feeFrac_order :
    (∀ a b a' b' : Int, -2 ^ 63 ≤ a ∧ a < 2 ^ 63 → -2 ^ 31 ≤ b ∧ b < 2 ^ 31 → -2 ^ 63 ≤ a' ∧ a' < 2 ^ 63 →
      -2 ^ 31 ≤ b' ∧ b' < 2 ^ 31 →
      ∃ p p', mulFallback a b = .ok p ∧ mulFallback a' b' = .ok p' ∧ compare p p' = compare (a * b) (a' * b')) ∧
    ∀ x y, Valid x → Valid y → spaceship mulFallback x y = .ok (compare (rank x) (rank y)) ∧
      spaceship mul128 x y = .ok (compare (rank x) (rank y)) ∧ (rank x = rank y ↔ x = y) := by
  refine ⟨fun a b a' b' => mulFallback_compare, fun x y hx hy => ⟨?_, ?_, rank_inj hx hy⟩⟩
  · have hsize : ∀ {z}, Valid z → -2 ^ 31 ≤ z.size ∧ z.size < 2 ^ 31 := fun hz => ⟨by linarith [hz.size.1], hz.size.2⟩
    obtain ⟨p, p', hrun, hrun', hcompare⟩ := mulFallback_compare hx.fee (hsize hy) hy.fee (hsize hx)
    rw [← compare_rank hx hy]
    unfold spaceship
    rw [hrun, ok_bind, hrun', ok_bind]
    have heq : p = p' ↔ x.fee * y.size = y.fee * x.size := by
      rw [← compare_eq_iff_eq, hcompare, compare_eq_iff_eq]
    simp only [heq, hcompare]
    split <;> rfl
  · have hproduct : ∀ {v w}, Valid v → Valid w → mul128 v.fee w.size = .ok (v.fee * w.size) := fun {v w} hv hw => by
      have hle := abs_le.mp (abs_mul_le (abs_le.mpr ⟨by linarith [hv.fee.1], by linarith [hv.fee.2]⟩ : |v.fee| ≤ 2 ^ 63)
        (abs_le.mpr ⟨by linarith [hw.size.1], by linarith [hw.size.2]⟩ : |w.size| ≤ 2 ^ 31))
      exact signed_ok (by omega) (by omega)
    rw [← compare_rank hx hy]
    unfold spaceship
    rw [hproduct hx hy, ok_bind, hproduct hy hx, ok_bind]
    split <;> rfl

theorem feeFrac_sorted :
    (∃ p p', mulFallback (-2 ^ 63) (-1) = .ok p ∧ mulFallback (2 ^ 63 - 1) 2 = .ok p' ∧
      compare p p' = compare (2 ^ 63) (2 ^ 64 - 2 : Int)) ∧
      spaceship mulFallback ⟨-1, 2⟩ ⟨0, 0⟩ = .ok .lt ∧ rank ⟨-1, 2⟩ < rank ⟨0, 0⟩ := by
  obtain ⟨hproducts, hcompare⟩ := feeFrac_order
  have hlt : rank ⟨-1, 2⟩ < rank ⟨0, 0⟩ := WithTop.coe_lt_top _
  refine ⟨hproducts _ _ _ _ (by decide) (by decide) (by decide) (by decide), ?_, hlt⟩
  rw [(hcompare ⟨-1, 2⟩ ⟨0, 0⟩ ⟨by decide, by decide, by decide⟩ ⟨by decide, by decide, by decide⟩).1,
    compare_lt_iff_lt.mpr hlt]

end FullNode.FeeRates

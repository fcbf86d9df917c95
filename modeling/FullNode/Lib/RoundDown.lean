import Mathlib.Tactic.Ring
import Mathlib.Tactic.Linarith

/-!
# Rounding down to a short mantissa

A number is representable when it is a mantissa below `M` times a power of `B`.
`IsRoundDown` says that `r` is the largest representable number not above `x`.
-/

namespace FullNode.RoundDown

variable {B M x y r s v : Nat}

def Representable (B M v : Nat) : Prop := ∃ m e, m < M ∧ v = m * B ^ e

structure IsRoundDown (B M x r : Nat) : Prop where
  representable : Representable B M r
  le : r ≤ x
  greatest : ∀ v, Representable B M v → v ≤ x → v ≤ r

theorem representable_of_lt (h : v < M) : Representable B M v := ⟨v, 0, h, by simp⟩

theorem IsRoundDown.mono (hx : IsRoundDown B M x r) (hy : IsRoundDown B M y s) (h : x ≤ y) : r ≤ s :=
  hy.greatest r hx.representable (le_trans hx.le h)

theorem IsRoundDown.eq_self (hx : IsRoundDown B M x r) (h : Representable B M x) : r = x :=
  le_antisymm hx.le (hx.greatest x h le_rfl)

theorem IsRoundDown.pos (hx : IsRoundDown B M x r) (hM : 1 < M) (h : 0 < x) : 0 < r :=
  hx.greatest 1 (representable_of_lt hM) h

/-- Cutting `x` to a mantissa below `M` rounds it down. -/
theorem isRoundDown_cut (e : Nat) (hB : 0 < B) (hBM : B ∣ M) (hlt : x / B ^ e < M)
    (hlow : e = 0 ∨ M ≤ x / B ^ (e - 1)) : IsRoundDown B M x (x / B ^ e * B ^ e) := by
  refine ⟨⟨x / B ^ e, e, hlt, rfl⟩, Nat.div_mul_le_self x _, ?_⟩
  rintro v ⟨m, f, hm, rfl⟩ hv
  rcases Nat.lt_or_ge f e with hfe | hef
  · -- `v` has a lower exponent, so it is below the least number cut at `e`.
    rcases hlow with rfl | hlow
    · omega
    obtain ⟨k, rfl⟩ : ∃ k, e = k + 1 := ⟨e - 1, by omega⟩
    obtain ⟨c, rfl⟩ := hBM
    simp only [Nat.add_sub_cancel] at hlow
    have hbase : c * B ^ (k + 1) ≤ x := by
      calc c * B ^ (k + 1) = B * c * B ^ k := by ring
        _ ≤ x / B ^ k * B ^ k := Nat.mul_le_mul_right _ hlow
        _ ≤ x := Nat.div_mul_le_self x _
    have hc : c ≤ x / B ^ (k + 1) := (Nat.le_div_iff_mul_le (Nat.pow_pos hB)).mpr hbase
    calc m * B ^ f ≤ B * c * B ^ k :=
          Nat.mul_le_mul (le_of_lt hm) (Nat.pow_le_pow_right hB (by omega))
      _ = c * B ^ (k + 1) := by ring
      _ ≤ x / B ^ (k + 1) * B ^ (k + 1) := Nat.mul_le_mul_right _ hc
  · -- `v` is a multiple of `B ^ e`.
    obtain ⟨d, rfl⟩ : ∃ d, f = e + d := ⟨f - e, by omega⟩
    have hv' : m * B ^ d * B ^ e ≤ x := by
      calc m * B ^ d * B ^ e = m * B ^ (e + d) := by ring
        _ ≤ x := hv
    have hq : m * B ^ d ≤ x / B ^ e := (Nat.le_div_iff_mul_le (Nat.pow_pos hB)).mpr hv'
    calc m * B ^ (e + d) = m * B ^ d * B ^ e := by ring
      _ ≤ x / B ^ e * B ^ e := Nat.mul_le_mul_right _ hq

end FullNode.RoundDown

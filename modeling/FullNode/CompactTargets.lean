import FullNode.BaseUint

/-! # The compact form, digit by digit -/

open FullNode.RoundDown

namespace FullNode.BaseUint

open ArithUint256 Nat

/-! ## The code -/

/-- What `SetCompact` writes: the digits and the two flags. -/
structure Decoded where
  value : BaseUint 8
  fNegative : Bool
  fOverflow : Bool
  deriving DecidableEq

def setCompact (nCompact : Uint32) : Decoded :=
  let nSize := (nCompact >>> 24).toNat
  let word := nCompact &&& 0x007fffff#32
  let nWord := if nSize ≤ 3 then word >>> (8 * (3 - nSize)) else word
  { value := if nSize ≤ 3 then ofUint64 (nWord.setWidth 64)
      else (ofUint64 (nWord.setWidth 64)).shiftLeft (8 * (nSize - 3))
    fNegative := nWord != 0 && nCompact &&& 0x00800000#32 != 0
    fOverflow := nWord != 0 && (nSize > 34 || (nWord > 0xff#32 && nSize > 33) ||
      (nWord > 0xffff#32 && nSize > 32)) }

def leadingBytes (a : BaseUint 8) (nSize : Nat) : Uint32 :=
  if nSize ≤ 3 then (a.getLow64 <<< (8 * (3 - nSize))).setWidth 32
  else (a.shiftRight (8 * (nSize - 3))).getLow64.setWidth 32

def getCompact (a : BaseUint 8) (fNegative : Bool) : Checked Uint32 := do
  let nSize := (a.bits + 7) / 8
  let (nCompact, nSize) := ArithUint256.freeSign (a.leadingBytes nSize) nSize
  check (nCompact &&& ~~~0x007fffff#32 == 0)
  check (nSize < 256)
  let nCompact := nCompact ||| BitVec.ofNat 32 (nSize <<< 24)
  return nCompact ||| (if fNegative && nCompact &&& 0x007fffff#32 != 0 then 0x00800000#32 else 0)

/-! ## The number behind the digits -/

def word (a : BaseUint 8) : ArithUint256 := BitVec.ofNat 256 a.toNat

variable (a : BaseUint 8)

theorem word_toNat : a.word.toNat = a.toNat := by
  rw [word, BitVec.toNat_ofNat, mod_eq_of_lt a.toNat_lt]

theorem bits_word : a.word.bits = a.bits := by
  apply le_antisymm
  · rw [ArithUint256.bits_le_iff, word_toNat, ← bits_le_iff]
  · rw [bits_le_iff, ← word_toNat, ← ArithUint256.bits_le_iff]

theorem leadingBytes_word (nSize : Nat) : a.word.leadingBytes nSize = a.leadingBytes nSize := by
  have hlow (b : BaseUint 8) : ArithUint256.getLow64 b.word = b.getLow64 := by
    apply BitVec.eq_of_toNat_eq
    rw [ArithUint256.getLow64, BitVec.toNat_setWidth, word_toNat, toNat_getLow64]
  have hshift (n : Nat) : a.word >>> n = (a.shiftRight n).word := by
    apply BitVec.eq_of_toNat_eq
    rw [BitVec.toNat_ushiftRight, word_toNat, word_toNat, toNat_shiftRight, shiftRight_eq_div_pow]
  rw [ArithUint256.leadingBytes, leadingBytes, hlow, hshift, hlow]

theorem getCompact_word : a.getCompact false = .ok a.word.compact := by
  rw [← getCompact_eq, ArithUint256.getCompact, getCompact, bits_word, leadingBytes_word]
  simp

variable (c : Uint32)

theorem setCompact_word : (setCompact c).value.word = (ArithUint256.setCompact c).value := by
  have hword (w : Uint32) : (ofUint64 (w.setWidth 64) : BaseUint 8).toNat = w.toNat := by
    rw [toNat_ofUint64 _ (by decide), BitVec.toNat_setWidth, mod_eq_of_lt (by omega)]
  apply BitVec.eq_of_toNat_eq
  rw [word_toNat]
  unfold setCompact ArithUint256.setCompact
  simp only
  split
  · rw [hword, BitVec.toNat_setWidth, mod_eq_of_lt (by omega)]
  · have hfits : (c &&& 0x007fffff#32).toNat < 2 ^ 256 := by omega
    rw [toNat_shiftLeft, hword, BitVec.toNat_shiftLeft, shiftLeft_eq, BitVec.toNat_setWidth, mod_eq_of_lt hfits]

/-! ## The integer behind the code -/

def mantissa (c : Uint32) : Nat := (c &&& 0x007fffff#32).toNat

def exponent (c : Uint32) : Nat := (c >>> 24).toNat

/-- `mantissa * 256^(exponent-3)`, whether it fits or not. -/
def compactInteger (c : Uint32) : Nat :=
  if exponent c ≤ 3 then mantissa c / 256 ^ (3 - exponent c) else mantissa c * 256 ^ (exponent c - 3)

theorem mantissa_lt : mantissa c < 2 ^ 23 := by
  rw [mantissa, BitVec.toNat_and, BitVec.toNat_ofNat, show 0x007fffff % 2 ^ 32 = 2 ^ 23 - 1 by norm_num,
    and_two_pow_sub_one_eq_mod]
  exact mod_lt _ (by norm_num)

theorem toNat_setCompact : (setCompact c).value.toNat = compactInteger c % 2 ^ 256 := by
  have hword (w : Uint32) : (ofUint64 (w.setWidth 64) : BaseUint 8).toNat = w.toNat := by
    rw [toNat_ofUint64 _ (by decide), BitVec.toNat_setWidth, mod_eq_of_lt (by omega)]
  unfold setCompact compactInteger exponent
  simp only
  split
  · rw [hword, BitVec.toNat_ushiftRight, shiftRight_eq_div_pow, two_pow_eight_mul, ← mantissa]
    have hle := div_le_self (mantissa c) (256 ^ (3 - (c >>> 24).toNat))
    have hlt := mantissa_lt c
    rw [mod_eq_of_lt (by omega)]
  · rw [toNat_shiftLeft, hword, two_pow_eight_mul, ← mantissa]

theorem shifted_fits_iff (m e : Nat) (hm : m < 2 ^ 23) (he : 3 < e) :
    m * 256 ^ (e - 3) < 2 ^ 256 ↔ ¬ (m ≠ 0 ∧ (34 < e ∨ (0xff < m ∧ 33 < e) ∨ (0xffff < m ∧ 32 < e))) := by
  rcases Nat.lt_or_ge e 33 with hlow | hhigh
  · have hpow : 256 ^ (e - 3) ≤ 256 ^ 29 := Nat.pow_le_pow_right (by omega) (by omega)
    have hle := Nat.mul_le_mul (Nat.le_of_lt hm) hpow
    norm_num at hle ⊢
    omega
  · rcases Nat.lt_or_ge e 35 with hmid | htop
    · have hcase : e = 33 ∨ e = 34 := by omega
      rcases hcase with rfl | rfl <;> norm_num <;> omega
    · rcases Nat.eq_zero_or_pos m with rfl | hpos
      · simp
      · have hpow : 256 ^ 32 ≤ 256 ^ (e - 3) := Nat.pow_le_pow_right (by omega) (by omega)
        have hge := Nat.mul_le_mul hpos hpow
        norm_num at hge ⊢
        omega

theorem setCompact_fOverflow : (setCompact c).fOverflow = true ↔ ¬ compactInteger c < 2 ^ 256 := by
  have hlt := mantissa_lt c
  unfold setCompact compactInteger exponent
  simp only
  split
  · next hsmall =>
    have hle := div_le_self (mantissa c) (256 ^ (3 - (c >>> 24).toNat))
    have h34 : ¬ 34 < (c >>> 24).toNat := by omega
    have h33 : ¬ 33 < (c >>> 24).toNat := by omega
    have h32 : ¬ 32 < (c >>> 24).toNat := by omega
    simp only [gt_iff_lt, h34, h33, h32, decide_false, Bool.and_false, Bool.or_false, Bool.false_eq_true,
      false_iff, not_not]
    omega
  · next hlarge =>
    have hne : (c &&& 0x007fffff#32) ≠ 0 ↔ mantissa c ≠ 0 := by
      rw [mantissa, ne_eq, ne_eq, ← BitVec.toNat_inj]
      rfl
    have hff : (c &&& 0x007fffff#32) > 0xff#32 ↔ 0xff < mantissa c := Iff.rfl
    have hffff : (c &&& 0x007fffff#32) > 0xffff#32 ↔ 0xffff < mantissa c := Iff.rfl
    rw [shifted_fits_iff _ _ hlt (by omega), not_not]
    simp only [Bool.and_eq_true, Bool.or_eq_true, bne_iff_ne, decide_eq_true_eq, hne, hff, hffff, or_assoc, gt_iff_lt]

/-! ## Rounding -/

def CompactRepresentable (v : BaseUint 8) : Prop := ∃ c, setCompact c = ⟨v, false, false⟩

theorem CompactRepresentable.representable {v : BaseUint 8} (h : CompactRepresentable v) :
    Representable 256 (2 ^ 23) v.toNat := by
  obtain ⟨c, hc⟩ := h
  have hfits : compactInteger c < 2 ^ 256 := by
    by_contra hge
    have := (setCompact_fOverflow c).mpr hge
    rw [hc] at this
    cases this
  have hvalue := toNat_setCompact c
  rw [hc, mod_eq_of_lt hfits] at hvalue
  simp only at hvalue
  rw [hvalue, compactInteger]
  have hlt := mantissa_lt c
  split
  · apply representable_of_lt
    exact lt_of_le_of_lt (div_le_self _ _) hlt
  · exact ⟨_, _, hlt, rfl⟩

theorem setCompact_compact (x : BaseUint 8) : ∃ r, setCompact x.word.compact = ⟨r, false, false⟩ ∧
    r.word = x.word.rounded := by
  have hflags := ArithUint256.setCompact_compact x.word
  have hnegative : (setCompact x.word.compact).fNegative = false := congrArg ArithUint256.Decoded.fNegative hflags
  have hoverflow : (setCompact x.word.compact).fOverflow = false := congrArg ArithUint256.Decoded.fOverflow hflags
  refine ⟨(setCompact x.word.compact).value, ?_, by rw [setCompact_word, hflags]⟩
  calc setCompact x.word.compact
      = ⟨(setCompact x.word.compact).value, (setCompact x.word.compact).fNegative,
        (setCompact x.word.compact).fOverflow⟩ := rfl
    _ = _ := by rw [hnegative, hoverflow]

/-- `GetCompact` then `SetCompact` rounds down in order and for good. -/
theorem compact_rounds_down :
    (∀ x : BaseUint 8, ∃ c r, x.getCompact false = .ok c ∧ setCompact c = ⟨r, false, false⟩ ∧ r.toNat ≤ x.toNat ∧
      ∀ v, CompactRepresentable v → v.toNat ≤ x.toNat → v.toNat ≤ r.toNat) ∧
    (∀ (x y : BaseUint 8) (c d : Uint32), x.getCompact false = .ok c → y.getCompact false = .ok d →
      x.toNat ≤ y.toNat → (setCompact c).value.toNat ≤ (setCompact d).value.toNat) ∧
    (∀ (x : BaseUint 8) (c : Uint32), x.getCompact false = .ok c → (setCompact c).value.getCompact false = .ok c) ∧
    ∀ c, (setCompact c).fOverflow = true ↔ ¬ compactInteger c < 2 ^ 256 := by
  refine ⟨?_, ?_, ?_, setCompact_fOverflow⟩
  · intro x
    obtain ⟨r, hr, hround⟩ := setCompact_compact x
    have hdown := x.word.rounded_isRoundDown
    rw [← hround, word_toNat, word_toNat] at hdown
    refine ⟨x.word.compact, r, getCompact_word x, hr, hdown.le, ?_⟩
    intro v hv hle
    exact hdown.greatest _ hv.representable hle
  · intro x y c d hc hd hle
    rw [getCompact_word] at hc hd
    cases hc
    cases hd
    obtain ⟨r, hr, hround⟩ := setCompact_compact x
    obtain ⟨s, hs, hround'⟩ := setCompact_compact y
    rw [hr, hs, ← word_toNat r, ← word_toNat s, hround, hround']
    apply rounded_mono
    rwa [word_toNat, word_toNat]
  · intro x c hc
    rw [getCompact_word] at hc
    cases hc
    obtain ⟨r, hr, hround⟩ := setCompact_compact x
    rw [hr, getCompact_word, hround, compact_rounded]

end FullNode.BaseUint

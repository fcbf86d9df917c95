import FullNode.Basic
import FullNode.Lib.RoundDown
import Mathlib.Tactic.IntervalCases

/-!
# 256-bit targets and their compact form

`arith_uint256` is a 256-bit word here: the 32-bit digits and their carries are in `BaseUint`.
-/

open FullNode.RoundDown

namespace FullNode

open BitVec Nat

abbrev ArithUint256 := BitVec 256

namespace ArithUint256

def bits (x : ArithUint256) : Nat := if x = 0 then 0 else x.toNat.log2 + 1

def getLow64 (x : ArithUint256) : Uint64 := x.setWidth 64

/-- `operator*=(uint32_t)`. -/
def mulUint32 (x : ArithUint256) (b32 : Uint32) : ArithUint256 := x * b32.setWidth 256

/-- `operator/=`. -/
def div (x b : ArithUint256) : Checked ArithUint256 :=
  if b = 0 then .error .divisionByZero else .ok (x / b)

structure Decoded where
  value : ArithUint256
  fNegative : Bool
  fOverflow : Bool
  deriving DecidableEq

def setCompact (nCompact : Uint32) : Decoded :=
  let nSize := (nCompact >>> 24).toNat
  let word := nCompact &&& 0x007fffff#32
  let nWord := if nSize ≤ 3 then word >>> (8 * (3 - nSize)) else word
  { value := if nSize ≤ 3 then nWord.setWidth 256 else nWord.setWidth 256 <<< (8 * (nSize - 3))
    fNegative := nWord != 0 && nCompact &&& 0x00800000#32 != 0
    fOverflow := nWord != 0 && (nSize > 34 || (nWord > 0xff#32 && nSize > 33) ||
      (nWord > 0xffff#32 && nSize > 32)) }

def leadingBytes (x : ArithUint256) (nSize : Nat) : Uint32 :=
  if nSize ≤ 3 then (x.getLow64 <<< (8 * (3 - nSize))).setWidth 32
  else (getLow64 (x >>> (8 * (nSize - 3)))).setWidth 32

/-- Bit 0x00800000 is the sign. If set, a byte of mantissa goes. -/
def freeSign (nCompact : Uint32) (nSize : Nat) : Uint32 × Nat :=
  if nCompact &&& 0x00800000#32 ≠ 0 then (nCompact >>> 8, nSize + 1) else (nCompact, nSize)

def getCompact (x : ArithUint256) : Checked Uint32 := do
  let nSize := (x.bits + 7) / 8
  let (nCompact, nSize) := freeSign (x.leadingBytes nSize) nSize
  check (nCompact &&& ~~~0x007fffff#32 == 0)
  check (nSize < 256)
  return nCompact ||| BitVec.ofNat 32 (nSize <<< 24)

/-! ## Numbers -/

variable (x : ArithUint256)

theorem bits_le_iff (k : Nat) : x.bits ≤ k ↔ x.toNat < 2 ^ k := by
  unfold bits
  split
  · next h => simp [h]
  · next h =>
    have hne : x.toNat ≠ 0 := fun h0 => h (eq_of_toNat_eq (by simpa using h0))
    rw [succ_le_iff, log2_lt hne]

/-- The bytes that `x` takes, as `GetCompact` counts them. -/
def byteSize (x : ArithUint256) : Nat := (x.bits + 7) / 8

theorem byteSize_le_iff (k : Nat) : x.byteSize ≤ k ↔ x.toNat < 2 ^ (8 * k) := by
  rw [← bits_le_iff, byteSize]; omega

theorem byteSize_le : x.byteSize ≤ 32 := by
  rw [byteSize_le_iff]; exact x.isLt

/-! ## What `GetCompact` writes -/

/-- The first three bytes of `x`, before the sign bit is freed. -/
def topBytes (x : ArithUint256) : Nat :=
  if x.byteSize ≤ 3 then x.toNat * 2 ^ (8 * (3 - x.byteSize))
  else x.toNat / 2 ^ (8 * (x.byteSize - 3))

def compactWord (x : ArithUint256) : Nat :=
  if x.topBytes < 2 ^ 23 then x.topBytes else x.topBytes / 2 ^ 8

def compactSize (x : ArithUint256) : Nat :=
  if x.topBytes < 2 ^ 23 then x.byteSize else x.byteSize + 1

/-- The compact form: a mantissa below the sign bit, and its size. -/
def compact (x : ArithUint256) : Uint32 :=
  BitVec.ofNat 32 (x.compactWord + x.compactSize * 2 ^ 24)

theorem topBytes_lt : x.topBytes < 2 ^ 24 := by
  have hx : x.toNat < 2 ^ (8 * x.byteSize) := (byteSize_le_iff x _).mp le_rfl
  unfold topBytes
  split
  · next h =>
    calc x.toNat * 2 ^ (8 * (3 - x.byteSize))
        < 2 ^ (8 * x.byteSize) * 2 ^ (8 * (3 - x.byteSize)) :=
          Nat.mul_lt_mul_of_pos_right hx (Nat.two_pow_pos _)
      _ = 2 ^ 24 := by rw [← Nat.pow_add]; congr 1; omega
  · next h =>
    rw [Nat.div_lt_iff_lt_mul (Nat.two_pow_pos _), ← Nat.pow_add]
    convert hx using 2; omega

theorem compactWord_lt : x.compactWord < 2 ^ 23 := by
  have := x.topBytes_lt
  unfold compactWord
  split <;> omega

theorem compactSize_le : x.compactSize ≤ 33 := by
  have := x.byteSize_le
  unfold compactSize
  split <;> omega

theorem compactWord_lt_of_size (h : x.compactSize = 33) : x.compactWord < 2 ^ 16 := by
  have := x.byteSize_le
  have := x.topBytes_lt
  unfold compactSize at h
  unfold compactWord
  split at h <;> split <;> omega

theorem leadingBytes_toNat : (x.leadingBytes x.byteSize).toNat = x.topBytes := by
  have htop := x.topBytes_lt
  unfold topBytes at htop ⊢
  unfold leadingBytes
  split
  · next h =>
    rw [if_pos h] at htop
    have hx : x.toNat < 2 ^ 24 :=
      lt_of_lt_of_le ((byteSize_le_iff x 3).mp h) (by norm_num)
    simp only [getLow64, toNat_setWidth, toNat_shiftLeft, Nat.shiftLeft_eq]
    rw [mod_eq_of_lt (by omega : x.toNat < 2 ^ 64), mod_eq_of_lt (by omega),
      mod_eq_of_lt (by omega)]
  · next h =>
    rw [if_neg h] at htop
    simp only [getLow64, toNat_setWidth, toNat_ushiftRight, shiftRight_eq_div_pow]
    have h64 : x.toNat / 2 ^ (8 * (x.byteSize - 3)) < 2 ^ 64 := by omega
    rw [mod_eq_of_lt h64, mod_eq_of_lt (by omega)]

theorem and_sign_eq_zero_iff (c : Uint32) (h : c.toNat < 2 ^ 24) :
    c &&& 0x00800000#32 = 0 ↔ c.toNat < 2 ^ 23 := by
  have hp : (0x00800000#32 : Uint32) = twoPow 32 23 := by decide
  rw [hp, and_twoPow, getLsbD, testBit_eq_decide_div_mod_eq]
  have htwo : twoPow 32 23 ≠ 0#32 := by decide
  by_cases hc : c.toNat < 2 ^ 23
  · have h0 : c.toNat / 2 ^ 23 = 0 := div_eq_of_lt hc
    rw [h0]
    simpa using hc
  · have h1 : c.toNat / 2 ^ 23 = 1 := by omega
    rw [h1]
    simpa [htwo] using hc

theorem or_size_eq (c : Uint32) (n : Nat) (h : c.toNat < 2 ^ 24) :
    c ||| BitVec.ofNat 32 (n <<< 24) = BitVec.ofNat 32 (c.toNat + n * 2 ^ 24) := by
  apply eq_of_toNat_eq
  have hor : n <<< 24 ||| c.toNat = 2 ^ 24 * n + c.toNat := by
    rw [two_pow_add_eq_or_of_lt h, Nat.shiftLeft_eq, Nat.mul_comm]
  have hc : c = BitVec.ofNat 32 c.toNat := by simp
  conv_lhs => rw [hc]
  rw [← ofNat_or, Nat.or_comm, hor]
  congr 2
  omega

theorem high_bits_zero (c : Uint32) (h : c.toNat < 2 ^ 23) : c &&& ~~~0x007fffff#32 = 0 := by
  apply eq_of_getLsbD_eq
  intro i hi
  rw [getLsbD_and, getLsbD_not]
  rcases Nat.lt_or_ge i 23 with h23 | h23
  · interval_cases i <;> simp
  · have : c.getLsbD i = false :=
      testBit_lt_two_pow (lt_of_lt_of_le h (Nat.pow_le_pow_right (by omega) h23))
    simp [this]

theorem freeSign_eq : freeSign (x.leadingBytes x.byteSize) x.byteSize =
    (BitVec.ofNat 32 x.compactWord, x.compactSize) := by
  have hc := x.leadingBytes_toNat
  have htop := x.topBytes_lt
  have hsign := and_sign_eq_zero_iff (x.leadingBytes x.byteSize) (by omega)
  rw [hc] at hsign
  unfold freeSign compactWord compactSize
  by_cases hlt : x.topBytes < 2 ^ 23
  · rw [if_neg (by simpa using hsign.mpr hlt), if_pos hlt, if_pos hlt, ← hc]
    simp
  · rw [if_pos (fun h => hlt (hsign.mp h)), if_neg hlt, if_neg hlt, ← hc]
    congr 1
    apply eq_of_toNat_eq
    rw [toNat_ushiftRight, shiftRight_eq_div_pow, toNat_ofNat,
      mod_eq_of_lt (by omega)]

theorem getCompact_eq : x.getCompact = .ok x.compact := by
  have hw := x.compactWord_lt
  have hs := x.compactSize_le
  have hc : (BitVec.ofNat 32 x.compactWord).toNat = x.compactWord := by
    rw [toNat_ofNat, mod_eq_of_lt (by omega)]
  have hor := or_size_eq (BitVec.ofNat 32 x.compactWord) x.compactSize (by omega)
  rw [hc] at hor
  have hzero := high_bits_zero (BitVec.ofNat 32 x.compactWord) (by omega)
  have h256 : x.compactSize < 256 := by omega
  have hfree := freeSign_eq x
  unfold byteSize at hfree
  simp only [getCompact, hfree, hzero, hor, h256]
  rfl

/-! ## What `SetCompact` reads back -/

theorem setCompact_ofNat (w s : Nat) (hw : w < 2 ^ 23) (hs : s ≤ 33) (h33 : s = 33 → w < 2 ^ 16) :
    setCompact (BitVec.ofNat 32 (w + s * 2 ^ 24)) =
      { value := if s ≤ 3 then BitVec.ofNat 256 (w / 2 ^ (8 * (3 - s)))
          else BitVec.ofNat 256 (w * 2 ^ (8 * (s - 3)))
        fNegative := false
        fOverflow := false } := by
  set c : Uint32 := BitVec.ofNat 32 (w + s * 2 ^ 24) with hc
  have hcn : c.toNat = w + s * 2 ^ 24 := by
    rw [hc, toNat_ofNat, mod_eq_of_lt (by omega)]
  have hsize : (c >>> 24).toNat = s := by
    rw [toNat_ushiftRight, shiftRight_eq_div_pow, hcn]; omega
  have hword : c &&& 0x007fffff#32 = BitVec.ofNat 32 w := by
    apply eq_of_toNat_eq
    rw [toNat_and, hcn, toNat_ofNat, toNat_ofNat,
      mod_eq_of_lt (by omega : w < 2 ^ 32), show (8388607 % 2 ^ 32) = 2 ^ 23 - 1 by norm_num,
      and_two_pow_sub_one_eq_mod]
    omega
  have hsign : c &&& 0x00800000#32 = 0 := by
    have hp : (0x00800000#32 : Uint32) = twoPow 32 23 := by decide
    have hbit : (w + s * 2 ^ 24) / 2 ^ 23 % 2 = 0 := by omega
    rw [hp, and_twoPow, getLsbD, testBit_eq_decide_div_mod_eq, hcn, hbit]
    rfl
  have hwn : (BitVec.ofNat 32 w).toNat = w := by
    rw [toNat_ofNat, mod_eq_of_lt (by omega)]
  simp only [setCompact, hsize, hword, hsign]
  split
  · next h =>
    congr 1
    · apply eq_of_toNat_eq
      rw [toNat_setWidth, toNat_ushiftRight, hwn, shiftRight_eq_div_pow,
        toNat_ofNat]
    · simp
    · simp; omega
  · next h =>
    congr 1
    · apply eq_of_toNat_eq
      rw [toNat_shiftLeft, toNat_setWidth, hwn, Nat.shiftLeft_eq, toNat_ofNat,
        mod_eq_of_lt (by omega : w < 2 ^ 256)]
    · simp
    · rcases Nat.lt_or_ge s 33 with hlt | hge
      · simp; omega
      · have hs33 : s = 33 := by omega
        have hle : BitVec.ofNat 32 w ≤ 0xffff#32 := by
          rw [le_def, hwn]; have := h33 hs33; simp; omega
        simp [hs33, BitVec.not_lt.mpr hle]

/-- What is left of `x` after `GetCompact` and `SetCompact`. -/
def rounded (x : ArithUint256) : ArithUint256 := (setCompact x.compact).value

theorem setCompact_compact : setCompact x.compact = { value := x.rounded, fNegative := false, fOverflow := false } := by
  unfold rounded compact
  rw [setCompact_ofNat _ _ x.compactWord_lt x.compactSize_le x.compactWord_lt_of_size]

theorem rounded_eq : x.rounded =
    if x.compactSize ≤ 3 then BitVec.ofNat 256 (x.compactWord / 2 ^ (8 * (3 - x.compactSize)))
    else BitVec.ofNat 256 (x.compactWord * 2 ^ (8 * (x.compactSize - 3))) := by
  unfold rounded compact
  rw [setCompact_ofNat _ _ x.compactWord_lt x.compactSize_le x.compactWord_lt_of_size]

theorem two_pow_eight_mul (k : Nat) : 2 ^ (8 * k) = 256 ^ k := by
  rw [Nat.pow_mul]

theorem rounded_toNat_small (h : x.toNat < 2 ^ 23) : x.rounded.toNat = x.toNat := by
  have h3 : x.byteSize ≤ 3 := (byteSize_le_iff x 3).mpr (by omega)
  have htop : x.topBytes = x.toNat * 2 ^ (8 * (3 - x.byteSize)) := if_pos h3
  rw [rounded_eq]
  unfold compactSize compactWord
  by_cases hlt : x.topBytes < 2 ^ 23
  · rw [if_pos hlt, if_pos hlt, if_pos h3, htop, Nat.mul_div_cancel _ (Nat.two_pow_pos _),
      toNat_ofNat, mod_eq_of_lt x.isLt]
  · have h2 : x.byteSize ≤ 2 := by
      by_contra hgt
      have : x.byteSize = 3 := by omega
      rw [htop, this] at hlt
      omega
    have hcut : x.topBytes / 2 ^ 8 = x.toNat * 2 ^ (8 * (3 - (x.byteSize + 1))) := by
      rw [htop, show 8 * (3 - x.byteSize) = 8 * (3 - (x.byteSize + 1)) + 8 by omega, Nat.pow_add,
        ← Nat.mul_assoc, Nat.mul_div_cancel _ (Nat.two_pow_pos 8)]
    rw [if_neg hlt, if_neg hlt, if_pos (by omega), hcut, Nat.mul_div_cancel _ (Nat.two_pow_pos _),
      toNat_ofNat, mod_eq_of_lt x.isLt]

def cutAt (x : ArithUint256) : Nat := x.compactSize - 3

theorem topBytes_of_large (h : 2 ^ 23 ≤ x.toNat) : 3 ≤ x.byteSize ∧ x.topBytes = x.toNat / 256 ^ (x.byteSize - 3) := by
  have h3 : 3 ≤ x.byteSize := by
    by_contra hlt
    have := (byteSize_le_iff x 2).mp (by omega)
    omega
  refine ⟨h3, ?_⟩
  unfold topBytes
  split
  · have : x.byteSize = 3 := by omega
    simp [this]
  · rw [two_pow_eight_mul]

theorem rounded_toNat_large (h : 2 ^ 23 ≤ x.toNat) :
    x.rounded.toNat = x.toNat / 256 ^ x.cutAt * 256 ^ x.cutAt ∧ x.toNat / 256 ^ x.cutAt < 2 ^ 23 ∧
      2 ^ 23 ≤ x.toNat / 256 ^ (x.cutAt - 1) ∧ 1 ≤ x.cutAt := by
  obtain ⟨_, htop⟩ := topBytes_of_large x h
  have hword : x.compactWord = x.toNat / 256 ^ x.cutAt ∧ 2 ^ 23 ≤ x.toNat / 256 ^ (x.cutAt - 1) ∧
      1 ≤ x.cutAt := by
    unfold cutAt compactSize compactWord
    by_cases hlt : x.topBytes < 2 ^ 23
    · have h4 : 4 ≤ x.byteSize := by
        by_contra hgt
        have h3' : x.byteSize = 3 := by omega
        rw [htop, h3'] at hlt
        simp at hlt
        omega
      have hlow : 2 ^ (8 * (x.byteSize - 1)) ≤ x.toNat := by
        by_contra hgt
        have := (byteSize_le_iff x (x.byteSize - 1)).mpr (by omega)
        omega
      rw [if_pos hlt, if_pos hlt, htop]
      refine ⟨rfl, ?_, by omega⟩
      rw [Nat.le_div_iff_mul_le (by positivity)]
      calc 2 ^ 23 * 256 ^ (x.byteSize - 3 - 1) ≤ 256 ^ 3 * 256 ^ (x.byteSize - 3 - 1) :=
            Nat.mul_le_mul_right _ (by norm_num)
        _ = 2 ^ (8 * (x.byteSize - 1)) := by
            rw [← Nat.pow_add, two_pow_eight_mul]; congr 1; omega
        _ ≤ x.toNat := hlow
    · rw [if_neg hlt, if_neg hlt, htop, Nat.div_div_eq_div_mul]
      refine ⟨?_, ?_, by omega⟩
      · rw [show x.byteSize + 1 - 3 = x.byteSize - 3 + 1 by omega, Nat.pow_succ 256]; norm_num
      · rw [show x.byteSize + 1 - 3 - 1 = x.byteSize - 3 by omega, ← htop]
        omega
  obtain ⟨hword, hlow, hpos⟩ := hword
  have hsize : ¬ x.compactSize ≤ 3 := by unfold cutAt at hpos; omega
  refine ⟨?_, hword ▸ x.compactWord_lt, hlow, hpos⟩
  rw [rounded_eq, if_neg hsize, two_pow_eight_mul, toNat_ofNat, hword, cutAt]
  exact mod_eq_of_lt (lt_of_le_of_lt (div_mul_le_self _ _) x.isLt)

/-- `SetCompact` after `GetCompact` rounds down to a 23-bit mantissa. -/
theorem rounded_isRoundDown : IsRoundDown 256 (2 ^ 23) x.toNat x.rounded.toNat := by
  rcases lt_or_ge x.toNat (2 ^ 23) with h | h
  · have hcut := isRoundDown_cut (B := 256) (M := 2 ^ 23) (x := x.toNat) 0 (by omega) (by decide)
      (by simpa using h) (Or.inl rfl)
    simpa [rounded_toNat_small x h] using hcut
  · obtain ⟨hval, hlt, hlow, -⟩ := rounded_toNat_large x h
    rw [hval]
    exact isRoundDown_cut x.cutAt (by omega) (by decide) hlt (Or.inr hlow)

theorem rounded_mono (x y : ArithUint256) (h : x.toNat ≤ y.toNat) :
    x.rounded.toNat ≤ y.rounded.toNat :=
  x.rounded_isRoundDown.mono y.rounded_isRoundDown h

theorem rounded_le : x.rounded.toNat ≤ x.toNat := x.rounded_isRoundDown.le

theorem rounded_rounded : x.rounded.rounded = x.rounded := by
  apply eq_of_toNat_eq
  exact x.rounded.rounded_isRoundDown.eq_self x.rounded_isRoundDown.representable

theorem two_pow_le_rounded {k : Nat} (h : 2 ^ k ≤ x.toNat) : 2 ^ k ≤ x.rounded.toNat := by
  refine x.rounded_isRoundDown.greatest _ ⟨2 ^ (k % 8), k / 8, ?_, ?_⟩ h
  · exact Nat.pow_lt_pow_right (by omega) (by omega)
  · rw [← two_pow_eight_mul, ← Nat.pow_add]
    congr 1
    omega

theorem rounded_pos (h : 0 < x.toNat) : 0 < x.rounded.toNat :=
  x.rounded_isRoundDown.pos (by norm_num) h

theorem byteSize_rounded : x.rounded.byteSize = x.byteSize := by
  apply le_antisymm
  · rw [byteSize_le_iff]
    exact lt_of_le_of_lt x.rounded_le ((byteSize_le_iff x _).mp le_rfl)
  · by_contra hlt
    have hlow : 2 ^ (8 * (x.byteSize - 1)) ≤ x.toNat := by
      by_contra hgt
      have := (byteSize_le_iff x (x.byteSize - 1)).mpr (by omega)
      omega
    have hround := x.two_pow_le_rounded hlow
    have := (byteSize_le_iff x.rounded (x.byteSize - 1)).mp (by omega)
    omega

theorem compact_rounded : x.rounded.compact = x.compact := by
  rcases Nat.lt_or_ge x.toNat (2 ^ 23) with h | h
  · rw [eq_of_toNat_eq (rounded_toNat_small x h)]
  · obtain ⟨hval, -, -, -⟩ := rounded_toNat_large x h
    obtain ⟨_, htop⟩ := topBytes_of_large x h
    obtain ⟨-, htop'⟩ := topBytes_of_large x.rounded (x.two_pow_le_rounded h)
    rw [byteSize_rounded, hval] at htop'
    unfold compact compactWord compactSize
    rw [byteSize_rounded]
    by_cases hlt : x.topBytes < 2 ^ 23
    · have hcut : x.cutAt = x.byteSize - 3 := by rw [cutAt, compactSize, if_pos hlt]
      have hsame : x.rounded.topBytes = x.topBytes := by
        rw [htop', hcut, Nat.mul_div_cancel _ (by positivity), htop]
      rw [hsame]
    · -- The byte that made room for the sign is zero after rounding.
      have hcut : x.cutAt = x.byteSize - 3 + 1 := by
        rw [cutAt, compactSize, if_neg hlt]
        omega
      have hbytes : x.rounded.topBytes = x.topBytes / 256 * 256 := by
        rw [htop', hcut, Nat.pow_succ, ← Nat.div_div_eq_div_mul, Nat.mul_comm (256 ^ _) 256, ← Nat.mul_assoc,
          Nat.mul_div_cancel _ (by positivity), htop]
      have hge : ¬ x.rounded.topBytes < 2 ^ 23 := by omega
      have hword : x.rounded.topBytes / 2 ^ 8 = x.topBytes / 2 ^ 8 := by omega
      rw [if_neg hge, if_neg hge, if_neg hlt, if_neg hlt, hword]

end ArithUint256

end FullNode

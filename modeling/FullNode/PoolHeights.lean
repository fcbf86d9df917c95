import FullNode.Lib.Hex
import FullNode.PoolBlocks
import FullNode.Script

/-! # The height in the coinbase -/

namespace FullNode.Pool

open Hex Nat
open Script (serialize absBytes byteAt and_0x80)

/-! ## The pool -/

/-- `f"{n:02x}"`. -/
def format02x (n : Nat) : List Char := (Nat.toDigits 16 n).leftpad 2 '0'

def serializeHeightHex (height : Nat) : List Char :=
  if height = 0 then "0100".toList
  else if height ≤ 0x7f then "01".toList ++ format02x height
  else if height ≤ 0x7fff then "02".toList ++ format02x (height &&& 0xff) ++ format02x ((height >>> 8) &&& 0xff)
  else if height ≤ 0x7fffff then
    "03".toList ++ format02x (height &&& 0xff) ++ format02x ((height >>> 8) &&& 0xff) ++
      format02x ((height >>> 16) &&& 0xff)
  else
    "04".toList ++ format02x (height &&& 0xff) ++ format02x ((height >>> 8) &&& 0xff) ++
      format02x ((height >>> 16) &&& 0xff) ++ format02x ((height >>> 24) &&& 0xff)

/-! ## The node -/

def appendDataSize (size : Nat) : List UInt8 :=
  if size < 0x4c then leBytes 1 size
  else if size ≤ 0xff then 0x4c :: leBytes 1 size
  else if size ≤ 0xffff then 0x4d :: leBytes 2 size
  else 0x4e :: leBytes 4 size

/-- `push_int64` on an empty script. -/
def pushInt64 (n : Int) : List UInt8 :=
  if n = -1 ∨ (n ≥ 1 ∧ n ≤ 16) then [UInt8.ofInt (n + (0x51 - 1))]
  else if n = 0 then [0]
  else appendDataSize (serialize n).length ++ serialize n

/-! ## Texts -/

theorem format02x_eq {n : Nat} (h : n < 256) : format02x n = byteChars (UInt8.ofNat n) := by
  have hall : ∀ n < 256, format02x n = byteChars (UInt8.ofNat n) := by decide +kernel
  exact hall n h

theorem encode_leBytes_one (n : Nat) : encode (leBytes 1 n) = format02x (n % 256) := by
  rw [format02x_eq (mod_lt _ (by norm_num))]
  rfl

theorem encode_leBytes_succ (k n : Nat) :
    encode (leBytes (k + 1) n) = format02x (n % 256) ++ encode (leBytes k (n / 256)) := by
  rw [format02x_eq (mod_lt _ (by norm_num))]
  rfl

theorem and_ff (n : Nat) : n &&& 0xff = n % 256 := and_two_pow_sub_one_eq_mod n 8

theorem decode_serializeHeightHex (height : Nat) :
    decode (serializeHeightHex height) = some (serializeHeight height) := by
  have htext : serializeHeightHex height = encode (serializeHeight height) := by
    unfold serializeHeightHex serializeHeight
    simp only [and_ff, shiftRight_eq_div_pow]
    split
    · rfl
    · split
      · next h1 =>
        have hbyte : height % 256 = height := mod_eq_of_lt (by omega)
        rw [encode_cons, encode_leBytes_one, hbyte]
        rfl
      · split
        · rw [encode_cons, encode_leBytes_succ, encode_leBytes_one]
          rfl
        · split
          · rw [encode_cons, encode_leBytes_succ, encode_leBytes_succ, encode_leBytes_one, Nat.div_div_eq_div_mul]
            simp only [List.append_assoc]
            rfl
          · rw [encode_cons, encode_leBytes_succ, encode_leBytes_succ, encode_leBytes_succ, encode_leBytes_one,
              Nat.div_div_eq_div_mul, Nat.div_div_eq_div_mul]
            simp only [List.append_assoc]
            rfl
  rw [htext, decode_encode]

/-! ## Script numbers -/

theorem absBytes_eq (fuel k n : Nat) (hfuel : k ≤ fuel) (hhigh : n < 256 ^ k) (hlow : k = 0 ∨ 256 ^ (k - 1) ≤ n) :
    absBytes fuel n = leBytes k n := by
  induction fuel generalizing k n with
  | zero =>
    obtain rfl : k = 0 := by omega
    rfl
  | succ fuel ih =>
    cases k with
    | zero =>
      obtain rfl : n = 0 := by simpa using hhigh
      rfl
    | succ k =>
      rw [Nat.add_sub_cancel] at hlow
      have hne : n ≠ 0 := by omega
      have hdiv : n / 256 < 256 ^ k := by
        rw [Nat.div_lt_iff_lt_mul (by norm_num), ← Nat.pow_succ]
        exact hhigh
      have hrest : k = 0 ∨ 256 ^ (k - 1) ≤ n / 256 := by
        rcases Nat.eq_zero_or_pos k with h0 | hk
        · exact Or.inl h0
        · right
          rw [Nat.le_div_iff_mul_le (by norm_num), ← Nat.pow_succ, succ_eq_add_one, Nat.sub_add_cancel hk]
          omega
      rw [absBytes, if_neg hne, ih k (n / 256) (by omega) hdiv hrest, leBytes]

theorem serialize_last (bytes : List UInt8) (b : UInt8) : byteAt (bytes ++ [b]) ((bytes ++ [b]).length - 1) = b := by
  simp [byteAt]

theorem serialize_eq (j n : Nat) (hj : j < 8) (hpos : 0 < n) (hhigh : n < 128 * 256 ^ j)
    (hlow : j = 0 ∨ 128 * 256 ^ (j - 1) ≤ n) : serialize n = leBytes (j + 1) n := by
  have hne : (n : Int) ≠ 0 := by omega
  have hsign : ¬ (n : Int) < 0 := by omega
  have htop (k : Nat) (hk : n < 256 ^ (k + 1)) : n / 256 ^ k % 256 = n / 256 ^ k := by
    apply mod_eq_of_lt
    rw [Nat.div_lt_iff_lt_mul (by positivity), Nat.mul_comm, ← Nat.pow_succ]
    exact hk
  unfold serialize
  simp only [hne, if_false, Int.natAbs_natCast, hsign]
  rcases Nat.lt_or_ge n (256 ^ j) with hlt | hge
  · -- One byte less would do, but for its top bit.
    obtain ⟨i, rfl⟩ : ∃ i, j = i + 1 := by
      cases j with
      | zero => simp at hlt; omega
      | succ i => exact ⟨i, rfl⟩
    rw [Nat.add_sub_cancel] at hlow
    have hlow := hlow.resolve_left (by omega)
    have hle : 256 ^ i ≤ n := by omega
    have hset : 128 ≤ (UInt8.ofNat (n / 256 ^ i % 256)).toNat := by
      rw [UInt8.toNat_ofNat', htop i hlt, mod_eq_of_lt]
      · rw [Nat.le_div_iff_mul_le (by positivity)]
        exact hlow
      · rw [Nat.div_lt_iff_lt_mul (by positivity), Nat.mul_comm, ← Nat.pow_succ]
        exact hlt
    rw [absBytes_eq 8 (i + 1) n (by omega) hlt (Or.inr hle), leBytes_succ_last i, serialize_last,
      if_pos ((and_0x80 _).mpr hset), leBytes_succ_last (i + 1), leBytes_succ_last i, div_eq_of_lt hlt]
    rfl
  · have hbelow : n < 256 ^ (j + 1) := by
      rw [Nat.pow_succ]
      omega
    have hclear : ¬ 128 ≤ (UInt8.ofNat (n / 256 ^ j % 256)).toNat := by
      rw [UInt8.toNat_ofNat', htop j hbelow, not_le]
      refine Nat.lt_of_le_of_lt (mod_le _ _) ?_
      rw [Nat.div_lt_iff_lt_mul (by positivity)]
      exact hhigh
    rw [absBytes_eq 8 (j + 1) n (by omega) hbelow (Or.inr hge), leBytes_succ_last j, serialize_last,
      if_neg (mt (and_0x80 _).mp hclear)]

/-! ## The push -/

theorem pushInt64_eq (j n : Nat) (hj : j < 8) (h17 : 17 ≤ n) (hhigh : n < 128 * 256 ^ j)
    (hlow : j = 0 ∨ 128 * 256 ^ (j - 1) ≤ n) : pushInt64 n = UInt8.ofNat (j + 1) :: leBytes (j + 1) n := by
  have hsmall : ¬ ((n : Int) = -1 ∨ ((n : Int) ≥ 1 ∧ (n : Int) ≤ 16)) := by omega
  have hne : (n : Int) ≠ 0 := by omega
  rw [pushInt64, if_neg hsmall, if_neg hne, serialize_eq j n hj (by omega) hhigh hlow, leBytes_length, appendDataSize,
    if_pos (by omega), leBytes, leBytes, mod_eq_of_lt (by omega)]
  rfl

theorem length_pushInt64_small (n : Nat) (h : n < 17) : (pushInt64 n).length = 1 := by
  rcases Nat.eq_zero_or_pos n with rfl | hpos
  · rfl
  · rw [pushInt64, if_pos (by omega)]
    rfl

/-- The pool's push is the required one, exactly from height 17 on. -/
theorem serializeHeight_eq_push_iff (height : Nat) (h : height < 2 ^ 31) :
    Hex.decode (serializeHeightHex height) = some (pushInt64 height) ↔ 17 ≤ height := by
  rw [decode_serializeHeightHex, Option.some.injEq]
  constructor
  · intro heq
    by_contra hlt
    have hlength := congrArg List.length heq
    rw [length_pushInt64_small height (by omega), serializeHeight] at hlength
    split at hlength
    · cases hlength
    · rw [if_pos (by omega)] at hlength
      cases hlength
  · intro h17
    unfold serializeHeight
    rw [if_neg (by omega)]
    split
    · next h1 => exact (pushInt64_eq 0 height (by omega) h17 (by omega) (Or.inl rfl)).symm
    · split
      · next h2 => exact (pushInt64_eq 1 height (by omega) h17 (by omega) (Or.inr (by omega))).symm
      · split
        · next h3 => exact (pushInt64_eq 2 height (by omega) h17 (by omega) (Or.inr (by omega))).symm
        · exact (pushInt64_eq 3 height (by omega) h17 (by omega) (Or.inr (by omega))).symm

/-- A height whose sign bit needs a byte. -/
theorem serializeHeight_eq_push_128 : Hex.decode (serializeHeightHex 128) = some (pushInt64 128) :=
  (serializeHeight_eq_push_iff 128 (by norm_num)).mpr (by norm_num)

/-- At height 1 the pool pushes a byte, and the node wants `OP_1`. -/
theorem serializeHeight_one : Hex.decode (serializeHeightHex 1) ≠ some (pushInt64 1) := by decide

end FullNode.Pool

import Mathlib.Data.BitVec

/-!
# Bits in order

The last bits of a word, highest first, and words that take in bits from the right.
-/

namespace FullNode.Bits

open List

variable {w v : Nat} {x : BitVec w} {y : BitVec v} {n k i : Nat}

def lastBits (x : BitVec w) : Nat → List Bool
  | 0 => []
  | n + 1 => x.getLsbD n :: lastBits x n

def shiftIn (x : BitVec w) (bits : List Bool) : BitVec w := bits.foldl BitVec.shiftConcat x

/-! ## The last bits -/

@[simp] theorem lastBits_zero (x : BitVec w) : lastBits x 0 = [] := rfl

theorem lastBits_succ (x : BitVec w) (n : Nat) : lastBits x (n + 1) = x.getLsbD n :: lastBits x n := rfl

@[simp] theorem length_lastBits (x : BitVec w) (n : Nat) : (lastBits x n).length = n := by
  induction n with
  | zero => rfl
  | succ n ih => rw [lastBits_succ, length_cons, ih]

theorem lastBits_congr (h : ∀ i < n, x.getLsbD i = y.getLsbD i) : lastBits x n = lastBits y n := by
  induction n with
  | zero => rfl
  | succ n ih => rw [lastBits_succ, lastBits_succ, h n (Nat.lt_succ_self n), ih fun i hi => h i (Nat.lt_succ_of_lt hi)]

theorem lastBits_add (x : BitVec w) (k n : Nat) : lastBits x (k + n) = lastBits (x >>> n) k ++ lastBits x n := by
  induction k with
  | zero => rw [Nat.zero_add]; rfl
  | succ k ih =>
    rw [show k + 1 + n = k + n + 1 by omega, lastBits_succ, lastBits_succ, ih, BitVec.getLsbD_ushiftRight,
      Nat.add_comm n k]
    rfl

theorem lastBits_split (hk : k ≤ n) : lastBits x n = lastBits (x >>> (n - k)) k ++ lastBits x (n - k) := by
  rw [← lastBits_add, Nat.add_sub_cancel' hk]

theorem take_lastBits (hk : k ≤ n) : (lastBits x n).take k = lastBits (x >>> (n - k)) k := by
  rw [lastBits_split hk, take_left' (length_lastBits _ _)]

theorem drop_lastBits (hk : k ≤ n) : (lastBits x n).drop k = lastBits x (n - k) := by
  rw [lastBits_split hk, drop_left' (length_lastBits _ _)]

theorem lastBits_ones (n : Nat) (hn : n ≤ w) : lastBits (BitVec.allOnes w) n = replicate n true := by
  induction n with
  | zero => rfl
  | succ n ih =>
    rw [lastBits_succ, ih (by omega), replicate_succ, BitVec.getLsbD_allOnes, decide_eq_true (by omega)]

theorem lastBits_false (h : ∀ i < n, x.getLsbD i = false) : lastBits x n = replicate n false := by
  induction n with
  | zero => rfl
  | succ n ih =>
    rw [lastBits_succ, h n (Nat.lt_succ_self n), ih fun i hi => h i (Nat.lt_succ_of_lt hi), replicate_succ]

theorem getLsbD_of_lastBits {z : BitVec v} (h : lastBits x n = lastBits z n) (hi : i < n) :
    x.getLsbD i = z.getLsbD i := by
  induction n with
  | zero => omega
  | succ n ih =>
    obtain ⟨hfirst, hrest⟩ := cons.inj h
    by_cases heq : i = n
    · rw [heq, hfirst]
    · exact ih hrest (by omega)

theorem lastBits_inj {z : BitVec w} (h : lastBits x w = lastBits z w) : x = z :=
  BitVec.eq_of_getLsbD_eq fun _ hi => getLsbD_of_lastBits h hi

/-! ## Bits taken in -/

theorem shiftIn_append (x : BitVec w) (bits bits' : List Bool) :
    shiftIn x (bits ++ bits') = shiftIn (shiftIn x bits) bits' :=
  foldl_append

theorem getLsbD_shiftIn_lastBits (x : BitVec w) (y : BitVec v) (n : Nat) (hi : i < w) :
    (shiftIn x (lastBits y n)).getLsbD i = if i < n then y.getLsbD i else x.getLsbD (i - n) := by
  induction n generalizing x with
  | zero => rfl
  | succ n ih =>
    have hstep : shiftIn x (lastBits y (n + 1)) = shiftIn (x.shiftConcat (y.getLsbD n)) (lastBits y n) := rfl
    rw [hstep, ih]
    by_cases hlt : i < n
    · rw [if_pos hlt, if_pos (by omega)]
    · rw [if_neg hlt, BitVec.getLsbD_shiftConcat, decide_eq_true (by omega : i - n < w), Bool.true_and]
      by_cases heq : i = n
      · subst heq
        simp
      · rw [if_neg (by omega), if_neg (by omega), show i - n - 1 = i - (n + 1) by omega]

theorem toNat_shiftIn_zero (x : BitVec w) (n : Nat) :
    (shiftIn (0 : BitVec w) (lastBits x n)).toNat = x.toNat % 2 ^ n := by
  apply Nat.eq_of_testBit_eq
  intro i
  rw [Nat.testBit_mod_two_pow, BitVec.testBit_toNat, BitVec.testBit_toNat]
  by_cases hi : i < w
  · rw [getLsbD_shiftIn_lastBits 0 x n hi]
    by_cases hlt : i < n
    · rw [if_pos hlt, decide_eq_true hlt, Bool.true_and]
    · rw [if_neg hlt, decide_eq_false hlt, Bool.false_and]
      exact BitVec.getLsbD_zero
  · rw [BitVec.getLsbD_of_ge _ i (by omega), BitVec.getLsbD_of_ge x i (by omega), Bool.and_false]

end FullNode.Bits

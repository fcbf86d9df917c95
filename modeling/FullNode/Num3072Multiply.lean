import FullNode.Lib.Limbs
import FullNode.Num3072

/-! # `Multiply` multiplies -/

namespace FullNode.Num3072

open Limbs List Finset Nat

variable {b : Build} {c d : Acc}

/-! ## The builds -/

theorem base_pow_limbs (b : Build) : b.base ^ b.limbs = 2 ^ 3072 := by
  cases b with
  | int128 | int64 => rw [Build.base, ← pow_mul]; rfl

theorem limbs_diff_lt (b : Build) : 2 * (b.limbs * MAX_PRIME_DIFF) < b.base := by
  cases b <;> decide

theorem two_le_limbs (b : Build) : 2 ≤ b.limbs := by
  cases b <;> decide

theorem diff_lt (b : Build) : MAX_PRIME_DIFF < b.base := by
  cases b <;> decide

theorem base_pos (b : Build) : 0 < b.base := lt_of_le_of_lt (zero_le _) (diff_lt b)

theorem modulus_add_diff (b : Build) : modulus + MAX_PRIME_DIFF = b.base ^ b.limbs := by
  rw [base_pow_limbs, modulus]
  exact Nat.sub_add_cancel
    (Nat.le_of_lt (Nat.lt_of_lt_of_le (by decide : MAX_PRIME_DIFF < 2 ^ 32)
      (Nat.pow_le_pow_right (by decide) (by decide))))

/-! ## Accumulators -/

def Acc.value (b : Build) (c : Acc) : Nat := c.c0 + b.base * c.c1 + b.base ^ 2 * c.c2

structure Acc.Fits (b : Build) (c : Acc) : Prop where
  c0_lt : c.c0 < b.base
  c1_lt : c.c1 < b.base
  c2_lt : c.c2 < b.base

theorem mul_lt_sq {B x y : Nat} (hx : x < B) (hy : y < B) : x * y + 2 * B ≤ B ^ 2 + 1 := by
  obtain ⟨M, rfl⟩ : ∃ M, B = M + 1 := ⟨B - 1, by omega⟩
  nlinarith

theorem carry_eq {B x y : Nat} (hx : x < B) (hy : y < B) :
    (x + y) % B + B * (if (x + y) % B < y then 1 else 0) = x + y := by
  by_cases hsum : x + y < B
  · rw [mod_eq_of_lt hsum, if_neg (by omega)]
    omega
  · have hmod : (x + y) % B = x + y - B := by rw [mod_eq_sub_mod (by omega), mod_eq_of_lt (by omega)]
    rw [hmod, if_pos (by omega)]
    omega

theorem ite_le_one (p : Prop) [Decidable p] : (if p then 1 else 0 : Nat) ≤ 1 := by split <;> omega

theorem one_lt_base (b : Build) : 1 < b.base := lt_of_le_of_lt (by decide) (diff_lt b)

theorem muladd3_spec {x y : Nat} (hc : c.Fits b) (hx : x < b.base) (hy : y < b.base)
    (hroom : c.value b + x * y < b.base ^ 3) :
    (muladd3 b c x y).Fits b ∧ (muladd3 b c x y).value b = c.value b + x * y := by
  have hB := one_lt_base b
  have hpos := base_pos b
  obtain ⟨h0, h1, -⟩ := hc
  unfold muladd3 Acc.value at *
  have hxy := mul_lt_sq hx hy
  rw [mod_eq_of_lt (show x * y < b.base ^ 2 by omega)]
  have hdiv : b.base * (x * y / b.base) + x * y % b.base = x * y := div_add_mod _ _
  have htl : x * y % b.base < b.base := mod_lt _ hpos
  have hth : x * y / b.base + 1 < b.base := by
    have hlt : b.base * (x * y / b.base + 1) < b.base * b.base := by
      rw [Nat.mul_add, Nat.mul_one, ← sq]
      omega
    exact Nat.lt_of_mul_lt_mul_left hlt
  have hlow := carry_eq h0 htl
  have hk := ite_le_one ((c.c0 + x * y % b.base) % b.base < x * y % b.base)
  simp only
  generalize (if (c.c0 + x * y % b.base) % b.base < x * y % b.base then 1 else 0) = k at *
  rw [mod_eq_of_lt (show x * y / b.base + k < b.base by omega)]
  have hmid := carry_eq h1 (show x * y / b.base + k < b.base by omega)
  generalize (if (c.c1 + (x * y / b.base + k)) % b.base < x * y / b.base + k then 1 else 0) = k' at *
  have hvalue : (c.c0 + x * y % b.base) % b.base + b.base * ((c.c1 + (x * y / b.base + k)) % b.base) + b.base ^ 2 *
      (c.c2 + k') = c.c0 + b.base * c.c1 + b.base ^ 2 * c.c2 + x * y := by
    calc (c.c0 + x * y % b.base) % b.base + b.base * ((c.c1 + (x * y / b.base + k)) % b.base) + b.base ^ 2 * (c.c2 + k')
        = (c.c0 + x * y % b.base) % b.base + b.base * ((c.c1 + (x * y / b.base + k)) % b.base + b.base * k') +
            b.base ^ 2 * c.c2 := by ring
      _ = (c.c0 + x * y % b.base) % b.base + b.base * k + b.base * (c.c1 + x * y / b.base) + b.base ^ 2 * c.c2 := by
          rw [hmid]
          ring
      _ = c.c0 + b.base * c.c1 + b.base ^ 2 * c.c2 + (b.base * (x * y / b.base) + x * y % b.base) := by
          rw [hlow]
          ring
      _ = _ := by rw [hdiv]
  have htop : c.c2 + k' < b.base := by
    have hlt := Nat.lt_of_le_of_lt (Nat.le_add_left _ _) (hvalue.trans_lt hroom)
    rw [pow_succ b.base 2] at hlt
    exact Nat.lt_of_mul_lt_mul_left hlt
  rw [mod_eq_of_lt htop]
  exact ⟨⟨mod_lt _ hpos, mod_lt _ hpos, htop⟩, hvalue⟩

theorem mul_spec {x y : Nat} (hx : x < b.base) (hy : y < b.base) :
    (mul b x y).Fits b ∧ (mul b x y).value b = x * y := by
  have hpos := base_pos b
  have hxy := mul_lt_sq hx hy
  have hsq : x * y < b.base ^ 2 := by
    omega
  unfold mul Acc.value
  simp only [mod_eq_of_lt hsq, Nat.mul_zero, Nat.add_zero, mod_add_div, and_true]
  exact ⟨mod_lt _ hpos, Nat.div_lt_of_lt_mul (by rwa [← sq]), hpos⟩

theorem mulnadd3_spec {n : Nat} (hc : c.Fits b) (hd : d.Fits b) (htop : c.c2 = 0) (hn : n < b.base)
    (hroom : c.value b + n * d.value b < b.base ^ 3) :
    (mulnadd3 b c d n).Fits b ∧ (mulnadd3 b c d n).value b = c.value b + n * d.value b := by
  have hpos := base_pos b
  obtain ⟨_, _, -⟩ := hc
  obtain ⟨d0, d1, -⟩ := hd
  unfold mulnadd3 Acc.value at *
  rw [htop] at *
  have hlow := mul_lt_sq d0 hn
  have hmid := mul_lt_sq d1 hn
  simp only
  rw [mod_eq_of_lt (show d.c0 * n + c.c0 < b.base ^ 2 by omega)]
  have hcarry : (d.c0 * n + c.c0) / b.base < b.base := Nat.div_lt_of_lt_mul (by nlinarith)
  have hsplit := div_add_mod (d.c0 * n + c.c0) b.base
  rw [mod_eq_of_lt (show (d.c0 * n + c.c0) / b.base + (d.c1 * n + c.c1) < b.base ^ 2 by omega)]
  have hsplit' := div_add_mod ((d.c0 * n + c.c0) / b.base + (d.c1 * n + c.c1)) b.base
  generalize hq : (d.c0 * n + c.c0) / b.base = q at *
  generalize hq' : (q + (d.c1 * n + c.c1)) / b.base = q' at *
  have hvalue : (d.c0 * n + c.c0) % b.base + b.base * ((q + (d.c1 * n + c.c1)) % b.base) + b.base ^ 2 *
      (q' + d.c2 * n) =
      c.c0 + b.base * c.c1 + b.base ^ 2 * 0 + n * (d.c0 + b.base * d.c1 + b.base ^ 2 * d.c2) := by
    calc (d.c0 * n + c.c0) % b.base + b.base * ((q + (d.c1 * n + c.c1)) % b.base) + b.base ^ 2 * (q' + d.c2 * n)
        = (d.c0 * n + c.c0) % b.base + b.base * (b.base * q' + (q + (d.c1 * n + c.c1)) % b.base) +
            b.base ^ 2 * (d.c2 * n) := by ring
      _ = (b.base * q + (d.c0 * n + c.c0) % b.base) + b.base * (d.c1 * n + c.c1) + b.base ^ 2 * (d.c2 * n) := by
          rw [hsplit']
          ring
      _ = _ := by
          rw [hsplit]
          ring
  have hlast : q' + d.c2 * n < b.base := by
    have hlt := Nat.lt_of_le_of_lt (Nat.le_add_left _ _) (hvalue.trans_lt hroom)
    rw [pow_succ b.base 2] at hlt
    exact Nat.lt_of_mul_lt_mul_left hlt
  rw [mod_eq_of_lt hlast]
  exact ⟨⟨mod_lt _ hpos, mod_lt _ hpos, hlast⟩, hvalue⟩

theorem muln2_spec {n : Nat} (hc : c.Fits b) (htop : c.c2 = 0) (hn : n < b.base) (hroom : n * c.value b < b.base ^ 2) :
    (muln2 b c n).Fits b ∧ (muln2 b c n).c2 = 0 ∧ (muln2 b c n).value b = n * c.value b := by
  have hpos := base_pos b
  obtain ⟨h0, h1, h2⟩ := hc
  unfold muln2 Acc.value at *
  simp only [htop, Nat.mul_zero, Nat.add_zero] at *
  have hlow := mul_lt_sq h0 hn
  have hmid := mul_lt_sq h1 hn
  rw [mod_eq_of_lt (show c.c0 * n < b.base ^ 2 by omega)]
  have hcarry : c.c0 * n / b.base < b.base := Nat.div_lt_of_lt_mul (by nlinarith)
  have hsplit := div_add_mod (c.c0 * n) b.base
  rw [mod_eq_of_lt (show c.c0 * n / b.base + c.c1 * n < b.base ^ 2 by omega)]
  generalize c.c0 * n / b.base = q at *
  have hvalue : c.c0 * n % b.base + b.base * (q + c.c1 * n) = n * (c.c0 + b.base * c.c1) := by
    rw [Nat.mul_add, ← Nat.add_assoc, Nat.add_comm (c.c0 * n % b.base), hsplit]
    ring
  have hlast : q + c.c1 * n < b.base := by
    have hlt := Nat.lt_of_le_of_lt (Nat.le_add_left _ _) (hvalue.trans_lt hroom)
    rw [sq] at hlt
    exact Nat.lt_of_mul_lt_mul_left hlt
  rw [mod_eq_of_lt hlast]
  exact ⟨⟨mod_lt _ hpos, hlast, h2⟩, trivial, hvalue⟩

theorem addnextract2_spec {a : Nat} (hc : c.Fits b) (ha : a < b.base) :
    (addnextract2 b c a).1 < b.base ∧ (addnextract2 b c a).2.Fits b ∧ (addnextract2 b c a).2.c2 = c.c2 ∧
    (addnextract2 b c a).1 + b.base * ((addnextract2 b c a).2.c0 + b.base * (addnextract2 b c a).2.c1) =
      c.c0 + b.base * c.c1 + a := by
  have hpos := base_pos b
  have hB := one_lt_base b
  obtain ⟨h0, h1, h2⟩ := hc
  have hlow := carry_eq h0 ha
  unfold addnextract2
  simp only
  split
  · next hwrap =>
    rw [if_pos hwrap] at hlow
    refine ⟨mod_lt _ hpos, ⟨mod_lt _ hpos, lt_of_le_of_lt (ite_le_one _) hB, h2⟩, rfl, ?_⟩
    have hhigh : (c.c1 + 1) % b.base + b.base * (if (c.c1 + 1) % b.base = 0 then 1 else 0) = c.c1 + 1 := by
      rcases lt_or_ge (c.c1 + 1) b.base with hlt | hge
      · rw [mod_eq_of_lt hlt, if_neg (by omega)]
        omega
      · rw [show c.c1 + 1 = b.base by omega, mod_self, if_pos rfl]
        omega
    simp only at hhigh ⊢
    rw [hhigh, mul_succ]
    omega
  · next hwrap =>
    rw [if_neg hwrap] at hlow
    refine ⟨mod_lt _ hpos, ⟨h1, hpos, h2⟩, rfl, ?_⟩
    simp only [mul_zero, add_zero] at hlow ⊢
    omega

/-! ## Reduction -/

/-- Limbs of a `Num3072`. -/
structure IsLimbs (b : Build) (limbs : List Nat) : Prop where
  length_eq : limbs.length = b.limbs
  lt : ∀ limb ∈ limbs, limb < b.base

variable {limbs : List Nat}

theorem addLimbs_spec (hc : c.Fits b) (h : ∀ limb ∈ limbs, limb < b.base) :
    (addLimbs b c limbs).1.length = limbs.length ∧ (∀ limb ∈ (addLimbs b c limbs).1, limb < b.base) ∧
    (addLimbs b c limbs).2.Fits b ∧
    value b.base (addLimbs b c limbs).1 +
      b.base ^ limbs.length * ((addLimbs b c limbs).2.c0 + b.base * (addLimbs b c limbs).2.c1) =
      c.c0 + b.base * c.c1 + value b.base limbs := by
  induction limbs generalizing c with
  | nil => exact ⟨rfl, by simp [addLimbs], hc, by simp [addLimbs]⟩
  | cons limb limbs ih =>
    rw [List.forall_mem_cons] at h
    obtain ⟨hn, hfits, -, hstep⟩ := addnextract2_spec hc h.1
    obtain ⟨hlength, hlt, hrest, hvalue⟩ := ih hfits h.2
    refine ⟨by simp [addLimbs, hlength], ?_, hrest, ?_⟩
    · intro l hl
      rcases List.mem_cons.mp hl with rfl | hl
      · exact hn
      · exact hlt l hl
    · simp only [addLimbs, value_cons, length_cons, pow_succ]
      calc _ = (addnextract2 b c limb).1 + b.base * (value b.base (addLimbs b (addnextract2 b c limb).2 limbs).1 +
            b.base ^ limbs.length * ((addLimbs b (addnextract2 b c limb).2 limbs).2.c0 +
              b.base * (addLimbs b (addnextract2 b c limb).2 limbs).2.c1)) := by ring
        _ = _ := by
            rw [hvalue, ← Nat.add_assoc, ← hstep]
            ring

variable (h : IsLimbs b limbs)
include h

theorem IsLimbs.value_lt : value b.base limbs < b.base ^ b.limbs := by
  have hlt := Limbs.value_lt h.lt
  rwa [h.length_eq] at hlt

theorem isOverflow_iff : isOverflow b limbs = true ↔ modulus ≤ value b.base limbs := by
  have hdiff := diff_lt b
  have hmodulus := modulus_add_diff b
  obtain ⟨limb, rest, rfl⟩ : ∃ limb rest, limbs = limb :: rest :=
    exists_cons_of_length_pos (by rw [h.length_eq]; exact lt_of_lt_of_le (by decide) (two_le_limbs b))
  have hlimb := h.lt limb mem_cons_self
  have hrest : ∀ l ∈ rest, l < b.base := fun l hl => h.lt l (mem_cons_of_mem _ hl)
  have hlt := value_lt hrest
  have hpow : b.base ^ b.limbs = b.base * b.base ^ rest.length := by
    rw [← h.length_eq, length_cons, pow_succ, mul_comm]
  have hall : (rest.all fun l => decide (l = b.base - 1)) = true ↔ value b.base rest + 1 = b.base ^ rest.length := by
    rw [value_succ_eq_iff hrest, all_eq_true]
    refine forall₂_congr fun l hl => ?_
    rw [decide_eq_true_iff]
    omega
  unfold isOverflow
  rw [headD_cons, tail_cons, value_cons]
  rw [hpow] at hmodulus
  split
  · next hsmall =>
    have hle := mul_le_mul_left b.base hlt
    rw [mul_succ] at hle
    simp only [Bool.false_eq_true, false_iff]
    omega
  · next hlarge =>
    rw [hall]
    constructor
    · intro hmax
      rw [← hmax, mul_succ] at hmodulus
      omega
    · intro hmodulus'
      by_contra hne
      have hle := mul_le_mul_left b.base (show value b.base rest + 2 ≤ b.base ^ rest.length by omega)
      rw [mul_add] at hle
      omega

theorem fullReduce_spec : IsLimbs b (fullReduce b limbs) ∧
    ∃ carry, value b.base (fullReduce b limbs) + b.base ^ b.limbs * carry = MAX_PRIME_DIFF + value b.base limbs := by
  have hfits : Acc.Fits b { c0 := MAX_PRIME_DIFF } := ⟨diff_lt b, base_pos b, base_pos b⟩
  obtain ⟨hlength, hlt, -, hvalue⟩ := addLimbs_spec hfits h.lt
  rw [h.length_eq] at hlength hvalue
  exact ⟨⟨hlength, hlt⟩, _, by simpa [fullReduce] using hvalue⟩

theorem fullReduce_of_ge (hge : modulus ≤ value b.base limbs) :
    value b.base (fullReduce b limbs) + modulus = value b.base limbs := by
  obtain ⟨hlimbs, carry, hvalue⟩ := fullReduce_spec h
  have hlt := h.value_lt
  have hlt' := hlimbs.value_lt
  have hmodulus := modulus_add_diff b
  have hcarry : carry = 1 := by
    apply le_antisymm
    · by_contra hgt
      have hle := mul_le_mul_left (b.base ^ b.limbs) (show 2 ≤ carry by omega)
      omega
    · by_contra hzero
      obtain rfl : carry = 0 := by omega
      omega
  rw [hcarry] at hvalue
  omega

theorem fullReduce_of_lt (hlt : value b.base limbs < modulus) :
    value b.base (fullReduce b limbs) = MAX_PRIME_DIFF + value b.base limbs := by
  obtain ⟨_, carry, _⟩ := fullReduce_spec h
  have hmodulus := modulus_add_diff b
  obtain rfl : carry = 0 := by
    by_contra hne
    have hle := mul_le_mul_left (b.base ^ b.limbs) (show 1 ≤ carry by omega)
    omega
  omega

theorem reduce_spec : IsLimbs b (if isOverflow b limbs then fullReduce b limbs else limbs) ∧
    value b.base (if isOverflow b limbs then fullReduce b limbs else limbs) < modulus ∧
    value b.base (if isOverflow b limbs then fullReduce b limbs else limbs) ≤ value b.base limbs ∧
    value b.base (if isOverflow b limbs then fullReduce b limbs else limbs) ≡ value b.base limbs [MOD modulus] := by
  have hlt := h.value_lt
  have hmodulus := modulus_add_diff b
  split
  · next hover =>
    have hge := (isOverflow_iff h).mp hover
    have hvalue := fullReduce_of_ge h hge
    have hsmall : MAX_PRIME_DIFF < modulus := by
      have hpow : 2 * MAX_PRIME_DIFF < 2 ^ 3072 :=
        Nat.lt_of_lt_of_le (by decide : 2 * MAX_PRIME_DIFF < 2 ^ 32) (Nat.pow_le_pow_right (by decide) (by decide))
      rw [← base_pow_limbs b] at hpow
      omega
    refine ⟨(fullReduce_spec h).1, by omega, by omega, ?_⟩
    rw [← hvalue]
    exact (modEq_iff_dvd' (Nat.le_add_right _ _)).mpr (by simp)
  · next hover =>
    exact ⟨h, Nat.lt_of_not_le fun hge => hover ((isOverflow_iff h).mpr hge), le_rfl, rfl⟩

omit h

/-! ## Columns -/

variable {x y : List Nat}

theorem IsLimbs.getD_le (h : IsLimbs b limbs) (i : Nat) : limbs.getD i 0 ≤ b.base - 1 := by
  rcases lt_or_ge i limbs.length with hi | hi
  · have hlt := h.lt _ (getElem_mem hi)
    rw [getD_eq_getElem _ _ hi]
    omega
  · rw [getD_eq_default _ _ hi]
    omega

def columnOf (x y : List Nat) (s low high : Nat) : Nat := column (fun i => x.getD i 0) (fun i => y.getD i 0) s low high

theorem columnOf_le (hx : IsLimbs b x) (hy : IsLimbs b y) (s low high : Nat) :
    columnOf x y s low high ≤ (high - low) * ((b.base - 1) * (b.base - 1)) := column_le hx.getD_le hy.getD_le s low high

theorem muladdLoop_spec (hx : IsLimbs b x) (hy : IsLimbs b y) (s count i : Nat) (hc : c.Fits b)
    (hroom : c.value b + columnOf x y s i (i + count) < b.base ^ 3) :
    (muladdLoop b x y s count i c).Fits b ∧ (muladdLoop b x y s count i c).value b = c.value b + columnOf x y s i
    (i + count) := by
  have hpos := base_pos b
  induction count generalizing i c with
  | zero => exact ⟨hc, by simp [muladdLoop, columnOf, column]⟩
  | succ count ih =>
    have hsum : columnOf x y s i (i + (count + 1)) =
        x.getD i 0 * y.getD (s - i) 0 + columnOf x y s (i + 1) (i + 1 + count) := by
      rw [columnOf, column_succ_bot _ _ _ (by omega), show i + (count + 1) = i + 1 + count by omega]
      rfl
    have hxi := hx.getD_le i
    have hyi := hy.getD_le (s - i)
    rw [hsum] at hroom
    obtain ⟨hfits, hvalue⟩ :=
        muladd3_spec hc (show x.getD i 0 < b.base by omega) (show y.getD (s - i) 0 < b.base by omega) (by omega)
    obtain ⟨hfits', hvalue'⟩ := ih (i + 1) hfits (by omega)
    refine ⟨hfits', ?_⟩
    rw [muladdLoop, hvalue', hvalue, hsum]
    omega

def reducedColumn (b : Build) (x y : List Nat) (j : Nat) : Nat :=
  columnOf x y j 0 (j + 1) + MAX_PRIME_DIFF * columnOf x y (b.limbs + j) (j + 1) b.limbs

def carryBound (b : Build) : Nat := b.limbs * MAX_PRIME_DIFF * b.base

theorem reducedColumn_le (hx : IsLimbs b x) (hy : IsLimbs b y) {j : Nat} (hj : j < b.limbs) :
    reducedColumn b x y j ≤ b.limbs * MAX_PRIME_DIFF * ((b.base - 1) * (b.base - 1)) := by
  have hlow := columnOf_le hx hy j 0 (j + 1)
  have hhigh := columnOf_le hx hy (b.limbs + j) (j + 1) b.limbs
  generalize (b.base - 1) * (b.base - 1) = S at *
  have hweight : (j + 1 - 0) + MAX_PRIME_DIFF * (b.limbs - (j + 1)) ≤ b.limbs * MAX_PRIME_DIFF := by
    unfold MAX_PRIME_DIFF
    omega
  calc reducedColumn b x y j
      ≤ (j + 1 - 0) * S + MAX_PRIME_DIFF * ((b.limbs - (j + 1)) * S) :=
        Nat.add_le_add hlow (Nat.mul_le_mul_left _ hhigh)
    _ = ((j + 1 - 0) + MAX_PRIME_DIFF * (b.limbs - (j + 1))) * S := by ring
    _ ≤ _ := Nat.mul_le_mul_right _ hweight

theorem column_room {C S : Nat} (hC : C ≤ carryBound b)
    (hS : S ≤ b.limbs * MAX_PRIME_DIFF * ((b.base - 1) * (b.base - 1))) :
    C + S ≤ carryBound b * b.base ∧ C + S < b.base ^ 3 := by
  have hB := one_lt_base b
  have hdiff := limbs_diff_lt b
  have hle : C + S ≤ b.limbs * MAX_PRIME_DIFF * b.base ^ 2 := by
    obtain ⟨M, hM⟩ : ∃ M, b.base = M + 1 := ⟨b.base - 1, by omega⟩
    unfold carryBound at hC
    rw [hM] at hC hS ⊢
    rw [Nat.add_sub_cancel] at hS
    nlinarith
  unfold carryBound
  refine ⟨by rwa [mul_assoc _ b.base, ← sq], Nat.lt_of_le_of_lt hle ?_⟩
  rw [pow_succ b.base 2, mul_comm]
  exact Nat.mul_lt_mul_of_pos_left (by omega) (by positivity)

theorem multiplyColumn_spec (hx : IsLimbs b x) (hy : IsLimbs b y) {j : Nat} (hj : j + 1 < b.limbs) (hc : c.Fits b)
    (htop : c.c2 = 0) (hcarry : c.value b ≤ carryBound b) :
    (multiplyColumn b x y j c).Fits b ∧ (multiplyColumn b x y j c).value b = c.value b + reducedColumn b x y j := by
  have hpos := base_pos b
  obtain ⟨-, hroom⟩ := column_room hcarry (reducedColumn_le hx hy (show j < b.limbs by omega))
  have hsplit : columnOf x y (b.limbs + j) (j + 1) b.limbs = x.getD (1 + j) 0 * y.getD (b.limbs + j - (1 + j)) 0 +
      columnOf x y (b.limbs + j) (2 + j) (2 + j + (b.limbs - (2 + j))) := by
    rw [columnOf, column_succ_bot _ _ _ hj, show 2 + j + (b.limbs - (2 + j)) = b.limbs by omega,
      show 1 + j = j + 1 by omega,
      show 2 + j = j + 1 + 1 by omega]
    rfl
  unfold reducedColumn at hroom ⊢
  have hdiff : 1 ≤ MAX_PRIME_DIFF := by decide
  have hxj := hx.getD_le (1 + j)
  have hyj := hy.getD_le (b.limbs + j - (1 + j))
  obtain ⟨hd, hdvalue⟩ := mul_spec (show x.getD (1 + j) 0 < b.base by omega)
    (show y.getD (b.limbs + j - (1 + j)) 0 < b.base by omega)
  obtain ⟨hd', hdvalue'⟩ := muladdLoop_spec hx hy (b.limbs + j) (b.limbs - (2 + j)) (2 + j) hd (by nlinarith)
  rw [hdvalue, ← hsplit] at hdvalue'
  obtain ⟨hn, hnvalue⟩ := mulnadd3_spec hc hd' htop (diff_lt b) (by rw [hdvalue']; omega)
  rw [hdvalue'] at hnvalue
  obtain ⟨hlast, hvalue⟩ := muladdLoop_spec hx hy j (j + 1) 0 hn (by rw [zero_add]; omega)
  rw [zero_add] at hvalue
  unfold multiplyColumn
  exact ⟨hlast, by rw [hvalue, hnvalue]; omega⟩

theorem extract3_spec (hc : c.Fits b) : (extract3 c).1 < b.base ∧ (extract3 c).2.Fits b ∧ (extract3 c).2.c2 = 0 ∧
    (extract3 c).1 + b.base * (extract3 c).2.value b = c.value b := by
  refine ⟨hc.c0_lt, ⟨hc.c1_lt, hc.c2_lt, base_pos b⟩, rfl, ?_⟩
  unfold extract3 Acc.value
  ring

theorem multiplyColumns_spec (hx : IsLimbs b x) (hy : IsLimbs b y) (count j : Nat) (hj : j + count < b.limbs)
    (hc : c.Fits b) (htop : c.c2 = 0) (hcarry : c.value b ≤ carryBound b) :
    (multiplyColumns b x y count j c).1.length = count ∧ (∀ limb ∈ (multiplyColumns b x y count j c).1, limb < b.base) ∧
    (multiplyColumns b x y count j c).2.Fits b ∧ (multiplyColumns b x y count j c).2.c2 = 0 ∧
    (multiplyColumns b x y count j c).2.value b ≤ carryBound b ∧
    value b.base (multiplyColumns b x y count j c).1 + b.base ^ count * (multiplyColumns b x y count j c).2.value b =
      c.value b + ∑ k ∈ Finset.range count, reducedColumn b x y (j + k) * b.base ^ k := by
  have hpos := base_pos b
  induction count generalizing j c with
  | zero => exact ⟨rfl, by simp [multiplyColumns], hc, htop, hcarry, by simp [multiplyColumns]⟩
  | succ count ih =>
    obtain ⟨hcolumn, hvalue⟩ := multiplyColumn_spec hx hy (show j + 1 < b.limbs by omega) hc htop hcarry
    obtain ⟨hn, hfits, htop', hextract⟩ := extract3_spec hcolumn
    obtain ⟨_, -⟩ := column_room hcarry (reducedColumn_le hx hy (show j < b.limbs by omega))
    have hcarry' : (extract3 (multiplyColumn b x y j c)).2.value b ≤ carryBound b := by
      apply Nat.le_of_mul_le_mul_left _ hpos
      rw [Nat.mul_comm b.base (carryBound b)]
      omega
    obtain ⟨hlength, hlt, hrest, htop'', hcarry'', hsum⟩ := ih (j + 1) (by omega) hfits htop' hcarry'
    refine ⟨by simp [multiplyColumns, hlength], ?_, hrest, htop'', hcarry'', ?_⟩
    · intro limb hlimb
      rcases List.mem_cons.mp hlimb with rfl | hlimb
      · exact hn
      · exact hlt limb hlimb
    · have hshift : ∑ k ∈ Finset.range (count + 1), reducedColumn b x y (j + k) * b.base ^ k =
          reducedColumn b x y j + b.base * ∑ k ∈ Finset.range count, reducedColumn b x y (j + 1 + k) * b.base ^ k := by
        rw [Finset.sum_range_succ', mul_sum, add_comm]
        congr 1
        · simp
        · apply sum_congr rfl
          intro k _
          rw [pow_succ, show j + 1 + k = j + (k + 1) by omega]
          ring
      rw [hshift]
      simp only [multiplyColumns, value_cons, pow_succ]
      generalize multiplyColumns b x y count (j + 1) (extract3 (multiplyColumn b x y j c)).2 = rest at *
      calc _ = (extract3 (multiplyColumn b x y j c)).1 + b.base * (value b.base rest.1 + b.base ^ count *
          rest.2.value b) := by ring
        _ = (extract3 (multiplyColumn b x y j c)).1 + b.base * (extract3 (multiplyColumn b x y j c)).2.value b +
            b.base * ∑ k ∈ Finset.range count, reducedColumn b x y (j + 1 + k) * b.base ^ k := by
            rw [hsum]
            ring
        _ = _ := by rw [hextract, hvalue, Nat.add_assoc]

theorem columns_modEq (hx : IsLimbs b x) (hy : IsLimbs b y) :
    (∑ k ∈ Finset.range (b.limbs - 1), reducedColumn b x y k * b.base ^ k) +
      columnOf x y (b.limbs - 1) 0 b.limbs * b.base ^ (b.limbs - 1) ≡ value b.base x *
        value b.base y [MOD modulus] := by
  have htwo := two_le_limbs b
  have hproduct : value b.base x * value b.base y =
      (∑ k ∈ Finset.range b.limbs, columnOf x y k 0 (k + 1) * b.base ^ k) +
        b.base ^ b.limbs *
          ∑ k ∈ Finset.range (b.limbs - 1), columnOf x y (b.limbs + k) (k + 1) b.limbs * b.base ^ k := by
    rw [value_eq_sum, value_eq_sum, hx.length_eq, hy.length_eq]
    exact mul_columns (fun i => x.getD i 0) (fun i => y.getD i 0) b.limbs
  have hreduced : (∑ k ∈ Finset.range (b.limbs - 1), reducedColumn b x y k * b.base ^ k) +
      columnOf x y (b.limbs - 1) 0 b.limbs * b.base ^ (b.limbs - 1) =
      (∑ k ∈ Finset.range b.limbs, columnOf x y k 0 (k + 1) * b.base ^ k) +
        MAX_PRIME_DIFF * ∑ k ∈ Finset.range (b.limbs - 1), columnOf x y (b.limbs + k) (k + 1) b.limbs * b.base ^ k := by
    obtain ⟨m, hm⟩ : ∃ m, b.limbs = m + 1 := ⟨b.limbs - 1, by omega⟩
    rw [hm, Nat.add_sub_cancel, Finset.sum_range_succ, mul_sum, add_right_comm, ← sum_add_distrib]
    congr 1
    apply sum_congr rfl
    intro k _
    rw [reducedColumn, hm]
    ring
  rw [hproduct, hreduced, ← modulus_add_diff b, add_mul]
  generalize (∑ k ∈ Finset.range (b.limbs - 1), columnOf x y (b.limbs + k) (k + 1) b.limbs * b.base ^ k) = high
  rw [← Nat.add_assoc, Nat.add_right_comm]
  exact (modEq_iff_dvd' (Nat.le_add_right _ _)).mpr (by simp)

theorem addLimbs_carry (h : IsLimbs b limbs) (hc : c.Fits b) (htop : c.c2 = 0) :
    IsLimbs b (addLimbs b c limbs).1 ∧ (addLimbs b c limbs).2.c1 = 0 ∧ (addLimbs b c limbs).2.c0 ≤ 1 ∧
    value b.base (addLimbs b c limbs).1 + b.base ^ b.limbs * (addLimbs b c limbs).2.c0 =
      c.value b + value b.base limbs := by
  have hB := one_lt_base b
  obtain ⟨hlength, hlt, -, hvalue⟩ := addLimbs_spec hc h.lt
  rw [h.length_eq] at hlength hvalue
  have hsmall : c.c0 + b.base * c.c1 < b.base ^ b.limbs := by
    have hsq : c.c0 + b.base * c.c1 < b.base ^ 2 := by
      have h0 := hc.c0_lt
      have h1 := Nat.mul_le_mul_left b.base hc.c1_lt
      rw [mul_succ, ← sq] at h1
      omega
    exact Nat.lt_of_lt_of_le hsq (Nat.pow_le_pow_right (base_pos b) (two_le_limbs b))
  have hlimbs := h.value_lt
  have hle : (addLimbs b c limbs).2.c0 + b.base * (addLimbs b c limbs).2.c1 ≤ 1 := by
    by_contra hgt
    have hmul := Nat.mul_le_mul_left (b.base ^ b.limbs) (Nat.lt_of_not_le hgt)
    omega
  have hc1 : (addLimbs b c limbs).2.c1 = 0 := by
    by_contra hne
    have hmul := Nat.mul_le_mul_left b.base (one_le_iff_ne_zero.mpr hne)
    omega
  rw [hc1, Nat.mul_zero, Nat.add_zero] at hvalue hle
  refine ⟨⟨hlength, hlt⟩, hc1, hle, ?_⟩
  rw [hvalue, Acc.value, htop, Nat.mul_zero, Nat.add_zero]

theorem finish_spec (h : IsLimbs b limbs) {c0 : Nat} (hc0 : c0 ≤ 1) {r : List Nat}
    (hr : r = if isOverflow b limbs then fullReduce b limbs else limbs) :
    IsLimbs b (if c0 ≠ 0 then fullReduce b r else r) ∧
    value b.base (if c0 ≠ 0 then fullReduce b r else r) ≡ value b.base limbs + b.base ^ b.limbs * c0 [MOD modulus] := by
  obtain ⟨hlimbs, hlt, -, hmod⟩ := reduce_spec h
  rw [← hr] at hlimbs hlt hmod
  split
  · next hne =>
    obtain rfl : c0 = 1 := by omega
    refine ⟨(fullReduce_spec hlimbs).1, ?_⟩
    rw [fullReduce_of_lt hlimbs hlt, mul_one, ← modulus_add_diff b, add_comm MAX_PRIME_DIFF, ← add_assoc,
      add_right_comm]
    exact (hmod.add_right _).trans ((modEq_iff_dvd' (le_add_right _ _)).mpr (by simp))
  · next hzero =>
    obtain rfl : c0 = 0 := by omega
    exact ⟨hlimbs, by simpa using hmod⟩

theorem last_carry_lt (hx : IsLimbs b x) (hy : IsLimbs b y) {C n C' : Nat} (hC : C ≤ carryBound b)
    (hextract : n + b.base * C' = C + columnOf x y (b.limbs - 1) 0 b.limbs) : MAX_PRIME_DIFF * C' < b.base ^ 2 := by
  have hpos := base_pos b
  have hcolumn := columnOf_le hx hy (b.limbs - 1) 0 b.limbs
  have hdiff := limbs_diff_lt b
  have hD := diff_lt b
  rw [Nat.sub_zero] at hcolumn
  have hsq : (b.base - 1) * (b.base - 1) ≤ b.base ^ 2 := by
    rw [sq]
    exact Nat.mul_le_mul (sub_le _ _) (sub_le _ _)
  have hbound : b.base * C' ≤ b.limbs * MAX_PRIME_DIFF * b.base + b.limbs * b.base ^ 2 := by
    have hcolumn' := hcolumn.trans (Nat.mul_le_mul_left _ hsq)
    unfold carryBound at hC
    omega
  have hless : C' ≤ b.limbs * MAX_PRIME_DIFF + b.limbs * b.base := by
    apply Nat.le_of_mul_le_mul_left _ hpos
    nlinarith
  calc MAX_PRIME_DIFF * C' ≤
      MAX_PRIME_DIFF * (b.limbs * MAX_PRIME_DIFF + b.limbs * b.base) := Nat.mul_le_mul_left _ hless
    _ = b.limbs * MAX_PRIME_DIFF * (MAX_PRIME_DIFF + b.base) := by ring
    _ ≤ b.limbs * MAX_PRIME_DIFF * (2 * b.base) := Nat.mul_le_mul_left _ (by omega)
    _ = 2 * (b.limbs * MAX_PRIME_DIFF) * b.base := by ring
    _ < b.base ^ 2 := by
      rw [sq]
      exact Nat.mul_lt_mul_of_pos_right hdiff hpos

theorem multiply_spec (hx : IsLimbs b x) (hy : IsLimbs b y) : ∃ limbs, multiply b x y = .ok limbs ∧ IsLimbs b limbs ∧
    value b.base limbs ≡ value b.base x * value b.base y [MOD modulus] := by
  have hpos := base_pos b
  have htwo := two_le_limbs b
  obtain ⟨hlength, hlt, hfits, htop, hcarry, hsum⟩ :=
    multiplyColumns_spec (c := {}) hx hy (b.limbs - 1) 0 (by omega) ⟨hpos, hpos, hpos⟩ rfl (Nat.zero_le _)
  have hproduct := columns_modEq hx hy
  simp only [Nat.zero_add] at hsum
  rw [show Acc.value b {} = 0 by simp [Acc.value], Nat.zero_add] at hsum
  rw [← hsum] at hproduct
  unfold multiply
  generalize multiplyColumns b x y (b.limbs - 1) 0 {} = first at *
  obtain ⟨low, C⟩ := first
  simp only at hlength hlt hfits htop hcarry hproduct ⊢
  have hcheck2 : check (decide (C.c2 = 0)) = .ok () := check_ok.mpr (decide_eq_true htop)
  rw [hcheck2, ok_bind]
  have hcolumn : columnOf x y (b.limbs - 1) 0 b.limbs ≤ b.limbs * MAX_PRIME_DIFF * ((b.base - 1) * (b.base - 1)) :=
    (columnOf_le hx hy (b.limbs - 1) 0 b.limbs).trans (Nat.mul_le_mul_right _ (Nat.le_mul_of_pos_right _ (by decide)))
  obtain ⟨hA, hAvalue⟩ := muladdLoop_spec hx hy (b.limbs - 1) b.limbs 0 hfits
    (by rw [Nat.zero_add]; exact (column_room hcarry hcolumn).2)
  rw [Nat.zero_add] at hAvalue
  obtain ⟨hn, hfits', htop', hextract⟩ := extract3_spec hA
  generalize extract3 (muladdLoop b x y (b.limbs - 1) b.limbs 0 C) = last at *
  obtain ⟨n, C'⟩ := last
  simp only at hn hfits' htop' hextract ⊢
  rw [hAvalue] at hextract
  obtain ⟨hE, hEtop, hEvalue⟩ := muln2_spec hfits' htop' (diff_lt b) (last_carry_lt hx hy hcarry hextract)
  have hlimbs : IsLimbs b (low ++ [n]) := by
    refine ⟨by rw [length_append, hlength, length_singleton]; omega, ?_⟩
    intro limb hlimb
    rcases mem_append.mp hlimb with hlimb | hlimb
    · exact hlt limb hlimb
    · exact List.mem_singleton.mp hlimb ▸ hn
  obtain ⟨hr, hc1, hc0, hrvalue⟩ := addLimbs_carry hlimbs hE hEtop
  generalize addLimbs b (muln2 b C' MAX_PRIME_DIFF) (low ++ [n]) = reduced at *
  obtain ⟨_, c⟩ := reduced
  simp only at hr hc1 hc0 hrvalue ⊢
  have hcheck1 : check (decide (c.c1 = 0)) = .ok () := check_ok.mpr (decide_eq_true hc1)
  have hcheck0 : check (decide (c.c0 = 0) || decide (c.c0 = 1)) = .ok () := by
    rw [check_ok, Bool.or_eq_true, decide_eq_true_iff, decide_eq_true_iff]
    omega
  rw [hcheck1, ok_bind, hcheck0, ok_bind]
  obtain ⟨hfinal, hmod⟩ := finish_spec hr hc0 rfl
  refine ⟨_, rfl, hfinal, hmod.trans (Nat.ModEq.trans ?_ hproduct)⟩
  -- the carry of the last column is worth the power of the base, or the difference
  rw [hrvalue, hEvalue, value_append, hlength, value_cons, value_nil, Nat.mul_zero, Nat.add_zero]
  have hpow : b.base ^ (b.limbs - 1) * b.base = modulus + MAX_PRIME_DIFF := by
    rw [← pow_succ, modulus_add_diff b, Nat.sub_add_cancel (by omega)]
  have htotal : value b.base low + b.base ^ (b.limbs - 1) * C.value b + columnOf x y (b.limbs - 1) 0 b.limbs *
      b.base ^ (b.limbs - 1) =
      MAX_PRIME_DIFF * C'.value b + (value b.base low + b.base ^ (b.limbs - 1) * n) + modulus * C'.value b := by
    calc _ = value b.base low + b.base ^ (b.limbs - 1) * (C.value b + columnOf x y (b.limbs - 1) 0 b.limbs) := by ring
      _ = value b.base low + b.base ^ (b.limbs - 1) * n + b.base ^ (b.limbs - 1) * b.base * C'.value b := by
        rw [← hextract]; ring
      _ = _ := by rw [hpow]; ring
  rw [htotal]
  exact (modEq_iff_dvd' (Nat.le_add_right _ _)).mpr (by simp)

end FullNode.Num3072

import FullNode.ArithUint256
import FullNode.Lib.Limbs

/-!
# Numbers of 32-bit digits

`base_uint` as the code computes it: an array of digits, least-significant first, and a loop for each operator.
-/

namespace FullNode

open List Nat Limbs

structure BaseUint (width : Nat) where
  pn : List Uint32
  length_pn : pn.length = width
  deriving DecidableEq

namespace BaseUint

variable {width : Nat}

/-! ## The code -/

def digit (a : BaseUint width) (i : Nat) : Uint32 := a.pn.getD i 0

def setDigit (a : BaseUint width) (i : Nat) (d : Uint32) : BaseUint width :=
  ⟨a.pn.set i d, by rw [List.length_set, a.length_pn]⟩

def orDigit (a : BaseUint width) (i : Nat) (d : Uint32) : BaseUint width := a.setDigit i (a.digit i ||| d)

def zero : BaseUint width := ⟨List.replicate width 0, List.length_replicate⟩

def ofUint64 (b : Uint64) : BaseUint width :=
  ((zero : BaseUint width).setDigit 0 (b.setWidth 32)).setDigit 1 ((b >>> 32).setWidth 32)

def not (a : BaseUint width) : BaseUint width := ⟨a.pn.map (~~~ ·), by rw [List.length_map, a.length_pn]⟩

def shiftLeftRound (a : BaseUint width) (k shift : Nat) (r : BaseUint width) (i : Nat) : BaseUint width :=
  let r := if i + k + 1 < width ∧ shift ≠ 0 then r.orDigit (i + k + 1) (a.digit i >>> (32 - shift)) else r
  if i + k < width then r.orDigit (i + k) (a.digit i <<< shift) else r

def shiftLeft (a : BaseUint width) (shift : Nat) : BaseUint width :=
  (List.range width).foldl (shiftLeftRound a (shift / 32) (shift % 32)) zero

def shiftRightRound (a : BaseUint width) (k shift : Nat) (r : BaseUint width) (i : Nat) : BaseUint width :=
  let r := if k + 1 ≤ i ∧ shift ≠ 0 then r.orDigit (i - k - 1) (a.digit i <<< (32 - shift)) else r
  if k ≤ i then r.orDigit (i - k) (a.digit i >>> shift) else r

def shiftRight (a : BaseUint width) (shift : Nat) : BaseUint width :=
  (List.range width).foldl (shiftRightRound a (shift / 32) (shift % 32)) zero

/-- The loop of `operator+=`. -/
def addDigits : Uint64 → List Uint32 → List Uint32 → List Uint32
  | carry, p :: pn, q :: qn =>
    let n := carry + p.setWidth 64 + q.setWidth 64
    (n &&& 0xffffffff#64).setWidth 32 :: addDigits (n >>> 32) pn qn
  | _, _, _ => []

theorem length_addDigits (carry : Uint64) (pn qn : List Uint32) (h : pn.length = qn.length) :
    (addDigits carry pn qn).length = pn.length := by
  induction pn generalizing carry qn with
  | nil => rfl
  | cons p pn ih =>
    obtain ⟨_, qn, rfl⟩ := exists_cons_of_length_eq_add_one h.symm
    simpa [addDigits] using ih _ qn (succ.inj h)

def add (a b : BaseUint width) : BaseUint width :=
  ⟨addDigits 0 a.pn b.pn, by rw [length_addDigits _ _ _ (a.length_pn.trans b.length_pn.symm), a.length_pn]⟩

def incDigits : List Uint32 → List Uint32
  | [] => []
  | p :: pn => if p + 1 = 0 then (p + 1) :: incDigits pn else (p + 1) :: pn

variable (pn : List Uint32)

theorem length_incDigits : (incDigits pn).length = pn.length := by
  induction pn with
  | nil => rfl
  | cons p pn ih =>
    unfold incDigits
    split
    · simp [ih]
    · rfl

def inc (a : BaseUint width) : BaseUint width := ⟨incDigits a.pn, by rw [length_incDigits, a.length_pn]⟩

def neg (a : BaseUint width) : BaseUint width := a.not.inc

def sub (a b : BaseUint width) : BaseUint width := a.add b.neg

/-- The loop of `CompareTo`, with `i` digits left to compare. -/
def compareFrom (a b : BaseUint width) : Nat → Int
  | 0 => 0
  | i + 1 =>
    if a.digit i < b.digit i then -1
    else if a.digit i > b.digit i then 1
    else compareFrom a b i

def compareTo (a b : BaseUint width) : Int := compareFrom a b width

def equalTo (a : BaseUint width) (b : Uint64) : Bool :=
  (List.range (width - 2)).all (fun i => a.digit (i + 2) == 0) &&
    (a.digit 1).setWidth 64 == b >>> 32 && (a.digit 0).setWidth 64 == b &&& 0xffffffff#64

/-- The highest bit of a digit plus one. The last is not looked at. -/
def digitBits (d : Uint32) : Nat → Nat
  | 0 => 1
  | nbits + 1 => if d &&& 1#32 <<< (nbits + 1) ≠ 0 then nbits + 1 + 1 else digitBits d nbits

/-- The loop of `bits`, with `pos` digits left to look at. -/
def bitsFrom (a : BaseUint width) : Nat → Nat
  | 0 => 0
  | pos + 1 => if a.digit pos ≠ 0 then 32 * pos + digitBits (a.digit pos) 31 else bitsFrom a pos

def bits (a : BaseUint width) : Nat := bitsFrom a width

def getLow64 (a : BaseUint width) : Uint64 := (a.digit 0).setWidth 64 ||| (a.digit 1).setWidth 64 <<< 32

/-- The loop of `operator/=` with `shift + 1` rounds left. -/
def divLoop (num div quotient : BaseUint width) : Nat → BaseUint width
  | 0 => quotient
  | shift + 1 =>
    if num.compareTo div ≥ 0 then
      divLoop (num.sub div) (div.shiftRight 1) (quotient.orDigit (shift / 32) (1#32 <<< (shift &&& 31))) shift
    else divLoop num (div.shiftRight 1) quotient shift

def div (a b : BaseUint width) : Checked (BaseUint width) :=
  let numBits := a.bits
  let divBits := b.bits
  if divBits = 0 then .error .divisionByZero
  else if divBits > numBits then .ok zero
  else
    let shift := numBits - divBits
    .ok (divLoop a (b.shiftLeft shift) zero (shift + 1))

/-! ## Digits and numbers -/

def toNat (a : BaseUint width) : Nat := Limbs.value (2 ^ 32) (a.pn.map BitVec.toNat)

theorem digits_lt : ∀ limb ∈ pn.map BitVec.toNat, limb < 2 ^ 32 := by
  intro limb h
  obtain ⟨d, -, rfl⟩ := mem_map.mp h
  exact d.isLt

variable (a : BaseUint width)

theorem toNat_lt : a.toNat < 2 ^ (32 * width) := by
  have h := value_lt (digits_lt a.pn)
  rwa [length_map, a.length_pn, ← pow_mul] at h

variable (b : BaseUint width) (i : Nat)

theorem testBit_toNat : a.toNat.testBit i = (a.digit (i / 32)).getLsbD (i % 32) := by
  rw [toNat, testBit_value (by decide) (digits_lt a.pn), digit, BitVec.getLsbD, getD_eq_getElem?_getD,
    getElem?_map, getD_eq_getElem?_getD]
  cases a.pn[i / 32]? <;> simp

theorem digit_of_le {i : Nat} (h : width ≤ i) : a.digit i = 0 := by
  rw [digit, getD_eq_getElem?_getD, getElem?_eq_none (by rw [a.length_pn]; exact h)]
  rfl

@[simp] theorem digit_zero : (zero : BaseUint width).digit i = 0 := by
  rw [digit, zero, getD_eq_getElem?_getD, getElem?_replicate]
  split <;> rfl

theorem digit_setDigit (j : Nat) (d : Uint32) :
    (a.setDigit i d).digit j = if i = j ∧ i < width then d else a.digit j := by
  simp only [digit, setDigit, getD_eq_getElem?_getD, getElem?_set, a.length_pn]
  by_cases hij : i = j
  · subst hij
    by_cases hi : i < width
    · simp [hi]
    · rw [getElem?_eq_none (by rw [a.length_pn]; omega)]
      simp [hi]
  · simp [hij]

theorem bit_orDigit (j t : Nat) (d : Uint32) : ((a.orDigit i d).digit j).getLsbD t = true ↔
    (a.digit j).getLsbD t = true ∨ (i = j ∧ i < width ∧ d.getLsbD t = true) := by
  rw [orDigit, digit_setDigit]
  split
  · next h => simp [h.1, h.1 ▸ h.2]
  · next h => simp only [← and_assoc, h, false_and, or_false]

theorem toNat_eq_of_digits {a : BaseUint width} {n : Nat} (hn : n < 2 ^ (32 * width))
    (h : ∀ j t, j < width → t < 32 → (a.digit j).getLsbD t = n.testBit (32 * j + t)) : a.toNat = n := by
  apply eq_of_testBit_eq
  intro i
  rw [testBit_toNat]
  rcases Nat.lt_or_ge (i / 32) width with hlt | hge
  · rw [h _ _ hlt (mod_lt _ (by omega)), div_add_mod]
  · have hpow : n < 2 ^ i := Nat.lt_of_lt_of_le hn (Nat.pow_le_pow_right (by omega) (by omega))
    simp [digit_of_le a hge, testBit_lt_two_pow hpow]

@[simp] theorem toNat_zero : (zero : BaseUint width).toNat = 0 := by
  apply toNat_eq_of_digits (Nat.two_pow_pos _)
  intro j t _ _
  simp

theorem toNat_ofUint64 (b : Uint64) (hwidth : 2 ≤ width) : (ofUint64 b : BaseUint width).toNat = b.toNat := by
  have hpow : 2 ^ 64 ≤ 2 ^ (32 * width) := Nat.pow_le_pow_right (by omega) (by omega)
  apply toNat_eq_of_digits (Nat.lt_of_lt_of_le b.isLt hpow)
  intro j t _ ht
  have hbit (i : Nat) : b.toNat.testBit i = b.getLsbD i := rfl
  rw [ofUint64, digit_setDigit, digit_setDigit, hbit]
  match j with
  | 0 =>
    rw [if_neg (by omega), if_pos ⟨rfl, by omega⟩, BitVec.getLsbD_setWidth]
    simp [ht]
  | 1 =>
    rw [if_pos ⟨rfl, by omega⟩, BitVec.getLsbD_setWidth, BitVec.getLsbD_ushiftRight]
    simp [ht]
  | j + 2 =>
    rw [if_neg (by omega), if_neg (by omega), digit_zero, BitVec.getLsbD_of_ge b _ (by omega)]
    simp

theorem toNat_getLow64 : a.getLow64.toNat = a.toNat % 2 ^ 64 := by
  apply eq_of_testBit_eq
  intro i
  have hbit : a.getLow64.toNat.testBit i = a.getLow64.getLsbD i := rfl
  rw [hbit, getLow64, BitVec.getLsbD_or, BitVec.getLsbD_shiftLeft, BitVec.getLsbD_setWidth, BitVec.getLsbD_setWidth,
    testBit_mod_two_pow, testBit_toNat]
  rcases lt_or_ge i 32 with hlow | hhigh
  · rw [div_eq_of_lt hlow, mod_eq_of_lt hlow]
    simp [hlow, show i < 64 by omega]
  · have hzero : (a.digit 0).getLsbD i = false := BitVec.getLsbD_of_ge _ _ hhigh
    rcases lt_or_ge i 64 with hlt | hge
    · have hdiv : i / 32 = 1 := by omega
      have hmod : i % 32 = i - 32 := by omega
      simp [hzero, hlt, hdiv, hmod, show ¬ i < 32 by omega, show i - 32 < 64 by omega]
    · simp [hzero, show ¬ i < 64 by omega]

/-! ## Shifts -/

theorem bit_shiftLeftRound (r : BaseUint width) (k s i j t : Nat) :
    ((shiftLeftRound a k s r i).digit j).getLsbD t = true ↔ (r.digit j).getLsbD t = true ∨
      (j < width ∧ ((i + k + 1 = j ∧ s ≠ 0 ∧ (a.digit i >>> (32 - s)).getLsbD t = true) ∨
        (i + k = j ∧ (a.digit i <<< s).getLsbD t = true))) := by
  unfold shiftLeftRound
  simp only
  split_ifs
  · rw [bit_orDigit, bit_orDigit]
    grind
  · rw [bit_orDigit]
    grind
  · rw [bit_orDigit]
    grind
  · grind

theorem bit_shiftLeft (k s n j t : Nat) : (((range n).foldl (shiftLeftRound a k s) zero).digit j).getLsbD t = true ↔
    ∃ i < n, j < width ∧ ((i + k + 1 = j ∧ s ≠ 0 ∧ (a.digit i >>> (32 - s)).getLsbD t = true) ∨
      (i + k = j ∧ (a.digit i <<< s).getLsbD t = true)) := by
  induction n with
  | zero => simp
  | succ n ih =>
    rw [range_succ, foldl_append, foldl_cons, foldl_nil, bit_shiftLeftRound, ih]
    simp only [Nat.lt_succ_iff_lt_or_eq, or_and_right, exists_or, exists_eq_left]

theorem toNat_shiftLeft (shift : Nat) : (a.shiftLeft shift).toNat = a.toNat * 2 ^ shift % 2 ^ (32 * width) := by
  apply toNat_eq_of_digits (mod_lt _ (Nat.two_pow_pos _))
  intro j t hj ht
  rw [Bool.eq_iff_iff, shiftLeft, bit_shiftLeft]
  have hin : 32 * j + t < 32 * width := by omega
  rw [testBit_mod_two_pow, testBit_mul_two_pow]
  simp only [hin, decide_true, Bool.true_and, Bool.and_eq_true, decide_eq_true_eq, testBit_toNat,
    BitVec.getLsbD_ushiftRight, BitVec.getLsbD_shiftLeft]
  constructor
  · rintro ⟨i, -, -, ⟨hij, -, hbit⟩ | ⟨hij, ⟨-, hle⟩, hbit⟩⟩
    · -- The bit comes from the top of the digit below.
      have hlt : 32 - shift % 32 + t < 32 := BitVec.lt_of_getLsbD hbit
      have hdiv : (32 * j + t - shift) / 32 = i := by omega
      have hmod : (32 * j + t - shift) % 32 = 32 - shift % 32 + t := by omega
      rw [hdiv, hmod]
      exact ⟨by omega, hbit⟩
    · have hle : shift % 32 ≤ t := by simpa using hle
      have hdiv : (32 * j + t - shift) / 32 = i := by omega
      have hmod : (32 * j + t - shift) % 32 = t - shift % 32 := by omega
      rw [hdiv, hmod]
      exact ⟨by omega, hbit⟩
  · rintro ⟨hle, hbit⟩
    refine ⟨(32 * j + t - shift) / 32, by omega, hj, ?_⟩
    rcases Nat.lt_or_ge t (shift % 32) with hlt | hge
    · left
      have hmod : (32 * j + t - shift) % 32 = 32 - shift % 32 + t := by omega
      exact ⟨by omega, by omega, by rwa [← hmod]⟩
    · right
      have hmod : (32 * j + t - shift) % 32 = t - shift % 32 := by omega
      exact ⟨by omega, ⟨ht, by simpa using hge⟩, by rwa [← hmod]⟩

theorem bit_shiftRightRound (r : BaseUint width) (k s i j t : Nat) (hi : i < width) :
    ((shiftRightRound a k s r i).digit j).getLsbD t = true ↔ (r.digit j).getLsbD t = true ∨
      (j + k + 1 = i ∧ s ≠ 0 ∧ (a.digit i <<< (32 - s)).getLsbD t = true) ∨
        (j + k = i ∧ (a.digit i >>> s).getLsbD t = true) := by
  unfold shiftRightRound
  simp only
  split_ifs
  · rw [bit_orDigit, bit_orDigit]
    grind
  · rw [bit_orDigit]
    grind
  · rw [bit_orDigit]
    grind
  · grind

theorem bit_shiftRight (k s n j t : Nat) (hn : n ≤ width) :
    (((range n).foldl (shiftRightRound a k s) zero).digit j).getLsbD t = true ↔
    ∃ i < n, (j + k + 1 = i ∧ s ≠ 0 ∧ (a.digit i <<< (32 - s)).getLsbD t = true) ∨
      (j + k = i ∧ (a.digit i >>> s).getLsbD t = true) := by
  induction n with
  | zero => simp
  | succ n ih =>
    rw [range_succ, foldl_append, foldl_cons, foldl_nil, bit_shiftRightRound _ _ _ _ _ _ _ hn, ih (by omega)]
    simp only [Nat.lt_succ_iff_lt_or_eq, or_and_right, exists_or, exists_eq_left]

theorem toNat_shiftRight (shift : Nat) : (a.shiftRight shift).toNat = a.toNat / 2 ^ shift := by
  apply toNat_eq_of_digits (Nat.lt_of_le_of_lt (Nat.div_le_self _ _) a.toNat_lt)
  intro j t hj ht
  rw [Bool.eq_iff_iff, shiftRight, bit_shiftRight _ _ _ _ _ _ le_rfl, testBit_div_two_pow, testBit_toNat]
  simp only [Bool.and_eq_true, decide_eq_true_eq, BitVec.getLsbD_ushiftRight, BitVec.getLsbD_shiftLeft]
  constructor
  · rintro ⟨i, -, ⟨hij, -, ⟨-, hle⟩, hbit⟩ | ⟨hij, hbit⟩⟩
    · have hle : 32 - shift % 32 ≤ t := by simpa using hle
      have hdiv : (32 * j + t + shift) / 32 = i := by omega
      have hmod : (32 * j + t + shift) % 32 = t - (32 - shift % 32) := by omega
      rwa [hdiv, hmod]
    · have hlt : shift % 32 + t < 32 := BitVec.lt_of_getLsbD hbit
      have hdiv : (32 * j + t + shift) / 32 = i := by omega
      have hmod : (32 * j + t + shift) % 32 = shift % 32 + t := by omega
      rwa [hdiv, hmod]
  · intro hbit
    have hin : (32 * j + t + shift) / 32 < width := by
      by_contra hge
      simp [digit_of_le a (Nat.le_of_not_lt hge)] at hbit
    refine ⟨(32 * j + t + shift) / 32, hin, ?_⟩
    rcases Nat.lt_or_ge t (32 - shift % 32) with hlt | hge
    · right
      have hmod : (32 * j + t + shift) % 32 = shift % 32 + t := by omega
      exact ⟨by omega, by rwa [← hmod]⟩
    · left
      have hmod : (32 * j + t + shift) % 32 = t - (32 - shift % 32) := by omega
      exact ⟨by omega, by omega, ⟨ht, by simpa using hge⟩, by rwa [← hmod]⟩

/-! ## Sums and differences -/

theorem value_addDigits (carry : Uint64) (pn qn : List Uint32) (hlength : pn.length = qn.length)
    (hcarry : carry.toNat ≤ 1) : value (2 ^ 32) ((addDigits carry pn qn).map BitVec.toNat) =
      (value (2 ^ 32) (pn.map BitVec.toNat) + value (2 ^ 32) (qn.map BitVec.toNat) + carry.toNat) %
        2 ^ (32 * pn.length) := by
  induction pn generalizing carry qn with
  | nil =>
    rw [length_eq_zero_iff.mp hlength.symm]
    simp [addDigits, mod_one]
  | cons p pn ih =>
    obtain ⟨q, qn, rfl⟩ := exists_cons_of_length_eq_add_one hlength.symm
    set n : Uint64 := carry + p.setWidth 64 + q.setWidth 64 with hn
    have hsum : n.toNat = carry.toNat + p.toNat + q.toNat := by
      rw [hn, BitVec.toNat_add, BitVec.toNat_add, BitVec.toNat_setWidth, BitVec.toNat_setWidth]
      omega
    have hlow : ((n &&& 0xffffffff#64).setWidth 32).toNat = n.toNat % 2 ^ 32 := by
      rw [BitVec.toNat_setWidth, BitVec.toNat_and, BitVec.toNat_ofNat, show 0xffffffff % 2 ^ 64 =
        2 ^ 32 - 1 by norm_num, and_two_pow_sub_one_eq_mod, mod_mod]
    have hhigh : (n >>> 32).toNat = n.toNat / 2 ^ 32 := by
      rw [BitVec.toNat_ushiftRight, shiftRight_eq_div_pow]
    have hrest := ih (n >>> 32) qn (succ.inj hlength) (by omega)
    rw [addDigits]
    simp only [map_cons, value_cons, ← hn, hlow, hrest, hhigh, length_cons, hsum]
    rw [show 32 * (pn.length + 1) = 32 + 32 * pn.length by ring, pow_add, mod_mul]
    congr 1
    · omega
    · congr 2
      omega

theorem toNat_add : (a.add b).toNat = (a.toNat + b.toNat) % 2 ^ (32 * width) := by
  have h := value_addDigits 0 a.pn b.pn (a.length_pn.trans b.length_pn.symm) (by simp)
  rw [a.length_pn] at h
  simpa [toNat, add] using h

theorem value_not : value (2 ^ 32) ((pn.map (~~~ ·)).map BitVec.toNat) + value (2 ^ 32) (pn.map BitVec.toNat) + 1 =
    2 ^ (32 * pn.length) := by
  induction pn with
  | nil => simp
  | cons p pn ih =>
    simp only [map_cons, value_cons, BitVec.toNat_not, length_cons]
    rw [show 32 * (pn.length + 1) = 32 + 32 * pn.length by ring, pow_add, ← ih]
    omega

theorem toNat_not : a.not.toNat + a.toNat + 1 = 2 ^ (32 * width) := by
  have h := value_not a.pn
  rwa [a.length_pn] at h

theorem value_incDigits : value (2 ^ 32) ((incDigits pn).map BitVec.toNat) =
    (value (2 ^ 32) (pn.map BitVec.toNat) + 1) % 2 ^ (32 * pn.length) := by
  induction pn with
  | nil => simp [incDigits]
  | cons p pn ih =>
    have hlt := value_lt (digits_lt pn)
    rw [length_map, ← pow_mul] at hlt
    have hsucc : (p + 1).toNat = (p.toNat + 1) % 2 ^ 32 := by rw [BitVec.toNat_add]; rfl
    have hpow : 2 ^ (32 * (p :: pn).length) = 2 ^ 32 * 2 ^ (32 * pn.length) := by
      rw [← pow_add, length_cons]
      ring_nf
    unfold incDigits
    split
    · next hwrap =>
      have hlast : p.toNat + 1 = 2 ^ 32 := by
        have := congrArg BitVec.toNat hwrap
        rw [hsucc] at this
        simp at this
        omega
      have hcarry : p.toNat + 2 ^ 32 * value (2 ^ 32) (pn.map BitVec.toNat) + 1 =
          2 ^ 32 * (value (2 ^ 32) (pn.map BitVec.toNat) + 1) := by omega
      simp only [map_cons, value_cons, hwrap, ih]
      rw [hpow, hcarry, mul_mod_mul_left]
      simp
    · next hwrap =>
      have hne : p.toNat + 1 ≠ 2 ^ 32 := by
        intro hlast
        apply hwrap
        apply BitVec.eq_of_toNat_eq
        rw [hsucc, hlast]
        rfl
      simp only [map_cons, value_cons]
      rw [hsucc, mod_eq_of_lt (by omega), hpow, mod_eq_of_lt (by omega)]
      ring

theorem toNat_inc : a.inc.toNat = (a.toNat + 1) % 2 ^ (32 * width) := by
  have h := value_incDigits a.pn
  rwa [a.length_pn] at h

theorem toNat_neg : a.neg.toNat = (2 ^ (32 * width) - a.toNat) % 2 ^ (32 * width) := by
  have h := a.toNat_not
  rw [neg, toNat_inc]
  congr 1
  omega

theorem toNat_sub (h : b.toNat ≤ a.toNat) : (a.sub b).toNat = a.toNat - b.toNat := by
  have ha := a.toNat_lt
  rw [sub, toNat_add, toNat_neg, add_mod_mod]
  have hsum : a.toNat + (2 ^ (32 * width) - b.toNat) = a.toNat - b.toNat + 2 ^ (32 * width) := by omega
  rw [hsum, add_mod_right, mod_eq_of_lt (by omega)]

/-! ## Comparisons -/

theorem mod_succ_digit : a.toNat % 2 ^ (32 * (i + 1)) = a.toNat % 2 ^ (32 * i) + 2 ^ (32 * i) * (a.digit i).toNat := by
  have hdigit : a.toNat / 2 ^ (32 * i) % 2 ^ 32 = (a.digit i).toNat := by
    apply eq_of_testBit_eq
    intro t
    rw [testBit_mod_two_pow, testBit_div_two_pow, testBit_toNat]
    by_cases ht : t < 32
    · have hdiv : (t + 32 * i) / 32 = i := by omega
      have hmod : (t + 32 * i) % 32 = t := by omega
      simp [ht, hdiv, hmod, BitVec.getLsbD]
    · have hge : (a.digit i).getLsbD t = false := BitVec.getLsbD_of_ge _ _ (by omega)
      rw [BitVec.getLsbD] at hge
      simp [ht, hge]
  rw [mul_add, mul_one, pow_add, mod_mul, hdigit]

theorem compareFrom_eq : compareFrom a b i = if a.toNat % 2 ^ (32 * i) < b.toNat % 2 ^ (32 * i) then -1
    else if a.toNat % 2 ^ (32 * i) > b.toNat % 2 ^ (32 * i) then 1 else 0 := by
  induction i with
  | zero => simp [compareFrom, mod_one]
  | succ i ih =>
    have ha := mod_lt a.toNat (Nat.two_pow_pos (32 * i))
    have hb := mod_lt b.toNat (Nat.two_pow_pos (32 * i))
    rw [mod_succ_digit, mod_succ_digit, compareFrom, ih]
    rcases Nat.lt_trichotomy (a.digit i).toNat (b.digit i).toNat with hlt | heq | hgt
    · have hd : a.digit i < b.digit i := hlt
      rw [if_pos hd, if_pos (add_mul_lt_of_lt _ ha hlt)]
    · have hd : a.digit i = b.digit i := BitVec.eq_of_toNat_eq heq
      have h1 : ¬ b.digit i < b.digit i := BitVec.lt_irrefl _
      simp [hd, h1]
    · have hd : b.digit i < a.digit i := hgt
      have hd' : ¬ a.digit i < b.digit i := BitVec.not_lt.mpr (BitVec.le_of_lt hd)
      have hlt := add_mul_lt_of_lt (a.toNat % 2 ^ (32 * i)) hb hgt
      rw [if_neg hd', if_pos hd, if_neg (by omega), if_pos hlt]

theorem compareTo_nonneg_iff : a.compareTo b ≥ 0 ↔ b.toNat ≤ a.toNat := by
  rw [compareTo, compareFrom_eq, mod_eq_of_lt a.toNat_lt, mod_eq_of_lt b.toNat_lt]
  split_ifs <;> omega

theorem toNat_eq_zero_iff : a.toNat = 0 ↔ ∀ i, a.digit i = 0 := by
  constructor
  · intro h i
    have hsucc := mod_succ_digit a i
    rw [h, zero_mod, zero_mod, Nat.zero_add] at hsucc
    have hpos := Nat.two_pow_pos (32 * i)
    have hdigit : (a.digit i).toNat = 0 := (Nat.mul_eq_zero.mp hsucc.symm).resolve_left (by omega)
    exact BitVec.eq_of_toNat_eq hdigit
  · intro h
    apply toNat_eq_of_digits (Nat.two_pow_pos _)
    intro j t _ _
    simp [h]

theorem equalTo_zero_iff (hwidth : 2 ≤ width) : a.equalTo 0 = true ↔ a.toNat = 0 := by
  have hword (d : Uint32) : d.setWidth 64 = 0#64 ↔ d = 0 := by
    constructor
    · intro h
      have hn := congrArg BitVec.toNat h
      rw [BitVec.toNat_setWidth, mod_eq_of_lt (by omega)] at hn
      exact BitVec.eq_of_toNat_eq hn
    · rintro rfl
      rfl
  rw [toNat_eq_zero_iff]
  simp only [equalTo, Bool.and_eq_true, all_eq_true, mem_range, beq_iff_eq]
  constructor
  · rintro ⟨⟨hhigh, h1⟩, h0⟩ i
    rcases lt_or_ge i width with hlt | hge
    · match i with
      | 0 => exact (hword _).mp h0
      | 1 => exact (hword _).mp h1
      | i + 2 => exact hhigh i (by omega)
    · exact digit_of_le a hge
  · intro h
    exact ⟨⟨fun i _ => h _, (hword _).mpr (h 1)⟩, (hword _).mpr (h 0)⟩

/-! ## The highest bit -/

theorem getLsbD_bit (m t : Nat) : (1#32 <<< m).getLsbD t = true ↔ t < 32 ∧ t = m := by
  rw [BitVec.getLsbD_shiftLeft, BitVec.getLsbD_one]
  simp only [Bool.and_eq_true, decide_eq_true_eq, Bool.not_eq_true', decide_eq_false_iff_not]
  omega

theorem and_bit_ne_zero (d : Uint32) (m : Nat) : d &&& 1#32 <<< m ≠ 0 ↔ d.getLsbD m = true := by
  constructor
  · intro hne
    by_contra hclear
    apply hne
    apply BitVec.eq_of_getLsbD_eq
    intro i _
    rw [BitVec.getLsbD_and, BitVec.ofNat_eq_ofNat, BitVec.getLsbD_zero, Bool.and_eq_false_iff]
    by_cases him : i = m
    · left
      simpa [him] using hclear
    · right
      simpa using mt (getLsbD_bit m i).mp fun h => him h.2
  · intro hset hzero
    have hlt := BitVec.lt_of_getLsbD hset
    have hbit := congrArg (BitVec.getLsbD · m) hzero
    rw [BitVec.getLsbD_and, hset, (getLsbD_bit m m).mpr ⟨hlt, rfl⟩] at hbit
    simp at hbit

theorem digitBits_spec (d : Uint32) (n : Nat) (hd : d ≠ 0) (habove : ∀ i > n, d.getLsbD i = false) :
    1 ≤ digitBits d n ∧ d.getLsbD (digitBits d n - 1) = true ∧ ∀ i ≥ digitBits d n, d.getLsbD i = false := by
  induction n with
  | zero =>
    refine ⟨le_rfl, ?_, fun i hi => habove i hi⟩
    by_contra hclear
    apply hd
    apply BitVec.eq_of_getLsbD_eq
    intro i _
    rcases Nat.eq_zero_or_pos i with rfl | hpos
    · simpa [digitBits] using hclear
    · simpa using habove i hpos
  | succ n ih =>
    have hbit := and_bit_ne_zero d (n + 1)
    unfold digitBits
    split
    · next hset => exact ⟨by omega, hbit.mp hset, fun i hi => habove i hi⟩
    · next hclear =>
      apply ih
      intro i hi
      rcases Nat.eq_or_lt_of_le hi with rfl | hlt
      · simpa using mt hbit.mpr hclear
      · exact habove i hlt

theorem bitsFrom_spec (pos : Nat) (hzero : ∀ j ≥ pos, a.digit j = 0) :
    (∀ i ≥ bitsFrom a pos, a.toNat.testBit i = false) ∧
      (bitsFrom a pos ≠ 0 → a.toNat.testBit (bitsFrom a pos - 1) = true) := by
  induction pos with
  | zero =>
    refine ⟨fun i _ => ?_, fun h => absurd rfl h⟩
    simp [testBit_toNat, hzero _ (zero_le _)]
  | succ pos ih =>
    unfold bitsFrom
    split
    · next hne =>
      obtain ⟨_, hset, habove⟩ := digitBits_spec (a.digit pos) 31 hne fun i hi => BitVec.getLsbD_of_ge _ _ (by omega)
      have hlt := BitVec.lt_of_getLsbD hset
      refine ⟨fun i hi => ?_, fun _ => ?_⟩
      · rw [testBit_toNat]
        rcases lt_or_ge pos (i / 32) with hgt | hle
        · simp [hzero _ hgt]
        · have hdiv : i / 32 = pos := by omega
          rw [hdiv]
          exact habove _ (by omega)
      · have hdiv : (32 * pos + digitBits (a.digit pos) 31 - 1) / 32 = pos := by omega
        have hmod : (32 * pos + digitBits (a.digit pos) 31 - 1) % 32 = digitBits (a.digit pos) 31 - 1 := by omega
        rw [testBit_toNat, hdiv, hmod]
        exact hset
    · next hzeroDigit =>
      apply ih
      intro j hj
      rcases eq_or_lt_of_le hj with rfl | hlt
      · simpa using hzeroDigit
      · exact hzero j hlt

theorem bits_le_iff (k : Nat) : a.bits ≤ k ↔ a.toNat < 2 ^ k := by
  obtain ⟨habove, hset⟩ := bitsFrom_spec a width fun j hj => digit_of_le a hj
  constructor
  · intro h
    apply lt_pow_two_of_testBit
    intro i hi
    exact habove i (le_trans h hi)
  · intro h
    by_contra hgt
    have hne : bitsFrom a width ≠ 0 := by rw [bits] at hgt; omega
    have hge := ge_two_pow_of_testBit (hset hne)
    have hpow : 2 ^ k ≤ 2 ^ (bitsFrom a width - 1) := Nat.pow_le_pow_right (by omega) (by rw [bits] at hgt; omega)
    omega

/-! ## Quotients -/

theorem toNat_setBit {shift : Nat} (hin : shift < 32 * width) (h : 2 ^ (shift + 1) ∣ a.toNat) :
    (a.orDigit (shift / 32) (1#32 <<< (shift &&& 31))).toNat = a.toNat + 2 ^ shift := by
  have hlow : shift &&& 31 = shift % 32 := and_two_pow_sub_one_eq_mod shift 5
  have hor : a.toNat + 2 ^ shift = a.toNat ||| 2 ^ shift := by
    obtain ⟨c, hc⟩ := h
    rw [hc]
    exact two_pow_add_eq_or_of_lt (Nat.pow_lt_pow_right (by omega) (by omega)) c
  rw [hor]
  apply eq_of_testBit_eq
  intro i
  rw [Bool.eq_iff_iff, testBit_toNat, bit_orDigit, getLsbD_bit, testBit_or, testBit_two_pow, Bool.or_eq_true,
    testBit_toNat, decide_eq_true_eq, hlow]
  apply or_congr_right
  omega

theorem divLoop_spec (num div quotient : BaseUint width) (n : Nat) (hb : 0 < b.toNat) (hn : n ≤ 32 * width)
    (hdiv : 0 < n → div.toNat = b.toNat * 2 ^ (n - 1)) (hnum : num.toNat < b.toNat * 2 ^ n)
    (hq : 2 ^ n ∣ quotient.toNat) :
    (divLoop num div quotient n).toNat = (quotient.toNat * b.toNat + num.toNat) / b.toNat := by
  induction n generalizing num div quotient with
  | zero =>
    rw [divLoop, Nat.mul_comm, mul_add_div hb, div_eq_of_lt (by simpa using hnum), Nat.add_zero]
  | succ n ih =>
    have hdiv := hdiv (by omega)
    rw [Nat.add_sub_cancel] at hdiv
    have hhalf : 0 < n → (div.shiftRight 1).toNat = b.toNat * 2 ^ (n - 1) := by
      intro hpos
      obtain ⟨m, rfl⟩ : ∃ m, n = m + 1 := ⟨n - 1, by omega⟩
      rw [toNat_shiftRight, hdiv, Nat.pow_succ, ← Nat.mul_assoc, Nat.pow_one, Nat.mul_div_cancel _ (by omega),
        Nat.add_sub_cancel]
    rw [Nat.pow_succ, ← Nat.mul_assoc] at hnum
    rw [divLoop]
    split
    · next hge =>
      rw [compareTo_nonneg_iff] at hge
      have hsub := toNat_sub num div hge
      have hset := toNat_setBit quotient (by omega) hq
      rw [ih _ _ _ (by omega) hhalf (by omega) ?_, hsub, hset]
      · congr 1
        rw [Nat.add_mul, Nat.mul_comm (2 ^ n), ← hdiv]
        omega
      · rw [hset]
        exact Nat.dvd_add (dvd_trans (Nat.pow_dvd_pow 2 (le_succ n)) hq) dvd_rfl
    · next hlt =>
      rw [compareTo_nonneg_iff] at hlt
      exact ih _ _ _ (by omega) hhalf (by omega) (dvd_trans (Nat.pow_dvd_pow 2 (le_succ n)) hq)

theorem div_spec (hb : b.toNat ≠ 0) : ∃ q, a.div b = .ok q ∧ q.toNat = a.toNat / b.toNat := by
  have hbits : b.bits ≠ 0 := by
    intro h
    have := (bits_le_iff b 0).mp (by omega)
    simp at this
    omega
  have hblow : 2 ^ (b.bits - 1) ≤ b.toNat := by
    by_contra hlt
    have := (bits_le_iff b (b.bits - 1)).mpr (by omega)
    omega
  have hbtop : b.toNat < 2 ^ b.bits := (bits_le_iff b _).mp le_rfl
  have hatop : a.toNat < 2 ^ a.bits := (bits_le_iff a _).mp le_rfl
  have habits : a.bits ≤ 32 * width := (bits_le_iff a _).mpr a.toNat_lt
  unfold div
  simp only [hbits, if_false]
  split
  · next hgt =>
    refine ⟨zero, rfl, ?_⟩
    have hle : 2 ^ a.bits ≤ 2 ^ (b.bits - 1) := Nat.pow_le_pow_right (by omega) (by omega)
    rw [toNat_zero, div_eq_of_lt (by omega)]
  · next hle =>
    refine ⟨_, rfl, ?_⟩
    have hpow : b.toNat * 2 ^ (a.bits - b.bits) < 2 ^ a.bits := by
      calc b.toNat * 2 ^ (a.bits - b.bits) < 2 ^ b.bits * 2 ^ (a.bits - b.bits) :=
            Nat.mul_lt_mul_of_pos_right hbtop (Nat.two_pow_pos _)
        _ = 2 ^ a.bits := by rw [← Nat.pow_add]; congr 1; omega
    have hfits : 2 ^ a.bits ≤ 2 ^ (32 * width) := Nat.pow_le_pow_right (by omega) habits
    have halign : (b.shiftLeft (a.bits - b.bits)).toNat = b.toNat * 2 ^ (a.bits - b.bits) := by
      rw [toNat_shiftLeft, mod_eq_of_lt (by omega)]
    have hnum : a.toNat < b.toNat * 2 ^ (a.bits - b.bits + 1) := by
      calc a.toNat < 2 ^ a.bits := hatop
        _ = 2 ^ (b.bits - 1) * 2 ^ (a.bits - b.bits + 1) := by rw [← Nat.pow_add]; congr 1; omega
        _ ≤ b.toNat * 2 ^ (a.bits - b.bits + 1) := Nat.mul_le_mul_right _ hblow
    rw [divLoop_spec b _ _ _ _ (by omega) (by omega) (fun _ => halign) hnum (by simp)]
    simp

/-- The operators on digits are those on numbers, modulo the numbers that fit. -/
theorem operators_exact (shift : Nat) : (a.add b).toNat = (a.toNat + b.toNat) % 2 ^ (32 * width) ∧
    (a.sub b).toNat = (a.toNat + (2 ^ (32 * width) - b.toNat)) % 2 ^ (32 * width) ∧
    (a.shiftLeft shift).toNat = a.toNat * 2 ^ shift % 2 ^ (32 * width) ∧
      (a.shiftRight shift).toNat = a.toNat / 2 ^ shift ∧
    a.compareTo b = (if a.toNat < b.toNat then -1 else if a.toNat > b.toNat then 1 else 0) ∧
      (∀ k, a.bits ≤ k ↔ a.toNat < 2 ^ k) ∧
    (a.div b).map toNat = if b.toNat = 0 then .error .divisionByZero else .ok (a.toNat / b.toNat) := by
  refine ⟨toNat_add a b, ?_, toNat_shiftLeft a shift, toNat_shiftRight a shift, ?_, bits_le_iff a, ?_⟩
  · rw [sub, toNat_add, toNat_neg, add_mod_mod]
  · rw [compareTo, compareFrom_eq, mod_eq_of_lt a.toNat_lt, mod_eq_of_lt b.toNat_lt]
  · split
    · next hzero =>
      rw [div, if_pos (le_zero.mp ((bits_le_iff b 0).mpr (by omega)))]
      rfl
    · next hne =>
      obtain ⟨_, hq, hvalue⟩ := div_spec a b hne
      rw [hq, ← hvalue]
      rfl

end BaseUint

end FullNode

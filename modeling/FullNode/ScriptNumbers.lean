import FullNode.PoolHeights

/-!
# Script numbers

`set_vch` in 64 bits, as the code computes it: a shift by 64 or more is `none`.
-/

namespace FullNode.Script

open List Nat
open Pool (absBytes_eq)

/-! ## The code in 64 bits -/

/-- `result |= static_cast<int64_t>(vch[i]) << 8*i`, from `i` on. -/
def orBytes : Valtype → Nat → BitVec 64 → Option (BitVec 64)
  | [], _, result => some result
  | b :: vch, i, result =>
    if 8 * i < 64 then orBytes vch (i + 1) (result ||| BitVec.ofNat 64 b.toNat <<< (8 * i)) else none

/-- `CScriptNum::set_vch`. -/
def setVch64 (vch : Valtype) : Option (BitVec 64) :=
  match vch.getLast? with
  | none => some 0
  | some top => do
    let result ← orBytes vch 0 0
    if top &&& 0x80 ≠ 0 then
      return -(result &&& ~~~(0x80#64 <<< (8 * (vch.length - 1))))
    else return result

def IsMinimal (vch : Valtype) : Prop :=
  ¬ (vch.length > 0 ∧ byteAt vch (vch.length - 1) &&& 0x7f = 0 ∧
    (vch.length ≤ 1 ∨ byteAt vch (vch.length - 2) &&& 0x80 = 0))

instance (vch : Valtype) : Decidable (IsMinimal vch) := inferInstanceAs (Decidable (¬ _))

variable (vch : Valtype)

theorem scriptNum_eq (fRequireMinimal : Bool) (nMaxNumSize : Nat) :
    scriptNum vch fRequireMinimal nMaxNumSize =
      if vch.length ≤ nMaxNumSize ∧ (fRequireMinimal = true → IsMinimal vch) then .ok (setVch vch)
      else .error .scriptNumError := by
  unfold scriptNum IsMinimal
  grind

/-! ## The bytes -/

theorem and_0x7f (b : UInt8) : b &&& 0x7f = 0 ↔ b.toNat % 128 = 0 := by
  have hall : ∀ n < 256, UInt8.ofNat n &&& 0x7f = 0 ↔ (UInt8.ofNat n).toNat % 128 = 0 := by decide +kernel
  have hb := hall b.toNat b.toNat_lt
  rwa [UInt8.ofNat_toNat] at hb

theorem or_0x80 (b : UInt8) : (b ||| 0x80).toNat = b.toNat % 128 + 128 := by
  have hall : ∀ n < 256, (UInt8.ofNat n ||| 0x80).toNat = (UInt8.ofNat n).toNat % 128 + 128 := by decide +kernel
  have hb := hall b.toNat b.toNat_lt
  rwa [UInt8.ofNat_toNat] at hb

variable {top : UInt8} {init : Valtype} {n : Int}

theorem leValue_pos (init : Valtype) (htop : top.toNat ≠ 0) : 256 ^ init.length ≤ leValue (init ++ [top]) := by
  rw [leValue_last]
  exact le_add_left_of_le (Nat.le_mul_of_pos_left _ (Nat.pos_of_ne_zero htop))

theorem absBytes_leValue {fuel : Nat} (htop : top.toNat ≠ 0)
    (hlen : init.length + 1 ≤ fuel) : absBytes fuel (leValue (init ++ [top])) = init ++ [top] := by
  have hlt := leValue_lt (init ++ [top])
  rw [length_append, length_singleton] at hlt
  rw [absBytes_eq fuel (init.length + 1) _ hlen hlt (Or.inr (leValue_pos init htop))]
  have hback := leBytes_leValue (init ++ [top])
  rwa [length_append, length_singleton] at hback

theorem exists_bytes {n k : Nat} (hpos : 0 < n) (hlt : n < 256 ^ k) :
    ∃ (init : Valtype) (top : UInt8), top.toNat ≠ 0 ∧ init.length + 1 ≤ k ∧ leValue (init ++ [top]) = n := by
  induction k generalizing n with
  | zero =>
    rw [Nat.pow_zero] at hlt
    omega
  | succ k ih =>
    have hlow : (UInt8.ofNat (n % 256)).toNat = n % 256 := by
      rw [UInt8.toNat_ofNat']
      omega
    rcases Nat.eq_zero_or_pos (n / 256) with hzero | hhigh
    · refine ⟨[], UInt8.ofNat (n % 256), by omega, by simp, ?_⟩
      rw [nil_append, leValue, leValue]
      omega
    · have hdiv : n / 256 < 256 ^ k := by
        rw [Nat.div_lt_iff_lt_mul (by omega), ← Nat.pow_succ]
        exact hlt
      obtain ⟨init, top, htop, hlen, hvalue⟩ := ih hhigh hdiv
      refine ⟨UInt8.ofNat (n % 256) :: init, top, htop, succ_le_succ hlen, ?_⟩
      rw [cons_append, leValue, hvalue]
      omega

/-! ## One encoding for each number -/

theorem setVch_last (init : Valtype) (last : UInt8) :
    setVch (init ++ [last]) =
      if 0x80 ≤ last.toNat then -((leValue init + (last.toNat - 0x80) * 256 ^ init.length : Nat) : Int)
      else (leValue init + last.toNat * 256 ^ init.length : Nat) := by
  have hlen : (init ++ [last]).length - 1 = init.length := by simp
  rw [setVch, getLast?_concat]
  simp only [leValue_last, hlen]
  split
  · next hsign =>
    rw [Nat.sub_mul, Nat.add_sub_assoc (Nat.mul_le_mul_right _ hsign)]
  · rfl

theorem isMinimal_last (init : Valtype) (last : UInt8) :
    IsMinimal (init ++ [last]) ↔
      (last.toNat % 128 = 0 → ∃ (front : Valtype) (next : UInt8), init = front ++ [next] ∧ 0x80 ≤ next.toNat) := by
  have hlast : byteAt (init ++ [last]) ((init ++ [last]).length - 1) = last := Pool.serialize_last init last
  rw [IsMinimal, hlast, and_0x7f, and_0x80_eq_zero]
  rcases eq_nil_or_concat' init with rfl | ⟨front, next, rfl⟩
  · simp
  · have hnext : byteAt (front ++ [next] ++ [last]) ((front ++ [next] ++ [last]).length - 2) = next := by
      have hread := byteAt_append_right front ([next] ++ [last]) 0
      rw [← append_assoc] at hread
      rw [show (front ++ [next] ++ [last]).length - 2 = front.length + 0 by simp, hread]
      rfl
    have hlong : (front ++ [next] ++ [last]).length > 0 ∧ ¬ (front ++ [next] ++ [last]).length ≤ 1 := by simp
    rw [hnext]
    constructor
    · intro h hzero
      exact ⟨front, next, rfl, not_lt.mp fun hlow => h ⟨hlong.1, hzero, Or.inr hlow⟩⟩
    · rintro h ⟨-, hzero, hlow⟩
      obtain ⟨_, _, heq, _⟩ := h hzero
      obtain ⟨-, rfl⟩ := append_inj' heq rfl |>.imp id singleton_inj.mp
      have hlow := hlow.resolve_left hlong.2
      omega

/-- The sign goes to the top bit, or to a byte of its own. -/
theorem serialize_last_eq (htop : top.toNat ≠ 0) (hlen : init.length + 1 ≤ 8)
    (hn : leValue (init ++ [top]) = n.natAbs) :
    serialize n = if 0x80 ≤ top.toNat then init ++ [top] ++ [if n < 0 then 0x80 else 0]
      else init ++ [if n < 0 then top ||| 0x80 else top] := by
  have hne : n ≠ 0 := by
    rintro rfl
    have hpos := leValue_pos init htop
    rw [hn, Int.natAbs_zero] at hpos
    have hpow : 0 < 256 ^ init.length := by positivity
    omega
  rw [serialize, if_neg hne, ← hn, absBytes_leValue htop hlen]
  simp only [Pool.serialize_last, and_0x80, dropLast_concat]
  split
  · rfl
  · split <;> rfl

theorem serialize_signed (c : Prop) [Decidable c] (htop : top.toNat ≠ 0) (hlen : init.length + 1 ≤ 8) :
    serialize (if c then -(leValue (init ++ [top]) : Int) else leValue (init ++ [top])) =
      if 0x80 ≤ top.toNat then init ++ [top] ++ [if c then 0x80 else 0]
      else init ++ [if c then top ||| 0x80 else top] := by
  have hpos := leValue_pos init htop
  have hpow : 0 < 256 ^ init.length := by positivity
  by_cases hc : c
  · simp only [if_pos hc]
    rw [serialize_last_eq htop hlen (by omega)]
    simp only [show -(leValue (init ++ [top]) : Int) < 0 by omega, if_true]
  · simp only [if_neg hc]
    rw [serialize_last_eq htop hlen (by omega)]
    simp only [show ¬ (leValue (init ++ [top]) : Int) < 0 by omega, if_false]

theorem natAbs_lt (hmin : INT64_MIN ≤ n) (hmax : n ≤ INT64_MAX) : n.natAbs < 256 ^ 8 := by
  unfold INT64_MIN INT64_MAX at *
  omega

theorem setVch_serialize (hn : n.natAbs < 256 ^ 8) : setVch (serialize n) = n := by
  rcases Nat.eq_zero_or_pos n.natAbs with hzero | hpos
  · obtain rfl := Int.natAbs_eq_zero.mp hzero
    rfl
  · obtain ⟨_, top, htop, hlen, hvalue⟩ := exists_bytes hpos hn
    have hmag := hvalue
    rw [leValue_last] at hmag
    rw [serialize_last_eq htop hlen hvalue]
    split
    · next hhigh =>
      rw [setVch_last, hvalue]
      by_cases hneg : n < 0
      · rw [if_pos hneg, if_pos (by decide)]
        simp only [UInt8.reduceToNat, Nat.sub_self, Nat.zero_mul, Nat.add_zero]
        omega
      · rw [if_neg hneg, if_neg (by decide)]
        simp only [UInt8.reduceToNat, Nat.zero_mul, Nat.add_zero]
        omega
    · next hlow =>
      rw [setVch_last]
      by_cases hneg : n < 0
      · have hmod : top.toNat % 128 + 128 - 0x80 = top.toNat := by omega
        rw [if_pos hneg, or_0x80, if_pos (Nat.le_add_left _ _), hmod, hmag]
        omega
      · rw [if_neg hneg, if_neg hlow, hmag]
        omega

theorem isMinimal_serialize (hn : n.natAbs < 256 ^ 8) : IsMinimal (serialize n) := by
  rcases Nat.eq_zero_or_pos n.natAbs with hzero | hpos
  · obtain rfl := Int.natAbs_eq_zero.mp hzero
    decide
  · obtain ⟨init, top, htop, hlen, hvalue⟩ := exists_bytes hpos hn
    rw [serialize_last_eq htop hlen hvalue]
    split
    · next hhigh =>
      rw [isMinimal_last]
      exact fun _ => ⟨init, top, rfl, hhigh⟩
    · next hlow =>
      rw [isMinimal_last]
      intro hzero
      split at hzero
      · rw [or_0x80] at hzero
        omega
      · omega

theorem serialize_setVch {vch : Valtype} (hlen : vch.length ≤ 8) (h : IsMinimal vch) :
    serialize (setVch vch) = vch := by
  rcases eq_nil_or_concat' vch with rfl | ⟨init, last, rfl⟩
  · rfl
  have hb := last.toNat_lt
  rw [length_append, length_singleton] at hlen
  rw [isMinimal_last] at h
  rw [setVch_last]
  by_cases hzero : last.toNat % 128 = 0
  · -- the last byte only holds the sign
    obtain ⟨front, next, rfl, hhigh⟩ := h hzero
    rw [length_append, length_singleton] at hlen
    have hnext : next.toNat ≠ 0 := by omega
    have hlast : last = if 0x80 ≤ last.toNat then 0x80 else 0 := by
      apply UInt8.toNat_inj.mp
      split <;> simp only [UInt8.reduceToNat] <;> omega
    have hsame : (if 0x80 ≤ last.toNat then
        -((leValue (front ++ [next]) + (last.toNat - 0x80) * 256 ^ (front ++ [next]).length : Nat) : Int)
        else (leValue (front ++ [next]) + last.toNat * 256 ^ (front ++ [next]).length : Nat)) =
        if 0x80 ≤ last.toNat then -(leValue (front ++ [next]) : Int) else leValue (front ++ [next]) := by
      split
      · rw [show last.toNat - 0x80 = 0 by omega, zero_mul, add_zero]
      · rw [show last.toNat = 0 by omega, zero_mul, add_zero]
    rw [hsame, serialize_signed _ hnext (by omega), if_pos hhigh]
    conv_rhs => rw [hlast]
  · have hlow : (UInt8.ofNat (last.toNat % 128)).toNat = last.toNat % 128 := by
      rw [UInt8.toNat_ofNat']
      omega
    have hsame : (if 0x80 ≤ last.toNat then
        -((leValue init + (last.toNat - 0x80) * 256 ^ init.length : Nat) : Int)
        else (leValue init + last.toNat * 256 ^ init.length : Nat)) =
        if 0x80 ≤ last.toNat then -(leValue (init ++ [UInt8.ofNat (last.toNat % 128)]) : Int)
        else leValue (init ++ [UInt8.ofNat (last.toNat % 128)]) := by
      rw [leValue_last, hlow]
      split
      · rw [show last.toNat - 0x80 = last.toNat % 128 by omega]
      · rw [show last.toNat % 128 = last.toNat by omega]
    rw [hsame, serialize_signed _ (by omega) hlen, if_neg (by omega)]
    congr 2
    apply UInt8.toNat_inj.mp
    split
    · rw [or_0x80]
      omega
    · omega

/-! ## The code computes the value -/

theorem orBytes_eq {i : Nat} (result : BitVec 64) (hi : i + vch.length ≤ 8)
    (hresult : result.toNat < 256 ^ i) :
    ∃ r, orBytes vch i result = some r ∧ r.toNat = result.toNat + leValue vch * 256 ^ i := by
  induction vch generalizing i result with
  | nil => exact ⟨result, rfl, by simp [leValue]⟩
  | cons b vch ih =>
    rw [length_cons] at hi
    have hb := b.toNat_lt
    have hpow : 256 ^ (i + 1) ≤ 2 ^ 64 := Nat.pow_le_pow_right (n := 256) (by norm_num) (by omega : i + 1 ≤ 8)
    have hbyte : b.toNat * 256 ^ i < 2 ^ 64 := by
      rw [Nat.pow_succ] at hpow
      exact Nat.lt_of_lt_of_le (Nat.mul_lt_mul_of_pos_right hb (by positivity)) (by omega)
    have h256 : 2 ^ (8 * i) = 256 ^ i := by rw [Nat.pow_mul]
    have hor : (result ||| BitVec.ofNat 64 b.toNat <<< (8 * i)).toNat = result.toNat + b.toNat * 256 ^ i := by
      rw [BitVec.toNat_or, BitVec.toNat_shiftLeft, BitVec.toNat_ofNat, mod_eq_of_lt (by omega : b.toNat < 2 ^ 64),
        shiftLeft_eq, h256, mod_eq_of_lt hbyte, Nat.or_comm, ← h256, Nat.mul_comm,
        ← two_pow_add_eq_or_of_lt (by rwa [h256]), Nat.add_comm]
    obtain ⟨r, hr, hvalue⟩ := ih (i := i + 1) (result ||| BitVec.ofNat 64 b.toNat <<< (8 * i)) (by omega) (by
      rw [hor, Nat.pow_succ]
      nlinarith)
    refine ⟨r, ?_, ?_⟩
    · rw [orBytes, if_pos (by omega), hr]
    · rw [hvalue, hor, leValue, Nat.pow_succ]
      ring

theorem clear_bit {result : BitVec 64} {x k : Nat} (hk : k < 64) (hx : x < 2 ^ k) (h : result.toNat = x + 2 ^ k) :
    (result &&& ~~~(1#64 <<< k)).toNat = x := by
  have hpow : 2 ^ k < 2 ^ 64 := Nat.pow_lt_pow_right (by norm_num) hk
  have hsplit : result = BitVec.ofNat 64 x ||| 1#64 <<< k := by
    apply BitVec.eq_of_toNat_eq
    rw [h, BitVec.toNat_or, BitVec.toNat_shiftLeft, BitVec.toNat_ofNat, BitVec.toNat_ofNat,
      mod_eq_of_lt (by omega : x < 2 ^ 64),
      mod_eq_of_lt (by norm_num : 1 < 2 ^ 64), one_shiftLeft, mod_eq_of_lt hpow, Nat.or_comm, Nat.add_comm]
    simpa using two_pow_add_eq_or_of_lt hx 1
  have hbits : result &&& ~~~(1#64 <<< k) = BitVec.ofNat 64 x := by
    rw [hsplit]
    ext i hi
    simp only [BitVec.getElem_and, BitVec.getElem_or, BitVec.getElem_not]
    by_cases hik : i = k
    · subst hik
      have hbit : (BitVec.ofNat 64 x)[i] = false := by
        rw [BitVec.getElem_eq_testBit_toNat, BitVec.toNat_ofNat, mod_eq_of_lt (by omega)]
        exact testBit_lt_two_pow hx
      simp [hbit]
    · have hoff : (1#64 <<< k)[i] = false := by
        simp
        omega
      simp [hoff]
  rw [hbits, BitVec.toNat_ofNat, mod_eq_of_lt (by omega)]

theorem setVch64_eq (hlen : vch.length ≤ 8) : ∃ v, setVch64 vch = some v ∧ v.toInt = setVch vch := by
  rcases eq_nil_or_concat' vch with rfl | ⟨init, last, rfl⟩
  · exact ⟨0, rfl, rfl⟩
  obtain ⟨r, hr, hvalue⟩ := orBytes_eq (init ++ [last]) (i := 0) 0 (by omega) (by decide)
  have hb := last.toNat_lt
  have hinit := leValue_lt init
  have hsize : (init ++ [last]).length - 1 = init.length := by simp
  rw [length_append, length_singleton] at hlen
  have hpow : 256 ^ init.length ≤ 2 ^ 56 := Nat.pow_le_pow_right (n := 256) (by norm_num) (by omega : init.length ≤ 7)
  rw [leValue_last] at hvalue
  simp only [BitVec.ofNat_eq_ofNat, BitVec.toNat_ofNat, zero_mod, Nat.zero_add, Nat.pow_zero, Nat.mul_one] at hvalue
  rw [setVch64, getLast?_concat]
  simp only [BitVec.ofNat_eq_ofNat] at hr
  simp only [BitVec.ofNat_eq_ofNat, hr, Option.bind_eq_bind, Option.bind_some, hsize, setVch_last, and_0x80]
  split
  · next hsign =>
    have hbit : 0x80#64 <<< (8 * init.length) = 1#64 <<< (8 * init.length + 7) := by
      rw [Nat.add_comm, BitVec.shiftLeft_add]
      rfl
    have hk : 2 ^ (8 * init.length + 7) = 128 * 256 ^ init.length := by
      rw [Nat.pow_add, Nat.pow_mul]
      ring
    have hx : leValue init + (last.toNat - 0x80) * 256 ^ init.length < 2 ^ (8 * init.length + 7) := by
      have hle : (last.toNat - 0x80) * 256 ^ init.length ≤ 127 * 256 ^ init.length := Nat.mul_le_mul_right _ (by omega)
      omega
    have hr' : r.toNat = leValue init + (last.toNat - 0x80) * 256 ^ init.length + 2 ^ (8 * init.length + 7) := by
      rw [hvalue, hk, Nat.add_assoc, ← Nat.add_mul, Nat.sub_add_cancel hsign]
    have hclear := clear_bit (by omega) hx hr'
    rw [← hbit] at hclear
    refine ⟨_, rfl, ?_⟩
    have hsmall : (r &&& ~~~(0x80#64 <<< (8 * init.length))).toNat < 2 ^ 63 := by
      rw [hclear]
      omega
    rw [BitVec.toInt_neg_of_ne_intMin, BitVec.toInt_eq_toNat_of_lt (by omega), hclear]
    intro heq
    rw [heq] at hsmall
    exact absurd hsmall (by decide)
  · next hsign =>
    refine ⟨_, rfl, ?_⟩
    have hle : last.toNat * 256 ^ init.length ≤ 127 * 256 ^ init.length := Nat.mul_le_mul_right _ (by omega)
    rw [BitVec.toInt_eq_toNat_of_lt (by omega), hvalue]

end FullNode.Script

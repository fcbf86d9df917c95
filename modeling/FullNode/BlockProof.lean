import FullNode.CompactTargets
import FullNode.HeadersSync

/-!
# The work of a block

`GetBlockProof` over the digits. The target comes from a compact code, so it is never the
largest number, and `bnTarget + 1` does not wrap.
-/

namespace FullNode.BaseUint

def getBlockProof (nBits : Uint32) : Checked (BaseUint 8) :=
  let bnTarget := setCompact nBits
  if bnTarget.fNegative || bnTarget.fOverflow || bnTarget.value.equalTo 0 then return ofUint64 0
  else do
    let q ← bnTarget.value.not.div (bnTarget.value.add (ofUint64 1))
    return q.add (ofUint64 1)

/-- The bits decode to a target that is neither negative nor too large nor zero. -/
def HasTarget (nBits : Uint32) : Prop :=
  (setCompact nBits).fNegative = false ∧ (setCompact nBits).fOverflow = false ∧ (setCompact nBits).value.toNat ≠ 0

theorem hasTarget_iff (nBits : Uint32) : HasTarget nBits ↔
    ((setCompact nBits).fNegative || (setCompact nBits).fOverflow || (setCompact nBits).value.equalTo 0) = false := by
  have hzero := equalTo_zero_iff (setCompact nBits).value (by decide)
  rw [HasTarget, Bool.or_eq_false_iff, Bool.or_eq_false_iff, and_assoc, ne_eq, ← hzero, Bool.not_eq_true]

theorem mul_byte_succ_lt {n k : Nat} (h : n * 256 < k * 256) : n * 256 + 1 < k * 256 := by
  have hlt : n < k := Nat.lt_of_mul_lt_mul_right h
  have hle : (n + 1) * 256 ≤ k * 256 := Nat.mul_le_mul_right 256 hlt
  rw [Nat.succ_mul] at hle
  linarith

variable {nBits : Uint32}

theorem setCompact_succ_lt (h : (setCompact nBits).fOverflow = false) :
    (setCompact nBits).value.toNat + 1 < 2 ^ 256 := by
  have hfits : compactInteger nBits < 2 ^ 256 := by
    by_contra hge
    rw [(setCompact_fOverflow nBits).mpr hge] at h
    cases h
  have hlt := mantissa_lt nBits
  rw [toNat_setCompact, Nat.mod_eq_of_lt hfits]
  unfold compactInteger at hfits ⊢
  split
  · have hle := Nat.div_le_self (mantissa nBits) (256 ^ (3 - exponent nBits))
    omega
  · next hlarge =>
    -- The integer is a multiple of 256.
    rw [if_neg hlarge] at hfits
    obtain ⟨e, he⟩ : ∃ e, exponent nBits - 3 = e + 1 := ⟨exponent nBits - 4, by omega⟩
    rw [he, Nat.pow_succ, ← Nat.mul_assoc] at hfits ⊢
    have hpow : 2 ^ 256 = 2 ^ 248 * 256 := by norm_num
    rw [hpow] at hfits ⊢
    exact mul_byte_succ_lt hfits

theorem complement_div (n t : Nat) (h : t < n) : (n - 1 - t) / (t + 1) + 1 = n / (t + 1) := by
  rw [← Nat.add_div_right _ (by omega)]
  congr 1
  omega

theorem proof_of_target (target : BaseUint 8) (hpos : target.toNat ≠ 0) (hsucc : target.toNat + 1 < 2 ^ 256) :
    ∃ q, target.not.div (target.add (ofUint64 1)) = .ok q ∧
      (q.add (ofUint64 1)).toNat = 2 ^ 256 / (target.toNat + 1) := by
  have hone : (ofUint64 1 : BaseUint 8).toNat = 1 := toNat_ofUint64 1 (by decide)
  have hplus : (target.add (ofUint64 1)).toNat = target.toNat + 1 := by
    rw [toNat_add, hone, Nat.mod_eq_of_lt hsucc]
  have hnot : target.not.toNat = 2 ^ 256 - 1 - target.toNat := by
    have := target.toNat_not
    omega
  obtain ⟨q, hq, hqn⟩ := div_spec target.not (target.add (ofUint64 1)) (by omega)
  have hid := complement_div (2 ^ 256) target.toNat (by omega)
  have hsmall : 2 ^ 256 / (target.toNat + 1) < 2 ^ 256 := Nat.div_lt_self (by norm_num) (by omega)
  refine ⟨q, hq, ?_⟩
  rw [toNat_add, hone, hqn, hnot, hplus, hid, Nat.mod_eq_of_lt hsmall]

theorem getBlockProof_spec (h : HasTarget nBits) : ∃ proof, getBlockProof nBits = .ok proof ∧
    proof.toNat = 2 ^ 256 / ((setCompact nBits).value.toNat + 1) := by
  obtain ⟨q, hq, hn⟩ := proof_of_target _ h.2.2 (setCompact_succ_lt h.2.1)
  refine ⟨q.add (ofUint64 1), ?_, hn⟩
  unfold getBlockProof
  simp only [(hasTarget_iff nBits).mp h, hq]
  rfl

theorem getBlockProof_of_no_target (h : ¬ HasTarget nBits) : getBlockProof nBits = .ok (ofUint64 0) := by
  have hcond := mt (hasTarget_iff nBits).mpr h
  rw [Bool.not_eq_false] at hcond
  unfold getBlockProof
  simp only [hcond]
  rfl

/-- The work is `2^256 / (target + 1)`, no more for larger targets. -/
theorem getBlockProof_eq_floor : (∀ nBits, HasTarget nBits → ∃ proof, getBlockProof nBits = .ok proof ∧
    proof.toNat = 2 ^ 256 / ((setCompact nBits).value.toNat + 1) ∧ 1 ≤ proof.toNat) ∧
    (∀ nBits nBits' proof proof', HasTarget nBits → HasTarget nBits' →
      getBlockProof nBits = .ok proof → getBlockProof nBits' = .ok proof' →
      (setCompact nBits).value.toNat ≤ (setCompact nBits').value.toNat → proof'.toNat ≤ proof.toNat) ∧
    ∀ nBits, ¬ HasTarget nBits → ∃ proof, getBlockProof nBits = .ok proof ∧ proof.toNat = 0 := by
  refine ⟨?_, ?_, ?_⟩
  · intro nBits h
    obtain ⟨proof, hproof, hn⟩ := getBlockProof_spec h
    have hsucc := setCompact_succ_lt h.2.1
    refine ⟨proof, hproof, hn, ?_⟩
    rw [hn]
    exact Nat.div_pos (by omega) (by omega)
  · intro nBits nBits' proof proof' h h' hproof hproof' hle
    obtain ⟨q, hq, hn⟩ := getBlockProof_spec h
    obtain ⟨q', hq', hn'⟩ := getBlockProof_spec h'
    obtain rfl : q = proof := Except.ok.inj (hq.symm.trans hproof)
    obtain rfl : q' = proof' := Except.ok.inj (hq'.symm.trans hproof')
    rw [hn, hn']
    exact Nat.div_le_div_left (by omega) (by omega)
  · intro nBits h
    exact ⟨_, getBlockProof_of_no_target h, toNat_ofUint64 0 (by decide)⟩

end FullNode.BaseUint

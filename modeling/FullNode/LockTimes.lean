import FullNode.Miner
import FullNode.Validation

/-!
# Lock times of scripts

`CheckLockTime` and `CheckSequence` compare the operand of a script with fields of the transaction. Together they hold
the operand against the block.
-/

namespace FullNode

open List
open Miner (LOCKTIME_THRESHOLD SEQUENCE_FINAL isFinalTx)

/-! ## The checks of the scripts -/

def SEQUENCE_LOCKTIME_DISABLE_FLAG : Uint32 := 0x80000000
def SEQUENCE_LOCKTIME_TYPE_FLAG : Uint32 := 0x00400000
def SEQUENCE_LOCKTIME_MASK : Uint32 := 0x0000ffff

/-- `GenericTransactionSignatureChecker::CheckLockTime`. -/
def checkLockTime (tx : CTransaction) (nIn : Fin tx.vin.length) (nLockTime : Int) : Bool :=
  let txLockTime : Int := tx.nLockTime.toNat
  if ¬ ((txLockTime < LOCKTIME_THRESHOLD ∧ nLockTime < LOCKTIME_THRESHOLD) ∨
      (txLockTime ≥ LOCKTIME_THRESHOLD ∧ nLockTime ≥ LOCKTIME_THRESHOLD)) then false
  else if nLockTime > txLockTime then false
  else if SEQUENCE_FINAL = (tx.vin.get nIn).nSequence then false
  else true

/-- The bits of a sequence number that have a meaning for blocks. -/
def nLockTimeMask : Uint32 := SEQUENCE_LOCKTIME_TYPE_FLAG ||| SEQUENCE_LOCKTIME_MASK

def sequenceMasked (nSequence : Int) : Nat := (BitVec.ofInt 64 nSequence &&& nLockTimeMask.setWidth 64).toNat

/-- `GenericTransactionSignatureChecker::CheckSequence`. -/
def checkSequence (tx : CTransaction) (nIn : Fin tx.vin.length) (nSequence : Int) : Bool :=
  let txToSequence := (tx.vin.get nIn).nSequence
  if tx.version < 2#32 then false
  else if txToSequence &&& SEQUENCE_LOCKTIME_DISABLE_FLAG ≠ 0 then false
  else
    let txToSequenceMasked := (txToSequence &&& nLockTimeMask).toNat
    let nSequenceMasked := sequenceMasked nSequence
    let flag := SEQUENCE_LOCKTIME_TYPE_FLAG.toNat
    if ¬ ((txToSequenceMasked < flag ∧ nSequenceMasked < flag) ∨
      (txToSequenceMasked ≥ flag ∧ nSequenceMasked ≥ flag)) then false
    else if nSequenceMasked > txToSequenceMasked then false
    else true

/-! ## Lock times -/

variable {tx : CTransaction} {n : Int} {block : CBlockIndex} {l : List (CTxIn × Int)}
  {nBlockHeight nBlockTime : Int} {txin : CTxIn}

theorem lockTime_lt_of_final
    (hmem : txin ∈ tx.vin) (hseq : SEQUENCE_FINAL ≠ txin.nSequence) (hne : tx.nLockTime ≠ 0)
    (hfinal : isFinalTx tx nBlockHeight nBlockTime = true) : (tx.nLockTime.toNat : Int) <
      if (tx.nLockTime.toNat : Int) < LOCKTIME_THRESHOLD then nBlockHeight else nBlockTime := by
  by_contra hlate
  rw [isFinalTx, if_neg hne, if_neg hlate, all_eq_true] at hfinal
  exact hseq (of_decide_eq_true (hfinal txin hmem)).symm

variable {nIn : Fin tx.vin.length} {locks r : Int × Int} {nCoinHeight : Int}

theorem checkLockTime_iff {nLockTime : Int} : checkLockTime tx nIn nLockTime = true ↔
    ((tx.nLockTime.toNat : Int) < LOCKTIME_THRESHOLD ↔ nLockTime < LOCKTIME_THRESHOLD) ∧
      nLockTime ≤ tx.nLockTime.toNat ∧ SEQUENCE_FINAL ≠ (tx.vin.get nIn).nSequence := by
  unfold checkLockTime
  grind

theorem checkLockTime_beyond
    (hheight : 1 ≤ nBlockHeight) (hcheck : checkLockTime tx nIn n = true)
    (hfinal : isFinalTx tx nBlockHeight nBlockTime = true) :
    n < if n < LOCKTIME_THRESHOLD then nBlockHeight else nBlockTime := by
  obtain ⟨hkind, hle, hseq⟩ := checkLockTime_iff.mp hcheck
  by_cases hzero : tx.nLockTime = 0
  · have hvalue : (tx.nLockTime.toNat : Int) = 0 := by rw [hzero]; rfl
    have hlow : n < LOCKTIME_THRESHOLD := hkind.mp (by rw [hvalue]; decide)
    rw [if_pos hlow]
    omega
  · have hlt := lockTime_lt_of_final (get_mem _ _) hseq hzero hfinal
    simp only [hkind] at hlt
    exact lt_of_le_of_lt hle hlt

/-! ## Sequence numbers -/

def sequenceValue (nSequence : Int) : Nat := (BitVec.ofInt 64 nSequence &&& SEQUENCE_LOCKTIME_MASK.setWidth 64).toNat

def sequenceTimed (nSequence : Int) : Bool := BitVec.ofInt 64 nSequence &&& SEQUENCE_LOCKTIME_TYPE_FLAG.setWidth 64 ≠ 0

theorem and_two_pow_eq (x k : Nat) : x &&& 2 ^ k = if x.testBit k then 2 ^ k else 0 := by
  apply Nat.eq_of_testBit_eq
  intro i
  rw [Nat.testBit_and, Nat.testBit_two_pow]
  by_cases hik : k = i
  · subst hik
    cases hx : x.testBit k <;> simp
  · cases hx : x.testBit k <;> simp [hik]

theorem and_mask (x : Nat) :
    x &&& 0x40ffff = (x &&& 0xffff) + (if x &&& 0x400000 ≠ 0 then 0x400000 else 0) ∧ x &&& 0xffff < 0x400000 := by
  have hlow : x &&& 0xffff < 2 ^ 22 := Nat.lt_of_le_of_lt Nat.and_le_right (by norm_num)
  have hflag := and_two_pow_eq x 22
  have hsplit : x &&& 0x40ffff = (x &&& 2 ^ 22) ||| (x &&& 0xffff) := (Nat.and_or_distrib_left x (2 ^ 22) 0xffff)
  refine ⟨?_, hlow⟩
  rw [hsplit, show (0x400000 : Nat) = 2 ^ 22 from rfl, hflag]
  cases x.testBit 22
  · simp
  · have hadd := Nat.two_pow_add_eq_or_of_lt hlow 1
    rw [Nat.mul_one] at hadd
    rw [if_pos rfl, ← hadd, if_pos (by norm_num), Nat.add_comm]

theorem sequenceMasked_eq (n : Int) :
    sequenceMasked n = sequenceValue n + (if sequenceTimed n then 0x400000 else 0) ∧ sequenceValue n < 0x400000 := by
  have h := and_mask (BitVec.ofInt 64 n).toNat
  have htimed : sequenceTimed n = true ↔ (BitVec.ofInt 64 n).toNat &&& 0x400000 ≠ 0 := by
    rw [sequenceTimed, decide_eq_true_iff, ne_eq, ← BitVec.toNat_inj]
    rfl
  simp only [htimed]
  exact h

theorem txSequenceMasked_eq (s : Uint32) : (s &&& nLockTimeMask).toNat = (s &&& SEQUENCE_LOCKTIME_MASK).toNat +
      (if s &&& SEQUENCE_LOCKTIME_TYPE_FLAG ≠ 0 then 0x400000 else 0) ∧
        (s &&& SEQUENCE_LOCKTIME_MASK).toNat < 0x400000 := by
  have h := and_mask s.toNat
  have htimed : s &&& SEQUENCE_LOCKTIME_TYPE_FLAG ≠ 0 ↔ s.toNat &&& 0x400000 ≠ 0 := by
    rw [ne_eq, ← BitVec.toNat_inj]
    rfl
  simp only [htimed]
  exact h

theorem checkSequence_iff : checkSequence tx nIn n = true ↔
    ¬ tx.version < 2#32 ∧ (tx.vin.get nIn).nSequence &&& SEQUENCE_LOCKTIME_DISABLE_FLAG = 0 ∧
      (((tx.vin.get nIn).nSequence &&& nLockTimeMask).toNat < 0x400000 ↔ sequenceMasked n < 0x400000) ∧
      sequenceMasked n ≤ ((tx.vin.get nIn).nSequence &&& nLockTimeMask).toNat := by
  have hflag : SEQUENCE_LOCKTIME_TYPE_FLAG.toNat = 0x400000 := rfl
  unfold checkSequence
  simp only [hflag]
  grind

theorem masked_le {s t : Prop} [Decidable s] [Decidable t] {a b : Nat} (ha : a < 0x400000) (hb : b < 0x400000)
    (hkind : b + (if t then 0x400000 else 0) < 0x400000 ↔ a + (if s then 0x400000 else 0) < 0x400000)
    (hle : a + (if s then 0x400000 else 0) ≤ b + (if t then 0x400000 else 0)) : (s ↔ t) ∧ a ≤ b := by
  by_cases hs : s
  · by_cases ht : t
    · simp only [hs, ht, if_true] at hle
      exact ⟨⟨fun _ => ht, fun _ => hs⟩, by omega⟩
    · simp only [hs, ht, if_true, if_false] at hkind
      omega
  · by_cases ht : t
    · simp only [hs, ht, if_true, if_false] at hkind
      omega
    · simp only [hs, ht, if_false] at hle
      exact ⟨⟨fun h => absurd h hs, fun h => absurd h ht⟩, by omega⟩

theorem checkSequence_spec (h : checkSequence tx nIn n = true) :
    tx.version ≥ 2#32 ∧ (tx.vin.get nIn).nSequence &&& SEQUENCE_LOCKTIME_DISABLE_FLAG = 0 ∧
      (sequenceTimed n = true ↔ (tx.vin.get nIn).nSequence &&& SEQUENCE_LOCKTIME_TYPE_FLAG ≠ 0) ∧
      sequenceValue n ≤ ((tx.vin.get nIn).nSequence &&& SEQUENCE_LOCKTIME_MASK).toNat := by
  obtain ⟨hversion, hdisabled, hkind, hle⟩ := checkSequence_iff.mp h
  obtain ⟨hn, hnlt⟩ := sequenceMasked_eq n
  obtain ⟨htx, htxlt⟩ := txSequenceMasked_eq (tx.vin.get nIn).nSequence
  rw [hn, htx] at hkind hle
  exact ⟨BitVec.not_lt.mp hversion, hdisabled, masked_le hnlt htxlt hkind hle⟩

/-! ## Sequence locks -/

theorem calculateSequenceLocks_cons (block : CBlockIndex) (locks : Int × Int) (txin : CTxIn) (nCoinHeight : Int)
    (l : List (CTxIn × Int)) :
    calculateSequenceLocks block locks ((txin, nCoinHeight) :: l) =
      if txin.nSequence &&& SEQUENCE_LOCKTIME_DISABLE_FLAG ≠ 0 then calculateSequenceLocks block locks l
      else if txin.nSequence &&& SEQUENCE_LOCKTIME_TYPE_FLAG ≠ 0 then do
        let ancestor ← block.getAncestor (max (nCoinHeight - 1) 0)
        check !ancestor.isNull
        calculateSequenceLocks block
          (locks.1, max locks.2
            (ancestor.getMedianTimePast + (txin.nSequence &&& SEQUENCE_LOCKTIME_MASK).toNat * 512 - 1)) l
      else calculateSequenceLocks block
        (max locks.1 (nCoinHeight + (txin.nSequence &&& SEQUENCE_LOCKTIME_MASK).toNat - 1), locks.2) l := rfl

theorem calculateSequenceLocks_le
    (h : calculateSequenceLocks block locks l = .ok r) : locks.1 ≤ r.1 ∧ locks.2 ≤ r.2 := by
  induction l generalizing locks with
  | nil =>
    cases h
    exact ⟨le_rfl, le_rfl⟩
  | cons p l ih =>
    obtain ⟨_, _⟩ := p
    rw [calculateSequenceLocks_cons] at h
    split at h
    · exact ih h
    · split at h
      · obtain ⟨_, -, h⟩ := bind_ok.mp h
        obtain ⟨_, -, h⟩ := bind_ok.mp h
        obtain ⟨hfirst, hsecond⟩ := ih h
        exact ⟨hfirst, (le_max_left _ _).trans hsecond⟩
      · obtain ⟨hfirst, hsecond⟩ := ih h
        exact ⟨(le_max_left _ _).trans hfirst, hsecond⟩

theorem calculateSequenceLocks_mem
    (h : calculateSequenceLocks block locks l = .ok r) (hmem : (txin, nCoinHeight) ∈ l)
    (hdisabled : txin.nSequence &&& SEQUENCE_LOCKTIME_DISABLE_FLAG = 0) :
    if txin.nSequence &&& SEQUENCE_LOCKTIME_TYPE_FLAG ≠ 0 then
      ∃ ancestor, block.getAncestor (max (nCoinHeight - 1) 0) = .ok ancestor ∧ ancestor.isNull = false ∧
        ancestor.getMedianTimePast + (txin.nSequence &&& SEQUENCE_LOCKTIME_MASK).toNat * 512 - 1 ≤ r.2
    else nCoinHeight + (txin.nSequence &&& SEQUENCE_LOCKTIME_MASK).toNat - 1 ≤ r.1 := by
  induction l generalizing locks with
  | nil => cases hmem
  | cons p l ih =>
    obtain ⟨_, _⟩ := p
    rcases mem_cons.mp hmem with heq | hrest
    · obtain ⟨rfl, rfl⟩ := Prod.mk.inj heq
      rw [calculateSequenceLocks_cons, if_neg (not_not.mpr hdisabled)] at h
      split at h
      · next htype =>
        obtain ⟨ancestor, hancestor, h⟩ := bind_ok.mp h
        obtain ⟨u, hnull, h⟩ := bind_ok.mp h
        rw [if_pos htype]
        refine ⟨ancestor, hancestor, by simpa using check_ok.mp hnull, ?_⟩
        exact (le_max_right _ _).trans (calculateSequenceLocks_le h).2
      · next htype =>
        rw [if_neg htype]
        exact (le_max_right _ _).trans (calculateSequenceLocks_le h).1
    · rw [calculateSequenceLocks_cons] at h
      split at h
      · exact ih h hrest
      · split at h
        · obtain ⟨ancestor, -, h⟩ := bind_ok.mp h
          obtain ⟨u, -, h⟩ := bind_ok.mp h
          exact ih h hrest
        · exact ih h hrest

theorem evaluateSequenceLocks_ok {lockPair : Int × Int} (h : evaluateSequenceLocks block lockPair = .ok true) :
    lockPair.1 < block.nHeight ∧ lockPair.2 < block.pprev.getMedianTimePast := by
  obtain ⟨_, -, h⟩ := bind_ok.mp h
  have hlocks := Except.ok.inj h
  simp only [Bool.not_eq_true', Bool.or_eq_false_iff, decide_eq_false_iff_not, not_le] at hlocks
  exact hlocks

def locksOf (tx : CTransaction) (verifySequence : Bool) (prevHeights : List Int)
    (block : CBlockIndex) : Checked (Int × Int) :=
  if tx.version ≥ 2#32 ∧ verifySequence then calculateSequenceLocks block (-1, -1) (tx.vin.zip prevHeights)
  else .ok (-1, -1)

theorem sequenceLocks_eq (tx : CTransaction) (verifySequence : Bool) (prevHeights : List Int) (block : CBlockIndex) :
    sequenceLocks tx verifySequence prevHeights block =
      locksOf tx verifySequence prevHeights block >>= evaluateSequenceLocks block := by
  unfold sequenceLocks locksOf
  split <;> rfl

theorem checkSequence_waits {prevHeights : List Int}
    (hcoin : prevHeights[nIn.val]? = some nCoinHeight) (hcheck : checkSequence tx nIn n = true)
    (hlocks : sequenceLocks tx true prevHeights block = .ok true) : if sequenceTimed n then
      ∃ ancestor, block.getAncestor (max (nCoinHeight - 1) 0) = .ok ancestor ∧ ancestor.isNull = false ∧
        ancestor.getMedianTimePast + sequenceValue n * 512 ≤ block.pprev.getMedianTimePast
    else nCoinHeight + sequenceValue n ≤ block.nHeight := by
  obtain ⟨hversion, hdisabled, htimed, _⟩ := checkSequence_spec hcheck
  rw [sequenceLocks_eq] at hlocks
  obtain ⟨_, hr, heval⟩ := bind_ok.mp hlocks
  rw [locksOf, if_pos ⟨hversion, rfl⟩] at hr
  have hmem : (tx.vin.get nIn, nCoinHeight) ∈ tx.vin.zip prevHeights := by
    refine mem_of_getElem? (i := nIn.val) ?_
    rw [getElem?_zip_eq_some]
    exact ⟨by simp, hcoin⟩
  have hwait := calculateSequenceLocks_mem hr hmem hdisabled
  obtain ⟨_, _⟩ := evaluateSequenceLocks_ok heval
  simp only [← htimed] at hwait
  split at hwait
  · next h =>
    obtain ⟨ancestor, hancestor, hnull, _⟩ := hwait
    rw [if_pos h]
    exact ⟨ancestor, hancestor, hnull, by omega⟩
  · next h =>
    rw [if_neg h]
    omega

/-- A later block that takes the transaction is beyond its scripts' operands. -/
theorem scriptLocks_enforced (tx : CTransaction) (nIn : Fin tx.vin.length) (n : Int) :
    (∀ nBlockHeight nBlockTime, 1 ≤ nBlockHeight → checkLockTime tx nIn n = true →
      isFinalTx tx nBlockHeight nBlockTime = true →
      n < if n < LOCKTIME_THRESHOLD then nBlockHeight else nBlockTime) ∧
    ∀ block prevHeights nCoinHeight, prevHeights[nIn.val]? = some nCoinHeight → checkSequence tx nIn n = true →
      sequenceLocks tx true prevHeights block = .ok true → if sequenceTimed n then
        ∃ ancestor, block.getAncestor (max (nCoinHeight - 1) 0) = .ok ancestor ∧ ancestor.isNull = false ∧
          ancestor.getMedianTimePast + sequenceValue n * 512 ≤ block.pprev.getMedianTimePast
      else nCoinHeight + sequenceValue n ≤ block.nHeight :=
  ⟨fun _ _ => checkLockTime_beyond, fun _ _ _ => checkSequence_waits⟩

def waitingTx : CTransaction where
  vin := [⟨⟨0, 0⟩, [], 1⟩]
  vout := []
  version := 2
  nLockTime := 0
  hash := 1

def firstBlock : CBlockIndex := .mk ⟨1, 0, 1, 0, 0, 600, 0, 0⟩ .null .null
def secondBlock : CBlockIndex := .mk ⟨2, 1, 2, 0, 0, 1200, 0, 0⟩ firstBlock firstBlock

theorem waitingTx_enforced : ((0 : Int) < if (0 : Int) < LOCKTIME_THRESHOLD then 1 else 600) ∧
    (0 : Int) + (sequenceValue 1 : Int) ≤ secondBlock.nHeight := by
  have h := scriptLocks_enforced waitingTx ⟨0, by decide⟩
  have hsequence := (h 1).2 secondBlock [0] 0 rfl (by decide) (by decide)
  rw [if_neg (by decide)] at hsequence
  exact ⟨(h 0).1 1 600 (by decide) (by decide) (by decide), hsequence⟩

/-- In block zero nothing is below, and high bits do not count. -/
theorem locks_not_literal :
    (checkLockTime waitingTx ⟨0, by decide⟩ 0 = true ∧ isFinalTx waitingTx 0 0 = true ∧ ¬ (0 : Int) < 0) ∧
      (checkSequence waitingTx ⟨0, by decide⟩ 0x10001 = true ∧ sequenceLocks waitingTx true [0] secondBlock = .ok true ∧
      ¬ (0 : Int) + 0x10001 ≤ secondBlock.nHeight) := by
  decide

end FullNode

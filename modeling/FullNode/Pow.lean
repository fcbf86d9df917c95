import FullNode.Params
import Mathlib.Tactic.Positivity

/-!
# Difficulty

The retargeting rules of `pow.cpp`, the check that headers sync makes on them, and
when the two agree.
-/

open FullNode.ArithUint256 FullNode.CBlockIndex

namespace FullNode

def nBlocksToAverage : Nat := 15

/-! ## The code -/

/-- `bn *= time; bn /= span`, not above the limit. `operator*=` takes the low 32 bits. -/
def retarget (bn : ArithUint256) (time span : Int) (powLimit : ArithUint256) : Checked ArithUint256 := do
  let bnNew ← (bn.mulUint32 (BitVec.ofInt 32 time)).div ((BitVec.ofInt 64 span).setWidth 256)
  return if bnNew > powLimit then powLimit else bnNew

def clampTime (time low high : Int) : Int :=
  let time := if time < low then low else time
  if time > high then high else time

def calculateNextWorkRequired (pindexLast : CBlockIndex) (nFirstBlockTime : Int)
    (params : Params) : Checked Uint32 := do
  if params.fPowNoRetargeting then return pindexLast.nBits
  let nActualTimespan := clampTime (pindexLast.getBlockTime - nFirstBlockTime)
    (params.nPowTargetTimespan.tdiv 4) (params.nPowTargetTimespan * 4)
  let nBits ← if params.enforceBIP94 then do
      let interval ← params.difficultyAdjustmentInterval
      let pindexFirst ← pindexLast.getAncestor (pindexLast.nHeight - (interval - 1))
      pure pindexFirst.nBits
    else pure pindexLast.nBits
  let bnNew ← retarget (setCompact nBits).value nActualTimespan params.nPowTargetTimespan params.powLimit
  bnNew.getCompact

def calculateNextWorkRequiredDigiShield (pindexLast : CBlockIndex) (nAverageTime : Int)
    (params : Params) : Checked Uint32 := do
  if params.fPowNoRetargeting then return pindexLast.nBits
  let nTargetTime := params.nPowTargetSpacing
  let nActualTime := clampTime nAverageTime (nTargetTime.tdiv 2) (nTargetTime * 2)
  let bnNew ← retarget (setCompact pindexLast.nBits).value nActualTime nTargetTime params.powLimit
  bnNew.getCompact

/-- The last block not mined under the minimum-difficulty rule. -/
def lastNonSpecial (interval : Int) (nProofOfWorkLimit : Uint32) : CBlockIndex → Checked CBlockIndex
  | null => .ok null
  | mk e null pskip => .ok (mk e null pskip)
  | mk e (mk e' pprev' pskip') pskip => do
    if (← cmod e.nHeight interval) ≠ 0 ∧ e.nBits = nProofOfWorkLimit then
      lastNonSpecial interval nProofOfWorkLimit (mk e' pprev' pskip')
    else return mk e (mk e' pprev' pskip') pskip

/-- The sum of the last `n` block times, or of all there are. -/
def totalTime : Nat → CBlockIndex → Int
  | n + 1, mk e (mk e' pprev' pskip') _ =>
    ((e.nTime.toNat : Int) - e'.nTime.toNat) + totalTime n (mk e' pprev' pskip')
  | _, _ => 0

def averageTime (pindexLast : CBlockIndex) : Int :=
  (totalTime nBlocksToAverage pindexLast).tdiv nBlocksToAverage

def getNextWorkRequired (pindexLast : CBlockIndex) (pblock : CBlockHeader) (params : Params) : Checked Uint32 := do
  check !pindexLast.isNull
  let nProofOfWorkLimit ← getCompact params.powLimit
  if pindexLast.nHeight < nBlocksToAverage then
    let interval ← params.difficultyAdjustmentInterval
    -- Only change once per difficulty adjustment interval.
    if (← cmod (pindexLast.nHeight + 1) interval) ≠ 0 then
      if params.fPowAllowMinDifficultyBlocks then
        if pblock.getBlockTime > pindexLast.getBlockTime + params.nPowTargetSpacing * 2 then
          return nProofOfWorkLimit
        else
          return (← lastNonSpecial interval nProofOfWorkLimit pindexLast).nBits
      return pindexLast.nBits
    let nHeightFirst := pindexLast.nHeight - (interval - 1)
    check (nHeightFirst ≥ 0)
    let pindexFirst ← pindexLast.getAncestor nHeightFirst
    check !pindexFirst.isNull
    calculateNextWorkRequired pindexLast pindexFirst.getBlockTime params
  else
    calculateNextWorkRequiredDigiShield pindexLast (averageTime pindexLast) params

/-- Between the old target scaled by the extreme times, rounded. -/
def transitionInRange (params : Params) (oldNBits newNBits : Uint32)
    (smallestTimespan largestTimespan span : Int) : Checked Bool := do
  let observedNewTarget := (setCompact newNBits).value
  let largest ← retarget (setCompact oldNBits).value largestTimespan span params.powLimit
  let maximumNewTarget := (setCompact (← largest.getCompact)).value
  if maximumNewTarget < observedNewTarget then return false
  let smallest ← retarget (setCompact oldNBits).value smallestTimespan span params.powLimit
  let minimumNewTarget := (setCompact (← smallest.getCompact)).value
  if minimumNewTarget > observedNewTarget then return false
  return true

def permittedDifficultyTransition (params : Params) (height : Int) (oldNBits newNBits : Uint32) : Checked Bool := do
  if params.fPowAllowMinDifficultyBlocks then return true
  if height ≥ nBlocksToAverage then
    transitionInRange params oldNBits newNBits (params.nPowTargetSpacing.tdiv 2)
      (params.nPowTargetSpacing * 2) params.nPowTargetSpacing
  else if (← cmod height (← params.difficultyAdjustmentInterval)) = 0 then
    transitionInRange params oldNBits newNBits (params.nPowTargetTimespan.tdiv 4)
      (params.nPowTargetTimespan * 4) params.nPowTargetTimespan
  else return oldNBits == newNBits

def deriveTarget (nBits : Uint32) (powLimit : Uint256) : Option ArithUint256 :=
  let bnTarget := setCompact nBits
  if bnTarget.fNegative || bnTarget.value == 0 || bnTarget.fOverflow || bnTarget.value > powLimit then
    none
  else some bnTarget.value

def checkProofOfWorkImpl (hash : Uint256) (nBits : Uint32) (params : Params) : Bool :=
  match deriveTarget nBits params.powLimit with
  | none => false
  | some bnTarget => !(hash > bnTarget)

/-! ## Scaling a target -/

theorem ofInt_toNat {w : Nat} (n : Int) (h0 : 0 ≤ n) (h : n.toNat < 2 ^ w) : (BitVec.ofInt w n).toNat = n.toNat := by
  obtain ⟨_, rfl⟩ := Int.eq_ofNat_of_zero_le h0
  simp only [Int.toNat_natCast] at h ⊢
  simp only [BitVec.toNat_ofInt]
  rw [← Int.natCast_emod, Int.toNat_natCast, Nat.mod_eq_of_lt h]

variable (bn limit : ArithUint256)

theorem retarget_spec (time span : Int) (ht : 0 ≤ time) (ht32 : time < 2 ^ 32) (hs : 0 < span) (hs63 : span < 2 ^ 63)
    (hfit : bn.toNat * time.toNat < 2 ^ 256) : ∃ r, retarget bn time span limit = .ok r ∧
      r.toNat = min (bn.toNat * time.toNat / span.toNat) limit.toNat := by
  have htime : ((BitVec.ofInt 32 time).setWidth 256).toNat = time.toNat := by
    rw [BitVec.toNat_setWidth, ofInt_toNat time ht (by omega), Nat.mod_eq_of_lt (by omega)]
  have hspan : ((BitVec.ofInt 64 span).setWidth 256).toNat = span.toNat := by
    rw [BitVec.toNat_setWidth, ofInt_toNat span (by omega) (by omega), Nat.mod_eq_of_lt (by omega)]
  have hne : (BitVec.ofInt 64 span).setWidth 256 ≠ 0 := by
    intro h
    have := congrArg BitVec.toNat h
    rw [hspan] at this
    simp at this
    omega
  set q := bn.mulUint32 (BitVec.ofInt 32 time) / (BitVec.ofInt 64 span).setWidth 256 with hq
  have hqn : q.toNat = bn.toNat * time.toNat / span.toNat := by
    rw [hq, BitVec.toNat_udiv, mulUint32, BitVec.toNat_mul, htime, hspan, Nat.mod_eq_of_lt hfit]
  refine ⟨if q > limit then limit else q, ?_, ?_⟩
  · rw [retarget, ArithUint256.div, if_neg hne]
    rfl
  · rw [← hqn]
    split
    · next h => rw [min_eq_right (BitVec.le_of_lt h)]
    · next h => rw [min_eq_left (BitVec.not_lt.mp h)]

/-! ## The range check -/

variable {params : Params} {oldNBits newNBits : Uint32}

theorem transitionInRange_eq {smallest largest : Int} {low high : ArithUint256}
    (hhigh : retarget (setCompact oldNBits).value largest span params.powLimit = .ok high)
    (hlow : retarget (setCompact oldNBits).value smallest span params.powLimit = .ok low) :
    transitionInRange params oldNBits newNBits smallest largest span =
      .ok (decide (low.rounded.toNat ≤ (setCompact newNBits).value.toNat ∧
        (setCompact newNBits).value.toNat ≤ high.rounded.toNat)) := by
  unfold transitionInRange
  simp only [hhigh, hlow, getCompact_eq, setCompact_compact, bind, Except.bind]
  by_cases h1 : high.rounded < (setCompact newNBits).value
  · have : ¬ (setCompact newNBits).value.toNat ≤ high.rounded.toNat := not_le.mpr h1
    simp [h1, this, pure, Except.pure]
  · have h1' : (setCompact newNBits).value.toNat ≤ high.rounded.toNat := not_lt.mp h1
    by_cases h2 : low.rounded > (setCompact newNBits).value
    · have : ¬ low.rounded.toNat ≤ (setCompact newNBits).value.toNat := not_le.mpr h2
      simp [h1, h2, this, pure, Except.pure]
    · have h2' : low.rounded.toNat ≤ (setCompact newNBits).value.toNat := not_lt.mp h2
      simp [h1, h2, h1', h2', pure, Except.pure]

/-- Times, and a target that scales by them without overflow. -/
structure Scales (bn : ArithUint256) (smallest largest span : Int) : Prop where
  smallest_nonneg : 0 ≤ smallest
  largest_lt : largest < 2 ^ 32
  span_pos : 0 < span
  span_lt : span < 2 ^ 63
  fits : bn.toNat * largest.toNat < 2 ^ 256

/-- The target that `retarget` computes, as a number. -/
def scaled (bn limit : ArithUint256) (time span : Int) : Nat :=
  min (bn.toNat * time.toNat / span.toNat) limit.toNat

theorem scaled_mono {t u : Int} (h : t ≤ u) : scaled bn limit t span ≤ scaled bn limit u span := by
  have htu : t.toNat ≤ u.toNat := by omega
  exact min_le_min_right _ (Nat.div_le_div_right (Nat.mul_le_mul_left _ htu))

theorem scaled_span (hs : 0 < span) (h : bn.toNat ≤ limit.toNat) : scaled bn limit span span = bn.toNat := by
  rw [scaled, Nat.mul_div_cancel _ (by omega), min_eq_left h]

variable {bn : ArithUint256} {smallest largest span time : Int} {low high : Int}

theorem Scales.retarget (h : Scales bn smallest largest span) (limit : ArithUint256)
    (hlow : smallest ≤ time) (hhigh : time ≤ largest) :
    ∃ r, retarget bn time span limit = .ok r ∧ r.toNat = scaled bn limit time span := by
  have hnonneg := h.smallest_nonneg
  have hlt := h.largest_lt
  have hle : time.toNat ≤ largest.toNat := by omega
  have hfit : bn.toNat * time.toNat < 2 ^ 256 := lt_of_le_of_lt (Nat.mul_le_mul_left _ hle) h.fits
  exact retarget_spec bn limit time span (by omega) (by omega) h.span_pos h.span_lt hfit

section

variable (h : Scales (setCompact oldNBits).value smallest largest span)
include h

/-- A number between the scaled bounds passes, rounded. -/
theorem transitionInRange_between (horder : smallest ≤ largest)
    (r : ArithUint256) (hnew : (setCompact newNBits).value = r.rounded)
    (hlow : scaled (setCompact oldNBits).value params.powLimit smallest span ≤ r.toNat)
    (hhigh : r.toNat ≤ scaled (setCompact oldNBits).value params.powLimit largest span) :
    transitionInRange params oldNBits newNBits smallest largest span = .ok true := by
  obtain ⟨high, hhigheq, hhighn⟩ := h.retarget params.powLimit horder le_rfl
  obtain ⟨low, hloweq, hlown⟩ := h.retarget params.powLimit le_rfl horder
  rw [transitionInRange_eq hhigheq hloweq, hnew]
  have h1 : low.rounded.toNat ≤ r.rounded.toNat := rounded_mono low r (by rw [hlown]; exact hlow)
  have h2 : r.rounded.toNat ≤ high.rounded.toNat := rounded_mono r high (by rw [hhighn]; exact hhigh)
  simp [h1, h2]

theorem transitionInRange_scaled (hlow : smallest ≤ time)
    (hhigh : time ≤ largest) {r : ArithUint256} (hnew : newNBits = r.compact)
    (hr : r.toNat = scaled (setCompact oldNBits).value params.powLimit time span) :
    transitionInRange params oldNBits newNBits smallest largest span = .ok true := by
  have hval : (setCompact newNBits).value = r.rounded := by rw [hnew, setCompact_compact]
  refine transitionInRange_between h (le_trans hlow hhigh) r hval ?_ ?_
  · rw [hr]
    exact scaled_mono _ _ hlow
  · rw [hr]
    exact scaled_mono _ _ hhigh

end

/-! ## The next target, rule by rule -/

theorem clampTime_low_le (h : low ≤ high) (t : Int) : low ≤ clampTime t low high := by
  unfold clampTime
  simp only
  split_ifs <;> omega

theorem clampTime_le_high (h : low ≤ high) (t : Int) : clampTime t low high ≤ high := by
  unfold clampTime
  simp only
  split_ifs <;> omega

end FullNode

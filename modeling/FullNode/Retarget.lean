import FullNode.Pow

/-! # Chains built by the retargeting rule -/

open FullNode.ArithUint256 FullNode.CBlockIndex

namespace FullNode

/-- A chain whose bits are those required for its headers. -/
inductive Produced (params : Params) (genesisBits : Uint32) : CBlockIndex → Prop
  | genesis (e : BlockEntry) (hheight : e.nHeight = 0) (hbits : e.nBits = genesisBits) :
    Produced params genesisBits (mk e null null)
  | next (e : BlockEntry) (pprev pskip : CBlockIndex) (header : CBlockHeader)
      (hprev : Produced params genesisBits pprev) (hheight : e.nHeight = pprev.nHeight + 1)
      (hskip : buildSkip e.nHeight pprev = .ok pskip) (htime : header.nTime = e.nTime)
      (hbits : getNextWorkRequired pprev header params = .ok e.nBits) : Produced params genesisBits (mk e pprev pskip)

variable {params : Params} {genesisBits : Uint32} {b : CBlockIndex}

section

variable (h : Produced params genesisBits b)
include h

theorem Produced.ne_null : b ≠ null := by
  cases h <;> simp

theorem Produced.isNull : b.isNull = false := by
  cases h <;> rfl

theorem Produced.linked : Linked b := by
  induction h with
  | genesis e hheight _ => exact ⟨trivial, hheight, rfl⟩
  | next e pprev pskip header hprev hheight hskip _ _ ih =>
    exact ⟨ih, by simpa [hprev.isNull] using hheight, hskip⟩

end

def CompactBelow (limit : ArithUint256) (nBits : Uint32) : Prop :=
  ∃ x : ArithUint256, x.toNat ≤ limit.toNat ∧ nBits = x.compact

variable {limit : ArithUint256} {nBits : Uint32} {hash : Uint256}

section

variable (h : CompactBelow limit nBits)
include h

theorem CompactBelow.value_le : (setCompact nBits).value.toNat ≤ limit.toNat := by
  obtain ⟨x, hx, rfl⟩ := h
  rw [setCompact_compact]
  exact le_trans x.rounded_le hx

theorem CompactBelow.value_rounded : (setCompact nBits).value.rounded = (setCompact nBits).value := by
  obtain ⟨x, -, rfl⟩ := h
  rw [setCompact_compact]
  exact x.rounded_rounded

theorem CompactBelow.deriveTarget (hpos : 0 < (setCompact nBits).value.toNat) :
    deriveTarget nBits limit = some (setCompact nBits).value := by
  have hle := h.value_le
  obtain ⟨x, -, rfl⟩ := h
  rw [setCompact_compact] at hpos hle ⊢
  have hne : x.rounded ≠ 0#256 := by
    intro h0
    rw [h0] at hpos
    simp at hpos
  have hgt : ¬ x.rounded > limit := BitVec.not_lt.mpr hle
  simp [deriveTarget, setCompact_compact, hne, hgt]

end

theorem transitionInRange_same {smallest largest span : Int} (hb : CompactBelow params.powLimit nBits)
    (h : Scales (setCompact nBits).value smallest largest span)
    (hlow : smallest ≤ span) (hhigh : span ≤ largest) :
    transitionInRange params nBits nBits smallest largest span = .ok true := by
  have hspan := scaled_span (setCompact nBits).value params.powLimit h.span_pos hb.value_le
  refine transitionInRange_between h (le_trans hlow hhigh) _ hb.value_rounded.symm ?_ ?_
  · rw [← hspan]
    exact scaled_mono _ _ hlow
  · conv_lhs => rw [← hspan]
    exact scaled_mono _ _ hhigh

/-! ## DigiShield -/

def DigiShieldScales (params : Params) (nBits : Uint32) : Prop :=
  Scales (setCompact nBits).value (params.nPowTargetSpacing.tdiv 2) (params.nPowTargetSpacing * 2)
    params.nPowTargetSpacing

theorem digiShield_spec (avg : Int) (hno : params.fPowNoRetargeting = false)
    (h : DigiShieldScales params b.nBits) : ∃ r : ArithUint256, calculateNextWorkRequiredDigiShield b avg params =
      .ok r.compact ∧ r.toNat = scaled (setCompact b.nBits).value params.powLimit
        (clampTime avg (params.nPowTargetSpacing.tdiv 2) (params.nPowTargetSpacing * 2))
        params.nPowTargetSpacing ∧ transitionInRange params b.nBits r.compact (params.nPowTargetSpacing.tdiv 2)
        (params.nPowTargetSpacing * 2) params.nPowTargetSpacing = .ok true := by
  have hspan := h.span_pos
  have horder : params.nPowTargetSpacing.tdiv 2 ≤ params.nPowTargetSpacing * 2 := by
    have := Int.tdiv_le_self 2 (by omega : 0 ≤ params.nPowTargetSpacing)
    omega
  have hlow := clampTime_low_le horder avg
  have hhigh := clampTime_le_high horder avg
  obtain ⟨r, hr, hrn⟩ := h.retarget params.powLimit hlow hhigh
  refine ⟨r, ?_, hrn, transitionInRange_scaled h hlow hhigh rfl hrn⟩
  simp only [calculateNextWorkRequiredDigiShield, hno, hr, getCompact_eq, Bool.false_eq_true, if_false, bind,
    Except.bind]

/-! ## The early rule -/

theorem calculateNextWorkRequired_spec (first : Int) (hno : params.fPowNoRetargeting = false)
    (hbip94 : params.enforceBIP94 = false)
    (h : Scales (setCompact b.nBits).value (params.nPowTargetTimespan.tdiv 4)
      (params.nPowTargetTimespan * 4) params.nPowTargetTimespan) :
    ∃ r : ArithUint256, calculateNextWorkRequired b first params = .ok r.compact ∧
      r.toNat = scaled (setCompact b.nBits).value params.powLimit
        (clampTime (b.getBlockTime - first) (params.nPowTargetTimespan.tdiv 4)
          (params.nPowTargetTimespan * 4)) params.nPowTargetTimespan ∧
      transitionInRange params b.nBits r.compact (params.nPowTargetTimespan.tdiv 4)
        (params.nPowTargetTimespan * 4) params.nPowTargetTimespan = .ok true := by
  have hspan := h.span_pos
  have horder : params.nPowTargetTimespan.tdiv 4 ≤ params.nPowTargetTimespan * 4 := by
    have := Int.tdiv_le_self 4 (by omega : 0 ≤ params.nPowTargetTimespan)
    omega
  have hlow := clampTime_low_le horder (b.getBlockTime - first)
  have hhigh := clampTime_le_high horder (b.getBlockTime - first)
  obtain ⟨r, hr, hrn⟩ := h.retarget params.powLimit hlow hhigh
  refine ⟨r, ?_, hrn, transitionInRange_scaled h hlow hhigh rfl hrn⟩
  simp only [calculateNextWorkRequired, hno, hbip94, hr, getCompact_eq, Bool.false_eq_true,
    if_false, bind, Except.bind, pure, Except.pure]

theorem totalTime_eq (n : Nat) (hb : Linked b) (h : n ≤ b.nHeight) (hne : b ≠ null) :
    totalTime n b = b.getBlockTime - (b.ancestor (b.nHeight - n)).getBlockTime := by
  induction b generalizing n with
  | null => exact absurd rfl hne
  | mk e p s ihp _ =>
    obtain ⟨hp, hheight, -⟩ := hb
    cases n with
    | zero => simp [totalTime, ancestor]
    | succ n =>
      cases p with
      | null => simp [CBlockIndex.isNull] at hheight; simp at h; omega
      | mk e' p' s' =>
        simp only [CBlockIndex.isNull, nHeight_mk, Bool.false_eq_true, if_false] at hheight h
        have ih := ihp n hp (by simp only [nHeight_mk]; omega) (by simp)
        have hanc : (mk e (mk e' p' s') s).ancestor (e.nHeight - (n + 1)) =
            (mk e' p' s').ancestor (e'.nHeight - n) := by
          rw [ancestor_mk _ _ _ _ (by omega), show e.nHeight - (n + 1) = e'.nHeight - n by omega]
        simp only [totalTime, nHeight_mk, hanc, getBlockTime_mk] at ih ⊢
        omega

/-! ## Which rule applies -/

section Rules

variable {interval : Int} (header : CBlockHeader)
  (hnomin : params.fPowAllowMinDifficultyBlocks = false)
  (hint : params.difficultyAdjustmentInterval = .ok interval) (hpos : 0 < interval)

theorem cmod_of_pos (a : Int) {m : Int} (h : 0 < m) : cmod a m = .ok (a.tmod m) := if_neg (by omega)

include hnomin hint hpos in
theorem getNextWorkRequired_keep (hne : b.isNull = false) (hlow : b.nHeight < nBlocksToAverage)
    (hdvd : ¬ interval ∣ (b.nHeight : Int) + 1) : getNextWorkRequired b header params = .ok b.nBits := by
  have hmod : ((b.nHeight : Int) + 1).tmod interval ≠ 0 := fun h => hdvd (Int.dvd_of_tmod_eq_zero h)
  simp [getNextWorkRequired, hne, getCompact_eq, hlow, hint, cmod_of_pos _ hpos, hmod, hnomin, bind, Except.bind,
    pure, Except.pure]

include hint hpos in
theorem getNextWorkRequired_interval (hb : Linked b) (hne : b.isNull = false)
    (hlow : b.nHeight < nBlocksToAverage) (hdvd : interval ∣ (b.nHeight : Int) + 1) :
    getNextWorkRequired b header params =
      calculateNextWorkRequired b (b.ancestor (b.nHeight + 1 - interval.toNat)).getBlockTime params := by
  have hmod : ((b.nHeight : Int) + 1).tmod interval = 0 := Int.tmod_eq_zero_of_dvd hdvd
  have hle : interval ≤ (b.nHeight : Int) + 1 := Int.le_of_dvd (by omega) hdvd
  have hfirst : (b.nHeight : Int) - (interval - 1) = (b.nHeight + 1 - interval.toNat : Nat) := by omega
  have hnull : b ≠ null := by
    rintro rfl
    exact absurd hne (by simp [CBlockIndex.isNull])
  obtain ⟨hane, -, -⟩ := hb.ancestor_spec hnull (by omega : b.nHeight + 1 - interval.toNat ≤ b.nHeight)
  have hisNull : (b.ancestor (b.nHeight + 1 - interval.toNat)).isNull = false := by
    simpa using mt (isNull_iff _).mp hane
  have hanc := hb.getAncestor_eq hnull (by omega : b.nHeight + 1 - interval.toNat ≤ b.nHeight)
  simp [getNextWorkRequired, hne, getCompact_eq, hlow, hint, cmod_of_pos _ hpos, hmod, hfirst, hanc, hisNull, bind,
    Except.bind]

theorem getNextWorkRequired_late (hne : b.isNull = false) (hhigh : nBlocksToAverage ≤ b.nHeight) :
    getNextWorkRequired b header params = calculateNextWorkRequiredDigiShield b (averageTime b) params := by
  simp [getNextWorkRequired, hne, getCompact_eq, Nat.not_lt.mpr hhigh, bind, Except.bind]

variable {height : Int} {oldNBits newNBits : Uint32}

include hnomin in
theorem permitted_late (h : nBlocksToAverage ≤ height) : permittedDifficultyTransition params height oldNBits newNBits =
    transitionInRange params oldNBits newNBits (params.nPowTargetSpacing.tdiv 2)
      (params.nPowTargetSpacing * 2) params.nPowTargetSpacing := by
  simp [permittedDifficultyTransition, hnomin, h]

include hnomin hint hpos in
theorem permitted_interval (h : height < nBlocksToAverage) (hdvd : interval ∣ height) :
    permittedDifficultyTransition params height oldNBits newNBits =
      transitionInRange params oldNBits newNBits (params.nPowTargetTimespan.tdiv 4)
        (params.nPowTargetTimespan * 4) params.nPowTargetTimespan := by
  have hmod : height.tmod interval = 0 := Int.tmod_eq_zero_of_dvd hdvd
  simp [permittedDifficultyTransition, hnomin, not_le.mpr h, hint, cmod_of_pos _ hpos, hmod, bind, Except.bind]

include hnomin hint hpos in
theorem permitted_keep (h : height < nBlocksToAverage) (hdvd : ¬ interval ∣ height) :
    permittedDifficultyTransition params height oldNBits oldNBits = .ok true := by
  have hmod : height.tmod interval ≠ 0 := fun h => hdvd (Int.dvd_of_tmod_eq_zero h)
  simp [permittedDifficultyTransition, hnomin, not_le.mpr h, hint, cmod_of_pos _ hpos, hmod, bind, Except.bind,
    pure, Except.pure]

end Rules

/-! ## The main network -/

theorem main_interval (hash : Uint256) : (mainParams hash).difficultyAdjustmentInterval = .ok 120 := rfl

theorem main_spacing (hash : Uint256) : (mainParams hash).nPowTargetSpacing = 30 := rfl

theorem main_scales (h : CompactBelow (mainParams hash).powLimit nBits) : DigiShieldScales (mainParams hash) nBits := by
  have hle := h.value_le
  have hlimit : (mainParams hash).powLimit.toNat < 2 ^ 239 := by
    simp only [mainParams]
    decide
  rw [DigiShieldScales, main_spacing]
  refine ⟨by decide, by decide, by decide, by decide, ?_⟩
  have h60 : ((30 : Int) * 2).toNat = 60 := rfl
  rw [h60]
  omega

theorem main_not_dvd (hlow : b.nHeight < nBlocksToAverage) : ¬ (120 : Int) ∣ (b.nHeight : Int) + 1 := by
  simp only [nBlocksToAverage] at hlow
  omega

/-- The next bits exist, stay below the limit, and are permitted. -/
theorem main_next_spec (header : CBlockHeader) (hne : b.isNull = false)
    (hb : CompactBelow (mainParams hash).powLimit b.nBits) :
    ∃ nBits, getNextWorkRequired b header (mainParams hash) = .ok nBits ∧
      CompactBelow (mainParams hash).powLimit nBits ∧
      permittedDifficultyTransition (mainParams hash) ((b.nHeight : Int) + 1) b.nBits nBits = .ok true := by
  have hnomin : (mainParams hash).fPowAllowMinDifficultyBlocks = false := rfl
  have hscale := main_scales hb
  rcases Nat.lt_or_ge b.nHeight nBlocksToAverage with hlow | hhigh
  · have hdvd := main_not_dvd hlow
    refine ⟨b.nBits, getNextWorkRequired_keep header hnomin (main_interval hash) (by decide) hne hlow hdvd, hb, ?_⟩
    rcases lt_or_ge ((b.nHeight : Int) + 1) nBlocksToAverage with hcut | hcut
    · exact permitted_keep hnomin (main_interval hash) (by decide) hcut hdvd
    · -- At height 14 the old rule computes the bits and the new rule checks them.
      rw [permitted_late hnomin hcut]
      exact transitionInRange_same hb hscale (by rw [main_spacing]; decide) (by rw [main_spacing]; decide)
  · obtain ⟨r, hr, hrn, hpermitted⟩ := digiShield_spec (averageTime b) rfl hscale
    refine ⟨r.compact, ?_, ⟨r, by rw [hrn]; exact min_le_right _ _, rfl⟩, ?_⟩
    · rw [getNextWorkRequired_late header hne hhigh, hr]
    · rw [permitted_late hnomin (by omega)]
      exact hpermitted

theorem main_genesisBits (hash : Uint256) : mainGenesisBits = compact (mainParams hash).powLimit := by
  simp only [mainParams]
  decide

theorem Produced.main_compactBelow (h : Produced (mainParams hash) mainGenesisBits b) :
    CompactBelow (mainParams hash).powLimit b.nBits := by
  induction h with
  | genesis e _ hbits => exact ⟨(mainParams hash).powLimit, le_rfl, by rw [nBits_mk, hbits, main_genesisBits]⟩
  | next e pprev pskip header hprev _ _ _ hbits ih =>
    obtain ⟨nBits, heq, hbelow, -⟩ := main_next_spec header hprev.isNull ih
    rw [heq] at hbits
    rw [nBits_mk, ← Except.ok.inj hbits]
    exact hbelow

end FullNode

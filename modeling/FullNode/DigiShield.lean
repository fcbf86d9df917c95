import FullNode.Retarget

/-! # What DigiShield reads of the window -/

open FullNode.ArithUint256 FullNode.CBlockIndex

namespace FullNode

variable {params : Params} {b b' : CBlockIndex}

def windowTime (pindexLast : CBlockIndex) : Int :=
  pindexLast.getBlockTime - (pindexLast.ancestor (pindexLast.nHeight - nBlocksToAverage)).getBlockTime

theorem averageTime_eq (hb : Linked b) (hheight : nBlocksToAverage ≤ b.nHeight) :
    averageTime b = (windowTime b).tdiv nBlocksToAverage := by
  have hne : b ≠ null := by
    rintro rfl
    exact absurd hheight (by decide)
  rw [averageTime, totalTime_eq nBlocksToAverage hb hheight hne, windowTime]

theorem getNextWorkRequired_window (header : CBlockHeader) (hb : Linked b) (hheight : nBlocksToAverage ≤ b.nHeight) :
    getNextWorkRequired b header params =
      calculateNextWorkRequiredDigiShield b ((windowTime b).tdiv nBlocksToAverage) params := by
  have hne : b.isNull = false := by
    cases b with
    | null => exact absurd hheight (by decide)
    | mk => rfl
  rw [getNextWorkRequired_late header hne hheight, averageTime_eq hb hheight]

/-! ## Order -/

theorem clampTime_mono {low high t u : Int} (h : t ≤ u) : clampTime t low high ≤ clampTime u low high := by
  unfold clampTime
  simp only
  split_ifs <;> omega

theorem clampTime_of_mem {low high t : Int} (hlow : low ≤ t) (hhigh : t ≤ high) : clampTime t low high = t := by
  unfold clampTime
  simp only
  rw [if_neg (by omega), if_neg (by omega)]

theorem digiShield_mono {avg avg' : Int} (hno : params.fPowNoRetargeting = false)
    (h : DigiShieldScales params b.nBits) (hbits : b.nBits = b'.nBits) (havg : avg ≤ avg') :
    ∃ nBits nBits', calculateNextWorkRequiredDigiShield b avg params = .ok nBits ∧
      calculateNextWorkRequiredDigiShield b' avg' params = .ok nBits' ∧
      (setCompact nBits).value.toNat ≤ (setCompact nBits').value.toNat := by
  obtain ⟨r, hr, hrn, -⟩ := digiShield_spec avg hno h
  rw [hbits] at h hrn
  obtain ⟨r', hr', hrn', -⟩ := digiShield_spec avg' hno h
  refine ⟨r.compact, r'.compact, hr, hr', ?_⟩
  rw [setCompact_compact, setCompact_compact]
  apply rounded_mono
  rw [hrn, hrn']
  exact scaled_mono _ _ (clampTime_mono havg)

theorem digiShield_spacing (hno : params.fPowNoRetargeting = false) (h : DigiShieldScales params b.nBits)
    (hcanonical : CompactBelow params.powLimit b.nBits) :
    calculateNextWorkRequiredDigiShield b params.nPowTargetSpacing params = .ok b.nBits := by
  have hspan := h.span_pos
  have hhalf : params.nPowTargetSpacing.tdiv 2 ≤ params.nPowTargetSpacing := Int.tdiv_le_self 2 (by omega)
  obtain ⟨r, hr, hrn, -⟩ := digiShield_spec params.nPowTargetSpacing hno h
  rw [clampTime_of_mem hhalf (by omega), scaled_span _ _ hspan hcanonical.value_le] at hrn
  have hsame : r = (setCompact b.nBits).value := BitVec.eq_of_toNat_eq hrn
  obtain ⟨_, -, hx⟩ := hcanonical
  rw [hr, hsame, hx, setCompact_compact, compact_rounded]

/-! ## The next bits -/

/-- The next bits depend on the window's ends, within the spacing. -/
theorem getNextWorkRequired_digiShield :
    (∀ (params : Params) (b : CBlockIndex) (header : CBlockHeader), Linked b → nBlocksToAverage ≤ b.nHeight →
      getNextWorkRequired b header params =
        calculateNextWorkRequiredDigiShield b ((windowTime b).tdiv nBlocksToAverage) params) ∧
    (∀ (hash : Uint256) (b b' : CBlockIndex) (header header' : CBlockHeader), Linked b → Linked b' →
      nBlocksToAverage ≤ b.nHeight → nBlocksToAverage ≤ b'.nHeight → b.nBits = b'.nBits →
      CompactBelow (mainParams hash).powLimit b.nBits → windowTime b ≤ windowTime b' →
      ∃ nBits nBits', getNextWorkRequired b header (mainParams hash) = .ok nBits ∧
        getNextWorkRequired b' header' (mainParams hash) = .ok nBits' ∧
        (setCompact nBits).value.toNat ≤ (setCompact nBits').value.toNat) ∧
    ∀ (hash : Uint256) (b : CBlockIndex) (header : CBlockHeader), Linked b → nBlocksToAverage ≤ b.nHeight →
      CompactBelow (mainParams hash).powLimit b.nBits →
        (windowTime b).tdiv nBlocksToAverage = (mainParams hash).nPowTargetSpacing →
      getNextWorkRequired b header (mainParams hash) = .ok b.nBits := by
  refine ⟨fun params b header => getNextWorkRequired_window header, ?_, ?_⟩
  · intro hash b b' header header' hb hb' hheight hheight' hbits hcanonical htime
    rw [getNextWorkRequired_window header hb hheight, getNextWorkRequired_window header' hb' hheight']
    apply digiShield_mono rfl (main_scales hcanonical) hbits
    exact Int.tdiv_le_tdiv (by decide) htime
  · intro hash b header hb hheight hcanonical htime
    rw [getNextWorkRequired_window header hb hheight, htime]
    exact digiShield_spacing rfl (main_scales hcanonical) hcanonical

end FullNode

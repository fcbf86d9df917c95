import FullNode.Retarget

/-!
# Signet block times

`-signetblocktime` is any positive number. A chain on such a network can be extended
unless the step is one of three kinds that `StepClear` excludes.
-/

open FullNode.ArithUint256 FullNode.CBlockIndex

namespace FullNode.Signet

variable {hash : Uint256} {spacing : Int} {b : CBlockIndex}

/-- The next bits are computed, and headers sync permits them. -/
def Extendable (params : Params) (b : CBlockIndex) (header : CBlockHeader) : Prop :=
  ∃ nBits target, getNextWorkRequired b header params = .ok nBits ∧ deriveTarget nBits params.powLimit = some target ∧
    permittedDifficultyTransition params ((b.nHeight : Int) + 1) b.nBits nBits = .ok true

def target (b : CBlockIndex) : Nat := (setCompact b.nBits).value.toNat

def elapsed (n : Nat) (b : CBlockIndex) : Int :=
  b.getBlockTime - (b.ancestor (b.nHeight - n)).getBlockTime

def AtCutoff (spacing : Int) (b : CBlockIndex) : Prop := b.nHeight = 14 ∧ 1209600 / spacing ∣ 15

structure StepClear (spacing : Int) (b : CBlockIndex) : Prop where
  /-- Else the interval is zero. -/
  interval : spacing ≤ 1209600
  /-- Else DigiShield scales the target to zero. -/
  late : 15 ≤ b.nHeight → ¬ (spacing % 2 = 1 ∧ (spacing = 1 ∨ target b = 2) ∧ 2 * (elapsed 15 b).tdiv 15 < spacing)
  /-- Else the early rule leaves the range of the new one. -/
  cutoff : AtCutoff spacing b → spacing / 2 * 1209600 ≤ elapsed ((1209600 / spacing).toNat - 1) b * spacing ∧
      (elapsed ((1209600 / spacing).toNat - 1) b ≤ 2 * 1209600 ∨ (sigNetParams 0 spacing).powLimit.toNat ≤ 2 * target b)

/-! ## The parameters -/

theorem sigNet_interval (hpos : 0 < spacing) :
    (sigNetParams hash spacing).difficultyAdjustmentInterval = .ok (1209600 / spacing) := by
  have hspan : (sigNetParams hash spacing).nPowTargetTimespan = 1209600 := rfl
  have hspacing : (sigNetParams hash spacing).nPowTargetSpacing = spacing := rfl
  rw [Params.difficultyAdjustmentInterval, cdiv, hspan, hspacing, if_neg (by omega),
    Int.tdiv_eq_ediv_of_nonneg (by omega)]

theorem sigNet_powLimit : (sigNetParams hash spacing).powLimit.toNat = 227246 * 2 ^ 216 := by
  simp only [sigNetParams]
  decide

theorem sigNet_genesisBits : sigNetGenesisBits = compact (sigNetParams hash spacing).powLimit := by
  simp only [sigNetParams]
  decide

variable {nBits : Uint32}

theorem sigNet_scales (h : CompactBelow (sigNetParams hash spacing).powLimit nBits) :
    Scales (setCompact nBits).value ((sigNetParams hash spacing).nPowTargetTimespan.tdiv 4)
      ((sigNetParams hash spacing).nPowTargetTimespan * 4)
      (sigNetParams hash spacing).nPowTargetTimespan := by
  have hle := h.value_le
  have hspan : (sigNetParams hash spacing).nPowTargetTimespan = 1209600 := rfl
  rw [sigNet_powLimit] at hle
  rw [hspan]
  refine ⟨by decide, by decide, by decide, by decide, ?_⟩
  have h4 : ((1209600 : Int) * 4).toNat = 4838400 := rfl
  rw [h4]
  omega

theorem sigNet_digiShieldScales (hpos : 0 < spacing) (hint : spacing ≤ 1209600)
    (h : CompactBelow (sigNetParams hash spacing).powLimit nBits) :
    DigiShieldScales (sigNetParams hash spacing) nBits := by
  have hle := h.value_le
  have hspacing : (sigNetParams hash spacing).nPowTargetSpacing = spacing := rfl
  rw [sigNet_powLimit] at hle
  rw [DigiShieldScales, hspacing]
  refine ⟨Int.tdiv_nonneg (by omega) (by omega), by omega, hpos, by omega, ?_⟩
  have h2 : (spacing * 2).toNat ≤ 2419200 := by omega
  calc (setCompact nBits).value.toNat * (spacing * 2).toNat
      ≤ 227246 * 2 ^ 216 * 2419200 := Nat.mul_le_mul hle h2
    _ < 2 ^ 256 := by norm_num

/-! ## What a chain keeps -/

variable {bn limit r : ArithUint256} {time : Int} {height : Nat}

theorem four_le_scaled {k : Nat} (hk : 2 ^ (k + 2) ≤ bn.toNat)
    (hlimit : 2 ^ k ≤ limit.toNat) (htime : 302400 ≤ time) : 2 ^ k ≤ scaled bn limit time 1209600 := by
  have ht : 302400 ≤ time.toNat := by omega
  have hmul : 2 ^ (k + 2) * 302400 ≤ bn.toNat * time.toNat := Nat.mul_le_mul hk ht
  have hspan : (1209600 : Int).toNat = 1209600 := rfl
  rw [scaled, hspan]
  refine le_min ?_ hlimit
  rw [Nat.le_div_iff_mul_le (by omega)]
  calc 2 ^ k * 1209600 = 2 ^ (k + 2) * 302400 := by ring
    _ ≤ bn.toNat * time.toNat := hmul

/-- A target below the limit, and in the first blocks a large one. -/
structure Sound (hash : Uint256) (spacing : Int) (height : Nat) (nBits : Uint32) : Prop where
  below : CompactBelow (sigNetParams hash spacing).powLimit nBits
  large : height ≤ 15 → 2 ^ (233 - 2 * height) ≤ (setCompact nBits).value.toNat

theorem two_pow_le_powLimit {k : Nat} (h : k ≤ 233) : 2 ^ k ≤ (sigNetParams hash spacing).powLimit.toNat := by
  calc 2 ^ k ≤ 2 ^ 233 := Nat.pow_le_pow_right (by omega) h
    _ ≤ (sigNetParams hash spacing).powLimit.toNat := by rw [sigNet_powLimit]; norm_num

theorem Sound.genesis : Sound hash spacing 0 sigNetGenesisBits := by
  rw [@sigNet_genesisBits hash spacing]
  refine ⟨⟨_, le_rfl, rfl⟩, fun _ => ?_⟩
  rw [setCompact_compact]
  exact two_pow_le_rounded _ (two_pow_le_powLimit (by omega))

theorem Sound.keep (h : Sound hash spacing height nBits) : Sound hash spacing (height + 1) nBits := by
  refine ⟨h.below, fun hle => le_trans ?_ (h.large (by omega))⟩
  exact Nat.pow_le_pow_right (by omega) (by omega)

theorem Sound.interval (h : Sound hash spacing height nBits) (htime : 302400 ≤ time)
    (hr : r.toNat = scaled (setCompact nBits).value (sigNetParams hash spacing).powLimit time 1209600) :
    Sound hash spacing (height + 1) r.compact := by
  refine ⟨⟨r, by rw [hr]; exact min_le_right _ _, rfl⟩, fun hle => ?_⟩
  rw [setCompact_compact]
  apply two_pow_le_rounded
  rw [hr]
  refine four_le_scaled ?_ (two_pow_le_powLimit (by omega)) htime
  have hlarge := h.large (by omega)
  rw [show 233 - 2 * (height + 1) + 2 = 233 - 2 * height by omega]
  exact hlarge

theorem sigNet_clamp_low (t : Int) : 302400 ≤ clampTime t ((1209600 : Int).tdiv 4) (1209600 * 4) :=
  clampTime_low_le (by decide) t

variable (header : CBlockHeader) (hpos : 0 < spacing) (hint : spacing ≤ 1209600)
include header hpos hint

theorem early_spec (hb : Linked b) (hne : b.isNull = false) (hs : Sound hash spacing b.nHeight b.nBits)
    (hlow : b.nHeight < nBlocksToAverage) : (¬ 1209600 / spacing ∣ (b.nHeight : Int) + 1 ∧
      getNextWorkRequired b header (sigNetParams hash spacing) = .ok b.nBits) ∨
    (1209600 / spacing ∣ (b.nHeight : Int) + 1 ∧ ∃ r : ArithUint256,
      getNextWorkRequired b header (sigNetParams hash spacing) = .ok r.compact ∧
      r.toNat = scaled (setCompact b.nBits).value (sigNetParams hash spacing).powLimit
        (clampTime (elapsed ((1209600 / spacing).toNat - 1) b) ((1209600 : Int).tdiv 4) (1209600 * 4))
        1209600 ∧ transitionInRange (sigNetParams hash spacing) b.nBits r.compact ((1209600 : Int).tdiv 4)
        (1209600 * 4) 1209600 = .ok true) := by
  have hnomin : (sigNetParams hash spacing).fPowAllowMinDifficultyBlocks = false := rfl
  have hipos : 0 < 1209600 / spacing := by
    have := (Int.le_ediv_iff_mul_le (b := 1209600) (a := 1) hpos).mpr (by omega)
    omega
  by_cases hdvd : 1209600 / spacing ∣ (b.nHeight : Int) + 1
  · right
    obtain ⟨r, hr, hrn, hrange⟩ := calculateNextWorkRequired_spec (b := b)
      (b.ancestor (b.nHeight + 1 - (1209600 / spacing).toNat)).getBlockTime rfl rfl
      (sigNet_scales hs.below)
    refine ⟨hdvd, r, ?_, ?_, hrange⟩
    · rw [getNextWorkRequired_interval header (sigNet_interval hpos) hipos hb hne hlow hdvd, hr]
    · rw [hrn, elapsed]
      have : b.nHeight + 1 - (1209600 / spacing).toNat = b.nHeight - ((1209600 / spacing).toNat - 1) := by omega
      rw [this]
      rfl
  · left
    exact ⟨hdvd, getNextWorkRequired_keep header hnomin (sigNet_interval hpos) hipos hne hlow hdvd⟩

theorem late_spec (hne : b.isNull = false) (hs : Sound hash spacing b.nHeight b.nBits)
    (hhigh : nBlocksToAverage ≤ b.nHeight) :
    ∃ r : ArithUint256, getNextWorkRequired b header (sigNetParams hash spacing) = .ok r.compact ∧
      r.toNat = scaled (setCompact b.nBits).value (sigNetParams hash spacing).powLimit
        (clampTime (averageTime b) (spacing.tdiv 2) (spacing * 2)) spacing ∧
      transitionInRange (sigNetParams hash spacing) b.nBits r.compact (spacing.tdiv 2) (spacing * 2)
        spacing = .ok true := by
  obtain ⟨r, hr, hrn, hrange⟩ := digiShield_spec (b := b) (averageTime b) rfl
    (sigNet_digiShieldScales hpos hint hs.below)
  refine ⟨r, ?_, hrn, hrange⟩
  rw [getNextWorkRequired_late header hne hhigh, hr]

theorem Sound.next (hb : Linked b) (hne : b.isNull = false) (hs : Sound hash spacing b.nHeight b.nBits)
    (hnext : getNextWorkRequired b header (sigNetParams hash spacing) = .ok nBits) :
    Sound hash spacing (b.nHeight + 1) nBits := by
  rcases Nat.lt_or_ge b.nHeight nBlocksToAverage with hlow | hhigh
  · rcases early_spec header hpos hint hb hne hs hlow with ⟨-, heq⟩ | ⟨-, r, heq, hrn, -⟩
    · rw [heq] at hnext
      cases hnext
      exact hs.keep
    · rw [heq] at hnext
      cases hnext
      exact hs.interval (sigNet_clamp_low _) hrn
  · obtain ⟨r, heq, hrn, -⟩ := late_spec header hpos hint hne hs hhigh
    rw [heq] at hnext
    cases hnext
    refine ⟨⟨r, by rw [hrn]; exact min_le_right _ _, rfl⟩, fun hle => ?_⟩
    simp only [nBlocksToAverage] at hhigh
    omega

omit header hpos hint

theorem produced_sound (h : Produced (sigNetParams hash spacing) sigNetGenesisBits b)
    (hpos : 0 < spacing) (hint : spacing ≤ 1209600) : Sound hash spacing b.nHeight b.nBits := by
  induction h with
  | genesis e hheight hbits =>
    rw [nHeight_mk, nBits_mk, hheight, hbits]
    exact Sound.genesis
  | next e pprev pskip header hprev hheight _ _ hbits ih =>
    rw [nHeight_mk, nBits_mk, hheight]
    exact ih.next header hpos hint hprev.linked hprev.isNull hbits

/-! ## Spacings above the timespan -/

theorem zero_interval (hbig : 1209600 < spacing) :
    (sigNetParams hash spacing).difficultyAdjustmentInterval = .ok 0 := by
  rw [sigNet_interval (by omega), Int.ediv_eq_zero_of_lt (by omega) hbig]

theorem stops_of_big (header : CBlockHeader) (hbig : 1209600 < spacing) (hne : b.isNull = false)
    (hlow : b.nHeight < nBlocksToAverage) :
    getNextWorkRequired b header (sigNetParams hash spacing) = .error .divisionByZero := by
  simp [getNextWorkRequired, hne, getCompact_eq, hlow, zero_interval hbig, cmod, bind, Except.bind]

theorem height_of_big (h : Produced (sigNetParams hash spacing) sigNetGenesisBits b)
    (hbig : 1209600 < spacing) : b.nHeight = 0 := by
  induction h with
  | genesis e hheight _ => exact hheight
  | next e pprev pskip header hprev _ _ _ hbits ih =>
    rw [stops_of_big header hbig hprev.isNull (by rw [ih]; decide)] at hbits
    cases hbits

/-! ## The next target -/

theorem deriveTarget_zero (limit : ArithUint256) (h : r.toNat = 0) : deriveTarget r.compact limit = none := by
  have h0 : r.rounded = 0#256 := by
    apply BitVec.eq_of_toNat_eq
    have := r.rounded_le
    simp
    omega
  simp [deriveTarget, setCompact_compact, h0]

/-- Targets from two on stay above zero, except at odd spacings. -/
theorem scaled_pos_iff {T : Nat} {avg : Int} (hT : 2 ≤ T) (hpos : 0 < spacing) :
    0 < T * (clampTime avg (spacing.tdiv 2) (spacing * 2)).toNat / spacing.toNat ↔
      ¬ (spacing % 2 = 1 ∧ (spacing = 1 ∨ T = 2) ∧ 2 * avg < spacing) := by
  rw [Nat.div_pos_iff, Int.tdiv_eq_ediv_of_nonneg (by omega)]
  have htwo : 2 * (clampTime avg (spacing / 2) (spacing * 2)).toNat ≤
      T * (clampTime avg (spacing / 2) (spacing * 2)).toNat := Nat.mul_le_mul_right _ hT
  have hclamp : clampTime avg (spacing / 2) (spacing * 2) = spacing / 2 ∧ avg ≤ spacing / 2 ∨
      spacing / 2 < clampTime avg (spacing / 2) (spacing * 2) ∧ spacing / 2 < avg := by
    unfold clampTime
    simp only
    split_ifs <;> omega
  rcases hclamp with ⟨hc, havg⟩ | ⟨hc, havg⟩
  · rw [hc] at htwo ⊢
    by_cases hthree : 3 ≤ T
    · have hmul : 3 * (spacing / 2).toNat ≤ T * (spacing / 2).toNat := Nat.mul_le_mul_right _ hthree
      by_cases hone : spacing = 1
      · subst hone
        simp
        omega
      · simp only [hone, false_or]
        omega
    · have : T = 2 := by omega
      subst this
      omega
  · constructor
    · rintro _ ⟨_, _, _⟩
      omega
    · intro _
      omega

theorem averageTime_eq (hb : Linked b) (hne : b ≠ null) (hhigh : nBlocksToAverage ≤ b.nHeight) :
    averageTime b = (elapsed 15 b).tdiv 15 := by
  unfold averageTime elapsed
  rw [totalTime_eq nBlocksToAverage hb hhigh hne]
  rfl

theorem scaled_pos {span : Int} (hlimit : 0 < limit.toNat) : 0 < scaled bn limit time span ↔
    0 < bn.toNat * time.toNat / span.toNat := by
  unfold scaled
  omega

theorem powLimit_pos : 0 < (sigNetParams hash spacing).powLimit.toNat :=
  lt_of_lt_of_le (by omega) (two_pow_le_powLimit (k := 0) (by omega))

theorem late_extendable_iff (header : CBlockHeader) (hpos : 0 < spacing) (hint : spacing ≤ 1209600)
    (hb : Produced (sigNetParams hash spacing) sigNetGenesisBits b) (htarget : 2 ≤ target b)
    (hhigh : nBlocksToAverage ≤ b.nHeight) : Extendable (sigNetParams hash spacing) b header ↔
      ¬ (spacing % 2 = 1 ∧ (spacing = 1 ∨ target b = 2) ∧ 2 * (elapsed 15 b).tdiv 15 < spacing) := by
  have hs := produced_sound hb hpos hint
  obtain ⟨r, heq, hrn, hrange⟩ := late_spec header hpos hint hb.isNull hs hhigh
  have hiff : 0 < r.toNat ↔
      ¬ (spacing % 2 = 1 ∧ (spacing = 1 ∨ target b = 2) ∧ 2 * (elapsed 15 b).tdiv 15 < spacing) := by
    rw [hrn, scaled_pos powLimit_pos, averageTime_eq hb.linked hb.ne_null hhigh]
    exact scaled_pos_iff htarget hpos
  rw [← hiff]
  constructor
  · rintro ⟨_, _, hnext, hderive, -⟩
    rw [heq] at hnext
    cases hnext
    by_contra h0
    rw [deriveTarget_zero _ (by omega)] at hderive
    cases hderive
  · intro hrpos
    have hbelow : CompactBelow (sigNetParams hash spacing).powLimit r.compact :=
      ⟨r, by rw [hrn]; exact min_le_right _ _, rfl⟩
    refine ⟨r.compact, _, heq, hbelow.deriveTarget ?_, ?_⟩
    · rw [setCompact_compact]
      exact r.rounded_pos hrpos
    · rw [permitted_late rfl (by omega)]
      exact hrange

theorem scaled_half_le (hpos : 0 < spacing) (h : spacing / 2 * 1209600 ≤ time * spacing) :
    scaled bn limit (spacing / 2) spacing ≤ scaled bn limit time 1209600 := by
  unfold scaled
  refine min_le_min_right _ ?_
  obtain ⟨s, rfl⟩ := Int.eq_ofNat_of_zero_le hpos.le
  have htime : 0 ≤ time := by
    by_contra hneg
    have := mul_neg_of_neg_of_pos (not_le.mp hneg) hpos
    omega
  obtain ⟨t, rfl⟩ := Int.eq_ofNat_of_zero_le htime
  have hhalf : ((s : Int) / 2).toNat = s / 2 := by omega
  have hs : 0 < s := by omega
  have h' : s / 2 * 1209600 ≤ t * s := by exact_mod_cast h
  have hspan : (1209600 : Int).toNat = 1209600 := rfl
  rw [hhalf, Int.toNat_natCast, Int.toNat_natCast, hspan, Nat.le_div_iff_mul_le (by omega)]
  refine Nat.le_of_mul_le_mul_right ?_ hs
  calc bn.toNat * (s / 2) / s * 1209600 * s = bn.toNat * (s / 2) / s * s * 1209600 := by ring
    _ ≤ bn.toNat * (s / 2) * 1209600 := Nat.mul_le_mul_right _ (Nat.div_mul_le_self _ _)
    _ = bn.toNat * (s / 2 * 1209600) := by ring
    _ ≤ bn.toNat * (t * s) := Nat.mul_le_mul_left _ h'
    _ = bn.toNat * t * s := by ring

theorem scaled_le_double (hpos : 0 < spacing) (h : time ≤ 2 * 1209600 ∨ limit.toNat ≤ 2 * bn.toNat) :
    scaled bn limit time 1209600 ≤ scaled bn limit (spacing * 2) spacing := by
  have hdouble : bn.toNat * (spacing * 2).toNat / spacing.toNat = 2 * bn.toNat := by
    have : (spacing * 2).toNat = 2 * spacing.toNat := by omega
    rw [this, ← Nat.mul_assoc, Nat.mul_div_cancel _ (by omega), Nat.mul_comm]
  have hspan : (1209600 : Int).toNat = 1209600 := rfl
  unfold scaled
  rw [hdouble, hspan]
  rcases h with h | h
  · refine min_le_min_right _ ?_
    have ht : time.toNat ≤ 2 * 1209600 := by omega
    calc bn.toNat * time.toNat / 1209600 ≤ bn.toNat * (2 * 1209600) / 1209600 :=
          Nat.div_le_div_right (Nat.mul_le_mul_left _ ht)
      _ = 2 * bn.toNat := by omega
  · exact le_trans (min_le_right _ _) (le_min h le_rfl)

/-- In range for an interval of half to twice its time. -/
theorem cutoff_inRange {t : Int} (hpos : 0 < spacing) (hint : spacing ≤ 1209600)
    (hbelow : CompactBelow (sigNetParams hash spacing).powLimit nBits)
    (hlow : spacing / 2 * 1209600 ≤ t * spacing)
    (hhigh : t ≤ 2 * 1209600 ∨ (sigNetParams hash spacing).powLimit.toNat ≤ 2 * (setCompact nBits).value.toNat)
    (hr : r.toNat = scaled (setCompact nBits).value (sigNetParams hash spacing).powLimit
      (clampTime t ((1209600 : Int).tdiv 4) (1209600 * 4)) 1209600) :
    transitionInRange (sigNetParams hash spacing) nBits r.compact (spacing.tdiv 2) (spacing * 2)
      spacing = .ok true := by
  have hclamp : t ≤ clampTime t ((1209600 : Int).tdiv 4) (1209600 * 4) ∨
      clampTime t ((1209600 : Int).tdiv 4) (1209600 * 4) = 1209600 * 4 := by
    unfold clampTime
    simp only
    split_ifs <;> omega
  have hclamp' : t ≤ 2 * 1209600 → clampTime t ((1209600 : Int).tdiv 4) (1209600 * 4) ≤ 2 * 1209600 := by
    have hquarter : (1209600 : Int).tdiv 4 = 302400 := rfl
    unfold clampTime
    intro h
    simp only [hquarter]
    split_ifs <;> omega
  have hval : (setCompact r.compact).value = r.rounded := by rw [setCompact_compact]
  refine transitionInRange_between (sigNet_digiShieldScales hpos hint hbelow)
    (by rw [Int.tdiv_eq_ediv_of_nonneg (by omega)]; omega) r hval ?_ ?_
  · rw [hr, Int.tdiv_eq_ediv_of_nonneg (by omega)]
    apply scaled_half_le hpos
    rcases hclamp with h | h
    · exact le_trans hlow (Int.mul_le_mul_of_nonneg_right h hpos.le)
    · rw [h]
      omega
  · rw [hr]
    exact scaled_le_double hpos (hhigh.imp_left hclamp')

theorem early_extendable (header : CBlockHeader) (hpos : 0 < spacing) (hint : spacing ≤ 1209600)
    (hb : Produced (sigNetParams hash spacing) sigNetGenesisBits b)
    (hlow : b.nHeight < nBlocksToAverage) (hclear : StepClear spacing b) :
    Extendable (sigNetParams hash spacing) b header := by
  have hs := produced_sound hb hpos hint
  have hipos : 0 < 1209600 / spacing := by
    have := (Int.le_ediv_iff_mul_le (b := 1209600) (a := 1) hpos).mpr (by omega)
    omega
  have hlow' : b.nHeight < 15 := hlow
  rcases early_spec header hpos hint hb.linked hb.isNull hs hlow with
    ⟨hdvd, heq⟩ | ⟨hdvd, r, heq, hrn, hrange⟩
  · refine ⟨b.nBits, _, heq, hs.below.deriveTarget ?_, ?_⟩
    · exact lt_of_lt_of_le (Nat.two_pow_pos _) (hs.large (by omega))
    · rcases lt_or_ge ((b.nHeight : Int) + 1) nBlocksToAverage with hcut | hcut
      · exact permitted_keep rfl (sigNet_interval hpos) hipos hcut hdvd
      · rw [permitted_late rfl hcut]
        refine transitionInRange_same hs.below (sigNet_digiShieldScales hpos hint hs.below) ?_ ?_
        · exact Int.tdiv_le_self _ hpos.le
        · have hspacing : (sigNetParams hash spacing).nPowTargetSpacing = spacing := rfl
          rw [hspacing]
          omega
  · have hs' := hs.next header hpos hint hb.linked hb.isNull heq
    refine ⟨r.compact, _, heq, hs'.below.deriveTarget ?_, ?_⟩
    · exact lt_of_lt_of_le (Nat.two_pow_pos _) (hs'.large (by omega))
    · rcases lt_or_ge ((b.nHeight : Int) + 1) nBlocksToAverage with hcut | hcut
      · rw [permitted_interval rfl (sigNet_interval hpos) hipos hcut hdvd]
        exact hrange
      · -- The cut-off: one rule computed the bits, the other checks them.
        have hcut' : ((b.nHeight : Int) + 1) = 15 := by
          simp only [nBlocksToAverage] at hcut
          omega
        rw [hcut'] at hdvd
        obtain ⟨hlower, hupper⟩ := hclear.cutoff ⟨by omega, hdvd⟩
        rw [permitted_late rfl hcut]
        exact cutoff_inRange hpos hint hs.below hlower hupper hrn

/-- Clear steps can be taken. Away from the cut-off no others can. -/
theorem extendable_of_stepClear {signetblocktime : Option Int} {challengeSet : Bool}
    (hread : readSigNetBlockTime signetblocktime challengeSet = .ok spacing)
    (hb : Produced (sigNetParams hash spacing) sigNetGenesisBits b) (htarget : 2 ≤ target b)
    (header : CBlockHeader) : (StepClear spacing b → Extendable (sigNetParams hash spacing) b header) ∧
      (¬ AtCutoff spacing b → Extendable (sigNetParams hash spacing) b header → StepClear spacing b) := by
  have hpos := readSigNetBlockTime_pos hread
  constructor
  · intro hclear
    rcases Nat.lt_or_ge b.nHeight nBlocksToAverage with hlow | hhigh
    · exact early_extendable header hpos hclear.interval hb hlow hclear
    · exact (late_extendable_iff header hpos hclear.interval hb htarget hhigh).mpr (hclear.late hhigh)
  · intro hcut hext
    have hint : spacing ≤ 1209600 := by
      by_contra hbig
      obtain ⟨_, _, hnext, -, -⟩ := hext
      rw [stops_of_big header (by omega) hb.isNull
        (by rw [height_of_big hb (by omega)]; decide)] at hnext
      cases hnext
    exact ⟨hint, fun hhigh => (late_extendable_iff header hpos hint hb htarget hhigh).mp hext, fun h => absurd h hcut⟩

def genesisIndex : CBlockIndex :=
  mk ⟨0, 0, 0, 1, 0, 1598918400#32, sigNetGenesisBits, 52613770#32⟩ null null

def nextHeader : CBlockHeader := ⟨1, 0, 0, 1598918401#32, 0, 0⟩

theorem genesisIndex_extendable : Extendable (sigNetParams 0 600) genesisIndex nextHeader :=
  (@extendable_of_stepClear 0 600 genesisIndex none false rfl (.genesis _ rfl rfl) (by decide)
    nextHeader).1
    ⟨by decide, fun h => absurd h (by decide), fun h => absurd h.1 (by decide)⟩

/-- A block time above two weeks stops the node at its first block. -/
theorem not_extendable_two_weeks_and_a_second : readSigNetBlockTime (some 1209601) true = .ok 1209601 ∧
    Produced (sigNetParams 0 1209601) sigNetGenesisBits genesisIndex ∧ 2 ≤ target genesisIndex ∧
    getNextWorkRequired genesisIndex nextHeader (sigNetParams 0 1209601) = .error .divisionByZero ∧
    ¬ Extendable (sigNetParams 0 1209601) genesisIndex nextHeader := by
  have hstop : getNextWorkRequired genesisIndex nextHeader (sigNetParams 0 1209601) =
      .error .divisionByZero := stops_of_big nextHeader (by decide) rfl (by decide)
  refine ⟨rfl, .genesis _ rfl rfl, by decide, hstop, ?_⟩
  rintro ⟨_, _, hnext, -⟩
  rw [hstop] at hnext
  cases hnext

end FullNode.Signet

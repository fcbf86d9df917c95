import FullNode.Lib.Divsteps
import FullNode.Num3072
import Mathlib.Data.Int.ModEq

/-! # A batch of division steps -/

namespace FullNode.Num3072

open Divsteps Int

variable {b : Build}

theorem base_eq (b : Build) : (b.base : Int) = 4 * 2 ^ b.signedLimbSize := by
  cases b <;> decide

variable {i : Nat} {x : Int}

theorem limb_modEq (hi : i ≤ b.signedLimbSize) (x : Int) : limb b x ≡ x [ZMOD 2 ^ i] := by
  have hdvd : (2 : Int) ^ i ∣ b.base := by
    rw [base_eq]
    exact Dvd.dvd.mul_left (pow_dvd_pow 2 hi) 4
  exact (mod_modEq x b.base).of_dvd hdvd

/-! ## Counting zeros -/

theorem countrZero_le (g : Int) (i : Nat) : countrZero g i ≤ i := by
  induction i generalizing g with
  | zero => exact le_rfl
  | succ i ih =>
    unfold countrZero
    split
    · omega
    · have := ih (g / 2)
      omega

theorem countrZero_dvd (g : Int) (i : Nat) : (2 : Int) ^ countrZero g i ∣ g := by
  induction i generalizing g with
  | zero => simp [countrZero]
  | succ i ih =>
    unfold countrZero
    split
    · simp
    · next heven =>
      obtain ⟨m, hm⟩ := ih (g / 2)
      refine ⟨m, ?_⟩
      rw [pow_succ, mul_comm _ 2, mul_assoc, ← hm]
      omega

theorem countrZero_odd {g : Int} (h : countrZero g i < i) : g / 2 ^ countrZero g i % 2 = 1 := by
  induction i generalizing g with
  | zero => omega
  | succ i ih =>
    unfold countrZero at h ⊢
    split at h
    · next hodd =>
      rw [if_pos hodd, pow_zero, ediv_one]
      omega
    · next heven =>
      rw [if_neg heven, pow_succ, mul_comm, ← ediv_ediv_of_nonneg (by decide)]
      exact ih (by omega)

theorem le_countrZero {g : Int} {m : Nat} (hm : m ≤ i) (h : (2 : Int) ^ m ∣ g) : m ≤ countrZero g i := by
  induction i generalizing g m with
  | zero => exact hm
  | succ i ih =>
    cases m with
    | zero => exact Nat.zero_le _
    | succ m =>
      obtain ⟨k, rfl⟩ := h
      have heven : 2 ^ (m + 1) * k = 2 * (2 ^ m * k) := by ring
      unfold countrZero
      rw [if_neg (by rw [heven]; omega), heven, mul_ediv_cancel_left _ (by decide)]
      exact Nat.succ_le_succ (ih (by omega) (Dvd.intro k rfl))

/-! ## The state of a batch -/

structure Entries where
  u : Int
  v : Int
  q : Int
  r : Int

/-- The matrix gives `f` and `g`, times `2^n`, in bounded rows. -/
structure Entries.Gives (m : Entries) (F G : Int) (n k : Nat) (f g : Int) : Prop where
  f_eq : 2 ^ n * f = m.u * F + m.v * G
  g_eq : 2 ^ n * g = m.q * F + m.r * G
  upper : |m.u| + |m.v| ≤ 2 ^ n
  lower : |m.q| + |m.r| ≤ 2 ^ k

structure Holds (b : Build) (c : DivState) (m : Entries) : Prop where
  u : c.u = limb b m.u
  v : c.v = limb b m.v
  q : c.q = limb b m.q
  r : c.r = limb b m.r

/-- `n` steps from `F` and `G`, with the lowest bits of `s`. `ahead` more come once zeros of `g` go. -/
structure Tracks (b : Build) (eta F G : Int) (n ahead : Nat) (c : DivState) (f g : Int) (m : Entries) : Prop where
  count : n + c.i = b.signedLimbSize
  ahead_le : ahead ≤ c.i
  steps_eq : steps (n + ahead) ⟨eta, F, G⟩ = ⟨c.eta - ahead, f, g / 2 ^ ahead⟩
  dvd : (2 : Int) ^ ahead ∣ g
  odd : f % 2 = 1
  f_mod : c.f ≡ f [ZMOD 2 ^ c.i]
  g_mod : c.g ≡ g [ZMOD 2 ^ c.i]
  gives : m.Gives F G n (n + ahead) f g
  holds : Holds b c m

variable {eta F G f g : Int} {n ahead : Nat} {c : DivState} {m : Entries} {y : Int}

theorem limb_congr (h : x ≡ y [ZMOD b.base]) : limb b x = limb b y := h

theorem limb_self (x : Int) : limb b x ≡ x [ZMOD b.base] := mod_modEq x b.base

theorem ediv_modEq {z : Nat} (hz : z ≤ i) (hx : (2 : Int) ^ z ∣ x) (hy : (2 : Int) ^ z ∣ y) (h : x ≡ y [ZMOD 2 ^ i]) :
    x / 2 ^ z ≡ y / 2 ^ z [ZMOD 2 ^ (i - z)] := by
  obtain ⟨x, rfl⟩ := hx
  obtain ⟨y, rfl⟩ := hy
  rw [mul_ediv_cancel_left _ (by positivity), mul_ediv_cancel_left _ (by positivity)]
  rw [show i = z + (i - z) by omega, pow_add] at h
  exact Int.ModEq.mul_left_cancel' (by positivity) h

theorem Entries.Gives.double {k : Nat} (h : m.Gives F G n k f g) {z : Nat} (hk : k ≤ n + z) (hdvd : (2 : Int) ^ z ∣ g) :
    Entries.Gives ⟨m.u * 2 ^ z, m.v * 2 ^ z, m.q, m.r⟩ F G (n + z) (n + z) f (g / 2 ^ z) := by
  have hpos : (0 : Int) < 2 ^ z := by positivity
  constructor
  · rw [pow_add, mul_right_comm, h.f_eq]
    ring
  · rw [pow_add, mul_assoc, Int.mul_ediv_cancel' hdvd, h.g_eq]
  · simp only [abs_mul, abs_of_pos hpos]
    rw [← add_mul, pow_add]
    exact mul_le_mul_of_nonneg_right h.upper hpos.le
  · exact h.lower.trans (pow_le_pow_right₀ (by decide) hk)

theorem skipZeros_tracks (h : Tracks b eta F G n ahead c f g m) : ∃ m',
    Tracks b eta F G (n + countrZero c.g c.i) 0 (skipZeros b c) f (g / 2 ^ countrZero c.g c.i) m' ∧
    ahead ≤ countrZero c.g c.i ∧ ((skipZeros b c).i ≠ 0 → g / 2 ^ countrZero c.g c.i % 2 = 1) := by
  have hle := countrZero_le c.g c.i
  have hdvd := countrZero_dvd c.g c.i
  have hodd : countrZero c.g c.i < c.i → c.g / 2 ^ countrZero c.g c.i % 2 = 1 := countrZero_odd
  have hahead : ahead ≤ countrZero c.g c.i :=
    le_countrZero h.ahead_le (((h.g_mod.of_dvd (pow_dvd_pow 2 h.ahead_le)).dvd_iff).mpr h.dvd)
  unfold skipZeros
  generalize countrZero c.g c.i = z at *
  have hdvd' : (2 : Int) ^ z ∣ g := ((h.g_mod.of_dvd (pow_dvd_pow 2 hle)).dvd_iff).mp hdvd
  have hmod := ediv_modEq hle hdvd hdvd' h.g_mod
  refine ⟨⟨m.u * 2 ^ z, m.v * 2 ^ z, m.q, m.r⟩, ⟨?_, Nat.zero_le _, ?_, one_dvd _, h.odd, ?_, hmod, ?_, ?_⟩, hahead, ?_⟩
  · have := h.count
    simp only
    omega
  · obtain ⟨k, hk⟩ := hdvd'
    have hsplit : g / 2 ^ ahead = 2 ^ (z - ahead) * k := by
      rw [hk, show z = ahead + (z - ahead) by omega, pow_add, mul_assoc, mul_ediv_cancel_left _ (by positivity),
        Nat.add_sub_cancel_left]
    rw [Nat.add_zero, show n + z = n + ahead + (z - ahead) by omega, steps_add, h.steps_eq, hsplit,
      steps_even _ (Dvd.intro k rfl),
      mul_ediv_cancel_left _ (by positivity), hk, mul_ediv_cancel_left _ (by positivity)]
    simp only [pow_zero, ediv_one]
    congr 1
    push_cast [Nat.cast_sub hahead]
    ring
  · exact h.f_mod.of_dvd (pow_dvd_pow 2 (Nat.sub_le _ _))
  · exact h.gives.double (by omega) hdvd'
  · exact ⟨limb_congr (by rw [h.holds.u]; exact (limb_self _).mul_right _),
      limb_congr (by rw [h.holds.v]; exact (limb_self _).mul_right _), h.holds.q, h.holds.r⟩
  · intro hi
    simp only at hi
    have hone := hodd (by omega)
    have hbit : g / 2 ^ z ≡ c.g / 2 ^ z [ZMOD 2 ^ 1] := (hmod.of_dvd (pow_dvd_pow 2 (by omega))).symm
    rw [pow_one] at hbit
    exact Eq.trans hbit hone

theorem odd_of_modEq (hi : i ≠ 0) (h : x ≡ y [ZMOD 2 ^ i]) (hy : y % 2 = 1) : x % 2 = 1 := by
  have hbit : x ≡ y [ZMOD 2 ^ 1] := h.of_dvd (pow_dvd_pow 2 (by omega))
  rw [pow_one] at hbit
  exact Eq.trans hbit hy

theorem swapNegative_spec (h : Tracks b eta F G n 0 c f g m) (hg : g % 2 = 1) : ∃ f' g' m',
    0 ≤ (swapNegative b c).eta ∧ (swapNegative b c).i = c.i ∧ f' % 2 = 1 ∧
    (swapNegative b c).f ≡ f' [ZMOD 2 ^ c.i] ∧ (swapNegative b c).g ≡ g' [ZMOD 2 ^ c.i] ∧ m'.Gives F G n n f' g' ∧
    Holds b (swapNegative b c) m' ∧ ∀ k ≠ 0, steps k ⟨c.eta, f, g⟩ = steps k ⟨(swapNegative b c).eta, f', g'⟩ := by
  have hsize : c.i ≤ b.signedLimbSize := by
    have := h.count
    omega
  unfold swapNegative
  split
  · next hneg =>
    refine ⟨g, -f, ⟨m.q, m.r, -m.u, -m.v⟩, by simp only; omega, rfl, hg, h.g_mod,
      (limb_modEq hsize _).trans h.f_mod.neg, ?_, ?_, ?_⟩
    · refine ⟨h.gives.g_eq, ?_, h.gives.lower, ?_⟩
      · rw [mul_neg, h.gives.f_eq]
        ring
      · simpa only [abs_neg] using h.gives.upper
    · exact ⟨h.holds.q, h.holds.r, limb_congr (by rw [h.holds.u]; exact (limb_self _).neg),
        limb_congr (by rw [h.holds.v]; exact (limb_self _).neg)⟩
    · intro k hk
      obtain ⟨k, rfl⟩ := Nat.exists_eq_succ_of_ne_zero hk
      have hf := h.odd
      have hstep : step ⟨c.eta, f, g⟩ = step ⟨-c.eta, g, -f⟩ := by
        simp only [step]
        rw [if_neg (by omega), if_pos hneg, if_neg (by omega), if_neg (by omega), show -f + g = g - f by ring]
      rw [steps_succ, steps_succ, hstep]
  · next hneg =>
    exact ⟨f, g, m, by omega, rfl, h.odd, h.f_mod, h.g_mod, h.gives, h.holds, fun k _ => rfl⟩

theorem NEGINV256_spec : ∀ j < 128, NEGINV256.getD j 0 * (2 * j + 1) % 256 = 255 := by decide

theorem cancel_dvd {f' g' : Int} {k : Nat} (hk : k ≤ 8) (hodd : f % 2 = 1) (hf : f ≡ f' [ZMOD 2 ^ k])
    (hg : g ≡ g' [ZMOD 2 ^ k]) :
    (2 : Int) ^ k ∣ g' + g * NEGINV256.getD (f / 2 % 128).toNat 0 % 2 ^ k * f' := by
  obtain ⟨j, hj⟩ : ∃ j : Nat, f / 2 % 128 = j := ⟨(f / 2 % 128).toNat, by omega⟩
  have htable := NEGINV256_spec j (by omega)
  rw [hj, toNat_natCast]
  have hinv : (NEGINV256.getD j 0 : Int) * f ≡ -1 [ZMOD 2 ^ k] := by
    have hlow : f ≡ 2 * j + 1 [ZMOD 2 ^ 8] := by
      unfold Int.ModEq
      omega
    have hprod : (NEGINV256.getD j 0 : Int) * (2 * j + 1) ≡ -1 [ZMOD 2 ^ 8] := by
      have hcast : ((NEGINV256.getD j 0 * (2 * j + 1) : Nat) : Int) % 256 = 255 := by exact_mod_cast htable
      push_cast at hcast
      unfold Int.ModEq
      omega
    exact ((hlow.mul_left _).trans hprod).of_dvd (pow_dvd_pow 2 hk)
  apply modEq_zero_iff_dvd.mp
  calc g' + g * NEGINV256.getD j 0 % 2 ^ k * f'
      ≡ g + g * NEGINV256.getD j 0 * f [ZMOD 2 ^ k] := hg.symm.add ((mod_modEq _ _).mul hf.symm)
    _ = g + g * (NEGINV256.getD j 0 * f) := by ring
    _ ≡ g + g * -1 [ZMOD 2 ^ k] := (hinv.mul_left g).add_left g
    _ = 0 := by ring

theorem cancelBits_tracks (h : Tracks b eta F G n 0 c f g m) (hi : c.i ≠ 0) (hg : g % 2 = 1) : ∃ ahead f' g' m',
    1 ≤ ahead ∧ Tracks b eta F G n ahead (cancelBits b (swapNegative b c)) f' g' m' := by
  obtain ⟨f', g', m', _, hieq, hf', hfmod, hgmod, hgives, hholds, hsteps⟩ := swapNegative_spec h hg
  have hsize : c.i ≤ b.signedLimbSize := by
    have := h.count
    omega
  generalize swapNegative b c = s at *
  obtain ⟨k, hk⟩ : ∃ k : Nat, min (min (s.eta + 1) (s.i : Int)) 8 = k :=
      ⟨(min (min (s.eta + 1) (s.i : Int)) 8).toNat, by omega⟩
  have hk8 : k ≤ 8 := by omega
  have hki : k ≤ c.i := by omega
  have hdvd := cancel_dvd hk8 (odd_of_modEq hi hfmod hf') (hfmod.of_dvd (pow_dvd_pow 2 hki))
      (hgmod.of_dvd (pow_dvd_pow 2 hki))
  have hpos : (0 : Int) < 2 ^ k := by positivity
  unfold cancelBits
  simp only [hk, toNat_natCast]
  generalize hw : s.g * (NEGINV256.getD (s.f / 2 % 128).toNat 0 : Int) % 2 ^ k = w at *
  have hw0 : 0 ≤ w := hw ▸ emod_nonneg _ hpos.ne'
  have hwlt : w < 2 ^ k := hw ▸ emod_lt_of_pos _ hpos
  refine ⟨k, f', g' + w * f', ⟨m'.u, m'.v, m'.q + m'.u * w, m'.r + m'.v * w⟩, by omega, ?_, ?_, ?_, hdvd, hf',
    ?_, ?_, ?_, ?_⟩
  · simp only [hieq]
    exact h.count
  · simp only [hieq]
    exact hki
  · have hreal := h.steps_eq
    simp only [Nat.add_zero, pow_zero, ediv_one, Nat.cast_zero, sub_zero] at hreal
    rw [steps_add, hreal, hsteps k (by omega), steps_cancel k hf' (by omega) hw0 hwlt hdvd]
  · simp only [hieq]
    exact hfmod
  · simp only [hieq]
    refine (limb_modEq hsize _).trans ?_
    rw [mul_comm w]
    exact hgmod.add (hfmod.mul_right w)
  · have hrow : |m'.q + m'.u * w| + |m'.r + m'.v * w| ≤ 2 ^ (n + k) := by
      have hq := abs_add_le m'.q (m'.u * w)
      have hr := abs_add_le m'.r (m'.v * w)
      rw [abs_mul, abs_of_nonneg hw0] at hq hr
      have hupper := mul_le_mul_of_nonneg_right hgives.upper hw0
      calc |m'.q + m'.u * w| + |m'.r + m'.v * w| ≤ |m'.q| + |m'.u| * w + (|m'.r| + |m'.v| * w) := add_le_add hq hr
        _ = |m'.q| + |m'.r| + (|m'.u| + |m'.v|) * w := by ring
        _ ≤ 2 ^ n + 2 ^ n * w := add_le_add hgives.lower hupper
        _ = 2 ^ n * (w + 1) := by ring
        _ ≤ 2 ^ n * 2 ^ k := mul_le_mul_of_nonneg_left (by omega) (by positivity)
        _ = 2 ^ (n + k) := (pow_add 2 n k).symm
    refine ⟨hgives.f_eq, ?_, hgives.upper, hrow⟩
    calc 2 ^ n * (g' + w * f') = 2 ^ n * g' + w * (2 ^ n * f') := by ring
      _ = _ := by
        rw [hgives.g_eq, hgives.f_eq]
        ring
  · refine ⟨hholds.u, hholds.v, limb_congr ?_, limb_congr ?_⟩
    · rw [hholds.q, hholds.u]
      exact (limb_self _).add ((limb_self _).mul_right _)
    · rw [hholds.r, hholds.v]
      exact (limb_self _).add ((limb_self _).mul_right _)

/-! ## `eta` -/

theorem signedLimb_of_small (h : |x| < 2 ^ 31) : signedLimb b x = .ok x := by
  rw [abs_lt] at h
  unfold signedLimb
  cases b with
  | int128 | int64 => exact if_pos (by simp only [Build.limbSize]; omega)

theorem signedInt_of_small (h : |x| < 2 ^ 31) : signedInt x = .ok x := by
  rw [abs_lt] at h
  exact if_pos (by omega)

theorem Tracks.abs_eta_le (h : Tracks b eta F G n ahead c f g m) : |c.eta| ≤ |eta| + 2 * b.signedLimbSize := by
  have hcount := h.count
  have hahead := h.ahead_le
  have hmove := abs_eta_steps_le (n + ahead) ⟨eta, F, G⟩
  rw [h.steps_eq] at hmove
  rw [abs_le] at hmove ⊢
  push_cast at hmove
  omega

theorem signedLimbSize_le (b : Build) : b.signedLimbSize ≤ 62 := by
  cases b <;> decide

theorem abs_eta_swapNegative (b : Build) (c : DivState) : |(swapNegative b c).eta| = |c.eta| := by
  unfold swapNegative
  split
  · exact abs_neg _
  · rfl

theorem divLoop_tracks (fuel : Nat) (heta : |eta| ≤ 2 ^ 30) (h : Tracks b eta F G n ahead c f g m)
    (hfuel : c.i + 1 ≤ fuel + ahead) (hpos : 1 ≤ fuel) :
    ∃ c' f' g' m', divLoop b fuel c = .ok c' ∧ Tracks b eta F G b.signedLimbSize 0 c' f' g' m' := by
  induction fuel generalizing n ahead c f g m with
  | zero => omega
  | succ fuel ih =>
    obtain ⟨m', htracks, _, hodd⟩ := skipZeros_tracks h
    have hcount := htracks.count
    have hcount' := h.count
    have hsmall := htracks.abs_eta_le
    have hsize := signedLimbSize_le b
    have hswap := abs_eta_swapNegative b (skipZeros b c)
    have hplus := abs_add_le (swapNegative b (skipZeros b c)).eta 1
    rw [abs_one] at hplus
    unfold divLoop
    simp only
    rw [signedLimb_of_small (by omega), signedLimb_of_small (by omega), signedInt_of_small (by omega)]
    simp only [ok_bind]
    split
    · next hi =>
      obtain hn : n + countrZero c.g c.i = b.signedLimbSize := by omega
      rw [hn] at htracks
      exact ⟨_, _, _, _, rfl, htracks⟩
    · next hi =>
      obtain ⟨_, f', g', _, _, htracks'⟩ := cancelBits_tracks htracks hi (hodd hi)
      have hcount'' := htracks'.count
      exact ih htracks' (by omega) (by omega)

theorem toSigned_limb (h : |x| ≤ 2 ^ b.signedLimbSize) : toSigned b (limb b x) = x := by
  rw [abs_le] at h
  have hbase := base_eq b
  have hpos : (0 : Int) < 2 ^ b.signedLimbSize := by positivity
  unfold toSigned limb
  rw [emod_bmod, bmod_eq_of_le_mul_two (by omega) (by omega)]

structure Batch (b : Build) (eta F G : Int) (eta' : Int) (t : SignedMatrix) (f' g' : Int) : Prop where
  steps_eq : steps b.signedLimbSize ⟨eta, F, G⟩ = ⟨eta', f', g'⟩
  f_eq : (b.signedBase : Int) * f' = t.u * F + t.v * G
  g_eq : (b.signedBase : Int) * g' = t.q * F + t.r * G
  upper : |t.u| + |t.v| ≤ b.signedBase
  lower : |t.q| + |t.r| ≤ b.signedBase

theorem computeDivstepMatrix_spec (heta : |eta| ≤ 2 ^ 30) (hF : F % 2 = 1) {f0 g0 : Int}
    (hf : f0 ≡ F [ZMOD b.signedBase]) (hg : g0 ≡ G [ZMOD b.signedBase]) :
    ∃ eta' t f' g', computeDivstepMatrix b eta f0 g0 = .ok (eta', t) ∧ Batch b eta F G eta' t f' g' := by
  have hbase : (b.signedBase : Int) = 2 ^ b.signedLimbSize := by simp [Build.signedBase]
  rw [hbase] at hf hg
  have hstart : Tracks b eta F G 0 0 { i := b.signedLimbSize, eta, f := limb b f0, g := limb b g0 } F G ⟨1, 0, 0, 1⟩ :=
    { count := Nat.zero_add _
      ahead_le := Nat.zero_le _
      steps_eq := by simp
      dvd := one_dvd _
      odd := hF
      f_mod := (limb_modEq le_rfl f0).trans hf
      g_mod := (limb_modEq le_rfl g0).trans hg
      gives := ⟨by simp, by simp, by simp, by simp⟩
      holds := by
        have hone : (1 : Int) < b.base := by
          rw [base_eq]
          have : (0 : Int) < 2 ^ b.signedLimbSize := by positivity
          omega
        have h1 : limb b 1 = 1 := emod_eq_of_lt (by decide) hone
        have h0 : limb b 0 = 0 := zero_emod _
        exact ⟨h1.symm, h0.symm, h0.symm, h1.symm⟩ }
  obtain ⟨c, f', g', m, hrun, htracks⟩ := divLoop_tracks (b.signedLimbSize + 1) heta hstart (by simp) (by omega)
  have hsteps := htracks.steps_eq
  simp only [Nat.add_zero, pow_zero, ediv_one, Nat.cast_zero, sub_zero] at hsteps
  have hgives := htracks.gives
  have hholds := htracks.holds
  have hbounds : |m.u| ≤ 2 ^ b.signedLimbSize ∧ |m.v| ≤ 2 ^ b.signedLimbSize ∧ |m.q| ≤ 2 ^ b.signedLimbSize ∧
      |m.r| ≤ 2 ^ b.signedLimbSize := by
    have hupper := hgives.upper
    have hlower := hgives.lower
    rw [Nat.add_zero] at hlower
    have := abs_nonneg m.u
    have := abs_nonneg m.v
    have := abs_nonneg m.q
    have := abs_nonneg m.r
    refine ⟨?_, ?_, ?_, ?_⟩ <;> omega
  obtain ⟨hu, hv, hq, hr⟩ := hbounds
  refine ⟨c.eta, ⟨m.u, m.v, m.q, m.r⟩, f', g', ?_, hsteps, ?_, ?_, ?_, ?_⟩
  · unfold computeDivstepMatrix
    rw [hrun, ok_bind, hholds.u, hholds.v, hholds.q, hholds.r, toSigned_limb hu, toSigned_limb hv,
      toSigned_limb hq, toSigned_limb hr]
    rfl
  · rw [hbase]
    exact hgives.f_eq
  · rw [hbase]
    exact hgives.g_eq
  · rw [hbase]
    exact hgives.upper
  · rw [hbase]
    exact hgives.lower

end FullNode.Num3072

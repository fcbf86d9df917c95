import Mathlib.Algebra.Order.Ring.Abs
import Mathlib.Data.Nat.Factorization.Basic
import Mathlib.Tactic.Linarith
import Mathlib.Tactic.Ring

/-!
# Division steps

A step halves `g`, after it has added `f` to an odd `g`. From an odd `f` the steps bring `g` to zero.
-/

namespace FullNode.Divsteps

open Int

structure State where
  eta : Int
  f : Int
  g : Int

def step (s : State) : State :=
  if s.g % 2 = 0 then ⟨s.eta - 1, s.f, s.g / 2⟩
  else if s.eta < 0 then ⟨-s.eta - 1, s.g, (s.g - s.f) / 2⟩
  else ⟨s.eta - 1, s.f, (s.g + s.f) / 2⟩

def steps (n : Nat) (s : State) : State := step^[n] s

@[simp] theorem steps_zero (s : State) : steps 0 s = s := rfl

variable (n : Nat)

theorem steps_succ (s : State) : steps (n + 1) s = steps n (step s) := rfl

theorem steps_add (m n : Nat) (s : State) : steps (m + n) s = steps n (steps m s) := by
  rw [steps, Nat.add_comm, Function.iterate_add_apply]
  rfl

variable {s : State} {eta f g : Int}

/-! ## What a step keeps -/

theorem step_odd (h : s.f % 2 = 1) : (step s).f % 2 = 1 := by
  unfold step
  split
  · exact h
  · split
    · simp only
      omega
    · exact h

theorem steps_odd (h : s.f % 2 = 1) : (steps n s).f % 2 = 1 := by
  induction n generalizing s with
  | zero => exact h
  | succ n ih => exact ih (step_odd h)

theorem step_le {M : Int} (h : s.f % 2 = 1) (hf : |s.f| ≤ M) (hg : |s.g| ≤ M) :
    |(step s).f| ≤ M ∧ |(step s).g| ≤ M := by
  rw [abs_le] at hf hg
  unfold step
  split
  · simp only [abs_le]
    omega
  · split
    all_goals
      simp only [abs_le]
      omega

theorem steps_le {M : Int} (h : s.f % 2 = 1) (hf : |s.f| ≤ M) (hg : |s.g| ≤ M) :
    |(steps n s).f| ≤ M ∧ |(steps n s).g| ≤ M := by
  induction n generalizing s with
  | zero => exact ⟨hf, hg⟩
  | succ n ih =>
    obtain ⟨hf', hg'⟩ := step_le h hf hg
    exact ih (step_odd h) hf' hg'

/-! ## How far `eta` gets -/

theorem abs_eta_steps_le (s : State) : |(steps n s).eta| ≤ |s.eta| + n := by
  induction n generalizing s with
  | zero => simp
  | succ n ih =>
    have hstep : |(step s).eta| ≤ |s.eta| + 1 := by
      have hsign := abs_cases s.eta
      rw [abs_le]
      unfold step
      split
      · simp only
        omega
      · split
        all_goals
          simp only
          omega
    have := ih (step s)
    rw [steps_succ]
    push_cast
    omega

/-- A negative `eta` counts halvings, a positive one what they were. -/
structure EtaWithin (k : Nat) (s : State) : Prop where
  le : s.eta ≤ k
  halved : s.eta < 0 → |s.g| * 2 ^ (-s.eta - 1).toNat ≤ 2 ^ k

variable {k : Nat} {q h : Int}

theorem EtaWithin.step (h : EtaWithin k s) (hodd : s.f % 2 = 1) (hf : |s.f| ≤ 2 ^ k) (hg : |s.g| ≤ 2 ^ k) :
    EtaWithin k (step s) := by
  obtain ⟨-, hg'⟩ := step_le hodd hf hg
  rcases lt_or_ge s.eta 0 with hneg | hnonneg
  · have hhalved := h.halved hneg
    unfold Divsteps.step at hg' ⊢
    split
    · next heven =>
      have hexp : (-(s.eta - 1) - 1).toNat = (-s.eta - 1).toNat + 1 := by omega
      have hdouble : |s.g / 2| * 2 = |s.g| := by
        rw [show |s.g / 2| * 2 = |s.g / 2| * |2| from rfl, ← abs_mul]
        congr 1
        omega
      refine ⟨by simp only; omega, fun _ => ?_⟩
      simp only
      rw [hexp, pow_succ']
      calc |s.g / 2| * (2 * 2 ^ (-s.eta - 1).toNat) = |s.g / 2| * 2 * 2 ^ (-s.eta - 1).toNat := by ring
        _ ≤ 2 ^ k := by rwa [hdouble]
    · next hg =>
      have hone : 1 ≤ |s.g| := one_le_abs (by omega)
      have hpow : (2 : Int) ^ (-s.eta - 1).toNat ≤ 2 ^ k :=
        (le_mul_of_one_le_left (by positivity) hone).trans hhalved
      have hle : (-s.eta - 1).toNat ≤ k := (pow_le_pow_iff_right₀ (by decide : (1 : Int) < 2)).mp hpow
      exact ⟨by simp only; omega, fun h => by simp only at h; omega⟩
  · have heta : (Divsteps.step s).eta = s.eta - 1 := by
      unfold Divsteps.step
      split
      · rfl
      · rw [if_neg (by omega)]
    have hle := h.le
    refine ⟨by omega, fun h => ?_⟩
    rw [show (-(Divsteps.step s).eta - 1).toNat = 0 by omega, pow_zero, mul_one]
    exact hg'

theorem EtaWithin.steps (h : EtaWithin k s) (hodd : s.f % 2 = 1) (hf : |s.f| ≤ 2 ^ k)
    (hg : |s.g| ≤ 2 ^ k) : EtaWithin k (steps n s) := by
  induction n generalizing s with
  | zero => exact h
  | succ n ih =>
    obtain ⟨hf', hg'⟩ := step_le hodd hf hg
    exact ih (h.step hodd hf hg) (step_odd hodd) hf' hg'

/-- While `g` is not zero its size bounds the halvings. -/
theorem EtaWithin.abs_eta_le (h : EtaWithin k s) (hg : s.g ≠ 0) : |s.eta| ≤ k + 1 := by
  have hle := h.le
  rw [abs_le]
  refine ⟨?_, by omega⟩
  by_contra hlt
  have hhalved := h.halved (by omega)
  have hone : 1 ≤ |s.g| := one_le_abs hg
  have hpow : (2 : Int) ^ (-s.eta - 1).toNat ≤ 2 ^ k := (le_mul_of_one_le_left (by positivity) hone).trans hhalved
  have := (pow_le_pow_iff_right₀ (by decide : (1 : Int) < 2)).mp hpow
  omega

/-! ## What a step keeps of the greatest common divisor -/

theorem step_dvd {k : Int} (h : s.f % 2 = 1) (hf : k ∣ (step s).f) (hg : k ∣ (step s).g) : k ∣ s.f ∧ k ∣ s.g := by
  unfold step at hf hg
  split at hf
  · next heven =>
    rw [if_pos heven] at hg
    simp only at hf hg
    refine ⟨hf, ?_⟩
    rw [← Int.ediv_mul_cancel (dvd_of_emod_eq_zero heven)]
    exact Dvd.dvd.mul_right hg 2
  · next hodd =>
    rw [if_neg hodd] at hg
    split at hf
    · next hneg =>
      rw [if_pos hneg] at hg
      simp only at hf hg
      refine ⟨?_, hf⟩
      have hsum : s.f = s.g - (s.g - s.f) / 2 * 2 := by omega
      rw [hsum]
      exact dvd_sub hf (Dvd.dvd.mul_right hg 2)
    · next hneg =>
      rw [if_neg hneg] at hg
      simp only at hf hg
      refine ⟨hf, ?_⟩
      have hsum : s.g = (s.g + s.f) / 2 * 2 - s.f := by omega
      rw [hsum]
      exact dvd_sub (Dvd.dvd.mul_right hg 2) hf

theorem steps_dvd {k : Int} (h : s.f % 2 = 1) (hf : k ∣ (steps n s).f) (hg : k ∣ (steps n s).g) :
    k ∣ s.f ∧ k ∣ s.g := by
  induction n generalizing s with
  | zero => exact ⟨hf, hg⟩
  | succ n ih =>
    obtain ⟨hf', hg'⟩ := ih (step_odd h) hf hg
    exact step_dvd h hf' hg'

theorem steps_of_zero (h : s.g = 0) : (steps n s).f = s.f ∧ (steps n s).g = 0 := by
  induction n generalizing s with
  | zero => exact ⟨rfl, h⟩
  | succ n ih =>
    obtain ⟨_, f, g⟩ := s
    obtain rfl : g = 0 := h
    exact ih rfl

/-! ## Several steps at once -/

theorem steps_even (h : (2 : Int) ^ n ∣ g) : steps n ⟨eta, f, g⟩ = ⟨eta - n, f, g / 2 ^ n⟩ := by
  induction n generalizing eta g with
  | zero => simp
  | succ n ih =>
    obtain ⟨m, rfl⟩ := h
    have hstep : step ⟨eta, f, 2 ^ (n + 1) * m⟩ = ⟨eta - 1, f, 2 ^ n * m⟩ := by
      have heven : 2 ^ (n + 1) * m = 2 * (2 ^ n * m) := by ring
      unfold step
      rw [if_pos (by simp only [heven]; omega)]
      simp only [heven]
      rw [mul_ediv_cancel_left _ (by decide)]
    rw [steps_succ, hstep, ih (Dvd.intro _ rfl), mul_ediv_cancel_left _ (by positivity),
      mul_ediv_cancel_left _ (by positivity)]
    push_cast
    congr 1
    ring

/-- While `eta` is not negative, steps cancel bits with `f`. -/
theorem steps_cancel {w : Int} (hf : f % 2 = 1) (heta : (n : Int) ≤ eta + 1) (hw : 0 ≤ w) (hlt : w < 2 ^ n)
    (hdvd : (2 : Int) ^ n ∣ g + w * f) : steps n ⟨eta, f, g⟩ = ⟨eta - n, f, (g + w * f) / 2 ^ n⟩ := by
  induction n generalizing eta g w with
  | zero =>
    obtain rfl : w = 0 := by
      rw [pow_zero] at hlt
      omega
    simp
  | succ n ih =>
    obtain ⟨m, hm⟩ := hdvd
    push_cast at heta
    have hpow : (2 : Int) ^ (n + 1) = 2 * 2 ^ n := by ring
    rw [hpow] at hlt hm
    have hstep : ∃ g' w', step ⟨eta, f, g⟩ = ⟨eta - 1, f, g'⟩ ∧ 0 ≤ w' ∧ w' < 2 ^ n ∧ g' + w' * f = 2 ^ n * m := by
      rcases emod_two_eq_zero_or_one g with hg | hg
      · -- an even `g` leaves an even multiple
        have hweven : w % 2 = 0 := by
          have hsum : (g + w * f) % 2 = 0 := by rw [hm, mul_assoc]; omega
          rw [add_emod, mul_emod, hg, hf] at hsum
          omega
        refine ⟨g / 2, w / 2, by simp only [step]; rw [if_pos hg], by omega, by omega, ?_⟩
        have hg2 : g = 2 * (g / 2) := by omega
        have hw2 : w = 2 * (w / 2) := by omega
        have htwice : 2 * (g / 2 + w / 2 * f) = 2 * (2 ^ n * m) := by
          rw [← mul_assoc 2 (2 ^ n) m, ← hm]
          calc 2 * (g / 2 + w / 2 * f) = 2 * (g / 2) + 2 * (w / 2) * f := by ring
            _ = g + w * f := by rw [← hg2, ← hw2]
        omega
      · have hwodd : w % 2 = 1 := by
          have hsum : (g + w * f) % 2 = 0 := by rw [hm, mul_assoc]; omega
          rw [add_emod, mul_emod, hg, hf] at hsum
          omega
        refine ⟨(g + f) / 2, (w - 1) / 2, ?_, by omega, by omega, ?_⟩
        · simp only [step]
          rw [if_neg (by omega), if_neg (by omega)]
        · have hg2 : g + f = 2 * ((g + f) / 2) := by omega
          have hw2 : w = 2 * ((w - 1) / 2) + 1 := by omega
          have htwice : 2 * ((g + f) / 2 + (w - 1) / 2 * f) = 2 * (2 ^ n * m) := by
            rw [← mul_assoc 2 (2 ^ n) m, ← hm]
            calc 2 * ((g + f) / 2 + (w - 1) / 2 * f) = 2 * ((g + f) / 2) + 2 * ((w - 1) / 2) * f := by ring
              _ = g + f + (w - 1) * f := by rw [← hg2, show 2 * ((w - 1) / 2) = w - 1 by omega]
              _ = g + w * f := by ring
          omega
    obtain ⟨g', w', hstep, hw', hlt', hsum⟩ := hstep
    rw [steps_succ, hstep, ih (by omega) hw' hlt' (Dvd.intro m hsum.symm), hsum, hm, hpow,
      mul_ediv_cancel_left _ (by positivity), mul_assoc, mul_ediv_mul_of_pos _ _ (by decide),
      mul_ediv_cancel_left _ (by positivity)]
    push_cast
    congr 1
    ring

theorem exists_cancel (hf : f % 2 = 1) (g : Int) : ∃ w, 0 ≤ w ∧ w < 2 ^ n ∧ (2 : Int) ^ n ∣ g + w * f := by
  induction n with
  | zero => exact ⟨0, le_rfl, by simp, by simp⟩
  | succ n ih =>
    obtain ⟨w, hw, _, m, hm⟩ := ih
    have hpow : (2 : Int) ^ (n + 1) = 2 * 2 ^ n := by ring
    rcases emod_two_eq_zero_or_one m with heven | hodd
    · refine ⟨w, hw, by omega, m / 2, ?_⟩
      rw [hm, hpow, mul_comm 2, mul_assoc, show 2 * (m / 2) = m by omega]
    · refine ⟨w + 2 ^ n, by omega, by omega, (m + f) / 2, ?_⟩
      rw [add_mul, ← add_assoc, hm, ← mul_add, hpow, mul_comm 2, mul_assoc, show 2 * ((m + f) / 2) = m + f by omega]

/-- From an odd `g` at `eta = -k` the numbers change places. -/
theorem steps_swap (k : Nat) (hk : 1 ≤ k) (hg : g % 2 = 1) (hf : f % 2 = 1) : ∃ q h : Int, 1 ≤ q ∧ q < 2 ^ (k + 1) ∧
    2 ^ (k + 1) * h = q * g - f ∧ steps (k + 1) ⟨-k, f, g⟩ = ⟨-1, g, h⟩ := by
  obtain ⟨w, hw, hlt, h, hdvd⟩ := exists_cancel k hg ((g - f) / 2)
  have hpow : (2 : Int) ^ (k + 1) = 2 * 2 ^ k := by ring
  refine ⟨1 + 2 * w, h, by omega, by omega, ?_, ?_⟩
  · rw [hpow, mul_assoc, ← hdvd, mul_add, show 2 * ((g - f) / 2) = g - f by omega]
    ring
  · have hstep : step ⟨-k, f, g⟩ = ⟨k - 1, g, (g - f) / 2⟩ := by
      simp only [step]
      rw [if_neg (by omega), if_pos (by omega), neg_neg]
    rw [steps_succ, hstep, steps_cancel k hg (by omega) hw hlt (Dvd.intro h hdvd.symm), hdvd,
      mul_ediv_cancel_left _ (by positivity)]
    congr 1
    ring

/-! ## The end -/

def rank (k : Nat) (f g : Int) : Nat := 2 * (f.natAbs + 2 ^ (k + 1) * g.natAbs) + if f * g < 0 then 1 else 0

theorem rank_even (k t : Nat) (f g : Int) : rank k f (2 ^ t * g) = rank (k + t) f g := by
  have hsign : f * (2 ^ t * g) < 0 ↔ f * g < 0 := by
    rw [mul_left_comm]
    refine ⟨fun h => ?_, mul_neg_of_pos_of_neg (by positivity)⟩
    by_contra hge
    exact absurd h (not_lt.mpr (mul_nonneg (by positivity) (not_lt.mp hge)))
  unfold rank
  simp only [hsign]
  rw [natAbs_mul, natAbs_pow, show natAbs 2 = 2 from rfl, ← mul_assoc, ← pow_add,
    show k + 1 + t = k + t + 1 by omega]

theorem weight_lt {a c e R : Nat} (hR : 2 ≤ R) (hc : 1 ≤ c) (h : 4 * R * e + c ≤ 4 * R * c + a) :
    c + 4 * e < a + 4 * R * c := by
  by_contra hge
  obtain ⟨S, rfl⟩ : ∃ S, R = S + 2 := ⟨R - 2, by omega⟩
  nlinarith

theorem rank_swap_long (hk : 2 ≤ k) (hg : g % 2 = 1) (hq : 1 ≤ q) (hlt : q < 2 ^ (k + 1))
    (heq : 2 ^ (k + 1) * h = q * g - f) : rank 1 g h < rank k f g := by
  obtain ⟨m, rfl⟩ : ∃ m, k = m + 2 := ⟨k - 2, by omega⟩
  have hpow : (2 : Int) ^ (m + 2 + 1) = 4 * (2 ^ (m + 1) : Nat) := by
    push_cast
    ring
  have hR : 2 ≤ 2 ^ (m + 1) := by
    rw [pow_succ]
    omega
  have hpow' : 2 ^ (m + 2 + 1) = 4 * 2 ^ (m + 1) := by ring
  rw [hpow] at heq hlt
  unfold rank
  rw [hpow']
  generalize 2 ^ (m + 1) = R at *
  have habs : 4 * (R : Int) * |h| + |g| ≤ 4 * R * |g| + |f| := by
    have htriangle := abs_sub (q * g) f
    rw [← heq, abs_mul, abs_of_nonneg (show (0 : Int) ≤ 4 * R by omega), abs_mul,
      abs_of_nonneg (show (0 : Int) ≤ q by omega)] at htriangle
    have hg0 := abs_nonneg g
    nlinarith
  have hnat : 4 * R * h.natAbs + g.natAbs ≤ 4 * R * g.natAbs + f.natAbs := by
    rw [abs_eq_natAbs, abs_eq_natAbs, abs_eq_natAbs] at habs
    exact_mod_cast habs
  have hless := weight_lt hR (show 1 ≤ g.natAbs by omega) hnat
  split_ifs <;> omega

/-- After the shortest run no larger, and equal with like signs. -/
theorem rank_swap_short (hg : g % 2 = 1) (hf : f % 2 = 1) (hq : 1 ≤ q) (hlt : q < 4) (heq : 4 * h = q * g - f) :
    rank 1 g h < rank 1 f g := by
  unfold rank
  rw [show (2 : Nat) ^ (1 + 1) = 4 from rfl]
  obtain hq2 | rfl : q ≤ 2 ∨ q = 3 := by omega
  · have hless : g.natAbs + 4 * h.natAbs < f.natAbs + 4 * g.natAbs := by
      obtain rfl | rfl : q = 1 ∨ q = 2 := by omega
      · omega
      · omega
    split_ifs <;> omega
  · rcases lt_or_gt_of_ne (show f ≠ 0 by omega) with hfs | hfs
    · rcases lt_or_gt_of_ne (show g ≠ 0 by omega) with hgs | hgs
      · rw [if_neg (not_lt.mpr (mul_nonneg_of_nonpos_of_nonpos hfs.le hgs.le))]
        split_ifs <;> omega
      · rw [if_neg (not_lt.mpr (mul_nonneg hgs.le (show 0 ≤ h by omega))), if_pos (mul_neg_of_neg_of_pos hfs hgs)]
        omega
    · rcases lt_or_gt_of_ne (show g ≠ 0 by omega) with hgs | hgs
      · rw [if_neg (not_lt.mpr (mul_nonneg_of_nonpos_of_nonpos hgs.le (show h ≤ 0 by omega))),
          if_pos (mul_neg_of_pos_of_neg hfs hgs)]
        omega
      · rw [if_neg (not_lt.mpr (mul_nonneg hfs.le hgs.le))]
        split_ifs <;> omega

theorem rank_swap (hk : 1 ≤ k) (hg : g % 2 = 1) (hf : f % 2 = 1) (hq : 1 ≤ q) (hlt : q < 2 ^ (k + 1))
    (heq : 2 ^ (k + 1) * h = q * g - f) : rank 1 g h < rank k f g := by
  rcases Nat.lt_or_ge 1 k with hlong | hshort
  · exact rank_swap_long hlong hg hq hlt heq
  · obtain rfl : k = 1 := by omega
    exact rank_swap_short hg hf hq hlt heq

theorem exists_odd_part (h : g ≠ 0) : ∃ (t : Nat) (m : Int), m % 2 = 1 ∧ g = 2 ^ t * m := by
  obtain ⟨t, m, hm, heq⟩ := Nat.exists_eq_two_pow_mul_odd (natAbs_ne_zero.mpr h)
  have hodd := Nat.odd_iff.mp hm
  rcases natAbs_eq g with hpos | hneg
  · exact ⟨t, m, by omega, by rw [hpos, heq]; push_cast; rfl⟩
  · exact ⟨t, -m, by omega, by rw [hneg, heq]; push_cast; ring⟩

theorem reaches_zero (k : Nat) (hk : 1 ≤ k) (hf : f % 2 = 1) (g : Int) :
    ∃ N ≤ rank k f g * rank k f g, (steps N ⟨-k, f, g⟩).g = 0 := by
  induction hrank : rank k f g using Nat.strong_induction_on generalizing k f g with
  | _ r ih =>
    by_cases hg : g = 0
    · exact ⟨0, Nat.zero_le _, hg⟩
    · obtain ⟨t, m, hm, rfl⟩ := exists_odd_part hg
      obtain ⟨_, h, hq, hlt, heq, hsteps⟩ := steps_swap (k + t) (by omega) hm hf
      have hless := rank_swap (by omega) hm hf hq hlt heq
      rw [← rank_even, hrank] at hless
      obtain ⟨N, _, hzero⟩ := ih _ hless 1 le_rfl hm h rfl
      have heven : steps t ⟨-k, f, 2 ^ t * m⟩ = ⟨-(k + t : Nat), f, m⟩ := by
        rw [steps_even t (Dvd.intro m rfl), mul_ediv_cancel_left _ (by positivity)]
        congr 1
        push_cast
        ring
      refine ⟨t + (k + t + 1) + N, ?_, ?_⟩
      · have hshort : t + (k + t + 1) ≤ r := by
          have hpow : k + t + 1 < 2 ^ (k + t + 1) := Nat.lt_two_pow_self
          have hmul : 2 ^ (k + t + 1) ≤ 2 ^ (k + t + 1) * m.natAbs := Nat.le_mul_of_pos_right _ (by omega)
          rw [rank_even, rank] at hrank
          omega
        nlinarith
      · rw [steps_add, steps_add, heven, hsteps]
        exact hzero

end FullNode.Divsteps

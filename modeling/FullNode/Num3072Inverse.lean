import FullNode.Num3072Signed
import Mathlib.RingTheory.Coprime.Lemmas

/-!
# The inverse

It keeps `f = d * x` and `g = e * x` modulo the modulus, so when `f` is 1 or -1 at the end, `d` is the inverse up to
its sign.
-/

namespace FullNode.Num3072

open Limbs Divsteps List

variable {b : Build}

/-! ## `f` and `g` -/

structure Pair (b : Build) (f g : List Int) (F G : Int) : Prop where
  nonempty : f ≠ []
  length_eq : g.length = f.length
  f_small : Small b f
  g_small : Small b g
  f_value : value (S b) f = F
  g_value : value (S b) g = G
  f_le : |F| ≤ S b ^ f.length
  g_le : |G| ≤ S b ^ f.length

theorem headD_modEq (limbs : List Int) : limbs.headD 0 ≡ value (S b) limbs [ZMOD b.signedBase] := by
  cases limbs with
  | nil => exact Int.ModEq.refl _
  | cons x limbs =>
    rw [headD_cons, value_cons]
    exact (Int.modEq_iff_dvd.mpr ⟨value (S b) limbs, by rw [add_sub_cancel_left]; rfl⟩)

variable {g limbs low : List Int} {F G D top x : Int} {t : SignedMatrix} {s : InverseState} {d e : List Int}
  {u v E : Int}

theorem updateFG_spec {f : List Int} {eta eta' f' g' : Int} (hpair : Pair b f g F G) (hodd : F % 2 = 1)
    (hbatch : Batch b eta F G eta' t f' g') : ∃ lf lg flow ftop glow gtop, updateFG b f g t = .ok (lf, lg) ∧
    Normal b lf flow ftop ∧ Normal b lg glow gtop ∧ lf.length = f.length ∧ lg.length = f.length ∧
    value (S b) lf = f' ∧ value (S b) lg = g' := by
  have hS := four_le_S b
  have hle := steps_le b.signedLimbSize (s := ⟨eta, F, G⟩) hodd hpair.f_le hpair.g_le
  rw [hbatch.steps_eq] at hle
  have hroom : ∀ {terms : List Int}, (∀ x ∈ terms, |x| ≤ S b * S b) → ∀ x ∈ terms, |x| ≤ 2 * (S b * S b) := by
    intro terms h x hx
    have := h x hx
    have : 0 ≤ S b * S b := by positivity
    omega
  have hne : ∀ {terms : List Int}, terms.length = f.length → terms ≠ [] := by
    rintro terms hlength rfl
    exact hpair.nonempty (length_eq_zero_iff.mp hlength.symm)
  obtain ⟨_, hcf, hcflen, hcfle, hcfvalue⟩ :=
      products_spec hbatch.upper hpair.length_eq.symm hpair.f_small hpair.g_small
  obtain ⟨_, hcg, hcglen, hcgle, hcgvalue⟩ :=
      products_spec hbatch.lower hpair.length_eq.symm hpair.f_small hpair.g_small
  rw [hpair.f_value, hpair.g_value] at hcfvalue hcgvalue
  obtain ⟨lf, flow, ftop, hlf, hfnormal, hflen, hfvalue⟩ := shiftLimbs_spec (hne hcflen) (hroom hcfle)
    (hcfvalue.trans hbatch.f_eq.symm) (by rw [hcflen]; exact hle.1)
  obtain ⟨lg, glow, gtop, hlg, hgnormal, hglen, hgvalue⟩ := shiftLimbs_spec (hne hcglen) (hroom hcgle)
    (hcgvalue.trans hbatch.g_eq.symm) (by rw [hcglen]; exact hle.2)
  refine ⟨lf, lg, flow, ftop, glow, gtop, ?_, hfnormal, hgnormal, hflen.trans hcflen, hglen.trans hcglen,
    hfvalue, hgvalue⟩
  unfold updateFG
  rw [hcf, ok_bind, hcg, ok_bind, hlf, ok_bind, hlg, ok_bind]
  rfl

/-! ## `d` and `e` -/

theorem modulus_eq (b : Build) :
    (modulus : Int) = S b ^ (b.signedLimbs - 1) * 2 ^ FINAL_LIMB_MODULUS_BITS b - MAX_PRIME_DIFF := by
  have hpow : S b ^ (b.signedLimbs - 1) * 2 ^ FINAL_LIMB_MODULUS_BITS b = ((2 ^ 3072 : Nat) : Int) := by
    rw [S_eq, ← pow_mul, ← pow_add, Nat.cast_pow, Nat.cast_ofNat]
    cases b with
    | int128 => rfl
    | int64 => rfl
  have hsum := modulus_add_diff b
  rw [base_pow_limbs] at hsum
  rw [hpow, ← hsum]
  push_cast
  ring

theorem modulus_limbs_le (b : Build) :
    2 * (MAX_PRIME_DIFF : Int) ≤ S b ∧ 2 * (2 : Int) ^ FINAL_LIMB_MODULUS_BITS b ≤ S b ∧
    (1 : Int) ≤ 2 ^ FINAL_LIMB_MODULUS_BITS b := by
  cases b <;> decide

theorem modulus_inverse (b : Build) : S b ∣ MODULUS_INVERSE b * MAX_PRIME_DIFF + 1 := by
  cases b <;> decide

theorem signedLimbs_eq (b : Build) : b.signedLimbs = b.signedLimbs - 2 + 2 := by
  cases b with
  | int128 => rfl
  | int64 => rfl

structure Residue (b : Build) (limbs : List Int) (D : Int) : Prop where
  normal : ∃ low top, Normal b limbs low top
  length_eq : limbs.length = b.signedLimbs
  value_eq : value (S b) limbs = D
  gt : -(2 * (modulus : Int)) < D
  lt : D < modulus

theorem Residue.small (h : Residue b limbs D) : Small b limbs := by
  obtain ⟨_, _, hnormal⟩ := h.normal
  exact hnormal.small

theorem Residue.isNegative_iff (h : Residue b limbs D) : isNegative limbs = true ↔ D < 0 := by
  obtain ⟨_, _, hnormal⟩ := h.normal
  rw [hnormal.isNegative_iff, h.value_eq]

/-- The first makes it positive, the second its lowest limb zero. -/
theorem modulusMultiple_spec (low : Int) (huv : |u| + |v| ≤ S b) (hd : Residue b d D) (he : Residue b e E) :
    ∃ md0 k, modulusMultiple b u v d e low = .ok (md0 - k) ∧ md0 = (if D < 0 then u else 0) + (if E < 0 then v else 0) ∧
    0 ≤ k ∧ k < S b ∧ |md0 - k| ≤ 2 * S b - 1 ∧ S b ∣ low - MAX_PRIME_DIFF * (md0 - k) := by
  have hS := four_le_S b
  have huv' := abs_le.mp (le_refl |u|)
  have hvv := abs_le.mp (le_refl |v|)
  obtain ⟨md0, hmd0⟩ : ∃ md0, md0 = (if D < 0 then u else 0) + (if E < 0 then v else 0) := ⟨_, rfl⟩
  have hle : |md0| ≤ S b := by
    rw [hmd0, abs_le]
    split <;> split <;> omega
  have hk := Int.emod_nonneg (MODULUS_INVERSE b * low + md0) (by omega : S b ≠ 0)
  have hlt := Int.emod_lt_of_pos (MODULUS_INVERSE b * low + md0) (by omega : 0 < S b)
  have hbound : |md0 - (MODULUS_INVERSE b * low + md0) % S b| ≤ 2 * S b - 1 := by
    rw [abs_le] at hle ⊢
    omega
  refine ⟨md0, (MODULUS_INVERSE b * low + md0) % S b, ?_, hmd0, hk, hlt, hbound, ?_⟩
  · unfold modulusMultiple
    simp only [hd.isNegative_iff, he.isNegative_iff, ← hmd0]
    rw [signedLimb_ok (by omega), ok_bind]
    exact signedLimb_ok hbound
  · obtain ⟨m, hm⟩ := modulus_inverse b
    refine ⟨low * m - MAX_PRIME_DIFF * ((MODULUS_INVERSE b * low + md0) / S b), ?_⟩
    have hdiv := Int.mul_ediv_add_emod (MODULUS_INVERSE b * low + md0) (S b)
    linear_combination (MAX_PRIME_DIFF : Int) * hdiv + low * hm

theorem lift_abs_le {P : Int} (hgt : -(2 * P) < D) (hlt : D < P) : |D + if D < 0 then P else 0| ≤ P - 1 := by
  rw [abs_le]
  split <;> omega

theorem row_bounds {P u v E V md0 k : Int} (huv : |u| + |v| ≤ S b) (hD : -(2 * P) < D ∧ D < P)
    (hE : -(2 * P) < E ∧ E < P) (hmd0 : md0 = (if D < 0 then u else 0) + (if E < 0 then v else 0))
    (hk : 0 ≤ k) (hlt : k < S b) (hV : S b * V = u * D + v * E + P * (md0 - k)) : -(2 * P) < V ∧ V < P := by
  have hlift : ∀ x y : Int, x * (y + if y < 0 then P else 0) = x * y + P * if y < 0 then x else 0 := by
    intro x y
    split <;> ring
  have hone : (0 : Int) ≤ P - 1 := (abs_nonneg _).trans (lift_abs_le hD.1 hD.2)
  have hp : (0 : Int) ≤ P := by omega
  have hsum : |u * (D + if D < 0 then P else 0) + v * (E + if E < 0 then P else 0)| ≤
      S b * (P - 1) := by
    calc _ ≤ |u| * |D + if D < 0 then P else 0| + |v| * |E + if E < 0 then P else 0| := by
          rw [← abs_mul, ← abs_mul]
          exact abs_add_le _ _
      _ ≤ |u| * (P - 1) + |v| * (P - 1) := by
          gcongr
          · exact lift_abs_le hD.1 hD.2
          · exact lift_abs_le hE.1 hE.2
      _ = (|u| + |v|) * (P - 1) := by ring
      _ ≤ S b * (P - 1) := by gcongr
  have hkp : P * k ≤ P * S b := mul_le_mul_of_nonneg_left hlt.le hp
  have hkp' : (0 : Int) ≤ P * k := mul_nonneg hp hk
  rw [hlift, hlift, abs_le] at hsum
  subst hmd0
  constructor
  · apply lt_of_mul_lt_mul_left _ (by omega : 0 ≤ S b)
    linarith [hsum.1]
  · apply lt_of_mul_lt_mul_left _ (by omega : 0 ≤ S b)
    linarith [hsum.2]

theorem two_modulus_le (b : Build) : 2 * (modulus : Int) ≤ S b ^ b.signedLimbs := by
  obtain ⟨-, hbits, -⟩ := modulus_limbs_le b
  have hS := four_le_S b
  have hcount := signedLimbs_eq b
  have hpow : S b ^ b.signedLimbs = S b ^ (b.signedLimbs - 1) * S b := by
    rw [← pow_succ]
    congr 1
    omega
  have hpos : 0 < S b ^ (b.signedLimbs - 1) := by positivity
  have hle := mul_le_mul_of_nonneg_left hbits hpos.le
  rw [hpow, modulus_eq b]
  linarith

theorem lastCarry_eq {terms l : List Int} {y high : Int} (hterms : ∀ t ∈ terms, |t| ≤ 2 * (S b * S b))
    (hne : terms ≠ []) (hy : |y| ≤ S b * S b) (hhigh : |high| ≤ S b * S b)
    (hl : shiftLimbs b (terms ++ [y + high]) = .ok l) : (do
      let (out, c) ← carryLimbs b 0 terms
      let c ← signedDouble b (c + y)
      let high ← signedDouble b high
      let c ← signedDouble b (c + high)
      check (out.headD 0 = 0)
      return out.tail ++ [c % b.signedBase, toSigned b (c / b.signedBase)]) = (.ok l : Checked (List Int)) := by
  have hS := four_le_S b
  have hsq : 0 ≤ S b * S b := by positivity
  obtain ⟨out, c, hrun, hlength, -, -, _, -⟩ := carryLimbs_spec (b := b) (c := 0) hterms (by rw [abs_zero]; omega)
  have hsum := abs_add_le c y
  have hsum' := abs_add_le (c + y) high
  rw [shiftLimbs, carryLimbs_concat _ hrun, ← add_assoc, signedDouble_ok (by omega)] at hl
  obtain ⟨_, _, rfl⟩ := exists_cons_of_length_pos (by rw [hlength]; exact length_pos_iff.mpr hne)
  rw [hrun, ok_bind]
  simp only [signedDouble_ok (by omega : |c + y| ≤ 4 * (S b * S b)),
    signedDouble_ok (by omega : |high| ≤ 4 * (S b * S b)),
    signedDouble_ok (by omega : |c + y + high| ≤ 4 * (S b * S b)), ok_bind]
  simp only [Except.map, ok_bind, cons_append, headD_cons, tail_cons, append_assoc, nil_append] at hl ⊢
  exact hl

theorem updateRow_spec (huv : |u| + |v| ≤ S b) (hd : Residue b d D) (he : Residue b e E) :
    ∃ l V md, updateRow b u v d e = .ok l ∧ Residue b l V ∧ S b * V = u * D + v * E + modulus * md := by
  have hS := four_le_S b
  have hcount := signedLimbs_eq b
  have hsq : 0 ≤ S b * S b := by positivity
  obtain ⟨terms, hterms, hlength, hle, hvalue⟩ :=
      products_spec huv (hd.length_eq.trans he.length_eq.symm) hd.small he.small
  rw [hd.length_eq] at hlength
  rw [hd.value_eq, he.value_eq] at hvalue
  obtain ⟨x, rest, rfl⟩ := exists_cons_of_length_pos (by omega : 0 < terms.length)
  obtain ⟨mid, y, rfl⟩ : ∃ mid y, rest = mid ++ [y] := by
    have hne : rest ≠ [] := by
      rintro rfl
      simp only [length_cons, length_nil] at hlength
      omega
    exact ⟨rest.dropLast, rest.getLast hne, (dropLast_append_getLast hne).symm⟩
  have hmid : mid.length + 1 = b.signedLimbs - 1 := by
    simp only [length_cons, length_append, length_nil] at hlength
    omega
  have hx : |x| ≤ S b * S b := hle x (by simp)
  have hy : |y| ≤ S b * S b := hle y (by simp)
  obtain ⟨md0, k, hmd, hmd0, hk, hlt, _, hdvd⟩ := modulusMultiple_spec x huv hd he
  obtain ⟨hdiff, hbits, -⟩ := modulus_limbs_le b
  have hlow : |(MAX_PRIME_DIFF : Int) * (md0 - k)| ≤ S b * S b := by
    rw [abs_mul, abs_of_nonneg (by decide : (0 : Int) ≤ MAX_PRIME_DIFF)]
    calc (MAX_PRIME_DIFF : Int) * |md0 - k| ≤ MAX_PRIME_DIFF * (2 * S b) := by
          apply mul_le_mul_of_nonneg_left (by omega) (by decide)
      _ = 2 * MAX_PRIME_DIFF * S b := by ring
      _ ≤ S b * S b := mul_le_mul_of_nonneg_right hdiff (by omega)
  have hfirst : |x - MAX_PRIME_DIFF * (md0 - k)| ≤ 2 * (S b * S b) := by
    have := abs_sub x (MAX_PRIME_DIFF * (md0 - k))
    omega
  have hhigh : |(md0 - k) * 2 ^ FINAL_LIMB_MODULUS_BITS b| ≤ S b * S b := by
    rw [abs_mul, abs_of_nonneg (by positivity : (0 : Int) ≤ 2 ^ FINAL_LIMB_MODULUS_BITS b)]
    calc |md0 - k| * 2 ^ FINAL_LIMB_MODULUS_BITS b ≤ 2 * S b * 2 ^ FINAL_LIMB_MODULUS_BITS b := by
          apply mul_le_mul_of_nonneg_right (by omega) (by positivity)
      _ = S b * (2 * 2 ^ FINAL_LIMB_MODULUS_BITS b) := by ring
      _ ≤ S b * S b := mul_le_mul_of_nonneg_left hbits (by omega)
  have hlast : |y + (md0 - k) * 2 ^ FINAL_LIMB_MODULUS_BITS b| ≤ 2 * (S b * S b) := by
    have := abs_add_le y ((md0 - k) * 2 ^ FINAL_LIMB_MODULUS_BITS b)
    omega
  -- the two limbs of the modulus make the row a multiple of the base
  have hrow : value (S b) ((x - MAX_PRIME_DIFF * (md0 - k)) ::
      (mid ++ [y + (md0 - k) * 2 ^ FINAL_LIMB_MODULUS_BITS b])) = u * D + v * E + modulus * (md0 - k) := by
    rw [sub_eq_add_neg, value_ends, hvalue, hmid, modulus_eq b]
    ring
  obtain ⟨V, hV⟩ : S b ∣ u * D + v * E + modulus * (md0 - k) := by
    rw [← hrow, value_cons]
    exact dvd_add hdvd (dvd_mul_right _ _)
  have hVbounds := row_bounds huv ⟨hd.gt, hd.lt⟩ ⟨he.gt, he.lt⟩ hmd0 hk hlt hV.symm
  have hfit : |V| ≤ S b ^ b.signedLimbs := by
    have := two_modulus_le b
    rw [abs_le]
    omega
  have hlen : ((x - MAX_PRIME_DIFF * (md0 - k)) :: (mid ++ [y + (md0 - k) * 2 ^ FINAL_LIMB_MODULUS_BITS b])).length =
      b.signedLimbs := by
    simp only [length_cons, length_append, length_nil]
    omega
  obtain ⟨l, low, top, hl, hnormal, hllen, hlvalue⟩ := shiftLimbs_spec (cons_ne_nil _ _) (by
      intro t ht
      simp only [mem_cons, mem_append, not_mem_nil, or_false] at ht
      rcases ht with rfl | ht | rfl
      · exact hfirst
      · have := hle t (by simp [ht])
        omega
      · exact hlast) (hrow.trans hV) (by rw [hlen]; exact hfit)
  refine ⟨l, V, md0 - k, ?_, ⟨⟨low, top, hnormal⟩, hllen.trans hlen, hlvalue, hVbounds.1, hVbounds.2⟩, hV.symm⟩
  unfold updateRow
  rw [hterms, ok_bind, headD_cons, hmd, ok_bind, signedDouble_ok (by omega), ok_bind,
    signedDouble_ok (by omega), ok_bind, tail_cons, dropLast_concat, ← cons_append, getLastD_concat]
  refine lastCarry_eq (forall_mem_cons.mpr ⟨hfirst, fun t ht => ?_⟩) (cons_ne_nil _ _) hy hhigh hl
  have := hle t (by simp [ht])
  omega

theorem updateDE_spec {eta eta' f' g' E : Int} (hbatch : Batch b eta F G eta' t f' g')
    (hd : Residue b d D) (he : Residue b e E) : ∃ ld le D' E' md me, updateDE b d e t = .ok (ld, le) ∧
      Residue b ld D' ∧ Residue b le E' ∧
    S b * D' = t.u * D + t.v * E + modulus * md ∧ S b * E' = t.q * D + t.r * E + modulus * me := by
  obtain ⟨ld, D', md, hld, hdres, hdeq⟩ := updateRow_spec hbatch.upper hd he
  obtain ⟨le, E', me, hle, heres, heeq⟩ := updateRow_spec hbatch.lower hd he
  refine ⟨ld, le, D', E', md, me, ?_, hdres, heres, hdeq, heeq⟩
  unfold updateDE
  rw [hld, ok_bind, hle, ok_bind]
  rfl

/-! ## `normalize` -/

theorem addModulus_spec (h : Normal b limbs low top) (hlength : limbs.length = b.signedLimbs) :
    ∃ low' top', addModulus b limbs = .ok (low' ++ [top']) ∧ low'.length = low.length ∧ (∀ x ∈ low', |x| ≤ S b) ∧
      |top'| ≤ 2 * S b - 3 ∧
    value (S b) (low' ++ [top']) = value (S b) limbs + if value (S b) limbs < 0 then (modulus : Int) else 0 := by
  have hS := diff_lt_S b
  have hdiff : (6 : Int) ≤ MAX_PRIME_DIFF := by decide
  obtain ⟨-, _, _⟩ := modulus_limbs_le b
  have hcount := signedLimbs_eq b
  have htop := h.top_le
  unfold addModulus
  split
  · next hneg =>
    rw [h.isNegative_iff] at hneg
    obtain ⟨x, mid, rfl⟩ : ∃ x mid, low = x :: mid := by
      apply exists_cons_of_length_pos
      rw [h.eq, length_append, length_singleton] at hlength
      omega
    have hnonneg := h.nonneg
    have hlt := h.lt
    rw [forall_mem_cons] at hnonneg hlt
    have hmid : mid.length + 1 = b.signedLimbs - 1 := by
      simp only [h.eq, length_cons, length_append, length_nil] at hlength
      omega
    have hfirst : |x - MAX_PRIME_DIFF| ≤ S b := by
      rw [abs_le]
      omega
    have hlast : |top + 2 ^ FINAL_LIMB_MODULUS_BITS b| ≤ 2 * S b - 3 := by
      rw [abs_le] at htop ⊢
      omega
    refine ⟨(x - MAX_PRIME_DIFF) :: mid, top + 2 ^ FINAL_LIMB_MODULUS_BITS b, ?_, rfl, ?_, hlast, ?_⟩
    · rw [h.eq, getLastD_concat, cons_append, headD_cons, signedLimb_ok (by omega), ok_bind, signedLimb_ok (by omega),
        ok_bind, tail_cons, dropLast_concat]
      rfl
    · rw [forall_mem_cons]
      refine ⟨hfirst, fun y hy => ?_⟩
      rw [abs_of_nonneg (hnonneg.2 y hy)]
      exact (hlt.2 y hy).le
    · rw [if_pos hneg, cons_append, sub_eq_add_neg, value_ends, hmid, modulus_eq b, h.eq, cons_append]
      ring
  · next hpos =>
    rw [h.isNegative_iff] at hpos
    refine ⟨low, top, by rw [h.eq], rfl, ?_, by omega, by rw [if_neg hpos, add_zero, h.eq]⟩
    intro x hx
    apply h.small
    rw [h.eq]
    exact mem_append_left _ hx

theorem negate_spec (h : ∀ x ∈ limbs, |x| ≤ 2 * S b - 1) :
    (limbs.mapM fun limb => signedLimb b (-limb)) = .ok (limbs.map (- ·)) := by
  induction limbs with
  | nil => rfl
  | cons x limbs ih =>
    rw [forall_mem_cons] at h
    rw [mapM_cons, signedLimb_ok (by rw [abs_neg]; exact h.1), ok_bind, ih h.2, ok_bind]
    rfl

theorem value_map_neg (limbs : List Int) : value (S b) (limbs.map (- ·)) = -value (S b) limbs := by
  induction limbs with
  | nil => simp
  | cons x limbs ih =>
    rw [map_cons, value_cons, value_cons, ih]
    ring

theorem top_le_of_modulus (hlength : low.length = b.signedLimbs - 1) (hnonneg : ∀ x ∈ low, 0 ≤ x)
    (hlt : ∀ x ∈ low, x < S b) (hvalue : |value (S b) (low ++ [top])| ≤ modulus) :
    |top| ≤ 2 ^ FINAL_LIMB_MODULUS_BITS b := by
  apply top_le_of_value hnonneg hlt
  have hp := modulus_eq b
  rw [hlength]
  omega

theorem performCarry_normal (hlength : low.length = b.signedLimbs - 1) (hlow : ∀ x ∈ low, |x| ≤ S b)
    (htop : |top| ≤ 2 * S b - 3) (hvalue : |value (S b) (low ++ [top])| ≤ modulus) :
    ∃ low' top', performCarry b 0 (low ++ [top]) = .ok (low' ++ [top']) ∧ Normal b (low' ++ [top']) low' top' ∧
    (low' ++ [top']).length = b.signedLimbs ∧ top' < S b ∧ value (S b) (low' ++ [top']) = value (S b)
    (low ++ [top]) := by
  have hcount := signedLimbs_eq b
  obtain ⟨low', top', hrun, hlength', hnonneg, hlt, hvalue'⟩ :=
      performCarry_spec hlow htop (show |(0 : Int)| ≤ 2 by decide)
  rw [zero_add] at hvalue'
  have hsmall := top_le_of_modulus (hlength'.trans hlength) hnonneg hlt (by rw [hvalue']; exact hvalue)
  obtain ⟨-, _, _⟩ := modulus_limbs_le b
  refine ⟨low', top', hrun, ⟨rfl, hnonneg, hlt, by omega⟩, ?_, ?_, hvalue'⟩
  · rw [length_append, length_singleton]
    omega
  · have := (abs_le.mp hsmall).2
    omega

theorem normalize_first (h : Residue b limbs D) (negate : Bool) : ∃ first low top W, addModulus b limbs = .ok first ∧
    (if negate then first.mapM fun limb => signedLimb b (-limb) else .ok first) = .ok (low ++ [top]) ∧
    low.length = b.signedLimbs - 1 ∧ (∀ x ∈ low, |x| ≤ S b) ∧ |top| ≤ 2 * S b - 3 ∧
    value (S b) (low ++ [top]) = W ∧ |W| < modulus ∧ W ≡ (if negate then -D else D) [ZMOD modulus] := by
  have hS := diff_lt_S b
  obtain ⟨low, top, hnormal⟩ := h.normal
  have hlow : low.length = b.signedLimbs - 1 := by
    rw [← h.length_eq, hnormal.eq]
    simp
  obtain ⟨low', top', hrun, hlength, hle, htop, hvalue⟩ := addModulus_spec hnormal h.length_eq
  have hgt := h.gt
  have hlt := h.lt
  rw [h.value_eq] at hvalue
  have hmod : value (S b) (low' ++ [top']) ≡ D [ZMOD modulus] := by
    rw [hvalue]
    split
    · exact Int.add_modulus_modEq_iff.mpr rfl
    · rw [add_zero]
  have habs : |value (S b) (low' ++ [top'])| < modulus := by
    rw [hvalue, abs_lt]
    split <;> omega
  cases negate with
  | false => exact ⟨_, low', top', _, hrun, rfl, hlength.trans hlow, hle, htop, rfl, habs, hmod⟩
  | true =>
    have hneg : ((low' ++ [top']).mapM fun limb => signedLimb b (-limb)) = .ok ((low' ++ [top']).map (- ·)) := by
      apply negate_spec
      intro x hx
      rcases mem_append.mp hx with hx | hx
      · have := hle x hx
        omega
      · rw [mem_singleton.mp hx]
        omega
    have hvalue_neg : value (S b) (low'.map (- ·) ++ [-top']) = -value (S b) (low' ++ [top']) := by
      rw [← value_map_neg, map_append, map_singleton]
    refine ⟨_, low'.map (- ·), -top', _, hrun, ?_, ?_, ?_, ?_, rfl, ?_, ?_⟩
    · rw [if_pos rfl, hneg, map_append]
      rfl
    · rw [length_map, hlength, hlow]
    · intro x hx
      obtain ⟨y, hy, rfl⟩ := mem_map.mp hx
      rw [abs_neg]
      exact hle y hy
    · rw [abs_neg]
      exact htop
    · rw [hvalue_neg, abs_neg]
      exact habs
    · rw [hvalue_neg, if_pos rfl]
      exact hmod.neg

theorem normalize_spec (h : Residue b limbs D) (negate : Bool) :
    ∃ l, normalize b limbs negate = .ok l ∧ IsSigned b l ∧ 0 ≤ value (S b) l ∧ value (S b) l < modulus ∧
    value (S b) l ≡ (if negate then -D else D) [ZMOD modulus] := by
  obtain ⟨_, _, _, _, hfirst, hsign, hlen1, hle1, htop1, hW, habs, hmod⟩ := normalize_first h negate
  subst hW
  obtain ⟨_, _, hrun2, hnormal2, hlen2, -, hvalue2⟩ := performCarry_normal hlen1 hle1 htop1 habs.le
  obtain ⟨low3, top3, hrun3, hlen3, hle3, htop3, hvalue3⟩ := addModulus_spec hnormal2 hlen2
  rw [hvalue2] at hvalue3
  have hbounds : 0 ≤ value (S b) (low3 ++ [top3]) ∧ value (S b) (low3 ++ [top3]) < modulus := by
    rw [abs_lt] at habs
    rw [hvalue3]
    split <;> omega
  have hlow3 : low3.length = b.signedLimbs - 1 := by
    rw [hlen3, ← hlen2]
    simp
  obtain ⟨low4, top4, hrun4, hnormal4, hlen4, htop4, hvalue4⟩ := performCarry_normal hlow3 hle3 htop3
    (by rw [abs_of_nonneg hbounds.1]; exact hbounds.2.le)
  have htop : 0 ≤ top4 := by
    have := hnormal4.neg_iff
    omega
  refine ⟨low4 ++ [top4], ?_, ⟨hlen4, ?_, ?_⟩, by omega, by omega, ?_⟩
  · unfold normalize
    rw [hfirst, ok_bind]
    simp only
    split at hsign
    · next hneg => rw [if_pos hneg, hsign, ok_bind, hrun2, ok_bind, hrun3, ok_bind, hrun4]
    · next hneg => rw [if_neg hneg, hsign, ok_bind, hrun2, ok_bind, hrun3, ok_bind, hrun4]
  · exact forall_mem_append.mpr ⟨hnormal4.nonneg, by simpa using htop⟩
  · exact forall_mem_append.mpr ⟨hnormal4.lt, by simpa using htop4⟩
  · rw [hvalue4, hvalue3]
    refine Int.ModEq.trans ?_ hmod
    split
    · exact Int.add_modulus_modEq_iff.mpr rfl
    · rw [add_zero]

/-! ## Fewer limbs -/

theorem zero_of_value_zero (hnonneg : ∀ x ∈ limbs, 0 ≤ x) (hzero : value (S b) limbs = 0) : ∀ x ∈ limbs, x = 0 := by
  have hS := four_le_S b
  induction limbs with
  | nil => simp
  | cons y limbs ih =>
    rw [forall_mem_cons] at hnonneg ⊢
    rw [value_cons] at hzero
    have hrest := value_nonneg (b := b) hnonneg.2
    have hmul : 0 ≤ S b * value (S b) limbs := mul_nonneg (by omega) hrest
    refine ⟨by omega, ih hnonneg.2 ?_⟩
    have hprod : S b * value (S b) limbs = 0 := by omega
    exact (mul_eq_zero.mp hprod).resolve_left (by omega)

theorem dropTop_spec (h : Normal b limbs low top) (hlength : 2 ≤ limbs.length)
    (hsign : isSign (limbs.getLastD 0) = true) : (dropTop b limbs).length + 1 = limbs.length ∧
      Small b (dropTop b limbs) ∧
    value (S b) (dropTop b limbs) = value (S b) limbs ∧ |value (S b) limbs| ≤ S b ^ (dropTop b limbs).length := by
  have hnonneg := value_nonneg (b := b) h.nonneg
  have hlt := value_lt_pow h.lt
  obtain ⟨rest, y, rfl⟩ : ∃ rest y, low = rest ++ [y] := by
    have hne : low ≠ [] := by
      rintro rfl
      rw [h.eq] at hlength
      simp at hlength
    exact ⟨low.dropLast, low.getLast hne, (dropLast_append_getLast hne).symm⟩
  have hdrop : dropTop b limbs = rest ++ [y + top * S b] := by
    unfold dropTop
    simp only [h.eq, dropLast_concat, getLastD_concat]
    rfl
  have htop : top = 0 ∨ top = -1 := by
    rw [h.eq, getLastD_concat] at hsign
    simpa [isSign] using hsign
  have hy : 0 ≤ y ∧ y < S b := ⟨h.nonneg y (by simp), h.lt y (by simp)⟩
  rw [hdrop]
  refine ⟨by simp [h.eq], ?_, ?_, ?_⟩
  · intro x hx
    rcases mem_append.mp hx with hx | hx
    · apply h.small
      simp [h.eq, hx]
    · rw [mem_singleton.mp hx, abs_le]
      rcases htop with rfl | rfl <;> omega
  · rw [h.value_eq, value_append, value_append, length_append, length_singleton, pow_succ]
    simp only [value_cons, value_nil]
    ring
  · rw [h.value_eq, abs_le]
    simp only [length_append, length_singleton] at *
    rcases htop with rfl | rfl
    · constructor <;> linarith
    · constructor <;> linarith

theorem shrink_pair {f flow glow : List Int} {ftop gtop : Int} (hf : Normal b f flow ftop) (hg : Normal b g glow gtop)
    (hlength : g.length = f.length) (hF : value (S b) f = F) (hG : value (S b) g = G) (hFle : |F| ≤ S b ^ f.length)
    (hGle : |G| ≤ S b ^ f.length) : Pair b (shrink b f g).1 (shrink b f g).2 F G := by
  unfold shrink
  split
  · next hcond =>
    obtain ⟨h2, hfsign, hgsign⟩ := hcond
    obtain ⟨_, hfsmall, hfvalue, hfle⟩ := dropTop_spec hf h2 hfsign
    obtain ⟨_, hgsmall, hgvalue, hgle⟩ := dropTop_spec hg (by omega) hgsign
    have hlen : (dropTop b g).length = (dropTop b f).length := by omega
    refine ⟨?_, hlen, hfsmall, hgsmall, hfvalue.trans hF, hgvalue.trans hG, by rw [← hF]; exact hfle, ?_⟩
    · have hpos : 0 < (dropTop b f).length := by omega
      exact ne_nil_of_length_pos hpos
    · rw [← hG, ← hlen]
      exact hgle
  · refine ⟨?_, hlength, hf.small, hg.small, hF, hG, hFle, hGle⟩
    rw [hf.eq]
    simp

theorem Normal.all_zero_iff (h : Normal b limbs low top) : limbs.all (· = 0) = true ↔ value (S b) limbs = 0 := by
  rw [all_eq_true]
  simp only [decide_eq_true_eq]
  constructor
  · intro hall
    rw [eq_replicate_of_mem hall, value_replicate_zero]
  · intro hzero
    have htop : |top| ≤ 0 := by
      apply top_le_of_value h.nonneg h.lt
      rw [← h.eq, hzero]
      simp
    obtain rfl : top = 0 := abs_nonpos_iff.mp htop
    have hlow : value (S b) low = 0 := by
      rw [h.value_eq, mul_zero, add_zero] at hzero
      exact hzero
    rw [h.eq]
    intro x hx
    rcases mem_append.mp hx with hx | hx
    · exact zero_of_value_zero h.nonneg hlow x hx
    · exact mem_singleton.mp hx

/-! ## The loop -/

theorem modulus_odd : (modulus : Int) % 2 = 1 := by
  have hsum := modulus_add_diff .int64
  rw [base_pow_limbs, show 3072 = 3071 + 1 from rfl, pow_succ] at hsum
  have hdiff : MAX_PRIME_DIFF % 2 = 1 := by decide
  omega

theorem modulus_coprime (b : Build) : IsCoprime (modulus : Int) (S b) := by
  obtain ⟨m, hm⟩ := modulus_inverse b
  have hcount := signedLimbs_eq b
  have hpow : S b ^ (b.signedLimbs - 1) = S b ^ (b.signedLimbs - 2) * S b := by
    rw [← pow_succ]
    congr 1
    omega
  refine ⟨MODULUS_INVERSE b, m - MODULUS_INVERSE b * (S b ^ (b.signedLimbs - 2) * 2 ^ FINAL_LIMB_MODULUS_BITS b), ?_⟩
  rw [modulus_eq b, hpow]
  linear_combination -hm

theorem modEq_row {u v E V f' md : Int} (hF : F ≡ D * x [ZMOD modulus]) (hG : G ≡ E * x [ZMOD modulus])
    (hf : S b * f' = u * F + v * G) (hV : S b * V = u * D + v * E + modulus * md) : f' ≡ V * x [ZMOD modulus] := by
  rw [Int.modEq_iff_dvd] at *
  apply (modulus_coprime b).dvd_of_dvd_mul_left
  obtain ⟨m, hm⟩ := hF
  obtain ⟨n, hn⟩ := hG
  refine ⟨u * m + v * n + md * x, ?_⟩
  linear_combination x * hV - hf + u * hm + v * hn

/-- What holds before round `n`, for a number `x` to invert. -/
structure Round (b : Build) (x : Int) (n : Nat) (s : InverseState) (F G D E : Int) : Prop where
  pair : Pair b s.f s.g F G
  d : Residue b s.d D
  e : Residue b s.e E
  steps_eq : steps (n * b.signedLimbSize) ⟨-1, modulus, x⟩ = ⟨s.eta, F, G⟩
  f_mod : F ≡ D * x [ZMOD modulus]
  g_mod : G ≡ E * x [ZMOD modulus]
  x_le : |x| ≤ modulus
  eta_le : |s.eta| ≤ 3073

structure Ended (b : Build) (x : Int) (s : InverseState) (F D : Int) : Prop where
  normal : ∃ low top, Normal b s.f low top
  value_eq : value (S b) s.f = F
  d : Residue b s.d D
  steps_eq : ∃ n, (steps n ⟨-1, modulus, x⟩).f = F ∧ (steps n ⟨-1, modulus, x⟩).g = 0
  f_mod : F ≡ D * x [ZMOD modulus]

theorem modulus_le_pow : (modulus : Int) ≤ 2 ^ 3072 := by
  have hsum := modulus_add_diff .int64
  rw [base_pow_limbs] at hsum
  omega

theorem eta_small {eta : Int} {n : Nat} (hx : |x| ≤ modulus) (h : steps n ⟨-1, modulus, x⟩ = ⟨eta, F, G⟩) (hG : G ≠ 0) :
    |eta| ≤ 3073 := by
  have hm : |(modulus : Int)| ≤ 2 ^ 3072 := by
    rw [abs_of_nonneg (Int.natCast_nonneg _)]
    exact modulus_le_pow
  have hstart : EtaWithin 3072 ⟨-1, modulus, x⟩ :=
      ⟨by simp only; decide, fun _ => by simpa using hx.trans modulus_le_pow⟩
  have hwithin := hstart.steps n modulus_odd hm (hx.trans modulus_le_pow)
  rw [h] at hwithin
  exact hwithin.abs_eta_le hG

theorem inverseLoop_step (fuel : Nat) {n : Nat} {E : Int} (h : Round b x n s F G D E) :
    ∃ s' F' G' D' E', steps ((n + 1) * b.signedLimbSize) ⟨-1, modulus, x⟩ = ⟨s'.eta, F', G'⟩ ∧
    ((G' = 0 ∧ inverseLoop b (fuel + 1) s = .ok s' ∧ Ended b x s' F' D') ∨
      (G' ≠ 0 ∧ inverseLoop b (fuel + 1) s = inverseLoop b fuel s' ∧ Round b x (n + 1) s' F' G' D' E')) := by
  have hodd : F % 2 = 1 := by
    have := steps_odd (s := ⟨-1, modulus, x⟩) (n * b.signedLimbSize) modulus_odd
    rwa [h.steps_eq] at this
  have hpair := h.pair
  obtain ⟨eta', t, f', g', hrun, hbatch⟩ :
      ∃ eta' t f' g', computeDivstepMatrix b s.eta (s.f.headD 0) (s.g.headD 0) = .ok (eta', t) ∧
      Batch b s.eta F G eta' t f' g' := by
    apply computeDivstepMatrix_spec (h.eta_le.trans (by decide)) hodd
    · rw [← hpair.f_value]
      exact headD_modEq s.f
    · rw [← hpair.g_value]
      exact headD_modEq s.g
  obtain ⟨lf, lg, flow, ftop, _, _, hfg, hfnormal, hgnormal, hflen, hglen, hfvalue, hgvalue⟩ :=
      updateFG_spec hpair hodd hbatch
  obtain ⟨ld, le, D', E', _, _, hde, hdres, heres, hdeq, heeq⟩ := updateDE_spec hbatch h.d h.e
  have hfmod : f' ≡ D' * x [ZMOD modulus] := modEq_row h.f_mod h.g_mod hbatch.f_eq hdeq
  have hgmod : g' ≡ E' * x [ZMOD modulus] := modEq_row h.f_mod h.g_mod hbatch.g_eq heeq
  have hsteps : steps ((n + 1) * b.signedLimbSize) ⟨-1, modulus, x⟩ = ⟨eta', f', g'⟩ := by
    rw [Nat.add_mul, Nat.one_mul, steps_add, h.steps_eq, hbatch.steps_eq]
  have hle := steps_le b.signedLimbSize (s := ⟨s.eta, F, G⟩) hodd hpair.f_le hpair.g_le
  rw [hbatch.steps_eq, ← hflen] at hle
  by_cases hzero : g' = 0
  · refine ⟨⟨eta', ld, le, lf, lg⟩, f', g', D', E', hsteps, .inl ⟨hzero, ?_, ?_⟩⟩
    · have hall := hgnormal.all_zero_iff.mpr (hgvalue.trans hzero)
      unfold inverseLoop
      rw [hrun, ok_bind]
      simp only
      rw [hfg, ok_bind]
      simp only
      rw [hde, ok_bind]
      simp only
      rw [if_pos hall]
      rfl
    · exact ⟨⟨flow, ftop, hfnormal⟩, hfvalue, hdres, ⟨_, by rw [hsteps], by rw [hsteps, hzero]⟩, hfmod⟩
  · refine ⟨⟨eta', ld, le, (shrink b lf lg).1, (shrink b lf lg).2⟩, f', g', D', E', hsteps, .inr ⟨hzero, ?_, ?_⟩⟩
    · have hall : ¬ lg.all (· = 0) = true := by
        rw [hgnormal.all_zero_iff, hgvalue]
        exact hzero
      conv_lhs => unfold inverseLoop
      rw [hrun, ok_bind]
      simp only
      rw [hfg, ok_bind]
      simp only
      rw [hde, ok_bind]
      simp only
      rw [if_neg hall]
    · exact ⟨shrink_pair hfnormal hgnormal (hglen.trans hflen.symm) hfvalue hgvalue hle.1 hle.2, hdres, heres,
        hsteps, hfmod, hgmod, h.x_le, eta_small h.x_le hsteps hzero⟩

theorem inverseLoop_spec {N n fuel : Nat} {E : Int} (h : Round b x n s F G D E)
    (hN : (steps N ⟨-1, modulus, x⟩).g = 0) (hfuel : N ≤ (n + fuel) * b.signedLimbSize) (hpos : 0 < fuel) :
    ∃ s' F' D', inverseLoop b fuel s = .ok s' ∧ Ended b x s' F' D' := by
  induction fuel generalizing n s F G D E with
  | zero => omega
  | succ fuel ih =>
    obtain ⟨s', F', _, D', _, hsteps, ⟨-, hrun, hended⟩ | ⟨hne, hrun, hround⟩⟩ := inverseLoop_step fuel h
    · exact ⟨s', F', D', hrun, hended⟩
    · have hmore : (n + 1) * b.signedLimbSize < N := by
        by_contra hge
        obtain ⟨m, hm⟩ := Nat.exists_eq_add_of_le (Nat.le_of_not_lt hge)
        rw [hm, steps_add] at hsteps
        have hzero := (steps_of_zero m hN).2
        rw [hsteps] at hzero
        exact hne hzero
      rw [hrun]
      apply ih hround
      · rwa [Nat.add_assoc, Nat.add_comm 1 fuel]
      · by_contra hzero
        obtain rfl : fuel = 0 := by omega
        rw [Nat.zero_add] at hfuel
        omega

/-! ## `GetInverse` -/

theorem one_lt_modulus : (1 : Int) < modulus := by
  have hsum := modulus_add_diff .int64
  rw [base_pow_limbs] at hsum
  have hlarge : MAX_PRIME_DIFF + 2 ≤ 2 ^ 32 := by decide
  omega

theorem signedModulus_value (b : Build) : value (S b) (signedModulus b) = modulus := by
  have hcount := signedLimbs_eq b
  have hpow : S b ^ (b.signedLimbs - 1) = S b ^ (b.signedLimbs - 2) * S b := by
    rw [← pow_succ]
    congr 1
    omega
  unfold signedModulus
  rw [value_cons, value_append, value_replicate_zero, length_replicate, value_cons, value_nil, modulus_eq b, hpow]
  ring

theorem signedModulus_small (b : Build) : Small b (signedModulus b) := by
  obtain ⟨_, _, _⟩ := modulus_limbs_le b
  intro x hx
  rw [abs_le]
  simp only [signedModulus, mem_cons, mem_append, mem_replicate, not_mem_nil, or_false] at hx
  rcases hx with rfl | ⟨-, rfl⟩ | rfl <;> omega

theorem residue_unit (b : Build) (hx : x = 0 ∨ x = 1) : Residue b (x :: replicate (b.signedLimbs - 1) 0) x := by
  have hS := four_le_S b
  have hcount := signedLimbs_eq b
  have hp := one_lt_modulus
  have hsplit : replicate (b.signedLimbs - 1) (0 : Int) = replicate (b.signedLimbs - 2) 0 ++ [0] := by
    rw [← replicate_succ']
    congr 1
    omega
  refine ⟨⟨x :: replicate (b.signedLimbs - 2) 0, 0, ?_, ?_, ?_, ?_⟩, ?_, ?_, ?_, ?_⟩
  · rw [hsplit, cons_append]
  · simp only [mem_cons, mem_replicate]
    rintro y (rfl | ⟨-, rfl⟩) <;> omega
  · simp only [mem_cons, mem_replicate]
    rintro y (rfl | ⟨-, rfl⟩) <;> omega
  · rw [abs_zero]
    omega
  · rw [length_cons, length_replicate]
    omega
  · rw [value_cons, value_replicate_zero, mul_zero, add_zero]
  · omega
  · omega

theorem first_round (hg : IsSigned b g) (hvalue : value (S b) g = x) (hnonneg : 0 ≤ x) (hlt : x < modulus) :
    Round b x 0 ⟨-1, signedZero b, signedOne b, signedModulus b, g⟩ modulus x 0 1 := by
  have hcount := signedLimbs_eq b
  have htwo := two_modulus_le b
  have hlength : (signedModulus b).length = b.signedLimbs := by
    simp only [signedModulus, length_cons, length_append, length_replicate, length_nil]
    omega
  have hzero : signedZero b = 0 :: replicate (b.signedLimbs - 1) 0 := by
    unfold signedZero
    rw [hcount]
    rfl
  refine ⟨⟨cons_ne_nil _ _, ?_, signedModulus_small b, ?_, signedModulus_value b, hvalue, ?_, ?_⟩, ?_, ?_,
    ?_, ?_, ?_, ?_, by simp only; decide⟩
  · rw [hg.length_eq, hlength]
  · intro y hy
    have := hg.nonneg y hy
    have := hg.lt y hy
    rw [abs_le]
    omega
  · rw [abs_of_nonneg (by omega), hlength]
    omega
  · rw [abs_of_nonneg hnonneg, hlength]
    omega
  · change Residue b (signedZero b) 0
    rw [hzero]
    exact residue_unit b (.inl rfl)
  · exact residue_unit b (.inr rfl)
  · rw [Nat.zero_mul, steps_zero]
  · rw [zero_mul]
    exact Int.modulus_modEq_zero
  · rw [one_mul]
  · rw [abs_of_nonneg hnonneg]
    exact hlt.le

theorem steps_reach_zero (hnonneg : 0 ≤ x) (hlt : x < modulus) :
    ∃ N ≤ inverseRounds, (steps N ⟨-1, modulus, x⟩).g = 0 := by
  obtain ⟨N, hN, hzero⟩ := reaches_zero 1 le_rfl modulus_odd x
  refine ⟨N, hN.trans ?_, hzero⟩
  have hsum := modulus_add_diff .int64
  rw [base_pow_limbs] at hsum
  have hrank : rank 1 modulus x ≤ 2 ^ 4 * 2 ^ 3072 := by
    unfold rank
    have : (if (modulus : Int) * x < 0 then 1 else 0) ≤ 1 := by split <;> omega
    omega
  calc rank 1 modulus x * rank 1 modulus x ≤ (2 ^ 4 * 2 ^ 3072) * (2 ^ 4 * 2 ^ 3072) := Nat.mul_le_mul hrank hrank
    _ = 2 ^ (4 + 3072 + (4 + 3072)) := by rw [pow_add, pow_add]
    _ ≤ inverseRounds := Nat.pow_le_pow_right (by decide) (by decide)

theorem Ended.unit (h : Ended b x s F D) (hcoprime : IsCoprime (modulus : Int) x) : F = 1 ∨ F = -1 := by
  obtain ⟨n, hf, hg⟩ := h.steps_eq
  have hdvd := steps_dvd (k := F) n (s := ⟨-1, modulus, x⟩) modulus_odd (by rw [hf]) (by rw [hg]; exact dvd_zero F)
  exact Int.isUnit_iff.mp (hcoprime.isUnit_of_dvd' hdvd.1 hdvd.2)

theorem getInverse_spec {limbs : List Nat} (h : IsLimbs b limbs) (hlt : value b.base limbs < modulus)
    (hcoprime : Nat.Coprime (value b.base limbs) modulus) : ∃ inv, getInverse b limbs = .ok inv ∧ IsLimbs b inv ∧
    value b.base inv < modulus ∧ value b.base inv * value b.base limbs ≡ 1 [MOD modulus] := by
  have hS := four_le_S b
  obtain ⟨_, hg, hsigned, hvalue⟩ := fromNum3072_spec h
  obtain ⟨x, hx⟩ : ∃ x : Int, x = (value b.base limbs : Nat) := ⟨_, rfl⟩
  rw [← hx] at hvalue
  have hnonneg : 0 ≤ x := by omega
  have hxlt : x < modulus := by omega
  obtain ⟨N, hN, hzero⟩ := steps_reach_zero hnonneg hxlt
  have hsize := (sizes b).2.1
  have hround : N ≤ (0 + inverseRounds) * b.signedLimbSize := by
    rw [Nat.zero_add]
    exact hN.trans (Nat.le_mul_of_pos_right _ (by omega))
  obtain ⟨s, F, _, hloop, hended⟩ :=
      inverseLoop_spec (first_round hsigned hvalue hnonneg hxlt) hzero hround (Nat.pow_pos (by decide))
  have hunit : F = 1 ∨ F = -1 := by
    apply hended.unit
    rw [hx]
    exact (Nat.isCoprime_iff_coprime.mpr hcoprime).symm
  obtain ⟨_, _, hnormal⟩ := hended.normal
  have hneg : (s.f.getLastD 0 < 0) ↔ F < 0 := by
    rw [hnormal.eq, getLastD_concat, hnormal.neg_iff, hended.value_eq]
  obtain ⟨d, hd, hdsigned, _, _, hdmod⟩ := normalize_spec hended.d (s.f.getLastD 0 < 0)
  have hdpow : value (S b) d < 2 ^ 3072 := by
    have hsum := modulus_add_diff b
    rw [base_pow_limbs] at hsum
    omega
  obtain ⟨inv, hinv, hlimbs, hinvalue⟩ := toNum3072_spec hdsigned hdpow
  -- the lowest limb is that of 1 or of -1
  have hlow : s.f.headD 0 % S b = F % S b := by
    have := headD_modEq (b := b) s.f
    rwa [hended.value_eq] at this
  have hcheck : (s.f.headD 0 % S b = 1 || s.f.headD 0 % S b = S b - 1) = true := by
    rw [hlow]
    rcases hunit with rfl | rfl
    · rw [Int.emod_eq_of_lt (by omega) (by omega)]
      rfl
    · rw [← Int.add_emod_right, Int.emod_eq_of_lt (by omega) (by omega)]
      simp [add_comm, sub_eq_add_neg]
  -- the sign of `f` is that of the factor between `d` and the inverse
  have hinverse : value (S b) d * x ≡ 1 [ZMOD modulus] := by
    have hfmod := hended.f_mod
    rcases hunit with rfl | rfl
    · rw [if_neg (by rw [decide_eq_true_iff, hneg]; decide)] at hdmod
      exact (hdmod.mul_right x).trans hfmod.symm
    · rw [if_pos (by rw [decide_eq_true_iff, hneg]; decide)] at hdmod
      have hneg_mul := hfmod.symm.neg
      rw [neg_neg, ← neg_mul] at hneg_mul
      exact (hdmod.mul_right x).trans hneg_mul
  refine ⟨inv, ?_, hlimbs, by omega, ?_⟩
  · unfold getInverse
    rw [hg, ok_bind, hloop, ok_bind]
    change (check (s.f.headD 0 % S b = 1 || s.f.headD 0 % S b = S b - 1) >>= _) = _
    rw [hcheck, check_true, ok_bind, hd, ok_bind, hinv]
  · rw [← Int.natCast_modEq_iff, Nat.cast_mul, hinvalue, ← hx]
    exact hinverse

theorem divide_spec {x a : List Nat} (hx : IsLimbs b x) (ha : IsLimbs b a)
    (hcoprime : Nat.Coprime (value b.base a) modulus) :
    ∃ r, divide b x a = .ok r ∧ IsLimbs b r ∧ value b.base r < modulus ∧
    value b.base r * value b.base a ≡ value b.base x [MOD modulus] := by
  obtain ⟨hx', -, -, hxmod⟩ := reduce_spec hx
  obtain ⟨ha', halt, -, hamod⟩ := reduce_spec ha
  obtain ⟨inv, hinv, hinvlimbs, -, hinverse⟩ := getInverse_spec ha' halt (by
    rw [Nat.Coprime, hamod.gcd_eq]
    exact hcoprime)
  obtain ⟨m, hm, hmlimbs, hmmod⟩ := multiply_spec hx' hinvlimbs
  obtain ⟨hr, hrlt, -, hrmod⟩ := reduce_spec hmlimbs
  refine ⟨_, ?_, hr, hrlt, ?_⟩
  · unfold divide
    simp only [hinv, ok_bind, hm]
    rfl
  · calc value b.base (if isOverflow b m then fullReduce b m else m) * value b.base a
        ≡ value b.base x * value b.base inv * value b.base a [MOD modulus] :=
          (hrmod.trans (hmmod.trans (hxmod.mul_right _))).mul_right _
      _ = value b.base x * (value b.base inv * value b.base a) := by ring
      _ ≡ value b.base x * 1 [MOD modulus] := ((hamod.symm.mul_left _).trans hinverse).mul_left _
      _ = value b.base x := Nat.mul_one _

/-- Invertible modulo the modulus. -/
def HasInverse (x : Nat) : Prop := Nat.Coprime x modulus ∨ (Nat.Prime modulus ∧ ¬ modulus ∣ x)

theorem HasInverse.coprime {x : Nat} (h : HasInverse x) : Nat.Coprime x modulus := by
  rcases h with h | ⟨hprime, hdvd⟩
  · exact h
  · exact ((Nat.Prime.coprime_iff_not_dvd hprime).mpr hdvd).symm

/-- An inverse is found below the modulus, in range, and division multiplies by it. -/
theorem getInverse_divide (b : Build) {a : List Nat} (ha : IsLimbs b a) (hinverse : HasInverse (value b.base a)) :
    (value b.base a < modulus → ∃ inv, getInverse b a = .ok inv ∧ IsLimbs b inv ∧ value b.base inv < modulus ∧
      value b.base a * value b.base inv ≡ 1 [MOD modulus]) ∧
    ∃ inv, value b.base a * inv ≡ 1 [MOD modulus] ∧ ∀ x, IsLimbs b x → ∃ r, divide b x a = .ok r ∧ IsLimbs b r ∧
      value b.base r < modulus ∧ value b.base r ≡ value b.base x * inv [MOD modulus] := by
  have hcoprime := hinverse.coprime
  refine ⟨fun hlt => ?_, ?_⟩
  · obtain ⟨inv, hrun, hlimbs, hbelow, hmul⟩ := getInverse_spec ha hlt hcoprime
    exact ⟨inv, hrun, hlimbs, hbelow, by rwa [Nat.mul_comm]⟩
  · obtain ⟨inv, -, hinv⟩ := Nat.exists_mul_mod_eq_one_of_coprime hcoprime (by exact_mod_cast one_lt_modulus)
    have hone : value b.base a * inv ≡ 1 [MOD modulus] := by
      rw [Nat.ModEq, hinv, Nat.mod_eq_of_lt (by exact_mod_cast one_lt_modulus)]
    refine ⟨inv, hone, fun x hx => ?_⟩
    obtain ⟨r, hrun, hlimbs, hbelow, hmul⟩ := divide_spec hx ha hcoprime
    refine ⟨r, hrun, hlimbs, hbelow, ?_⟩
    calc value b.base r = value b.base r * 1 := (Nat.mul_one _).symm
      _ ≡ value b.base r * (value b.base a * inv) [MOD modulus] := hone.symm.mul_left _
      _ = value b.base r * value b.base a * inv := (Nat.mul_assoc _ _ _).symm
      _ ≡ value b.base x * inv [MOD modulus] := hmul.mul_right _

def twoLimbs : List Nat := 2 :: List.replicate 47 0

theorem two_inverse : ∃ inv, getInverse .int128 twoLimbs = .ok inv ∧
    2 * value Build.int128.base inv ≡ 1 [MOD modulus] := by
  have hvalue : value Build.int128.base twoLimbs = 2 := by decide
  obtain ⟨hinv, -⟩ := getInverse_divide .int128 (a := twoLimbs) ⟨by decide, by decide⟩ (by
    rw [hvalue]
    exact .inl (by decide +kernel))
  obtain ⟨inv, hrun, -, -, hmul⟩ := hinv (by rw [hvalue]; decide +kernel)
  rw [hvalue] at hmul
  exact ⟨inv, hrun, hmul⟩

end FullNode.Num3072

import FullNode.Num3072Divsteps
import FullNode.Num3072Multiply
import Mathlib.Tactic.LinearCombination

/-! # Signed limbs -/

namespace FullNode.Num3072

open Limbs List

variable {b : Build}

/-! ## Sizes -/

def S (b : Build) : Int := b.signedBase

theorem S_eq (b : Build) : S b = 2 ^ b.signedLimbSize := by simp [S, Build.signedBase]

theorem diff_lt_S (b : Build) : (MAX_PRIME_DIFF : Int) < S b := by
  cases b <;> decide

theorem four_le_S (b : Build) : 4 ≤ S b := by
  have := diff_lt_S b
  have : (4 : Int) ≤ MAX_PRIME_DIFF := by decide
  omega

theorem base_eq_S (b : Build) : (b.base : Int) = 4 * S b := by rw [base_eq, S_eq]

theorem limb_range (b : Build) : (2 : Int) ^ (b.limbSize - 1) = 2 * S b := by
  cases b <;> decide

theorem double_range (b : Build) : (2 : Int) ^ (2 * b.limbSize - 1) = 8 * (S b * S b) := by
  cases b <;> decide

variable {x top : Int} {limbs low terms : List Int} {c bits : Nat}

theorem signedLimb_ok (h : |x| ≤ 2 * S b - 1) : signedLimb b x = .ok x := by
  rw [abs_le] at h
  unfold signedLimb
  rw [limb_range, if_pos (by omega)]

theorem signedDouble_ok (h : |x| ≤ 4 * (S b * S b)) : signedDouble b x = .ok x := by
  have hpos : 0 < S b * S b := by
    have := four_le_S b
    positivity
  rw [abs_le] at h
  unfold signedDouble
  rw [double_range, if_pos (by omega)]

theorem toSigned_of_le (h : |x| ≤ S b) : toSigned b x = x := by
  have hbase := base_eq_S b
  have hS := four_le_S b
  rw [abs_le] at h
  unfold toSigned
  rw [Int.bmod_eq_of_le_mul_two (by omega) (by omega)]

/-! ## Lists of signed limbs -/

def Small (b : Build) (limbs : List Int) : Prop := ∀ x ∈ limbs, |x| ≤ S b

structure Normal (b : Build) (limbs low : List Int) (top : Int) : Prop where
  eq : limbs = low ++ [top]
  nonneg : ∀ x ∈ low, 0 ≤ x
  lt : ∀ x ∈ low, x < S b
  top_le : |top| ≤ S b

theorem Normal.small (h : Normal b limbs low top) : Small b limbs := by
  intro x hx
  rw [h.eq] at hx
  rcases mem_append.mp hx with hx | hx
  · have := h.nonneg x hx
    have := h.lt x hx
    rw [abs_of_nonneg (by omega)]
    omega
  · rw [mem_singleton.mp hx]
    exact h.top_le

theorem value_nonneg (h : ∀ x ∈ limbs, 0 ≤ x) : 0 ≤ value (S b) limbs := by
  have hS := four_le_S b
  induction limbs with
  | nil => exact le_rfl
  | cons x limbs ih =>
    rw [forall_mem_cons] at h
    rw [value_cons]
    have := ih h.2
    have := h.1
    positivity

theorem value_lt_pow (h : ∀ x ∈ limbs, x < S b) : value (S b) limbs < S b ^ limbs.length := by
  have hS := four_le_S b
  induction limbs with
  | nil => simp
  | cons x limbs ih =>
    rw [forall_mem_cons] at h
    have hrest := ih h.2
    rw [value_cons, length_cons, pow_succ]
    nlinarith [h.1]

theorem Normal.value_eq (h : Normal b limbs low top) :
    value (S b) limbs = value (S b) low + S b ^ low.length * top := by
  rw [h.eq, value_append, value_cons, value_nil, mul_zero, add_zero]

theorem Normal.neg_iff (h : Normal b limbs low top) : top < 0 ↔ value (S b) limbs < 0 := by
  have hS := four_le_S b
  have hnonneg := value_nonneg (b := b) h.nonneg
  have hlt := value_lt_pow h.lt
  have hpos : 0 < S b ^ low.length := by positivity
  rw [h.value_eq]
  constructor
  · intro hneg
    nlinarith
  · intro hneg
    by_contra hge
    have := mul_nonneg hpos.le (not_lt.mp hge)
    omega

theorem Normal.isNegative_iff (h : Normal b limbs low top) : isNegative limbs = true ↔ value (S b) limbs < 0 := by
  rw [← h.neg_iff, isNegative, h.eq, getLastD_concat, decide_eq_true_iff]

theorem top_le_of_value (hnonneg : ∀ x ∈ low, 0 ≤ x) (hlt : ∀ x ∈ low, x < S b) {T : Int}
    (hvalue : |value (S b) (low ++ [top])| ≤ S b ^ low.length * T) : |top| ≤ T := by
  have hS := four_le_S b
  have hlow := value_nonneg (b := b) hnonneg
  have hhigh := value_lt_pow hlt
  have hpos : 0 < S b ^ low.length := by positivity
  rw [value_append, value_cons, value_nil, mul_zero, add_zero, abs_le] at hvalue
  rw [abs_le]
  constructor
  · have hmul : S b ^ low.length * (-(T + 1)) < S b ^ low.length * top := by linarith
    have := lt_of_mul_lt_mul_left hmul hpos.le
    omega
  · have hmul : S b ^ low.length * top < S b ^ low.length * (T + 1) := by linarith
    have := lt_of_mul_lt_mul_left hmul hpos.le
    omega

/-! ## Carries -/

theorem carryLimbs_spec {c : Int} (hterms : ∀ x ∈ terms, |x| ≤ 2 * (S b * S b)) (hc : |c| ≤ 2 * (S b * S b)) :
    ∃ out c', carryLimbs b c terms = .ok (out, c') ∧ out.length = terms.length ∧ (∀ x ∈ out, 0 ≤ x) ∧
      (∀ x ∈ out, x < S b) ∧
    |c'| ≤ 2 * (S b * S b) ∧ value (S b) out + S b ^ terms.length * c' = c + value (S b) terms := by
  have hS := four_le_S b
  induction terms generalizing c with
  | nil => exact ⟨[], c, rfl, rfl, by simp, by simp, hc, by simp⟩
  | cons term terms ih =>
    rw [forall_mem_cons] at hterms
    have hsum : |c + term| ≤ 4 * (S b * S b) := (abs_add_le c term).trans (by linarith [hterms.1])
    have hcarry : |(c + term) / S b| ≤ 2 * (S b * S b) := by
      rw [abs_le] at hsum ⊢
      constructor
      · apply Int.le_ediv_of_mul_le (by omega)
        nlinarith
      · apply Int.ediv_le_of_le_mul (by omega)
        nlinarith
    obtain ⟨out, c', hrun, hlength, hnonneg, hlt, hlast, hvalue⟩ := ih hterms.2 hcarry
    refine ⟨(c + term) % S b :: out, c', ?_, by simp [hlength], ?_, ?_, hlast, ?_⟩
    · unfold carryLimbs
      rw [signedDouble_ok hsum, ok_bind, show (c + term) / (b.signedBase : Int) = (c + term) / S b from rfl,
        hrun, ok_bind]
      rfl
    · rw [forall_mem_cons]
      exact ⟨Int.emod_nonneg _ (by omega), hnonneg⟩
    · rw [forall_mem_cons]
      exact ⟨Int.emod_lt_of_pos _ (by omega), hlt⟩
    · rw [value_cons, value_cons, length_cons, pow_succ]
      have hdiv := Int.mul_ediv_add_emod (c + term) (S b)
      linear_combination S b * hvalue + hdiv

theorem carryLimbs_concat {out : List Int} {c c' : Int} (term : Int) (h : carryLimbs b c terms = .ok (out, c')) :
    carryLimbs b c (terms ++ [term]) =
      (signedDouble b (c' + term)).map fun sum : Int => (out ++ [sum % b.signedBase], sum / b.signedBase) := by
  induction terms generalizing c out with
  | nil =>
    cases h
    rw [nil_append, carryLimbs]
    cases signedDouble b (c' + term) <;> rfl
  | cons x terms ih =>
    rw [carryLimbs] at h
    obtain ⟨sum, hsum, h⟩ := bind_ok.mp h
    obtain ⟨⟨_, _⟩, hrest, h⟩ := bind_ok.mp h
    cases h
    rw [cons_append, carryLimbs, hsum, ok_bind, ih hrest]
    cases signedDouble b (c' + term) <;> rfl

/-- The lowest limb is zero, and the carry fits the highest. -/
theorem shiftLimbs_spec {V : Int} (hne : terms ≠ []) (hterms : ∀ x ∈ terms, |x| ≤ 2 * (S b * S b))
    (hvalue : value (S b) terms = S b * V) (hV : |V| ≤ S b ^ terms.length) :
    ∃ l low top, shiftLimbs b terms = .ok l ∧ Normal b l low top ∧ l.length = terms.length ∧ value (S b) l = V := by
  have hS := four_le_S b
  have hzero : |(0 : Int)| ≤ 2 * (S b * S b) := by
    rw [abs_zero]
    positivity
  obtain ⟨_, c, hrun, hlength, hnonneg, hlt, -, hout⟩ := carryLimbs_spec hterms hzero
  obtain ⟨x, rest, rfl⟩ := exists_cons_of_length_pos (by rw [hlength]; exact length_pos_iff.mpr hne)
  rw [forall_mem_cons] at hnonneg hlt
  rw [← hlength, length_cons, pow_succ'] at hout hV
  rw [value_cons, hvalue, zero_add] at hout
  obtain rfl : x = 0 := by
    have hdvd : S b ∣ x := ⟨V - value (S b) rest - S b ^ rest.length * c, by linear_combination hout⟩
    exact Int.eq_zero_of_dvd_of_nonneg_of_lt hnonneg.1 hlt.1 hdvd
  have hrest : value (S b) rest + S b ^ rest.length * c = V := by
    apply mul_left_cancel₀ (by omega : S b ≠ 0)
    linear_combination hout
  have happend : value (S b) (rest ++ [c]) = V := by
    rw [value_append, value_cons, value_nil, mul_zero, add_zero, hrest]
  have htop : |c| ≤ S b := by
    apply top_le_of_value hnonneg.2 hlt.2
    rw [happend, mul_comm]
    exact hV
  have hnormal : Normal b (rest ++ [c]) rest c := ⟨rfl, hnonneg.2, hlt.2, htop⟩
  refine ⟨rest ++ [c], rest, c, ?_, hnormal, ?_, happend⟩
  · unfold shiftLimbs
    rw [hrun, ok_bind]
    simp only [headD_cons, tail_cons, toSigned_of_le htop]
    rfl
  · rw [← hlength]
    simp

theorem products_spec {u v : Int} (huv : |u| + |v| ≤ S b) {x y : List Int} (hlength : x.length = y.length)
    (hx : Small b x) (hy : Small b y) : ∃ terms, products b u v x y = .ok terms ∧ terms.length = x.length ∧
    (∀ t ∈ terms, |t| ≤ S b * S b) ∧ value (S b) terms = u * value (S b) x + v * value (S b) y := by
  have hS := four_le_S b
  induction x generalizing y with
  | nil =>
    obtain rfl := length_eq_zero_iff.mp hlength.symm
    exact ⟨[], rfl, rfl, by simp, by simp⟩
  | cons xi x ih =>
    obtain ⟨yi, y, rfl⟩ := exists_cons_of_length_eq_add_one hlength.symm
    unfold Small at hx hy
    rw [forall_mem_cons] at hx hy
    obtain ⟨terms, hrun, hlen, hterms, hvalue⟩ := ih (Nat.succ.inj hlength) hx.2 hy.2
    have hfirst : |u * xi| ≤ |u| * S b := by
      rw [abs_mul]
      exact mul_le_mul_of_nonneg_left hx.1 (abs_nonneg u)
    have hsecond : |v * yi| ≤ |v| * S b := by
      rw [abs_mul]
      exact mul_le_mul_of_nonneg_left hy.1 (abs_nonneg v)
    have hboth : |u| * S b + |v| * S b ≤ S b * S b := by
      rw [← add_mul]
      exact mul_le_mul_of_nonneg_right huv (by omega)
    have hterm : |u * xi + v * yi| ≤ S b * S b := (abs_add_le _ _).trans ((add_le_add hfirst hsecond).trans hboth)
    refine ⟨(u * xi + v * yi) :: terms, ?_, by simp [hlen], ?_, ?_⟩
    · unfold products at hrun ⊢
      have hu : 0 ≤ |u| * S b := by positivity
      have hv : 0 ≤ |v| * S b := by positivity
      rw [zip_cons_cons, mapM_cons]
      simp only [signedDouble_ok (by linarith : |u * xi| ≤ 4 * (S b * S b)),
        signedDouble_ok (by linarith : |v * yi| ≤ 4 * (S b * S b)),
        signedDouble_ok (by linarith : |u * xi + v * yi| ≤ 4 * (S b * S b)), ok_bind, hrun]
      rfl
    · rw [forall_mem_cons]
      exact ⟨hterm, hterms⟩
    · rw [value_cons, value_cons, value_cons, hvalue]
      ring

theorem performCarry_spec {c : Int} (hlow : ∀ x ∈ low, |x| ≤ S b) (htop : |top| ≤ 2 * S b - 3) (hc : |c| ≤ 2) :
    ∃ low' top', performCarry b c (low ++ [top]) = .ok (low' ++ [top']) ∧ low'.length = low.length ∧
      (∀ x ∈ low', 0 ≤ x) ∧
    (∀ x ∈ low', x < S b) ∧ value (S b) (low' ++ [top']) = c + value (S b) (low ++ [top]) := by
  have hS := four_le_S b
  induction low generalizing c with
  | nil =>
    have hsum : |top + c| ≤ 2 * S b - 1 := (abs_add_le top c).trans (by omega)
    refine ⟨[], top + c, ?_, rfl, by simp, by simp, by simp [add_comm]⟩
    rw [nil_append]
    unfold performCarry
    rw [signedLimb_ok hsum]
    rfl
  | cons x low ih =>
    rw [forall_mem_cons] at hlow
    have hsum : |x + c| ≤ S b + 2 := (abs_add_le x c).trans (by omega)
    have hcarry : |(x + c) / S b| ≤ 2 := by
      rw [abs_le] at hsum ⊢
      constructor
      · apply Int.le_ediv_of_mul_le (by omega)
        omega
      · apply Int.ediv_le_of_le_mul (by omega)
        omega
    obtain ⟨low', top', hrun, hlength, hnonneg, hlt, hvalue⟩ := ih hlow.2 hcarry
    refine ⟨(x + c) % S b :: low', top', ?_, by simp [hlength], ?_, ?_, ?_⟩
    · obtain ⟨y, rest, hrest⟩ : ∃ y rest, low ++ [top] = y :: rest := exists_cons_of_length_pos (by simp)
      rw [cons_append]
      rw [hrest] at hrun ⊢
      unfold performCarry
      rw [signedLimb_ok (by omega), ok_bind, show (x + c) / (b.signedBase : Int) = (x + c) / S b from rfl,
        hrun, ok_bind]
      rfl
    · rw [forall_mem_cons]
      exact ⟨Int.emod_nonneg _ (by omega), hnonneg⟩
    · rw [forall_mem_cons]
      exact ⟨Int.emod_lt_of_pos _ (by omega), hlt⟩
    · rw [cons_append, cons_append, value_cons, value_cons, hvalue]
      have hdiv := Int.mul_ediv_add_emod (x + c) (S b)
      linear_combination hdiv

theorem value_ends {y a z : Int} (mid : List Int) :
    value (S b) ((x + a) :: (mid ++ [y + z])) = value (S b) (x :: (mid ++ [y])) + (a + S b ^ (mid.length + 1) * z) := by
  rw [value_cons, value_cons, value_append, value_append, value_cons, value_cons, value_nil, pow_succ]
  ring

/-! ## From limbs and back -/

theorem emitLimbs_spec (fuel : Nat) (hc : c < 2 ^ bits) :
    ∃ out c' bits', emitLimbs b fuel c bits = (out, c', bits') ∧ (∀ x ∈ out, 0 ≤ x) ∧ (∀ x ∈ out, x < S b) ∧
      c' < 2 ^ bits' ∧
    bits = out.length * b.signedLimbSize + bits' ∧ (bits < fuel * b.signedLimbSize → bits' < b.signedLimbSize) ∧
    value (S b) out + S b ^ out.length * c' = c := by
  have hS := four_le_S b
  induction fuel generalizing c bits with
  | zero => exact ⟨[], c, bits, rfl, by simp, by simp, hc, by simp, by simp, by simp⟩
  | succ fuel ih =>
    unfold emitLimbs
    split
    · next hbits =>
      have hrest : c / b.signedBase < 2 ^ (bits - b.signedLimbSize) := by
        apply Nat.div_lt_of_lt_mul
        rw [Build.signedBase, ← pow_add, Nat.add_sub_cancel' hbits]
        exact hc
      obtain ⟨out, c', bits', hrun, hnonneg, hlt, hc', _, hfuel, hvalue⟩ := ih hrest
      rw [hrun]
      refine ⟨_, _, _, rfl, ?_, ?_, hc', ?_, ?_, ?_⟩
      · rw [forall_mem_cons]
        exact ⟨by omega, hnonneg⟩
      · rw [forall_mem_cons]
        refine ⟨?_, hlt⟩
        rw [Int.natCast_emod]
        exact Int.emod_lt_of_pos _ (by omega : (0 : Int) < S b)
      · rw [length_cons, Nat.add_mul]
        omega
      · intro hroom
        apply hfuel
        rw [Nat.add_mul] at hroom
        omega
      · rw [value_cons, length_cons, pow_succ']
        have hdiv := Int.mul_ediv_add_emod c (S b)
        have hvalue' : value (S b) out + S b ^ out.length * c' = (c : Int) / S b := by
          rw [hvalue, Int.natCast_ediv]
          rfl
        rw [Int.natCast_emod, show ((b.signedBase : Nat) : Int) = S b from rfl]
        linear_combination hdiv + S b * hvalue'
    · next hbits => exact ⟨[], c, bits, rfl, by simp, by simp, hc, by simp, fun _ => Nat.lt_of_not_ge hbits, by simp⟩

theorem sizes (b : Build) : b.limbSize = b.signedLimbSize + 2 ∧ 1 < b.signedLimbSize ∧ b.limbs * b.limbSize = 3072 := by
  cases b <;> decide

theorem fromNum3072Loop_spec {limbs : List Nat} (h : ∀ limb ∈ limbs, limb < b.base) (hc : c < 2 ^ bits)
    (hbits : bits < b.signedLimbSize) :
    ∃ out c' bits', fromNum3072Loop b limbs c bits = (out, c') ∧ (∀ x ∈ out, 0 ≤ x) ∧ (∀ x ∈ out, x < S b) ∧
      c' < 2 ^ bits' ∧
    bits' < b.signedLimbSize ∧ bits + limbs.length * b.limbSize = out.length * b.signedLimbSize + bits' ∧
    value (S b) out + S b ^ out.length * c' = c + 2 ^ bits * (value b.base limbs : Nat) := by
  obtain ⟨_, _, -⟩ := sizes b
  induction limbs generalizing c bits with
  | nil => exact ⟨[], c, bits, rfl, by simp, by simp, hc, hbits, by simp, by simp⟩
  | cons limb limbs ih =>
    rw [forall_mem_cons] at h
    have hsum : c + limb <<< bits < 2 ^ (bits + b.limbSize) := by
      rw [Nat.shiftLeft_eq, pow_add, mul_comm limb]
      have hlimb : limb + 1 ≤ 2 ^ b.limbSize := h.1
      calc c + 2 ^ bits * limb < 2 ^ bits * (limb + 1) := by rw [Nat.mul_add]; omega
        _ ≤ 2 ^ bits * 2 ^ b.limbSize := Nat.mul_le_mul_left _ hlimb
    have hfits : c + limb <<< bits < b.base ^ 2 := by
      apply Nat.lt_of_lt_of_le hsum
      rw [Build.base, ← pow_mul]
      exact Nat.pow_le_pow_right (by decide) (by omega)
    obtain ⟨out, c', bits', hrun, hnonneg, hlt, hc', hlength, hfuel, hvalue⟩ := emitLimbs_spec (b := b) 3 hsum
    obtain ⟨rest, c'', bits'', hrun', hnonneg', hlt', hc'', hbits'', _, hvalue'⟩ := ih h.2 hc' (hfuel (by omega))
    refine ⟨out ++ rest, c'', bits'', ?_, ?_, ?_, hc'', hbits'', ?_, ?_⟩
    · unfold fromNum3072Loop
      rw [Nat.mod_eq_of_lt hfits, hrun]
      simp only [hrun']
    · exact forall_mem_append.mpr ⟨hnonneg, hnonneg'⟩
    · exact forall_mem_append.mpr ⟨hlt, hlt'⟩
    · rw [length_append, length_cons, Nat.add_mul, Nat.add_mul]
      omega
    · have hpow : (2 : Int) ^ bits * b.base = S b ^ out.length * 2 ^ bits' := by
        rw [S_eq, Build.base, ← pow_mul, Nat.cast_pow, Nat.cast_ofNat, ← pow_add, ← pow_add, hlength]
        ring_nf
      rw [value_append, value_cons, length_append, pow_add]
      rw [Nat.shiftLeft_eq] at hvalue
      push_cast at hvalue ⊢
      linear_combination hvalue + S b ^ out.length * hvalue' - (value b.base limbs : Nat) * hpow

structure IsSigned (b : Build) (limbs : List Int) : Prop where
  length_eq : limbs.length = b.signedLimbs
  nonneg : ∀ x ∈ limbs, 0 ≤ x
  lt : ∀ x ∈ limbs, x < S b

theorem fromNum3072_spec {limbs : List Nat} (h : IsLimbs b limbs) :
    ∃ l, fromNum3072 b limbs = .ok l ∧ IsSigned b l ∧ value (S b) l = (value b.base limbs : Nat) := by
  obtain ⟨-, _, htotal⟩ := sizes b
  have hS := S_eq b
  obtain ⟨out, c, _, hrun, hnonneg, hlt, hc, _, hlength, hvalue⟩ :=
    fromNum3072Loop_spec (b := b) h.lt (show 0 < 2 ^ 0 by decide) (by omega)
  rw [h.length_eq, htotal] at hlength
  have hcount : out.length = b.signedLimbs - 1 ∧ 1 ≤ b.signedLimbs := by
    cases b with
    | int128 | int64 => simp only [Build.signedLimbSize, Build.signedLimbs] at *; omega
  have htop : (c : Int) < S b := by
    have hlt : c < 2 ^ b.signedLimbSize := hc.trans_le (Nat.pow_le_pow_right (by decide) (by omega))
    rw [hS]
    exact_mod_cast hlt
  have hzero : c / b.signedBase = 0 := Nat.div_eq_of_lt (by unfold S at htop; omega)
  have hsigned : signedLimb b (c : Int) = .ok (c : Int) := by
    apply signedLimb_ok
    rw [abs_of_nonneg (by omega)]
    omega
  refine ⟨out ++ [(c : Int)], ?_, ⟨?_, ?_, ?_⟩, ?_⟩
  · unfold fromNum3072
    simp only [hrun, hcount.1, hsigned, hzero, decide_true, check_true, ok_bind]
    rfl
  · rw [length_append, length_singleton]
    omega
  · exact forall_mem_append.mpr ⟨hnonneg, by simp⟩
  · exact forall_mem_append.mpr ⟨hlt, by simpa using htop⟩
  · rw [value_append, value_cons, value_nil, mul_zero, add_zero]
    simpa using hvalue

theorem toNum3072Loop_spec (hnonneg : ∀ x ∈ limbs, 0 ≤ x) (hlt : ∀ x ∈ limbs, x < S b)
    (hc : c < 2 ^ bits) (hbits : bits < b.limbSize) :
    ∃ out c' bits', toNum3072Loop b limbs c bits = (out, c') ∧ (∀ x ∈ out, x < b.base) ∧ c' < 2 ^ bits' ∧
    bits' < b.limbSize ∧ bits + limbs.length * b.signedLimbSize = out.length * b.limbSize + bits' ∧
    ((value b.base out + b.base ^ out.length * c' : Nat) : Int) = c + 2 ^ bits * value (S b) limbs := by
  obtain ⟨_, _, -⟩ := sizes b
  induction limbs generalizing c bits with
  | nil => exact ⟨[], c, bits, rfl, by simp, hc, hbits, by simp, by simp⟩
  | cons limb limbs ih =>
    rw [forall_mem_cons] at hnonneg hlt
    obtain ⟨x, rfl⟩ := Int.eq_ofNat_of_zero_le hnonneg.1
    have hx : x < 2 ^ b.signedLimbSize := by
      have := hlt.1
      rw [S_eq] at this
      exact_mod_cast this
    have hsum : c + x <<< bits < 2 ^ (bits + b.signedLimbSize) := by
      rw [Nat.shiftLeft_eq, pow_add, mul_comm x]
      calc c + 2 ^ bits * x < 2 ^ bits * (x + 1) := by rw [Nat.mul_add]; omega
        _ ≤ 2 ^ bits * 2 ^ b.signedLimbSize := Nat.mul_le_mul_left _ hx
    have hfits : ∀ n ≤ 2 * b.limbSize, 2 ^ n ≤ b.base ^ 2 := by
      intro n hn
      rw [Build.base, ← pow_mul]
      exact Nat.pow_le_pow_right (by decide) (by omega)
    have hlimb : ((x : Int) % (b.base : Int) ^ 2).toNat = x := by
      have := hfits b.signedLimbSize (by omega)
      rw [Int.emod_eq_of_lt (by omega) (by exact_mod_cast hx.trans_le this), Int.toNat_natCast]
    unfold toNum3072Loop
    rw [hlimb, Nat.mod_eq_of_lt (hsum.trans_le (hfits _ (by omega)))]
    rw [Nat.shiftLeft_eq] at *
    simp only
    split
    · next hge =>
      have hrest : (c + x * 2 ^ bits) / b.base < 2 ^ (bits + b.signedLimbSize - b.limbSize) := by
        apply Nat.div_lt_of_lt_mul
        rw [Build.base, ← pow_add, Nat.add_sub_cancel' hge]
        exact hsum
      obtain ⟨out, c', bits', hrun, hlt', hc', hbits', hlength, hvalue⟩ := ih hnonneg.2 hlt.2 hrest (by omega)
      rw [hrun]
      refine ⟨_, _, bits', rfl, ?_, hc', hbits', ?_, ?_⟩
      · rw [forall_mem_cons]
        exact ⟨Nat.mod_lt _ (base_pos b), hlt'⟩
      · simp only [length_cons, Nat.add_mul]
        omega
      · have hpow : (b.base : Int) * 2 ^ (bits + b.signedLimbSize - b.limbSize) = 2 ^ bits * S b := by
          rw [S_eq, Build.base, Nat.cast_pow, Nat.cast_ofNat, ← pow_add, ← pow_add, Nat.add_sub_cancel' hge]
        have hdiv : (b.base : Int) * ((c + x * 2 ^ bits) / b.base : Nat) + ((c + x * 2 ^ bits) % b.base : Nat) =
            c + x * 2 ^ bits := by
          exact_mod_cast Nat.div_add_mod (c + x * 2 ^ bits) b.base
        rw [value_cons, value_cons, length_cons, pow_succ']
        push_cast at hvalue hdiv ⊢
        linear_combination hdiv + (b.base : Int) * hvalue + value (S b) limbs * hpow
    · next hlt' =>
      obtain ⟨out, c', bits', hrun, hlt'', hc', hbits', hlength, hvalue⟩ := ih hnonneg.2 hlt.2 hsum (by omega)
      refine ⟨out, c', bits', hrun, hlt'', hc', hbits', ?_, ?_⟩
      · rw [length_cons, Nat.add_mul]
        omega
      · rw [hvalue, value_cons, S_eq, pow_add]
        push_cast
        ring

theorem toNum3072_spec (h : IsSigned b limbs) (hvalue : value (S b) limbs < 2 ^ 3072) :
    ∃ l, toNum3072 b limbs = .ok l ∧ IsLimbs b l ∧ (value b.base l : Nat) = value (S b) limbs := by
  obtain ⟨_, _, -⟩ := sizes b
  obtain ⟨out, c, _, hrun, hlt, _, _, hlength, hout⟩ :=
    toNum3072Loop_spec h.nonneg h.lt (show 0 < 2 ^ 0 by decide) (by omega : 0 < b.limbSize)
  rw [h.length_eq] at hlength
  have hcount : out.length = b.limbs := by
    cases b with
    | int128 | int64 => simp only [Build.signedLimbSize, Build.signedLimbs, Build.limbSize, Build.limbs] at *; omega
  rw [hcount, base_pow_limbs] at hout
  obtain rfl : c = 0 := by
    by_contra hne
    omega
  refine ⟨out, ?_, ⟨hcount, hlt⟩, ?_⟩
  · unfold toNum3072
    simp only [hrun, hcount, decide_true, check_true, ok_bind]
    rfl
  · simpa using hout

end FullNode.Num3072

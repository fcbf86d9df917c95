import FullNode.Interpreter
import FullNode.Lib.Radix

/-!
# Strict DER

`IsValidSignatureEncoding` takes the lengths it reads at from the string itself. Here every read is checked and `none`
is a read outside the string.
-/

namespace FullNode.Script

open List

/-! ## Every read checked -/

/-- `len > 1 && (sig[i] == 0x00) && !(sig[i + 1] & 0x80)`. -/
def readPadded (sig : Valtype) (len i : Nat) : Option Bool :=
  if len > 1 then do
    let first ← sig[i]?
    if first = 0 then do
      let second ← sig[i + 1]?
      return second &&& 0x80 = 0
    else return false
  else return false

/-- `IsValidSignatureEncoding`. -/
def readSignatureEncoding (sig : Valtype) : Option Bool := do
  if sig.length < 9 then return false
  if sig.length > 73 then return false
  if (← sig[0]?) ≠ 0x30 then return false
  if (← sig[1]?).toNat ≠ sig.length - 3 then return false
  let lenR := (← sig[3]?).toNat
  if 5 + lenR ≥ sig.length then return false
  let lenS := (← sig[5 + lenR]?).toNat
  if lenR + lenS + 7 ≠ sig.length then return false
  if (← sig[2]?) ≠ 0x02 then return false
  if lenR = 0 then return false
  if (← sig[4]?) &&& 0x80 ≠ 0 then return false
  if ← readPadded sig lenR 4 then return false
  if (← sig[lenR + 4]?) ≠ 0x02 then return false
  if lenS = 0 then return false
  if (← sig[lenR + 6]?) &&& 0x80 ≠ 0 then return false
  if ← readPadded sig lenS (lenR + 6) then return false
  return true

variable {v sig : Valtype} {i : Nat} {valid : Bool} {len : Nat} {b : UInt8}

theorem read_of_lt (h : i < v.length) : v[i]? = some (byteAt v i) := by
  rw [byteAt, getD_eq_getElem?_getD, getElem?_eq_getElem h]
  rfl

theorem readPadded_of_le (h : i + len ≤ sig.length) :
    readPadded sig len i = some (decide (len > 1 ∧ byteAt sig i = 0 ∧ byteAt sig (i + 1) &&& 0x80 = 0)) := by
  unfold readPadded
  split
  · next hlen =>
    rw [read_of_lt (by omega), read_of_lt (by omega)]
    simp only [Option.bind_eq_bind, Option.bind_some]
    split
    · next hzero => simp [hlen, hzero]
    · next hzero => simp [hzero]
  · next hlen => simp [hlen]

theorem readPadded_eq {f : Bool → Option Bool} (hi : i + len ≤ sig.length)
    (h : f (decide (len > 1 ∧ byteAt sig i = 0 ∧ byteAt sig (i + 1) &&& 0x80 = 0)) = some valid) :
    (readPadded sig len i >>= f) = some valid := by
  rw [readPadded_of_le hi]
  exact h

theorem read_eq {f : UInt8 → Option Bool} (hi : i < sig.length)
    (h : f (byteAt sig i) = some valid) : (sig[i]? >>= f) = some valid := by
  rw [read_of_lt hi]
  exact h

theorem check_eq {c : Prop} [Decidable c] {next : Option Bool} (h : ¬ c → next = some valid) :
    (if c then pure false else next) = some (if c then false else valid) := by
  split
  · rfl
  · next hc => exact h hc

theorem readSignatureEncoding_eq (sig : Valtype) : readSignatureEncoding sig = some (isValidSignatureEncoding sig) := by
  unfold readSignatureEncoding isValidSignatureEncoding
  by_cases hsmall : sig.length < 9
  · simp [hsmall]
  by_cases hlarge : sig.length > 73
  · simp [hsmall, hlarge]
  simp only [hsmall, hlarge, or_self, if_false]
  refine read_eq (by omega) (check_eq fun _ => ?_)
  refine read_eq (by omega) (check_eq fun _ => ?_)
  refine read_eq (by omega) (check_eq fun hlenR => ?_)
  refine read_eq (by omega) (check_eq fun hlen => ?_)
  refine read_eq (by omega) (check_eq fun _ => ?_)
  refine check_eq fun hR => ?_
  refine read_eq (by omega) (check_eq fun _ => ?_)
  refine readPadded_eq (by omega) ?_
  simp only [decide_eq_true_eq]
  refine check_eq fun _ => ?_
  refine read_eq (by omega) (check_eq fun _ => ?_)
  refine check_eq fun hS => ?_
  refine read_eq (by omega) (check_eq fun _ => ?_)
  refine readPadded_eq (by omega) ?_
  simp only [decide_eq_true_eq]
  exact check_eq fun _ => rfl

/-! ## The grammar -/

def signedValue (v : Valtype) : Int :=
  let n := Radix.read 256 0 (v.map UInt8.toNat)
  if 0x80 ≤ (byteAt v 0).toNat then n - 256 ^ v.length else n

/-- The shortest encoding of a number not negative. -/
structure IsShortest (v : Valtype) : Prop where
  nonempty : v ≠ []
  nonneg : 0 ≤ signedValue v
  minimal : ∀ w, w ≠ [] → signedValue w = signedValue v → v.length ≤ w.length

/-- `0x30 len 0x02 lenR R 0x02 lenS S hashtype`. -/
structure IsStrictDer (sig : Valtype) : Prop where
  size : 9 ≤ sig.length ∧ sig.length ≤ 73
  form : ∃ (R S : Valtype) (len lenR lenS hashtype : UInt8),
      sig = [0x30, len, 0x02, lenR] ++ R ++ [0x02, lenS] ++ S ++ [hashtype] ∧
      len.toNat = 2 + R.length + (2 + S.length) ∧ lenR.toNat = R.length ∧ lenS.toNat = S.length ∧ IsShortest R ∧
        IsShortest S

theorem read_bytes_lt (n : Nat) (v : Valtype) : Radix.read 256 n (v.map UInt8.toNat) < (n + 1) * 256 ^ v.length := by
  have hlt := @Radix.read_lt 256 n (v.map UInt8.toNat) fun digit hdigit => by
    obtain ⟨b, -, rfl⟩ := mem_map.mp hdigit
    exact b.toNat_lt
  rwa [length_map] at hlt

theorem signedValue_of_lt (h : b.toNat < 0x80) : signedValue (b :: v) = Radix.read 256 b.toNat (v.map UInt8.toNat) := by
  rw [signedValue]
  simp only [byteAt, getD_cons_zero, if_neg (not_le.mpr h), map_cons, Radix.read, Nat.mul_zero, Nat.zero_add]

theorem signedValue_neg (h : 0x80 ≤ b.toNat) : signedValue (b :: v) < 0 := by
  have hlt := read_bytes_lt 0 (b :: v)
  rw [signedValue]
  simp only [byteAt, getD_cons_zero, if_pos h]
  zify at hlt
  linarith

theorem signedValue_lt (b : UInt8) (v : Valtype) : signedValue (b :: v) < 128 * 256 ^ v.length := by
  rcases Nat.lt_or_ge b.toNat 0x80 with hb | hb
  · rw [signedValue_of_lt hb]
    have hlt := read_bytes_lt b.toNat v
    have hle : (b.toNat + 1) * 256 ^ v.length ≤ 128 * 256 ^ v.length := Nat.mul_le_mul_right _ (by omega)
    exact_mod_cast Nat.lt_of_lt_of_le hlt hle
  · have hneg := signedValue_neg (v := v) hb
    have hpos : (0 : Int) < 128 * 256 ^ v.length := by positivity
    omega

/-- No zero byte in front, unless it keeps the number positive. -/
theorem isShortest_cons_iff (b : UInt8) (v : Valtype) :
    IsShortest (b :: v) ↔ b.toNat < 0x80 ∧ ¬ (v.length ≥ 1 ∧ b = 0 ∧ (byteAt v 0).toNat < 0x80) := by
  constructor
  · intro h
    have hb : b.toNat < 0x80 := by
      by_contra hge
      have hneg := signedValue_neg (v := v) (not_lt.mp hge)
      have hnonneg := h.nonneg
      omega
    refine ⟨hb, ?_⟩
    rintro ⟨hlength, rfl, hfirst⟩
    have hne : v ≠ [] := ne_nil_of_length_pos hlength
    obtain ⟨c, w, rfl⟩ := exists_cons_of_ne_nil hne
    have hsame : signedValue (c :: w) = signedValue (0 :: c :: w) := by
      rw [signedValue_of_lt (b := c) hfirst, signedValue_of_lt hb]
      simp [Radix.read]
    have hle := h.minimal (c :: w) hne hsame
    simp at hle
  · rintro ⟨hb, hpad⟩
    refine ⟨cons_ne_nil _ _, ?_, ?_⟩
    · rw [signedValue_of_lt hb]
      exact Int.natCast_nonneg _
    · intro w hw heq
      obtain ⟨c, w, rfl⟩ := exists_cons_of_ne_nil hw
      by_contra hlt
      simp only [length_cons, not_le, Nat.add_lt_add_iff_right] at hlt
      have hupper := signedValue_lt c w
      rw [heq, signedValue_of_lt hb] at hupper
      have hlower := Radix.mul_pow_le_read 256 b.toNat (v.map UInt8.toNat)
      rw [length_map] at hlower
      have hfew : 256 ^ (w.length + 1) ≤ 256 ^ v.length := Nat.pow_le_pow_right (by norm_num) hlt
      have hsmall : Radix.read 256 b.toNat (v.map UInt8.toNat) < 128 * 256 ^ w.length := by exact_mod_cast hupper
      rw [Nat.pow_succ] at hfew
      have hbzero : b.toNat = 0 := by
        by_contra hpos
        have hone : 1 * 256 ^ v.length ≤ b.toNat * 256 ^ v.length := Nat.mul_le_mul_right _ (by omega)
        omega
      obtain ⟨d, u, rfl⟩ := exists_cons_of_ne_nil (ne_nil_of_length_pos (Nat.zero_lt_of_lt hlt))
      have hd : 0x80 ≤ d.toNat := by
        by_contra hlow
        exact hpad ⟨by simp, UInt8.toNat_inj.mp hbzero, not_le.mp hlow⟩
      -- the byte behind the zero alone is too large for the shorter string
      have hlower := Radix.mul_pow_le_read 256 d.toNat (u.map UInt8.toNat)
      have hread : Radix.read 256 b.toNat ((d :: u).map UInt8.toNat) = Radix.read 256 d.toNat (u.map UInt8.toNat) := by
        simp [Radix.read, hbzero]
      have hmul : 0x80 * 256 ^ u.length ≤ d.toNat * 256 ^ u.length := Nat.mul_le_mul_right _ hd
      have hpow : 256 ^ w.length ≤ 256 ^ u.length :=
        Nat.pow_le_pow_right (by norm_num) (by simpa using hlt)
      rw [length_map] at hlower
      omega

/-! ## What is accepted -/

/-- What the code asks of the `len` bytes at `i`. -/
def ShortAt (sig : Valtype) (i len : Nat) : Prop :=
  len ≠ 0 ∧ (byteAt sig i).toNat < 0x80 ∧ ¬ (len > 1 ∧ byteAt sig i = 0 ∧ (byteAt sig (i + 1)).toNat < 0x80)

theorem check_iff {c : Prop} [Decidable c] : (if c then false else valid) = true ↔ ¬ c ∧ valid = true := by
  split
  · next hc => simp [hc]
  · next hc => simp [hc]

theorem isValidSignatureEncoding_eq_true_iff (sig : Valtype) : isValidSignatureEncoding sig = true ↔
    (9 ≤ sig.length ∧ sig.length ≤ 73) ∧ byteAt sig 0 = 0x30 ∧ (byteAt sig 1).toNat = sig.length - 3 ∧
      (byteAt sig 3).toNat + (byteAt sig (5 + (byteAt sig 3).toNat)).toNat + 7 = sig.length ∧
      byteAt sig 2 = 0x02 ∧ ShortAt sig 4 (byteAt sig 3).toNat ∧ byteAt sig ((byteAt sig 3).toNat + 4) = 0x02 ∧
      ShortAt sig ((byteAt sig 3).toNat + 6) (byteAt sig (5 + (byteAt sig 3).toNat)).toNat := by
  unfold isValidSignatureEncoding ShortAt
  simp only [check_iff, and_0x80_eq_zero, not_or, not_not, ne_eq, not_le, not_lt, and_true]
  constructor
  · rintro ⟨hsize, h0, h1, -, hlen, h2, hR, hRneg, hRpad, hmark, hS, hSneg, hSpad⟩
    exact ⟨hsize, h0, h1, hlen, h2, ⟨hR, hRneg, hRpad⟩, hmark, hS, hSneg, hSpad⟩
  · rintro ⟨hsize, h0, h1, hlen, h2, ⟨hR, hRneg, hRpad⟩, hmark, hS, hSneg, hSpad⟩
    exact ⟨hsize, h0, h1, by omega, hlen, h2, hR, hRneg, hRpad, hmark, hS, hSneg, hSpad⟩

theorem shortAt_iff (front v back : Valtype) : ShortAt (front ++ (v ++ back)) front.length v.length ↔ IsShortest v := by
  have hat (k : Nat) (hk : k < v.length) : byteAt (front ++ (v ++ back)) (front.length + k) = byteAt v k := by
    rw [byteAt_append_right, byteAt_append_left hk]
  cases v with
  | nil => simp [ShortAt, show ¬ IsShortest [] from fun h => h.nonempty rfl]
  | cons b v =>
    rw [isShortest_cons_iff, ShortAt]
    have hfirst := hat 0 (by simp)
    rw [Nat.add_zero] at hfirst
    rw [hfirst]
    have hsecond (h : 1 ≤ v.length) : byteAt (front ++ (b :: v ++ back)) (front.length + 1) = byteAt v 0 := by
      rw [hat 1 (Nat.lt_succ_of_le h)]
      rfl
    simp only [byteAt, getD_cons_zero, length_cons] at hsecond ⊢
    grind

theorem accepted_form_iff (a b c lenR e lenS hashtype : UInt8) {R S : Valtype} (hR : lenR.toNat = R.length) :
    isValidSignatureEncoding ([a, b, c, lenR] ++ R ++ [e, lenS] ++ S ++ [hashtype]) = true ↔
      (9 ≤ R.length + S.length + 7 ∧ R.length + S.length + 7 ≤ 73) ∧ a = 0x30 ∧
        b.toNat = R.length + S.length + 4 ∧ lenS.toNat = S.length ∧ c = 0x02 ∧ IsShortest R ∧ e = 0x02 ∧
          IsShortest S := by
  have hlength : ([a, b, c, lenR] ++ R ++ [e, lenS] ++ S ++ [hashtype]).length = R.length + S.length + 7 := by
    simp only [length_append, length_cons, length_nil]
    omega
  have hmark : byteAt ([a, b, c, lenR] ++ R ++ [e, lenS] ++ S ++ [hashtype]) (R.length + 4) = e := by
    have h := byteAt_append_right ([a, b, c, lenR] ++ R) ([e, lenS] ++ S ++ [hashtype]) 0
    rw [length_append, Nat.add_comm _ R.length] at h
    simp only [append_assoc] at h ⊢
    exact h
  have hlenS : byteAt ([a, b, c, lenR] ++ R ++ [e, lenS] ++ S ++ [hashtype]) (5 + R.length) = lenS := by
    have h := byteAt_append_right ([a, b, c, lenR] ++ R) ([e, lenS] ++ S ++ [hashtype]) 1
    rw [length_append, Nat.add_right_comm] at h
    simp only [append_assoc] at h ⊢
    exact h
  have hfirst : ShortAt ([a, b, c, lenR] ++ R ++ [e, lenS] ++ S ++ [hashtype]) 4 R.length ↔ IsShortest R := by
    have h := shortAt_iff [a, b, c, lenR] R ([e, lenS] ++ S ++ [hashtype])
    simp only [append_assoc] at h ⊢
    exact h
  have hsecond : ShortAt ([a, b, c, lenR] ++ R ++ [e, lenS] ++ S ++ [hashtype]) (R.length + 6) S.length ↔
      IsShortest S := by
    have h := shortAt_iff ([a, b, c, lenR] ++ R ++ [e, lenS]) S [hashtype]
    rw [length_append, length_append, Nat.add_comm _ R.length, Nat.add_assoc] at h
    simp only [append_assoc] at h ⊢
    exact h
  have hthird : byteAt ([a, b, c, lenR] ++ R ++ [e, lenS] ++ S ++ [hashtype]) 3 = lenR := rfl
  rw [isValidSignatureEncoding_eq_true_iff, hlength, hthird, hR, hlenS, hmark, hfirst]
  change _ ∧ a = 0x30 ∧ b.toNat = _ ∧ _ ∧ c = 0x02 ∧ _ ↔ _
  constructor
  · rintro ⟨hsize, ha, hb, _, hc, hRs, he, hSs⟩
    have hS : lenS.toNat = S.length := by omega
    rw [hS, hsecond] at hSs
    exact ⟨hsize, ha, by omega, hS, hc, hRs, he, hSs⟩
  · rintro ⟨hsize, ha, hb, hS, hc, hRs, he, hSs⟩
    rw [hS, hsecond]
    exact ⟨hsize, ha, by omega, rfl, hc, hRs, he, hSs⟩

theorem exists_form (h : isValidSignatureEncoding sig = true) : ∃ (a b c lenR e lenS hashtype : UInt8) (R S : Valtype),
    sig = [a, b, c, lenR] ++ R ++ [e, lenS] ++ S ++ [hashtype] ∧ lenR.toNat = R.length := by
  rw [isValidSignatureEncoding_eq_true_iff] at h
  obtain ⟨hsize, -, -, hlen, -⟩ := h
  obtain ⟨a, b, c, lenR, t, rfl⟩ : ∃ a b c lenR t, sig = a :: b :: c :: lenR :: t := by
    match sig, hsize.1 with
    | a :: b :: c :: lenR :: t, _ => exact ⟨a, b, c, lenR, t, rfl⟩
  have hthird : byteAt (a :: b :: c :: lenR :: t) 3 = lenR := rfl
  rw [hthird] at hlen
  simp only [length_cons] at hlen
  have hdrop : (t.drop lenR.toNat).length = t.length - lenR.toNat := length_drop
  obtain ⟨e, lenS, u, hu⟩ : ∃ e lenS u, t.drop lenR.toNat = e :: lenS :: u := by
    match hd : t.drop lenR.toNat with
    | e :: lenS :: u => exact ⟨e, lenS, u, rfl⟩
    | [] | [_] => rw [hd] at hdrop; simp at hdrop; omega
  have hne : u ≠ [] := by
    rintro rfl
    rw [hu] at hdrop
    simp at hdrop
    omega
  refine ⟨a, b, c, lenR, e, lenS, u.getLast hne, t.take lenR.toNat, u.dropLast, ?_, ?_⟩
  · have ht : t = t.take lenR.toNat ++ (e :: lenS :: (u.dropLast ++ [u.getLast hne])) := by
      rw [dropLast_append_getLast, ← hu, take_append_drop]
    simpa using ht
  · rw [length_take, Nat.min_eq_left (by omega)]

/-- The strict DER check reads only the string and accepts its grammar. -/
theorem isValidSignatureEncoding_iff (sig : Valtype) : readSignatureEncoding sig = some (isValidSignatureEncoding sig) ∧
    (isValidSignatureEncoding sig = true ↔ IsStrictDer sig) := by
  refine ⟨readSignatureEncoding_eq sig, ?_, ?_⟩
  · intro h
    obtain ⟨_, b, _, lenR, _, lenS, hashtype, R, S, rfl, hlenR⟩ := exists_form h
    obtain ⟨hsize, rfl, _, hlenS, rfl, hR, rfl, hS⟩ := (accepted_form_iff _ _ _ _ _ _ _ hlenR).mp h
    refine ⟨?_, R, S, b, lenR, lenS, hashtype, rfl, by omega, hlenR, hlenS, hR, hS⟩
    simp only [length_append, length_cons, length_nil]
    omega
  · rintro ⟨hsize, R, S, _, lenR, lenS, hashtype, rfl, _, hlenR, hlenS, hR, hS⟩
    simp only [length_append, length_cons, length_nil] at hsize
    exact (accepted_form_iff _ _ _ _ _ _ _ hlenR).mpr
      ⟨by omega, rfl, by omega, hlenS, rfl, hR, rfl, hS⟩

end FullNode.Script

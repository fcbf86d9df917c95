import FullNode.Basic
import FullNode.Lib.DecimalNumber
import Mathlib.Data.List.TakeWhile

/-!
# Amounts as text

A text is the list of its bytes, and the part from `ptr` on is passed along.
-/

namespace FullNode.FixedPoint

open Decimal List

/-! ## The code -/

/-- The result of an operation on signed numbers of `w` bits. -/
def signed (w : Nat) (x : Int) : Checked Int := if -2 ^ (w - 1) ≤ x ∧ x < 2 ^ (w - 1) then .ok x else .error .overflow

def UPPER_BOUND : Int := 1000000000000000000 - 1

/-- The loop over `mantissa_tzeros`. -/
def scaleMantissa : Nat → Int → Checked (Option Int)
  | 0, mantissa => .ok (some mantissa)
  | rounds + 1, mantissa =>
    if mantissa > UPPER_BOUND / 10 then .ok none
    else do
      let mantissa ← signed 64 (mantissa * 10)
      scaleMantissa rounds mantissa

def processMantissaDigit (ch : UInt8) (mantissa mantissaTzeros : Int) : Checked (Option (Int × Int)) :=
  if ch = 0x30 then do
    let mantissaTzeros ← signed 32 (mantissaTzeros + 1)
    return some (mantissa, mantissaTzeros)
  else do
    -- the last value of the loop's counter
    let rounds ← signed 32 (mantissaTzeros + 1)
    match ← scaleMantissa rounds.toNat mantissa with
    | none => return none
    | some mantissa => do
      let mantissa ← signed 64 (mantissa + (ch.toNat - 0x30))
      return some (mantissa, 0)

/-- A loop over mantissa digits, `point_ofs` behind the point. -/
def mantissaDigits (mantissa mantissaTzeros count : Int) : List UInt8 → Checked (Option (Int × Int × Int × List UInt8))
  | [] => .ok (some (mantissa, mantissaTzeros, count, []))
  | ch :: val =>
    if isDigit ch then do
      match ← processMantissaDigit ch mantissa mantissaTzeros with
      | none => return none
      | some (mantissa, mantissaTzeros) => do
        let count ← signed 32 (count + 1)
        mantissaDigits mantissa mantissaTzeros count val
    else .ok (some (mantissa, mantissaTzeros, count, ch :: val))

def parseSign : List UInt8 → Bool × List UInt8
  | 0x2d :: val => (true, val)
  | val => (false, val)

def parseWhole : List UInt8 → Checked (Option (Int × Int × List UInt8))
  | [] => .ok none
  | ch :: val =>
    if ch = 0x30 then .ok (some (0, 0, val))
    else if 0x31 ≤ ch ∧ ch ≤ 0x39 then do
      match ← mantissaDigits 0 0 0 (ch :: val) with
      | none => return none
      | some (mantissa, mantissaTzeros, _, val) => return some (mantissa, mantissaTzeros, val)
    else .ok none

def parseFraction (mantissa mantissaTzeros : Int) : List UInt8 → Checked (Option (Int × Int × Int × List UInt8))
  | 0x2e :: ch :: val => if isDigit ch then mantissaDigits mantissa mantissaTzeros 0 (ch :: val) else .ok none
  | [0x2e] => .ok none
  | val => .ok (some (mantissa, mantissaTzeros, 0, val))

def exponentDigits (exponent : Int) : List UInt8 → Checked (Option (Int × List UInt8))
  | [] => .ok (some (exponent, []))
  | ch :: val =>
    if isDigit ch then
      if exponent > UPPER_BOUND / 10 then .ok none
      else do
        let exponent ← signed 64 (exponent * 10)
        let exponent ← signed 64 (exponent + ch.toNat)
        let exponent ← signed 64 (exponent - 0x30)
        exponentDigits exponent val
    else .ok (some (exponent, ch :: val))

def parseExponentSign : List UInt8 → Bool × List UInt8
  | 0x2b :: val => (false, val)
  | 0x2d :: val => (true, val)
  | val => (false, val)

def parseExponent : List UInt8 → Checked (Option (Bool × Int × List UInt8))
  | [] => .ok (some (false, 0, []))
  | e :: val =>
    if e = 0x65 ∨ e = 0x45 then
      match parseExponentSign val with
      | (_, []) => .ok none
      | (exponentSign, ch :: val) =>
        if isDigit ch then do
          match ← exponentDigits 0 (ch :: val) with
          | none => return none
          | some (exponent, val) => return some (exponentSign, exponent, val)
        else .ok none
    else .ok (some (false, 0, e :: val))

def scaleAmount : Nat → Int → Checked (Option Int)
  | 0, mantissa => .ok (some mantissa)
  | rounds + 1, mantissa =>
    if mantissa > UPPER_BOUND / 10 ∨ mantissa < -(UPPER_BOUND / 10) then .ok none
    else do
      let mantissa ← signed 64 (mantissa * 10)
      scaleAmount rounds mantissa

def applySign (sign : Bool) (x : Int) : Checked Int := if sign then signed 64 (-x) else .ok x

def convertAmount (mantissa exponent : Int) : Checked (Option Int) :=
  if exponent < 0 then .ok none
  else if exponent ≥ 18 then .ok none
  else do
    match ← scaleAmount exponent.toNat mantissa with
    | none => return none
    | some mantissa => return if mantissa > UPPER_BOUND ∨ mantissa < -UPPER_BOUND then none else some mantissa

def finalize (mantissaSign exponentSign : Bool) (mantissa exponent pointOfs mantissaTzeros decimals : Int) :
    Checked (Option Int) := do
  let exponent ← applySign exponentSign exponent
  let exponent ← signed 64 (exponent - pointOfs)
  let exponent ← signed 64 (exponent + mantissaTzeros)
  let mantissa ← applySign mantissaSign mantissa
  let exponent ← signed 64 (exponent + decimals)
  convertAmount mantissa exponent

def parseFixedPoint (val : List UInt8) (decimals : Int) : Checked (Option Int) := do
  let (mantissaSign, val) := parseSign val
  match ← parseWhole val with
  | none => return none
  | some (mantissa, mantissaTzeros, val) =>
    match ← parseFraction mantissa mantissaTzeros val with
    | none => return none
    | some (mantissa, mantissaTzeros, pointOfs, val) =>
      match ← parseExponent val with
      | none => return none
      | some (exponentSign, exponent, val) =>
        if val ≠ [] then return none
        else finalize mantissaSign exponentSign mantissa exponent pointOfs mantissaTzeros decimals

/-! ## Digits of the mantissa -/

variable {ch : UInt8} {chars rest val : List UInt8} {m t k : Nat} {x : Int}

theorem signed_ok {w : Nat} (hlow : -2 ^ (w - 1) ≤ x) (hhigh : x < 2 ^ (w - 1)) : signed w x = .ok x :=
  if_pos ⟨hlow, hhigh⟩

theorem scaleMantissa_spec (rounds : Nat) (hm : m < 10 ^ 18) :
    scaleMantissa rounds m =
      .ok (if m * 10 ^ rounds < 10 ^ 18 then some ((m * 10 ^ rounds : Nat) : Int) else none) := by
  induction rounds generalizing m with
  | zero =>
    rw [pow_zero, Nat.mul_one, if_pos hm]
    rfl
  | succ rounds ih =>
    have hpow : 0 < 10 ^ rounds := by positivity
    have hsplit : m * 10 ^ (rounds + 1) = m * 10 * 10 ^ rounds := by ring
    unfold scaleMantissa UPPER_BOUND
    split
    · next hlarge =>
      have hle : m * 10 ≤ m * 10 * 10 ^ rounds := Nat.le_mul_of_pos_right _ hpow
      rw [hsplit, if_neg (by omega)]
    · next hsmall =>
      have hcast : (m : Int) * 10 = ((m * 10 : Nat) : Int) := by push_cast; ring
      rw [signed_ok (by omega) (by norm_num; omega), ok_bind, hcast, ih (by omega), hsplit]

theorem processMantissaDigit_spec (hdigit : isDigit ch = true) (hm : m < 10 ^ 18) (ht : t + 1 < 2 ^ 31) :
    processMantissaDigit ch m t =
    .ok (if (absorb (m, t) ch).1 < 10 ^ 18 then some (((absorb (m, t) ch).1 : Int), ((absorb (m, t) ch).2 : Int))
      else none) := by
  have hround : signed 32 ((t : Int) + 1) = .ok ((t : Int) + 1) := signed_ok (by omega) (by norm_num; omega)
  unfold processMantissaDigit absorb
  split
  · next hzero =>
    rw [hround, ok_bind]
    rfl
  · next hne =>
    have hlt := digit_lt hdigit
    have hvalue := toNat_of_isDigit hdigit
    obtain ⟨n, hn⟩ : ∃ n, m * 10 ^ (t + 1) = 10 * n := ⟨m * 10 ^ t, by ring⟩
    rw [hround, ok_bind, show ((t : Int) + 1).toNat = t + 1 by omega, scaleMantissa_spec (t + 1) hm, hn]
    simp only [ok_bind]
    by_cases hsmall : 10 * n < 10 ^ 18
    · rw [if_pos hsmall, if_pos (by omega)]
      have hcast : ((10 * n : Nat) : Int) + (ch.toNat - 0x30) = ((10 * n + digit ch : Nat) : Int) := by
        rw [hvalue]
        push_cast
        ring
      dsimp only
      rw [hcast, signed_ok (by omega) (by norm_num; omega)]
      rfl
    · rw [if_neg hsmall, if_neg (by omega)]
      rfl

def EndsDigits (rest : List UInt8) : Prop := ∀ c ∈ rest.head?, isDigit c = false

theorem mantissaDigits_spec (hdigits : ∀ c ∈ chars, isDigit c = true) (hrest : EndsDigits rest) (hm : m < 10 ^ 18)
    (ht : t + chars.length < 2 ^ 31) (hk : k + chars.length < 2 ^ 31) :
    mantissaDigits m t k (chars ++ rest) = .ok (if (absorbAll (m, t) chars).1 < 10 ^ 18 then
      some (((absorbAll (m, t) chars).1 : Int), ((absorbAll (m, t) chars).2 : Int),
        ((k + chars.length : Nat) : Int), rest) else none) := by
  induction chars generalizing m t k with
  | nil =>
    rw [nil_append]
    cases rest with
    | nil =>
      rw [if_pos (by simpa [absorbAll] using hm)]
      rfl
    | cons c rest =>
      rw [mantissaDigits, hrest c rfl, if_neg Bool.false_ne_true, if_pos (by simpa [absorbAll] using hm)]
      rfl
  | cons c chars ih =>
    have hc := hdigits c mem_cons_self
    rw [length_cons] at ht hk
    rw [cons_append, mantissaDigits, hc, if_pos rfl, processMantissaDigit_spec hc hm (by omega),
      absorbAll_cons, ok_bind]
    by_cases hsmall : (absorb (m, t) c).1 < 10 ^ 18
    · rw [if_pos hsmall]
      dsimp only
      have habsorb : (absorb (m, t) c).2 ≤ t + 1 := by
        unfold absorb
        split <;> simp
      have hcount : (k : Int) + 1 = ((k + 1 : Nat) : Int) := by push_cast; ring
      rw [signed_ok (by omega) (by norm_num; omega), ok_bind, hcount,
        ih (fun c' hc' => hdigits c' (mem_cons_of_mem _ hc')) hsmall (by omega) (by omega),
        show k + 1 + chars.length = k + (c :: chars).length by rw [length_cons]; omega]
    · have hmono := absorbAll_mono (absorb (m, t) c) chars
      rw [if_neg hsmall, if_neg (by omega)]
      rfl

theorem exists_digits (val : List UInt8) : ∃ chars rest, val = chars ++ rest ∧ (∀ c ∈ chars, isDigit c = true) ∧
    EndsDigits rest := by
  refine ⟨val.takeWhile isDigit, val.dropWhile isDigit, takeWhile_append_dropWhile.symm,
    fun c hc => mem_takeWhile_imp hc, ?_⟩
  intro c hc
  have hhead := head?_dropWhile_not isDigit val
  rw [Option.mem_def.mp hc] at hhead
  simpa using hhead

/-! ## The parts of a number -/

/-- The mantissa before the point, where a single zero is passed. -/
def wholeMantissa (chars : List UInt8) : Nat × Nat := if chars = [0x30] then (0, 0) else absorbAll (0, 0) chars

theorem wholeMantissa_value (hdigits : ∀ c ∈ chars, isDigit c = true) :
    (wholeMantissa chars).1 * 10 ^ (wholeMantissa chars).2 = read 0 chars := by
  unfold wholeMantissa
  split
  · next h =>
    rw [h]
    rfl
  · rw [absorbAll_value (0, 0) hdigits]
    rfl

theorem wholeMantissa_stripped (hdigits : ∀ c ∈ chars, isDigit c = true) : Stripped (wholeMantissa chars).1 := by
  unfold wholeMantissa
  split
  · exact .inl rfl
  · exact absorbAll_stripped hdigits (.inl rfl)

theorem wholeMantissa_zeros (chars : List UInt8) : (wholeMantissa chars).2 ≤ chars.length := by
  unfold wholeMantissa
  split
  · exact Nat.zero_le _
  · have h := absorbAll_zeros (0, 0) chars
    omega

def IsWhole (whole : Digits) : Prop := whole.chars = [0x30] ∨ whole.chars.head? ≠ some 0x30

variable (whole : Digits) (exponent : Option Exponent) (number : JsonNumber) (fraction : Option Digits)

theorem parseWhole_ok (hwhole : IsWhole whole) (hrest : EndsDigits rest) (hshort : whole.chars.length < 2 ^ 31) :
    parseWhole (whole.chars ++ rest) = .ok (if (wholeMantissa whole.chars).1 < 10 ^ 18 then
      some (((wholeMantissa whole.chars).1 : Int), ((wholeMantissa whole.chars).2 : Int), rest) else none) := by
  unfold wholeMantissa
  rcases hwhole with hzero | hhead
  · rw [hzero, if_pos rfl]
    rfl
  · obtain ⟨c, chars, hchars⟩ := exists_cons_of_ne_nil whole.nonempty
    have hne : c ≠ 0x30 := fun h => hhead (by rw [hchars, h]; rfl)
    have hdigits := whole.digits
    rw [hchars] at hdigits hshort ⊢
    have hc := hdigits c mem_cons_self
    have hvalue := toNat_of_isDigit hc
    have hlt := digit_lt hc
    have hpos : digit c ≠ 0 := fun h => hne ((digit_eq_zero hc).mp h)
    have hrange : 0x31 ≤ c ∧ c ≤ 0x39 := by
      rw [UInt8.le_iff_toNat_le, UInt8.le_iff_toNat_le]
      have hlower : (0x31 : UInt8).toNat = 49 := rfl
      have hupper : (0x39 : UInt8).toNat = 57 := rfl
      omega
    have hmantissa := mantissaDigits_spec (m := 0) (t := 0) (k := 0) hdigits hrest (by norm_num) (by omega) (by omega)
    have hlist : c :: chars ≠ [0x30] := fun h => hne (cons.inj h).1
    rw [if_neg hlist, cons_append, parseWhole, if_neg hne, if_pos hrange]
    rw [cons_append] at hmantissa
    have hstart : mantissaDigits 0 0 0 (c :: (chars ++ rest)) = _ := hmantissa
    rw [hstart, ok_bind]
    split_ifs <;> rfl

theorem parseWhole_spec (hshort : val.length < 2 ^ 31) :
    parseWhole val = .ok none ∨ ∃ (whole : Digits) (rest : List UInt8), IsWhole whole ∧ val = whole.chars ++ rest ∧
      (wholeMantissa whole.chars).1 < 10 ^ 18 ∧
        parseWhole val = .ok (some (((wholeMantissa whole.chars).1 : Int), ((wholeMantissa whole.chars).2 : Int),
          rest)) := by
  obtain ⟨chars, rest, rfl, hdigits, hrest⟩ := exists_digits val
  cases chars with
  | nil =>
    left
    rw [nil_append]
    cases rest with
    | nil => rfl
    | cons c rest =>
      have hc := hrest c rfl
      have hout : ¬ (c = 0x30) ∧ ¬ (0x31 ≤ c ∧ c ≤ 0x39) := by
        refine ⟨fun h => ?_, fun h => ?_⟩
        · rw [h] at hc
          cases hc
        · have hdigit : isDigit c = true := by
            unfold isDigit
            rw [Bool.and_eq_true, decide_eq_true_eq, decide_eq_true_eq]
            exact ⟨UInt8.le_trans (show (0x30 : UInt8) ≤ 0x31 by decide) h.1, h.2⟩
          rw [hdigit] at hc
          cases hc
      rw [parseWhole, if_neg hout.1, if_neg hout.2]
  | cons c chars =>
    by_cases hzero : c = 0x30
    · -- a zero is passed, and the rest may be anything
      subst hzero
      right
      refine ⟨⟨[0x30], cons_ne_nil _ _, by simp; decide⟩, chars ++ rest, .inl rfl, rfl, by decide, rfl⟩
    · have hwhole := parseWhole_ok ⟨c :: chars, cons_ne_nil _ _, hdigits⟩ (.inr (by simpa using hzero)) hrest (by
        rw [length_append] at hshort
        dsimp only
        omega)
      by_cases hsmall : (wholeMantissa (c :: chars)).1 < 10 ^ 18
      · right
        refine ⟨⟨c :: chars, cons_ne_nil _ _, hdigits⟩, rest, .inr (by simpa using hzero), rfl, hsmall, ?_⟩
        rw [hwhole, if_pos hsmall]
      · left
        rw [hwhole, if_neg hsmall]

def fractionText (fraction : Option Digits) : List UInt8 := (fraction.map fun digits => 0x2e :: digits.chars).getD []

def fractionDigits (fraction : Option Digits) : List UInt8 := (fraction.map Digits.chars).getD []

theorem parseFraction_point (x y : Int) :
    parseFraction x y (0x2e :: ch :: val) = if isDigit ch then mantissaDigits x y 0 (ch :: val) else .ok none := rfl

theorem parseFraction_ok (hrest : EndsDigits rest) (hpoint : rest.head? ≠ some 0x2e) (hm : m < 10 ^ 18)
    (ht : t + (fractionDigits fraction).length < 2 ^ 31) :
    parseFraction m t (fractionText fraction ++ rest) =
      .ok (if (absorbAll (m, t) (fractionDigits fraction)).1 < 10 ^ 18 then
      some (((absorbAll (m, t) (fractionDigits fraction)).1 : Int),
        ((absorbAll (m, t) (fractionDigits fraction)).2 : Int),
        ((fractionDigits fraction).length : Int), rest) else none) := by
  cases fraction with
  | none =>
    have hkept : ∀ rest : List UInt8, rest.head? ≠ some 0x2e → parseFraction m t rest = .ok (some (m, t, 0, rest)) := by
      intro rest hpoint
      unfold parseFraction
      split
      · exact absurd rfl hpoint
      · exact absurd rfl hpoint
      · rfl
    show parseFraction m t rest = .ok (if m < 10 ^ 18 then some ((m : Int), (t : Int), 0, rest) else none)
    rw [if_pos hm, hkept rest hpoint]
  | some digits =>
    obtain ⟨c, chars, hchars⟩ := exists_cons_of_ne_nil digits.nonempty
    have hdigits := digits.digits
    have htext : fractionText (some digits) ++ rest = 0x2e :: c :: (chars ++ rest) := by
      show 0x2e :: digits.chars ++ rest = _
      rw [hchars]
      rfl
    have hfraction : fractionDigits (some digits) = c :: chars := hchars
    rw [hfraction] at ht ⊢
    rw [hchars] at hdigits
    have hmantissa := mantissaDigits_spec (k := 0) hdigits hrest hm ht (by omega)
    rw [htext, parseFraction_point, hdigits c mem_cons_self, if_pos rfl]
    rw [Nat.zero_add] at hmantissa
    exact hmantissa

theorem parseFraction_spec (hm : m < 10 ^ 18) (hshort : t + val.length < 2 ^ 31) :
    parseFraction m t val = .ok none ∨ ∃ (fraction : Option Digits) (rest : List UInt8),
      val = fractionText fraction ++ rest ∧ (absorbAll (m, t) (fractionDigits fraction)).1 < 10 ^ 18 ∧
        parseFraction m t val = .ok (some (((absorbAll (m, t) (fractionDigits fraction)).1 : Int),
          ((absorbAll (m, t) (fractionDigits fraction)).2 : Int), ((fractionDigits fraction).length : Int), rest)) := by
  unfold parseFraction
  split
  · next ch val =>
    split
    · next hdigit =>
      obtain ⟨chars, rest, hsplit, hdigits, hrest⟩ := exists_digits (ch :: val)
      cases chars with
      | nil =>
        rw [nil_append] at hsplit
        rw [← hsplit] at hrest
        have hfalse := hrest ch rfl
        rw [hdigit] at hfalse
        cases hfalse
      | cons c chars =>
        have hlength : chars.length + 1 + rest.length = val.length + 1 := by
          have h := congrArg length hsplit
          simp only [length_cons, length_append] at h
          omega
        simp only [length_cons] at hshort
        have hmantissa := mantissaDigits_spec (m := m) (t := t) (k := 0) hdigits hrest hm (by rw [length_cons]; omega)
          (by rw [length_cons]; omega)
        rw [← hsplit, Nat.zero_add] at hmantissa
        have hstart : mantissaDigits m t 0 (ch :: val) = _ := hmantissa
        by_cases hsmall : (absorbAll (m, t) (c :: chars)).1 < 10 ^ 18
        · right
          refine ⟨some ⟨c :: chars, cons_ne_nil _ _, hdigits⟩, rest, ?_, hsmall, ?_⟩
          · show 0x2e :: ch :: val = 0x2e :: ((c :: chars) ++ rest)
            rw [hsplit]
          · rw [hstart, if_pos hsmall]
            rfl
        · left
          rw [hstart, if_neg hsmall]
    · exact .inl rfl
  · exact .inl rfl
  · exact .inr ⟨none, val, rfl, hm, rfl⟩

/-! ## The exponent -/

theorem exponentDigits_spec (hdigits : ∀ c ∈ chars, isDigit c = true) (hrest : EndsDigits rest) (hm : m < 10 ^ 18) :
    (exponentDigits m (chars ++ rest) = .ok (some ((read m chars : Int), rest)) ∧ read m chars < 10 ^ 18) ∨
      exponentDigits m (chars ++ rest) = .ok none ∧ 10 ^ 17 ≤ read m chars := by
  induction chars generalizing m with
  | nil =>
    left
    rw [nil_append]
    refine ⟨?_, hm⟩
    cases rest with
    | nil => rfl
    | cons c rest =>
      rw [exponentDigits, hrest c rfl, if_neg Bool.false_ne_true]
      rfl
  | cons c chars ih =>
    have hc := hdigits c mem_cons_self
    have hlt := digit_lt hc
    have hvalue := toNat_of_isDigit hc
    have hle := le_read (10 * m + digit c) chars
    rw [cons_append, exponentDigits, hc, if_pos rfl, read_cons]
    unfold UPPER_BOUND
    split
    · exact .inr ⟨rfl, by omega⟩
    · next hsmall =>
      have hnext : (m : Int) * 10 + (c.toNat : Int) - 0x30 = ((10 * m + digit c : Nat) : Int) := by
        rw [hvalue]
        push_cast
        ring
      rw [signed_ok (by omega) (by norm_num; omega), ok_bind, signed_ok (by omega) (by norm_num; omega), ok_bind, hnext,
        signed_ok (by omega) (by norm_num; omega), ok_bind]
      exact ih (fun c' hc' => hdigits c' (mem_cons_of_mem _ hc')) (by omega)

def exponentText (exponent : Option Exponent) : List UInt8 := (exponent.map Exponent.render).getD []

def isMinus (exponent : Option Exponent) : Bool := exponent.any fun e => e.sign == some true

def magnitude (exponent : Option Exponent) : Nat := (exponent.map fun e => read 0 e.digits.chars).getD 0

theorem exponent_value :
    (exponent.map Exponent.value).getD 0 =
      if isMinus exponent then -(magnitude exponent : Int) else magnitude exponent := by
  cases exponent with
  | none => rfl
  | some e =>
    show e.value = if (e.sign == some true) then _ else _
    unfold Exponent.value
    rcases e.sign with _ | _ | _ <;> rfl

theorem parseExponent_some (e : Exponent) {rest : List UInt8} (hrest : EndsDigits rest) :
    parseExponent (e.render ++ rest) = .ok (some (isMinus (some e), (magnitude (some e) : Int), rest)) ∧
      magnitude (some e) < 10 ^ 18 ∨
      parseExponent (e.render ++ rest) = .ok none ∧ 10 ^ 17 ≤ magnitude (some e) := by
  obtain ⟨c, chars, hchars⟩ := exists_cons_of_ne_nil e.digits.nonempty
  have hdigits := e.digits.digits
  have hc := hdigits c (by rw [hchars]; exact mem_cons_self)
  have hsign : parseExponentSign ((e.sign.map signChar).toList ++ (e.digits.chars ++ rest)) =
      (isMinus (some e), e.digits.chars ++ rest) := by
    show _ = (e.sign == some true, _)
    rcases e.sign with _ | _ | _
    · rw [hchars]
      unfold parseExponentSign
      split
      · next h =>
        cases h
        cases hc
      · next h =>
        cases h
        cases hc
      · rfl
    · rfl
    · rfl
  have hdigitsRun := exponentDigits_spec (m := 0) hdigits hrest (by norm_num)
  have htext : e.render ++ rest = e.letter :: ((e.sign.map signChar).toList ++ (e.digits.chars ++ rest)) := by
    unfold Exponent.render
    rw [cons_append, append_assoc]
  rw [htext, parseExponent, if_pos e.isLetter, hsign, hchars, cons_append]
  rw [hchars, cons_append] at hdigitsRun
  dsimp only
  rw [hc, if_pos rfl]
  have hmagnitude : magnitude (some e) = read 0 (c :: chars) := by
    show read 0 e.digits.chars = _
    rw [hchars]
  rw [hmagnitude]
  rcases hdigitsRun with ⟨hrun, hlt⟩ | ⟨hrun, hle⟩
  · left
    have hrun' : exponentDigits 0 (c :: (chars ++ rest)) = _ := hrun
    rw [hrun']
    exact ⟨rfl, hlt⟩
  · right
    have hrun' : exponentDigits 0 (c :: (chars ++ rest)) = _ := hrun
    rw [hrun']
    exact ⟨rfl, hle⟩

theorem parseExponentSign_text (val : List UInt8) :
    ∃ sign : Option Bool, val = (sign.map signChar).toList ++ (parseExponentSign val).2 := by
  unfold parseExponentSign
  split
  · exact ⟨some false, rfl⟩
  · exact ⟨some true, rfl⟩
  · exact ⟨none, rfl⟩

theorem parseExponent_spec (val : List UInt8) :
    parseExponent val = .ok none ∨ ∃ (exponent : Option Exponent) (rest : List UInt8),
      val = exponentText exponent ++ rest ∧
      magnitude exponent < 10 ^ 18 ∧
        parseExponent val = .ok (some (isMinus exponent, (magnitude exponent : Int), rest)) := by
  cases val with
  | nil => exact .inr ⟨none, [], rfl, by decide, rfl⟩
  | cons letter val =>
    by_cases hletter : letter = 0x65 ∨ letter = 0x45
    · obtain ⟨sign, hsign⟩ := parseExponentSign_text val
      obtain ⟨chars, rest, hsplit, hdigits, hrest⟩ := exists_digits (parseExponentSign val).2
      cases chars with
      | nil =>
        left
        rw [parseExponent, if_pos hletter]
        rw [nil_append] at hsplit
        rcases hparse : parseExponentSign val with ⟨_, _ | ⟨c, _⟩⟩
        · rfl
        · rw [hparse] at hsplit
          rw [← hsplit] at hrest
          dsimp only
          rw [hrest c rfl, if_neg Bool.false_ne_true]
      | cons c chars =>
        have htext : letter :: val =
            Exponent.render ⟨letter, hletter, sign, ⟨c :: chars, cons_ne_nil _ _, hdigits⟩⟩ ++ rest := by
          unfold Exponent.render
          rw [cons_append, append_assoc]
          dsimp only
          rw [← hsplit, ← hsign]
        rcases parseExponent_some ⟨letter, hletter, sign, ⟨c :: chars, cons_ne_nil _ _, hdigits⟩⟩ hrest with
          ⟨hrun, hlt⟩ | ⟨hrun, -⟩
        · exact .inr ⟨some _, rest, htext, hlt, htext ▸ hrun⟩
        · exact .inl (htext ▸ hrun)
    · refine .inr ⟨none, letter :: val, rfl, by decide, ?_⟩
      rw [parseExponent, if_neg hletter]
      rfl

/-! ## The amount -/

theorem scaleAmount_spec (rounds : Nat) (hx : |x| < 10 ^ 18) :
    scaleAmount rounds x = .ok (if |x * 10 ^ rounds| < 10 ^ 18 then some (x * 10 ^ rounds) else none) := by
  induction rounds generalizing x with
  | zero => rw [pow_zero, mul_one, if_pos hx]; rfl
  | succ rounds ih =>
    have hsplit : x * 10 ^ (rounds + 1) = x * 10 * 10 ^ rounds := by ring
    have hpow : (1 : Int) ≤ 10 ^ rounds := one_le_pow₀ (by norm_num)
    unfold scaleAmount UPPER_BOUND
    split
    · next hlarge =>
      have hle : |x * 10| ≤ |x * 10 * 10 ^ rounds| := by
        rw [abs_mul (x * 10), abs_of_pos (show (0 : Int) < 10 ^ rounds by omega)]
        exact le_mul_of_one_le_right (abs_nonneg _) hpow
      rw [hsplit, if_neg]
      rw [abs_mul, show |(10 : Int)| = 10 from rfl] at hle
      have habs : 10 ^ 17 ≤ |x| := by rw [le_abs]; omega
      omega
    · next hsmall =>
      have habs : |x * 10| < 10 ^ 18 := by
        rw [abs_lt]
        omega
      rw [signed_ok (by omega) (by norm_num; omega), ok_bind, ih habs, hsplit]

def withSign (sign : Bool) (m : Nat) : Int := if sign then -(m : Int) else m

/-- The amount that mantissa and exponent make, if it is in range. -/
def amountOf (x e : Int) : Option Int :=
  if 0 ≤ e ∧ e < 18 ∧ |x * 10 ^ e.toNat| < 10 ^ 18 then some (x * 10 ^ e.toNat) else none

theorem abs_withSign (sign : Bool) (m : Nat) : |withSign sign m| = m := by
  unfold withSign
  split
  · rw [abs_neg, Nat.abs_cast]
  · rw [Nat.abs_cast]

theorem applySign_ok (sign : Bool) (hm : m < 10 ^ 18) : applySign sign m = .ok (withSign sign m) := by
  cases sign
  · rfl
  · exact signed_ok (by omega) (by norm_num; omega)

theorem convertAmount_spec (e : Int) (hx : |x| < 10 ^ 18) : convertAmount x e = .ok (amountOf x e) := by
  unfold convertAmount amountOf
  split
  · next hneg => rw [if_neg (by omega)]
  split
  · next hlarge => rw [if_neg (by omega)]
  next hnonneg hbelow =>
  rw [scaleAmount_spec e.toNat hx, ok_bind]
  by_cases hfits : |x * 10 ^ e.toNat| < 10 ^ 18
  · have hrange := abs_lt.mp hfits
    rw [if_pos hfits, if_pos ⟨by omega, by omega, hfits⟩]
    dsimp only
    rw [if_neg]
    · rfl
    · unfold UPPER_BOUND
      omega
  · rw [if_neg hfits, if_neg (fun h => hfits h.2.2)]
    rfl

variable {decimals : Int} {amount : Int}

theorem finalize_spec (mantissaSign exponentSign : Bool) {e p : Nat} (hm : m < 10 ^ 18) (he : e < 10 ^ 18)
    (hp : p < 2 ^ 31) (ht : t < 2 ^ 31) (hdecimals : 0 ≤ decimals ∧ decimals ≤ 18) :
    finalize mantissaSign exponentSign m e p t decimals =
      .ok (amountOf (withSign mantissaSign m) (withSign exponentSign e - p + t + decimals)) := by
  have hmantissa := abs_withSign mantissaSign m
  have hexponent := abs_le.mp (abs_withSign exponentSign e).le
  unfold finalize
  rw [applySign_ok exponentSign he, ok_bind, signed_ok (by omega) (by norm_num; omega), ok_bind,
    signed_ok (by omega) (by norm_num; omega), ok_bind, applySign_ok mantissaSign hm, ok_bind,
    signed_ok (by omega) (by norm_num; omega), ok_bind]
  exact convertAmount_spec _ (by omega)

/-! ## The whole number -/

def mantissaOf (whole : Digits) (fraction : Option Digits) : Nat × Nat :=
  absorbAll (wholeMantissa whole.chars) (fractionDigits fraction)

def outcome (negative : Bool) (whole : Digits) (fraction : Option Digits) (exponent : Option Exponent)
    (decimals : Int) : Option Int :=
  amountOf (withSign negative (mantissaOf whole fraction).1)
    (withSign (isMinus exponent) (magnitude exponent) - (fractionDigits fraction).length +
      (mantissaOf whole fraction).2 + decimals)

theorem mantissaOf_value :
    (mantissaOf whole fraction).1 * 10 ^ (mantissaOf whole fraction).2 = read 0
    (whole.chars ++ fractionDigits fraction) := by
  have hfraction : ∀ c ∈ fractionDigits fraction, isDigit c = true := by
    cases fraction with
    | none => simp [fractionDigits]
    | some digits => exact digits.digits
  unfold mantissaOf
  rw [absorbAll_value _ hfraction, wholeMantissa_value whole.digits, read_append]

theorem mantissaOf_stripped : Stripped (mantissaOf whole fraction).1 := by
  have hfraction : ∀ c ∈ fractionDigits fraction, isDigit c = true := by
    cases fraction with
    | none => simp [fractionDigits]
    | some digits => exact digits.digits
  exact absorbAll_stripped hfraction (wholeMantissa_stripped whole.digits)

theorem value_scaled (decimals : Int) :
    number.value * 10 ^ decimals = (withSign number.negative (mantissaOf number.whole number.fraction).1 : ℚ) *
      10 ^ (withSign (isMinus number.exponent) (magnitude number.exponent) - (fractionDigits number.fraction).length +
        (mantissaOf number.whole number.fraction).2 + decimals) := by
  have hten : (10 : ℚ) ≠ 0 := by norm_num
  have hvalue := mantissaOf_value number.whole number.fraction
  have hexponent : number.exponentValue = withSign (isMinus number.exponent) (magnitude number.exponent) :=
      exponent_value number.exponent
  have hfraction : number.fractionChars = fractionDigits number.fraction := rfl
  have hsign : ((withSign number.negative (mantissaOf number.whole number.fraction).1 : Int) : ℚ) =
      (if number.negative then -1 else 1) * ((mantissaOf number.whole number.fraction).1 : ℚ) := by
    unfold withSign
    split <;> push_cast <;> ring
  unfold JsonNumber.value
  rw [hsign, hexponent, hfraction, ← hvalue, zpow_add₀ hten, zpow_add₀ hten, zpow_natCast]
  push_cast
  ring

/-! ## Reading a number -/

theorem parseSign_text (val : List UInt8) : val = (if (parseSign val).1 then [0x2d] else []) ++ (parseSign val).2 := by
  unfold parseSign
  split <;> rfl

theorem parseSign_ok (negative : Bool) (hrest : rest.head? ≠ some 0x2d) :
    parseSign ((if negative then [0x2d] else []) ++ rest) = (negative, rest) := by
  cases negative
  · show parseSign rest = (false, rest)
    unfold parseSign
    split
    · exact absurd rfl hrest
    · rfl
  · rfl

theorem exponentText_endsDigits : EndsDigits (exponentText exponent) := by
  cases exponent with
  | none => exact fun c hc => by cases hc
  | some e =>
    intro c hc
    obtain rfl : e.letter = c := Option.some.inj hc
    rcases e.isLetter with h | h <;> rw [h] <;> rfl

theorem exponentText_noPoint : (exponentText exponent).head? ≠ some 0x2e := by
  cases exponent with
  | none => exact fun h => by cases h
  | some e =>
    intro h
    have hletter : e.letter = 0x2e := Option.some.inj h
    rcases e.isLetter with h' | h' <;> rw [h'] at hletter <;> cases hletter

theorem fractionText_endsDigits (hrest : EndsDigits rest) : EndsDigits (fractionText fraction ++ rest) := by
  cases fraction with
  | none => exact hrest
  | some digits =>
    intro c hc
    obtain rfl : 0x2e = c := Option.some.inj hc
    rfl

theorem render_eq : number.render = (if number.negative then [0x2d] else []) ++
    (number.whole.chars ++ (fractionText number.fraction ++ exponentText number.exponent)) := rfl

theorem whole_noMinus : (whole.chars ++ rest).head? ≠ some 0x2d := by
  obtain ⟨c, chars, hchars⟩ := exists_cons_of_ne_nil whole.nonempty
  have hc := whole.digits c (by rw [hchars]; exact mem_cons_self)
  rw [hchars]
  intro h
  obtain rfl : c = 0x2d := Option.some.inj h
  cases hc

theorem fractionDigits_length : (fractionDigits fraction).length ≤ (fractionText fraction).length := by
  cases fraction with
  | none => exact le_rfl
  | some digits => exact Nat.le_succ _

theorem parse_parts (negative : Bool) {whole : Digits} {fraction : Option Digits} {exponent : Option Exponent}
    (hlength : (whole.chars ++ (fractionText fraction ++ rest)).length < 2 ^ 31)
    (hdecimals : 0 ≤ decimals ∧ decimals ≤ 18) (hmantissa : (mantissaOf whole fraction).1 < 10 ^ 18)
    (hmagnitude : magnitude exponent < 10 ^ 18) :
    finalize negative (isMinus exponent) (mantissaOf whole fraction).1 (magnitude exponent)
      (fractionDigits fraction).length
      (mantissaOf whole fraction).2 decimals = .ok (outcome negative whole fraction exponent decimals) := by
  have hfraction := fractionDigits_length fraction
  have hzeros := absorbAll_zeros (wholeMantissa whole.chars) (fractionDigits fraction)
  have hwhole := wholeMantissa_zeros whole.chars
  rw [length_append, length_append] at hlength
  unfold mantissaOf at hmantissa ⊢
  rw [finalize_spec negative (isMinus exponent) hmantissa hmagnitude (by omega) (by omega) hdecimals]
  rfl

/-- Every text with small enough mantissa and exponent is read. -/
theorem parseFixedPoint_render (hlength : number.render.length < 2 ^ 31)
    (hdecimals : 0 ≤ decimals ∧ decimals ≤ 18) (hmantissa : (mantissaOf number.whole number.fraction).1 < 10 ^ 18)
    (hmagnitude : magnitude number.exponent < 10 ^ 17) : parseFixedPoint number.render decimals =
      .ok (outcome number.negative number.whole number.fraction number.exponent decimals) := by
  obtain ⟨negative, whole, hwhole, fraction, exponent⟩ := number
  dsimp only at hmantissa hmagnitude ⊢
  have hfraction := fractionDigits_length fraction
  have hwholeSmall := absorbAll_mono (wholeMantissa whole.chars) (fractionDigits fraction)
  have hzeros := wholeMantissa_zeros whole.chars
  have hends := exponentText_endsDigits exponent
  have hpoint := exponentText_noPoint exponent
  rw [render_eq, length_append] at hlength
  have hshort : (whole.chars ++ (fractionText fraction ++ exponentText exponent)).length < 2 ^ 31 := by
    dsimp only at hlength
    omega
  have hparts := parse_parts negative hshort hdecimals hmantissa (by omega : magnitude exponent < 10 ^ 18)
  rw [length_append, length_append] at hshort
  unfold mantissaOf at hmantissa hparts
  have hexponent : parseExponent (exponentText exponent) =
      .ok (some (isMinus exponent, (magnitude exponent : Int), [])) := by
    cases exponent with
    | none => rfl
    | some e =>
      have hnil : EndsDigits [] := fun c hc => by cases hc
      rcases parseExponent_some e hnil with ⟨hrun, -⟩ | ⟨-, _⟩
      · rw [append_nil] at hrun
        exact hrun
      · omega
  unfold parseFixedPoint
  rw [render_eq, parseSign_ok negative (whole_noMinus whole)]
  dsimp only
  rw [parseWhole_ok whole hwhole (fractionText_endsDigits fraction hends) (by omega), if_pos (by omega), ok_bind]
  dsimp only
  rw [parseFraction_ok fraction hends hpoint (by omega) (by omega), if_pos hmantissa, ok_bind]
  dsimp only
  rw [hexponent, ok_bind]
  dsimp only
  rw [if_neg (fun h => h rfl)]
  exact hparts

theorem parseFixedPoint_spec (hlength : val.length < 2 ^ 31) (hdecimals : 0 ≤ decimals ∧ decimals ≤ 18) :
    parseFixedPoint val decimals = .ok none ∨ ∃ number : JsonNumber, number.render = val ∧
      parseFixedPoint val decimals =
        .ok (outcome number.negative number.whole number.fraction number.exponent decimals) := by
  have hsign := parseSign_text val
  have hafter : (parseSign val).2.length < 2 ^ 31 := by
    rw [hsign, length_append] at hlength
    omega
  unfold parseFixedPoint
  rcases hparse : parseSign val with ⟨negative, _⟩
  rw [hparse] at hsign hafter
  dsimp only at hsign hafter ⊢
  rcases parseWhole_spec hafter with hrun | ⟨whole, val1, hwhole, rfl, hwholeSmall, hrun⟩
  · exact .inl (by rw [hrun]; rfl)
  rw [hrun, ok_bind]
  dsimp only
  have hzeros := wholeMantissa_zeros whole.chars
  have hlengths := hafter
  rw [length_append] at hlengths
  have hrest : (wholeMantissa whole.chars).2 + val1.length < 2 ^ 31 := by omega
  rcases parseFraction_spec hwholeSmall hrest with
    hrun | ⟨fraction, val2, rfl, hsmall, hrun⟩
  · exact .inl (by rw [hrun]; rfl)
  rw [hrun, ok_bind]
  dsimp only
  rcases parseExponent_spec val2 with hrun | ⟨exponent, val3, rfl, hmagnitude, hrun⟩
  · exact .inl (by rw [hrun]; rfl)
  rw [hrun, ok_bind]
  dsimp only
  split
  · exact .inl rfl
  · next hend =>
    obtain rfl : val3 = [] := not_not.mp hend
    right
    refine ⟨⟨negative, whole, hwhole, fraction, exponent⟩, ?_, parse_parts negative hafter hdecimals hsmall hmagnitude⟩
    rw [render_eq, hsign, append_nil]

/-! ## Exact amounts -/

theorem withSign_abs_rat (sign : Bool) (m : Nat) : |((withSign sign m : Int) : ℚ)| = m := by
  rw [← Int.cast_abs, abs_withSign]
  exact Int.cast_natCast m

theorem outcome_sound
    (h : outcome number.negative number.whole number.fraction number.exponent decimals = some amount) :
    (amount : ℚ) = number.value * 10 ^ decimals ∧ |amount| < 10 ^ 18 := by
  rw [value_scaled]
  unfold outcome amountOf at h
  split at h
  · next hrange =>
    obtain ⟨hnonneg, -, hsmall⟩ := hrange
    cases h
    refine ⟨?_, hsmall⟩
    push_cast
    rw [← zpow_natCast, Int.toNat_of_nonneg hnonneg]
  · cases h

theorem outcome_complete (hvalue : number.value * 10 ^ decimals = amount)
    (hne : amount ≠ 0) (hsmall : |amount| < 10 ^ 18) : (mantissaOf number.whole number.fraction).1 < 10 ^ 18 ∧
      outcome number.negative number.whole number.fraction number.exponent decimals = some amount := by
  rw [value_scaled] at hvalue
  unfold outcome
  generalize withSign (isMinus number.exponent) (magnitude number.exponent) - (fractionDigits number.fraction).length +
    (mantissaOf number.whole number.fraction).2 + decimals = e at hvalue ⊢
  have hstripped := mantissaOf_stripped number.whole number.fraction
  generalize (mantissaOf number.whole number.fraction).1 = m at hvalue hstripped ⊢
  have habs : (m : ℚ) * 10 ^ e = |amount| := by
    rw [Int.cast_abs, ← hvalue, abs_mul, withSign_abs_rat, abs_of_pos (zpow_pos (by norm_num) e)]
  have hm : m ≠ 0 := by
    rintro rfl
    rw [Nat.cast_zero, zero_mul] at habs
    have hzero : |amount| = 0 := by exact_mod_cast habs.symm
    exact hne (abs_eq_zero.mp hzero)
  have hnonneg := pow_nonneg_of_whole hstripped hm habs
  obtain ⟨d, rfl⟩ := Int.eq_ofNat_of_zero_le hnonneg
  rw [zpow_natCast] at hvalue habs
  have hwhole : withSign number.negative m * 10 ^ d = amount := by exact_mod_cast hvalue
  have hproduct : (m : Int) * 10 ^ d = |amount| := by exact_mod_cast habs
  have hpow : (1 : Int) ≤ 10 ^ d := one_le_pow₀ (by norm_num)
  have hle : (m : Int) ≤ m * 10 ^ d := le_mul_of_one_le_right (by omega) hpow
  have hpowLe : (10 : Int) ^ d ≤ m * 10 ^ d := le_mul_of_one_le_left (by omega) (by omega)
  have hd : d < 18 := by
    have hlt : (10 : Int) ^ d < 10 ^ 18 := by omega
    exact (pow_lt_pow_iff_right₀ (by norm_num)).mp hlt
  refine ⟨by omega, ?_⟩
  unfold amountOf
  rw [if_pos ⟨hnonneg, by omega, by rw [Int.toNat_natCast, hwhole]; exact hsmall⟩, Int.toNat_natCast, hwhole]

theorem magnitude_eq_abs : (magnitude number.exponent : Int) = |number.exponentValue| := by
  have hvalue : number.exponentValue = withSign (isMinus number.exponent) (magnitude number.exponent) :=
      exponent_value number.exponent
  rw [hvalue, abs_withSign]

/-- Only numbers are read, exactly, and every whole amount but zero. -/
theorem parseFixedPoint_exact (val : List UInt8) (decimals : Int) (hlength : val.length < 2 ^ 31)
    (hdecimals : 0 ≤ decimals ∧ decimals ≤ 18) : ∃ r, parseFixedPoint val decimals = .ok r ∧
      (∀ amount, r = some amount → ∃ number : JsonNumber,
        number.render = val ∧ (amount : ℚ) = number.value * 10 ^ decimals ∧
        |amount| < 10 ^ 18) ∧
      ∀ number : JsonNumber, number.render = val → ∀ amount : Int, number.value * 10 ^ decimals = amount → amount ≠ 0 →
        |amount| < 10 ^ 18 → |number.exponentValue| < 10 ^ 17 → r = some amount := by
  have hcomplete : ∀ r, parseFixedPoint val decimals = .ok r → ∀ number : JsonNumber, number.render = val →
      ∀ amount : Int,
      number.value * 10 ^ decimals = amount → amount ≠ 0 → |amount| < 10 ^ 18 → |number.exponentValue| < 10 ^ 17 →
        r = some amount := by
    rintro r hrun number rfl amount hvalue hne hsmall hexponent
    obtain ⟨hmantissa, houtcome⟩ := outcome_complete number hvalue hne hsmall
    rw [← magnitude_eq_abs] at hexponent
    rw [parseFixedPoint_render number hlength hdecimals hmantissa (by omega), houtcome] at hrun
    exact (Except.ok.inj hrun).symm
  rcases parseFixedPoint_spec hlength hdecimals with hrun | ⟨number, hrender, hrun⟩
  · exact ⟨none, hrun, fun amount h => (by cases h), hcomplete none hrun⟩
  · exact ⟨_, hrun, fun amount h => ⟨number, hrender, outcome_sound number h⟩, hcomplete _ hrun⟩

/-- `-0.5e1` with eight decimals. -/
def halfTen : List UInt8 := [0x2d, 0x30, 0x2e, 0x35, 0x65, 0x31]

theorem halfTen_exact : ∃ r, parseFixedPoint halfTen 8 = .ok r ∧
    (∀ amount, r = some amount → ∃ number : JsonNumber,
      number.render = halfTen ∧ (amount : ℚ) = number.value * 10 ^ (8 : Int) ∧
      |amount| < 10 ^ 18) ∧
    ∀ number : JsonNumber, number.render = halfTen → ∀ amount : Int, number.value * 10 ^ (8 : Int) = amount →
      amount ≠ 0 →
      |amount| < 10 ^ 18 → |number.exponentValue| < 10 ^ 17 → r = some amount :=
  parseFixedPoint_exact halfTen 8 (by decide) (by decide)

end FullNode.FixedPoint

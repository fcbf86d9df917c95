import FullNode.Lib.Hex
import Mathlib.Data.List.Induction

/-!
# The hex decoder of the wallet

`hex_decode` of `crypto.rs` cuts the UTF-8 bytes of a string in pairs and gives each to the integer parser.
-/

open FullNode.Hex List UInt8

namespace FullNode.Wallet

/-! ## The code -/

inductive Outcome (α : Type) where
  | ok (a : α)
  | err (message : String)
  | panic
  deriving DecidableEq

def utf8 (s : List Char) : List UInt8 := s.flatMap String.utf8EncodeChar

/-- `rest` is empty or starts with no continuation byte. -/
def isCharBoundary (rest : List UInt8) : Bool := !rest.head?.any fun b => 128 ≤ b.toNat && b.toNat < 192

/-- `to_digit(16)` of a byte. -/
def toDigit (b : UInt8) : Option Nat := digitValue (Char.ofNat b.toNat)

def parseDigits : Nat → List UInt8 → Option Nat
  | n, [] => some n
  | n, b :: bytes => do
    let digit ← toDigit b
    guard (n * 16 + digit < 256)
    parseDigits (n * 16 + digit) bytes

/-- `u8::from_str_radix(src, 16)`, which takes one plus sign. -/
def fromStrRadix (src : List UInt8) : Option Nat :=
  match src with
  | [] => none
  | [b] => if b = 0x2b ∨ b = 0x2d then none else parseDigits 0 [b]
  | b :: rest => if b = 0x2b then parseDigits 0 rest else parseDigits 0 (b :: rest)

/-- The loop over the pairs, slice by slice. -/
def hexDecodeLoop : List UInt8 → Outcome (List UInt8)
  | b0 :: b1 :: rest =>
    if !isCharBoundary rest then .panic
    else
      match fromStrRadix [b0, b1] with
      | none => .err "Invalid hex character"
      | some byte =>
        match hexDecodeLoop rest with
        | .ok bytes => .ok (UInt8.ofNat byte :: bytes)
        | .err message => .err message
        | .panic => .panic
  | _ => .ok []

def hexDecode (s : String) : Outcome (List UInt8) :=
  if (utf8 s.toList).length % 2 ≠ 0 then .err "Hex string must have even length"
  else hexDecodeLoop (utf8 s.toList)

def hexEncode (data : List UInt8) : String := String.ofList (Hex.encode data)

/-! ## Characters and bytes -/

theorem utf8_cons (c : Char) (s : List Char) : utf8 (c :: s) = String.utf8EncodeChar c ++ utf8 s := rfl

variable {c d : Char} {s : List Char} {b : UInt8}

theorem utf8EncodeChar_ascii (h : c.toNat < 128) : String.utf8EncodeChar c = [UInt8.ofNat c.toNat] := by
  unfold String.utf8EncodeChar
  exact if_pos (Nat.le_of_lt_succ h)

def IsContinuation (b : UInt8) : Prop := 128 ≤ b.toNat ∧ b.toNat < 192

theorem utf8EncodeChar_wide (h : 128 ≤ c.toNat) :
    ∃ first second rest, String.utf8EncodeChar c = first :: second :: rest ∧ 192 ≤ first.toNat ∧
      IsContinuation second ∧ ∀ b ∈ rest, IsContinuation b := by
  have hv : ¬ c.val.toNat ≤ 0x7f := Nat.not_le.mpr h
  unfold String.utf8EncodeChar
  simp only [hv, if_false]
  split
  · refine ⟨_, _, [], rfl, ?_, ?_, by simp⟩
    · rw [toNat_ofNat']
      omega
    · rw [IsContinuation, toNat_ofNat']
      omega
  · split
    · refine ⟨_, _, [_], rfl, ?_, ?_, ?_⟩
      · rw [toNat_ofNat']
        omega
      · rw [IsContinuation, toNat_ofNat']
        omega
      · simp only [mem_singleton, forall_eq, IsContinuation, toNat_ofNat']
        omega
    · refine ⟨_, _, [_, _], rfl, ?_, ?_, ?_⟩
      · rw [toNat_ofNat']
        omega
      · rw [IsContinuation, toNat_ofNat']
        omega
      · simp only [mem_cons, not_mem_nil, or_false, forall_eq_or_imp, forall_eq, IsContinuation, toNat_ofNat']
        omega

theorem isCharBoundary_utf8 (s : List Char) : isCharBoundary (utf8 s) = true := by
  cases s with
  | nil => rfl
  | cons c s =>
    rw [utf8_cons]
    rcases Nat.lt_or_ge c.toNat 128 with hlt | hge
    · rw [utf8EncodeChar_ascii hlt]
      simp [isCharBoundary]
      omega
    · obtain ⟨_, _, _, hbytes, _, -⟩ := utf8EncodeChar_wide hge
      rw [hbytes]
      simp [isCharBoundary]
      omega

theorem isCharBoundary_continuation (h : IsContinuation b) (rest : List UInt8) :
    isCharBoundary (b :: rest) = false := by
  obtain ⟨hlow, hhigh⟩ := h
  simp [isCharBoundary, hlow, hhigh]

/-! ## One pair -/

theorem toDigit_ascii (h : c.toNat < 128) : toDigit (UInt8.ofNat c.toNat) = digitValue c := by
  rw [toDigit, toNat_ofNat', Nat.mod_eq_of_lt (by omega), Char.ofNat_toNat]

theorem toDigit_wide (h : 128 ≤ b.toNat) : toDigit b = none := by
  have hb := b.toNat_lt
  have hvalid : b.toNat.isValidChar := Or.inl (by omega)
  have hchar : (Char.ofNat b.toNat).toNat = b.toNat := by
    rw [Char.ofNat, dif_pos hvalid]
    rfl
  rw [toDigit, digitValue, hchar, if_neg (by omega), if_neg (by omega), if_neg (by omega)]

theorem plus_iff (h : c.toNat < 128) : UInt8.ofNat c.toNat = 0x2b ↔ c = '+' := by
  rw [← UInt8.toNat_inj, UInt8.toNat_ofNat', Nat.mod_eq_of_lt (by omega), ← Char.toNat_inj]
  rfl

/-- Two digits, or a plus sign and a digit. -/
def Taken (c d : Char) : Prop := (IsDigit c ∨ c = '+') ∧ IsDigit d

theorem parseDigits_one (hd : d.toNat < 128) : parseDigits 0 [UInt8.ofNat d.toNat] = digitValue d := by
  simp only [parseDigits, toDigit_ascii hd, Nat.zero_mul, Nat.zero_add, Option.bind_eq_bind]
  cases hv : digitValue d with
  | none => rfl
  | some low =>
    have hlt := digitValue_lt hv
    simp only [Option.bind_some]
    rw [guard, if_pos (by omega)]
    rfl

theorem parseDigits_two (hc : c.toNat < 128) (hd : d.toNat < 128) :
    parseDigits 0 [UInt8.ofNat c.toNat, UInt8.ofNat d.toNat] =
    (digitValue c).bind fun high => (digitValue d).map (16 * high + ·) := by
  simp only [parseDigits, toDigit_ascii hc, toDigit_ascii hd, Nat.zero_mul, Nat.zero_add, Option.bind_eq_bind]
  cases hh : digitValue c with
  | none => rfl
  | some high =>
    have hlt := digitValue_lt hh
    cases hl : digitValue d with
    | none =>
      simp only [Option.bind_some, Option.map_none]
      rw [guard, if_pos (by omega)]
      rfl
    | some low =>
      have hlt' := digitValue_lt hl
      simp only [Option.bind_some, Option.map_some]
      rw [guard, if_pos (by omega), guard, if_pos (by omega), Nat.mul_comm high 16]
      rfl

theorem fromStrRadix_pair (hc : c.toNat < 128) (hd : d.toNat < 128) :
    fromStrRadix [UInt8.ofNat c.toNat, UInt8.ofNat d.toNat] =
    if c = '+' then digitValue d else (digitValue c).bind fun high => (digitValue d).map (16 * high + ·) := by
  rw [fromStrRadix, parseDigits_one hd, parseDigits_two hc hd]
  · simp only [plus_iff hc]
  · simp

theorem fromStrRadix_wide {b0 b1 : UInt8} (h : 128 ≤ b0.toNat) : fromStrRadix [b0, b1] = none := by
  have hne : b0 ≠ 0x2b := by
    rintro rfl
    exact absurd h (by decide)
  rw [fromStrRadix, if_neg hne, parseDigits, toDigit_wide h]
  · rfl
  · simp

/-! ## The loop -/

theorem hexDecodeLoop_ascii (hc : c.toNat < 128) (hd : d.toNat < 128) (s : List Char) :
    hexDecodeLoop (utf8 (c :: d :: s)) = match fromStrRadix [UInt8.ofNat c.toNat, UInt8.ofNat d.toNat] with
    | none => .err "Invalid hex character"
    | some byte =>
        match hexDecodeLoop (utf8 s) with
        | .ok bytes => .ok (UInt8.ofNat byte :: bytes)
        | .err message => .err message
        | .panic => .panic := by
  rw [utf8_cons, utf8_cons, utf8EncodeChar_ascii hc, utf8EncodeChar_ascii hd, singleton_append, singleton_append,
    hexDecodeLoop, isCharBoundary_utf8]
  rfl

theorem hexDecodeLoop_cut (hc : c.toNat < 128) (hd : 128 ≤ d.toNat) (s : List Char) :
    hexDecodeLoop (utf8 (c :: d :: s)) = .panic := by
  obtain ⟨_, _, _, hbytes, -, hsecond, -⟩ := utf8EncodeChar_wide hd
  rw [utf8_cons, utf8_cons, utf8EncodeChar_ascii hc, hbytes, singleton_append, cons_append, cons_append,
    hexDecodeLoop, isCharBoundary_continuation hsecond]
  rfl

theorem hexDecodeLoop_wide (hc : 128 ≤ c.toNat) (s : List Char) :
    hexDecodeLoop (utf8 (c :: s)) = if c.utf8Size = 2 then .err "Invalid hex character" else .panic := by
  obtain ⟨first, _, rest, hbytes, _, -, hrest⟩ := utf8EncodeChar_wide hc
  have hsize := String.length_utf8EncodeChar c
  rw [hbytes, length_cons, length_cons] at hsize
  rw [utf8_cons, hbytes, cons_append, cons_append, hexDecodeLoop]
  cases rest with
  | nil =>
    have hb0 : 128 ≤ first.toNat := by omega
    have htwo : c.utf8Size = 2 := hsize.symm
    rw [nil_append, isCharBoundary_utf8, fromStrRadix_wide hb0, if_pos htwo]
    rfl
  | cons b rest =>
    rw [length_cons] at hsize
    have hmore : c.utf8Size ≠ 2 := by omega
    rw [cons_append, isCharBoundary_continuation (hrest b mem_cons_self), if_neg hmore]
    rfl

/-! ## What is refused -/

/-- The first two bytes refused do not cut a character. -/
inductive Refused : List Char → Prop
  | pair {c d : Char} {s : List Char} (hc : c.toNat < 128) (hd : d.toNat < 128) (h : ¬ Taken c d) :
    Refused (c :: d :: s)
  | wide {c : Char} {s : List Char} (h : c.utf8Size = 2) : Refused (c :: s)
  | skip {c d : Char} {s : List Char} (h : Taken c d) (hs : Refused s) : Refused (c :: d :: s)

def IsHex (s : List Char) : Prop := s.length % 2 = 0 ∧ ∀ c ∈ s, IsDigit c

theorem taken_iff (hc : c.toNat < 128) (hd : d.toNat < 128) :
    Taken c d ↔ (fromStrRadix [UInt8.ofNat c.toNat, UInt8.ofNat d.toNat]).isSome = true := by
  rw [fromStrRadix_pair hc hd, Taken]
  unfold IsDigit
  by_cases hplus : c = '+'
  · simp [hplus]
  · cases hh : digitValue c <;> cases hl : digitValue d <;> simp [hplus]

theorem Taken.ascii (h : Taken c d) : c.toNat < 128 ∧ d.toNat < 128 := by
  refine ⟨?_, isDigit_lt h.2⟩
  rcases h.1 with hc | rfl
  · exact isDigit_lt hc
  · decide

theorem utf8Size_ascii (h : c.toNat < 128) : c.utf8Size = 1 := by
  rw [← String.length_utf8EncodeChar, utf8EncodeChar_ascii h]
  rfl

theorem refused_wide_iff (hc : 128 ≤ c.toNat) : Refused (c :: s) ↔ c.utf8Size = 2 := by
  constructor
  · intro h
    cases h with
    | pair hc' => omega
    | wide h => exact h
    | skip h =>
      have := h.ascii.1
      omega
  · exact Refused.wide

theorem refused_ascii_iff (hc : c.toNat < 128) (hd : d.toNat < 128) : Refused (c :: d :: s) ↔
    (Taken c d → Refused s) := by
  constructor
  · intro h htaken
    cases h with
    | pair _ _ hnot => exact absurd htaken hnot
    | wide h =>
      rw [utf8Size_ascii hc] at h
      cases h
    | skip _ hs => exact hs
  · intro h
    by_cases htaken : Taken c d
    · exact Refused.skip htaken (h htaken)
    · exact Refused.pair hc hd htaken

theorem not_refused_cut (hc : c.toNat < 128) (hd : 128 ≤ d.toNat) : ¬ Refused (c :: d :: s) := by
  intro h
  cases h with
  | pair _ hd' => omega
  | wide h =>
    rw [utf8Size_ascii hc] at h
    cases h
  | skip h =>
    have := h.ascii.2
    omega

theorem hexDecodeLoop_err_iff (s : List Char) (heven : (utf8 s).length % 2 = 0) :
    (∃ message, hexDecodeLoop (utf8 s) = .err message) ↔ Refused s := by
  induction s using twoStepInduction with
  | nil =>
    constructor
    · rintro ⟨message, h⟩
      cases h
    · intro h
      cases h
  | singleton c =>
    rcases Nat.lt_or_ge c.toNat 128 with hc | hc
    · rw [utf8_cons, utf8EncodeChar_ascii hc] at heven
      cases heven
    · rw [hexDecodeLoop_wide hc, refused_wide_iff hc]
      split <;> simp_all
  | cons_cons c d s ih _ =>
    rcases Nat.lt_or_ge c.toNat 128 with hc | hc
    · rcases Nat.lt_or_ge d.toNat 128 with hd | hd
      · have heven' : (utf8 s).length % 2 = 0 := by
          rw [utf8_cons, utf8_cons, utf8EncodeChar_ascii hc, utf8EncodeChar_ascii hd] at heven
          simp only [length_append, length_singleton] at heven
          omega
        rw [hexDecodeLoop_ascii hc hd, refused_ascii_iff hc hd, taken_iff hc hd]
        cases fromStrRadix [ofNat c.toNat, ofNat d.toNat] with
        | none => simp
        | some byte =>
          rw [← ih heven']
          cases hexDecodeLoop (utf8 s) <;> simp
      · rw [hexDecodeLoop_cut hc hd]
        simpa using not_refused_cut hc hd
    · rw [hexDecodeLoop_wide hc, refused_wide_iff hc]
      split <;> simp_all

theorem hexDecodeLoop_hex (s : List Char) (h : IsHex s) :
    ∃ bytes, hexDecodeLoop (utf8 s) = .ok bytes ∧ Hex.encode bytes = s.map Char.toLower := by
  induction s using twoStepInduction with
  | nil => exact ⟨[], rfl, rfl⟩
  | singleton c => cases h.1
  | cons_cons c d s ih _ =>
    obtain ⟨heven, hdigits⟩ := h
    rw [forall_mem_cons, forall_mem_cons] at hdigits
    obtain ⟨hc, hd, hs⟩ := hdigits
    have heven' : s.length % 2 = 0 := by
      simp only [length_cons] at heven
      omega
    obtain ⟨bytes, hloop, hencode⟩ := ih ⟨heven', hs⟩
    obtain ⟨high, hhigh⟩ := Option.isSome_iff_exists.mp hc
    obtain ⟨low, hlow⟩ := Option.isSome_iff_exists.mp hd
    have hplus : c ≠ '+' := by
      rintro rfl
      cases hc
    have hlt := digitValue_lt hhigh
    have hlt' := digitValue_lt hlow
    have hbyte : (ofNat (16 * high + low)).toNat = 16 * high + low := by
      rw [toNat_ofNat']
      omega
    refine ⟨ofNat (16 * high + low) :: bytes, ?_, ?_⟩
    · rw [hexDecodeLoop_ascii (isDigit_lt hc) (isDigit_lt hd), fromStrRadix_pair (isDigit_lt hc) (isDigit_lt hd),
        if_neg hplus, hhigh, hlow, hloop]
      rfl
    · have hdiv : (16 * high + low) / 16 = high := by omega
      have hmod : (16 * high + low) % 16 = low := by omega
      rw [encode_cons, hencode, hbyte, hdiv, hmod, digitChar_of_digitValue hhigh, digitChar_of_digitValue hlow]
      rfl

/-! ## The decoder -/

def DecodesHexOnly (s : String) : Prop :=
  (IsHex s.toList → ∃ bytes, hexDecode s = .ok bytes ∧ (hexEncode bytes).toList = s.toList.map Char.toLower) ∧
    (¬ IsHex s.toList → ∃ message, hexDecode s = .err message)

theorem utf8_length_of_digits (h : ∀ c ∈ s, IsDigit c) : (utf8 s).length = s.length := by
  induction s with
  | nil => rfl
  | cons c s ih =>
    rw [forall_mem_cons] at h
    rw [utf8_cons, length_append, utf8EncodeChar_ascii (isDigit_lt h.1), ih h.2, length_singleton, length_cons,
      Nat.add_comm]

/-- Right at odd length, on digits, and where the first other pair, but for a plus and a digit, cuts no character. -/
theorem hexDecode_exact_iff (s : String) :
    (DecodesHexOnly s ↔ (utf8 s.toList).length % 2 = 1 ∨ (∀ c ∈ s.toList, IsDigit c) ∨ Refused s.toList) ∧
      ∀ data : List UInt8, hexDecode (hexEncode data) = .ok data := by
  constructor
  · have hlength : IsHex s.toList → (utf8 s.toList).length % 2 = 0 := by
      intro h
      rw [utf8_length_of_digits h.2]
      exact h.1
    by_cases heven : (utf8 s.toList).length % 2 = 0
    · have hloop : hexDecode s = hexDecodeLoop (utf8 s.toList) := if_neg (not_not.mpr heven)
      have hodd : ¬ (utf8 s.toList).length % 2 = 1 := by omega
      by_cases hdigits : ∀ c ∈ s.toList, IsDigit c
      · have hhex : IsHex s.toList := ⟨by rwa [← utf8_length_of_digits hdigits], hdigits⟩
        obtain ⟨bytes, hok, hencode⟩ := hexDecodeLoop_hex _ hhex
        refine ⟨fun _ => Or.inr (Or.inl hdigits), fun _ => ⟨fun _ => ⟨bytes, by rw [hloop, hok], ?_⟩, absurd hhex⟩⟩
        rw [hexEncode, String.toList_ofList, hencode]
      · have hnot : ¬ IsHex s.toList := fun h => hdigits h.2
        rw [DecodesHexOnly, hloop, hexDecodeLoop_err_iff _ heven]
        simp only [hnot, hodd, hdigits, false_or, false_implies, true_and, not_false_iff, true_implies]
    · have herr : hexDecode s = .err "Hex string must have even length" := if_pos heven
      refine ⟨fun _ => Or.inl (by omega), fun _ => ⟨fun h => absurd (hlength h) heven, fun _ => ⟨_, herr⟩⟩⟩
  · intro data
    have hdigits : ∀ c ∈ (hexEncode data).toList, IsDigit c := by
      rw [hexEncode, String.toList_ofList]
      exact fun c hc => (digit_of_mem_encode hc).1
    have hhex : IsHex (hexEncode data).toList := by
      refine ⟨?_, hdigits⟩
      rw [hexEncode, String.toList_ofList, length_encode]
      omega
    have heven : (utf8 (hexEncode data).toList).length % 2 = 0 := by
      rw [utf8_length_of_digits hdigits]
      exact hhex.1
    obtain ⟨bytes, hok, hencode⟩ := hexDecodeLoop_hex _ hhex
    have hsame : (Hex.encode data).map Char.toLower = Hex.encode data := by
      conv_rhs => rw [← map_id (Hex.encode data)]
      exact map_congr_left fun c hc => (digit_of_mem_encode hc).2
    rw [hexEncode, String.toList_ofList, hsame] at hencode
    rw [hexDecode, if_neg (not_not.mpr heven), hok, encode_injective hencode]

/-- A plus sign is a zero, and a cut character panics. -/
theorem hexDecode_plus : ¬ DecodesHexOnly "+f" ∧ hexDecode "aéb" = .panic := by
  refine ⟨fun h => ?_, by decide⟩
  have hnot : ¬ IsHex "+f".toList := fun hhex => absurd (hhex.2 '+' (by decide)) (by decide)
  obtain ⟨_, herr⟩ := h.2 hnot
  have hok : hexDecode "+f" = .ok [15] := by decide
  rw [hok] at herr
  cases herr

end FullNode.Wallet

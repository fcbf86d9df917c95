import Mathlib.Tactic.IntervalCases

/-!
# Hexadecimal

Bytes as pairs of digits, written in lower case and read in either case.
-/

namespace FullNode.Hex

open List

def digitValue (c : Char) : Option Nat :=
  if 48 ≤ c.toNat ∧ c.toNat ≤ 57 then some (c.toNat - 48)
  else if 97 ≤ c.toNat ∧ c.toNat ≤ 102 then some (c.toNat - 87)
  else if 65 ≤ c.toNat ∧ c.toNat ≤ 70 then some (c.toNat - 55)
  else none

def IsDigit (c : Char) : Prop := (digitValue c).isSome = true

instance (c : Char) : Decidable (IsDigit c) := inferInstanceAs (Decidable (_ = true))

def byteChars (b : UInt8) : List Char := [Nat.digitChar (b.toNat / 16), Nat.digitChar (b.toNat % 16)]

def encode (bytes : List UInt8) : List Char := bytes.flatMap byteChars

def decode : List Char → Option (List UInt8)
  | [] => some []
  | [_] => none
  | c :: d :: rest => do
    let high ← digitValue c
    let low ← digitValue d
    let bytes ← decode rest
    return UInt8.ofNat (16 * high + low) :: bytes

/-! ## Digits -/

variable {c : Char} {n : Nat} {bytes : List UInt8}

theorem digitValue_lt (h : digitValue c = some n) : n < 16 := by
  unfold digitValue at h
  split at h
  · cases h
    omega
  · split at h
    · cases h
      omega
    · split at h
      · cases h
        omega
      · cases h

theorem digitValue_digitChar (h : n < 16) : digitValue (Nat.digitChar n) = some n := by
  interval_cases n <;> rfl

theorem isDigit_lt (h : IsDigit c) : c.toNat < 128 := by
  unfold IsDigit digitValue at h
  by_contra hge
  rw [if_neg (by omega), if_neg (by omega), if_neg (by omega)] at h
  cases h

theorem digitChar_of_digitValue (h : digitValue c = some n) : Nat.digitChar n = c.toLower := by
  have hall : ∀ m < 128, (digitValue (Char.ofNat m)).all (fun n => Nat.digitChar n == (Char.ofNat m).toLower) =
      true := by
    decide
  have hlower := hall c.toNat (isDigit_lt (by rw [IsDigit, h]; rfl))
  rw [Char.ofNat_toNat, h, Option.all_some] at hlower
  exact beq_iff_eq.mp hlower

/-! ## Bytes -/

theorem encode_cons (b : UInt8) (bytes : List UInt8) :
    encode (b :: bytes) = Nat.digitChar (b.toNat / 16) :: Nat.digitChar (b.toNat % 16) :: encode bytes := rfl

theorem length_encode (bytes : List UInt8) : (encode bytes).length = 2 * bytes.length := by
  induction bytes with
  | nil => rfl
  | cons b bytes ih =>
    rw [encode_cons, length_cons, length_cons, ih, length_cons]
    omega

theorem ofNat_halves (b : UInt8) : UInt8.ofNat (16 * (b.toNat / 16) + b.toNat % 16) = b := by
  rw [Nat.div_add_mod]
  exact UInt8.ofNat_toNat

theorem decode_encode (bytes : List UInt8) : decode (encode bytes) = some bytes := by
  induction bytes with
  | nil => rfl
  | cons b bytes ih =>
    have hb := b.toNat_lt
    rw [encode_cons, decode, digitValue_digitChar (by omega), digitValue_digitChar (by omega), ih]
    simp only [Option.bind_eq_bind, Option.bind_some, ofNat_halves]
    rfl

theorem encode_injective {bytes' : List UInt8} (h : encode bytes = encode bytes') : bytes = bytes' := by
  have hdecode := decode_encode bytes
  rw [h, decode_encode] at hdecode
  exact (Option.some.inj hdecode).symm

theorem digit_of_mem_encode (h : c ∈ encode bytes) : IsDigit c ∧ c.toLower = c := by
  have hdigit (n : Nat) (hn : n < 16) : IsDigit (Nat.digitChar n) ∧ (Nat.digitChar n).toLower = Nat.digitChar n := by
    have hvalue := digitValue_digitChar hn
    exact ⟨by rw [IsDigit, hvalue]; rfl, (digitChar_of_digitValue hvalue).symm⟩
  obtain ⟨b, -, hc⟩ := mem_flatMap.mp h
  have hb := b.toNat_lt
  simp only [byteChars, mem_cons, not_mem_nil, or_false] at hc
  rcases hc with rfl | rfl
  · exact hdigit _ (by omega)
  · exact hdigit _ (by omega)

end FullNode.Hex

import FullNode.Wire
import Mathlib.Data.Nat.Bitwise

/-!
# Numbers of variable length

`WriteVarInt` and `ReadVarInt`. A digit that another one follows counts one more than its bits say.
-/

namespace FullNode.Wire

open List Nat

/-! ## The code -/

def getSizeOfVarInt (n : Nat) : Nat := if n ≤ 0x7F then 1 else getSizeOfVarInt ((n >>> 7) - 1) + 1
termination_by n
decreasing_by
  rw [Nat.shiftRight_eq_div_pow]
  omega

def continued (len : Nat) : Nat := if len = 0 then 0x00 else 0x80

/-- `tmp` from the position `len` on. -/
def varIntTmp (len n : Nat) : List UInt8 :=
  UInt8.ofNat ((n &&& 0x7F) ||| continued len) ::
    if n ≤ 0x7F then [] else varIntTmp (len + 1) ((n >>> 7) - 1)
termination_by n
decreasing_by
  rw [Nat.shiftRight_eq_div_pow]
  omega

def writeVarInt (n : Nat) : List UInt8 := (varIntTmp 0 n).reverse

def sizeTooLarge : Failure := "ReadVarInt(): size too large"

def readVarIntLoop (w n : Nat) : List UInt8 → Except Failure (Nat × List UInt8)
  | [] => .error endOfData
  | chData :: is =>
    if n > (2 ^ w - 1) >>> 7 then .error sizeTooLarge
    else
      let n := (n <<< 7) ||| (chData.toNat &&& 0x7F)
      if chData.toNat &&& 0x80 ≠ 0 then
        if n = 2 ^ w - 1 then .error sizeTooLarge else readVarIntLoop w (n + 1) is
      else .ok (n, is)

/-- `ReadVarInt` for an unsigned type of `w` bits. -/
def readVarInt (w : Nat) : Stream Nat := readVarIntLoop w 0

/-! ## What the digits denote -/

/-- The number read behind `n`, however large, and the rest. -/
def denoted (n : Nat) : List UInt8 → Option (Nat × List UInt8)
  | [] => none
  | b :: bytes => if b.toNat < 128 then some (128 * n + b.toNat, bytes)
    else denoted (128 * n + (b.toNat - 128) + 1) bytes

/-- The bytes behind which a reader has the number `n`. -/
def varIntPrefix : Nat → List UInt8
  | 0 => []
  | n + 1 => (varIntTmp 1 n).reverse

variable {w n c v len : Nat} {b : UInt8} {bytes rest : List UInt8} {r : Nat × List UInt8}

theorem varIntTmp_succ (len n : Nat) : varIntTmp (len + 1) n = varIntTmp 1 n := by
  induction n using Nat.strongRecOn generalizing len with
  | ind n ih =>
    unfold varIntTmp
    rw [show continued (len + 1) = continued 1 from rfl]
    split
    · rfl
    · have hless : (n >>> 7) - 1 < n := by
        rw [Nat.shiftRight_eq_div_pow]
        omega
      rw [ih _ hless, ih _ hless 1]

theorem varIntTmp_digit (hc : c < 128) (len n : Nat) :
    varIntTmp len (128 * n + c) = UInt8.ofNat (c + continued len) :: (varIntPrefix n).reverse := by
  have hlow : (128 * n + c) &&& 0x7F = c := by
    rw [Nat.and_two_pow_sub_one_eq_mod (128 * n + c) 7]
    omega
  have hmark : c ||| continued len = c + continued len := by
    unfold continued
    split
    · exact Nat.or_zero c
    · rw [Nat.add_comm, Nat.or_comm]
      exact (Nat.two_pow_add_eq_or_of_lt (i := 7) hc 1).symm
  rw [varIntTmp, hlow, hmark]
  cases n with
  | zero => rw [if_pos (by omega)]; rfl
  | succ n =>
    have hnext : ((128 * (n + 1) + c) >>> 7) - 1 = n := by
      rw [Nat.shiftRight_eq_div_pow]
      omega
    rw [if_neg (by omega), hnext, varIntTmp_succ, varIntPrefix, reverse_reverse]

theorem writeVarInt_digit (hc : c < 128) (n : Nat) : writeVarInt (128 * n + c) = varIntPrefix n ++ [UInt8.ofNat c] := by
  rw [writeVarInt, varIntTmp_digit hc, reverse_cons, reverse_reverse]
  rfl

theorem varIntPrefix_digit (hc : c < 128) (n : Nat) :
    varIntPrefix (128 * n + c + 1) = varIntPrefix n ++ [UInt8.ofNat (c + 128)] := by
  rw [varIntPrefix, varIntTmp_digit hc, reverse_cons, reverse_reverse]
  rfl

theorem denoted_prefix (n : Nat) (bytes : List UInt8) : denoted 0 (varIntPrefix n ++ bytes) = denoted n bytes := by
  induction n using Nat.strongRecOn generalizing bytes with
  | ind n ih =>
    cases n with
    | zero => rfl
    | succ k =>
      have hsplit : k = 128 * (k / 128) + k % 128 := by omega
      have hc : k % 128 < 128 := Nat.mod_lt _ (by omega)
      have hdigit : (UInt8.ofNat (k % 128 + 128)).toNat = k % 128 + 128 := by
        rw [UInt8.toNat_ofNat']
        omega
      rw [hsplit, varIntPrefix_digit hc, append_assoc, singleton_append, ih _ (by omega), denoted, hdigit,
        if_neg (by omega), Nat.add_sub_cancel]

theorem denoted_write (n : Nat) (rest : List UInt8) : denoted 0 (writeVarInt n ++ rest) = some (n, rest) := by
  have hsplit : n = 128 * (n / 128) + n % 128 := by omega
  have hc : n % 128 < 128 := mod_lt _ (by omega)
  have hdigit : (UInt8.ofNat (n % 128)).toNat = n % 128 := by
    rw [UInt8.toNat_ofNat']
    omega
  rw [hsplit, writeVarInt_digit hc, append_assoc, singleton_append, denoted_prefix, denoted, hdigit, if_pos hc]

theorem write_of_denoted (h : denoted n bytes = some (v, rest)) : varIntPrefix n ++ bytes = writeVarInt v ++ rest := by
  induction bytes generalizing n with
  | nil => cases h
  | cons b bytes ih =>
    unfold denoted at h
    have hb := b.toNat_lt
    split at h
    · next hlast =>
      cases h
      rw [writeVarInt_digit hlast, UInt8.ofNat_toNat, append_assoc, singleton_append]
    · next hmore =>
      have hrest := ih h
      rw [varIntPrefix_digit (by omega), Nat.sub_add_cancel (by omega), UInt8.ofNat_toNat, append_assoc] at hrest
      exact hrest

theorem le_denoted (h : denoted n bytes = some r) : 128 * n ≤ r.1 := by
  induction bytes generalizing n with
  | nil => cases h
  | cons b bytes ih =>
    unfold denoted at h
    split at h
    · cases h
      exact le_add_right _ _
    · have hrest := ih h
      omega

/-! ## Reading -/

/-- A round of the loop. -/
theorem readVarIntLoop_cons (w n : Nat) (b : UInt8) (bytes : List UInt8) : readVarIntLoop w n (b :: bytes) =
    if (2 ^ w - 1) / 128 < n then .error sizeTooLarge
    else if b.toNat < 128 then .ok (128 * n + b.toNat, bytes)
    else if 128 * n + (b.toNat - 128) = 2 ^ w - 1 then .error sizeTooLarge
    else readVarIntLoop w (128 * n + (b.toNat - 128) + 1) bytes := by
  have hb := b.toNat_lt
  have hlow : b.toNat &&& 0x7F = b.toNat % 128 := and_two_pow_sub_one_eq_mod b.toNat 7
  have hshift : (n <<< 7) ||| (b.toNat % 128) = 128 * n + b.toNat % 128 := by
    rw [shiftLeft_eq, mul_comm]
    exact (two_pow_add_eq_or_of_lt (i := 7) (mod_lt _ (by omega)) n).symm
  have hmark : b.toNat &&& 0x80 ≠ 0 ↔ ¬b.toNat < 128 := by
    have hbit := and_two_pow b.toNat 7
    rw [testBit_eq_decide_div_mod_eq] at hbit
    rw [show (0x80 : Nat) = 2 ^ 7 from rfl, hbit]
    by_cases hlt : b.toNat < 128
    · rw [decide_eq_false (by omega)]
      simp [hlt]
    · rw [decide_eq_true (by omega)]
      simp [hlt]
  rw [readVarIntLoop]
  simp only [shiftRight_eq_div_pow, hlow, hshift, hmark, ite_not, gt_iff_lt, reducePow]
  split
  · rfl
  · split
    · next hlt => rw [mod_eq_of_lt hlt]
    · rw [show b.toNat % 128 = b.toNat - 128 by omega]

theorem readVarIntLoop_spec (hw : 7 ≤ w) :
    (∀ r, readVarIntLoop w n bytes = .ok r ↔ denoted n bytes = some r ∧ r.1 < 2 ^ w) ∧
    ∀ r, denoted n bytes = some r → 2 ^ w ≤ r.1 → readVarIntLoop w n bytes = .error sizeTooLarge := by
  have hmax : 2 ^ w = 128 * 2 ^ (w - 7) := by rw [← Nat.pow_add 2 7, Nat.add_sub_cancel' hw]
  have hpos := Nat.two_pow_pos (w - 7)
  induction bytes generalizing n with
  | nil => exact ⟨fun r => ⟨nofun, nofun⟩, nofun⟩
  | cons b bytes ih =>
    rw [readVarIntLoop_cons]
    split
    · -- whatever follows, the number is too large
      next hlarge =>
      refine ⟨fun r => ⟨nofun, ?_⟩, fun _ _ _ => rfl⟩
      rintro ⟨hr, hlt⟩
      have hle := le_denoted hr
      omega
    · next hfits =>
      unfold denoted
      split
      · refine ⟨fun r => ⟨?_, ?_⟩, ?_⟩
        · rintro h
          cases h
          exact ⟨rfl, by dsimp only; omega⟩
        · rintro ⟨h, -⟩
          cases h
          rfl
        · rintro r h hle
          cases h
          dsimp only at hle
          omega
      · split
        · next hend =>
          refine ⟨fun r => ⟨nofun, ?_⟩, fun _ _ _ => rfl⟩
          rintro ⟨hr, hlt⟩
          have hle := le_denoted hr
          omega
        · exact ih

theorem length_varIntTmp (len n : Nat) : (varIntTmp len n).length = getSizeOfVarInt n := by
  induction n using Nat.strongRecOn generalizing len with
  | ind n ih =>
    unfold varIntTmp getSizeOfVarInt
    split
    · rfl
    · rw [length_cons, ih _ (by rw [Nat.shiftRight_eq_div_pow]; omega)]

theorem getSizeOfVarInt_le (hw : 0 < w) (hn : n < 2 ^ w) : getSizeOfVarInt n ≤ (w + 6) / 7 := by
  induction n using Nat.strongRecOn generalizing w with
  | ind n ih =>
    unfold getSizeOfVarInt
    split
    · omega
    · next hlarge =>
      have hw' : 7 < w := by
        by_contra hle
        have hpow := Nat.pow_le_pow_right (n := 2) (by omega) (not_lt.mp hle)
        omega
      have hmax : 2 ^ w = 128 * 2 ^ (w - 7) := by rw [← Nat.pow_add 2 7, Nat.add_sub_cancel' hw'.le]
      rw [Nat.shiftRight_eq_div_pow]
      have hrest := ih (n / 2 ^ 7 - 1) (by omega) (w := w - 7) (by omega) (by omega)
      omega

/-- Numbers below `2 ^ w` and the bytes read correspond. -/
theorem varInt_bijective (hw : 7 ≤ w) :
    (∀ n < 2 ^ w, ∀ rest, (readVarInt w).run (writeVarInt n ++ rest) = .ok (n, rest) ∧
      (writeVarInt n).length = getSizeOfVarInt n ∧ getSizeOfVarInt n ≤ (w + 6) / 7) ∧
    (∀ bytes n rest, (readVarInt w).run bytes = .ok (n, rest) → n < 2 ^ w ∧ bytes = writeVarInt n ++ rest) ∧
    ∀ bytes n rest, denoted 0 bytes = some (n, rest) → 2 ^ w ≤ n → (readVarInt w).run bytes = .error sizeTooLarge := by
  refine ⟨fun n hn rest => ⟨?_, ?_, getSizeOfVarInt_le (by omega) hn⟩, fun bytes n rest hrun => ?_,
    fun bytes n rest => ?_⟩
  · exact ((readVarIntLoop_spec hw).1 _).mpr ⟨denoted_write n rest, hn⟩
  · rw [writeVarInt, length_reverse, length_varIntTmp]
  · obtain ⟨hdenoted, hn⟩ := ((readVarIntLoop_spec hw).1 _).mp hrun
    exact ⟨hn, write_of_denoted hdenoted⟩
  · exact (readVarIntLoop_spec hw).2 (n, rest)

theorem varInt_bijective_64 :
    (∀ n < 2 ^ 64, ∀ rest, (readVarInt 64).run (writeVarInt n ++ rest) = .ok (n, rest) ∧
      (writeVarInt n).length = getSizeOfVarInt n ∧ getSizeOfVarInt n ≤ (64 + 6) / 7) ∧
    (∀ bytes n rest, (readVarInt 64).run bytes = .ok (n, rest) → n < 2 ^ 64 ∧ bytes = writeVarInt n ++ rest) ∧
    ∀ bytes n rest, denoted 0 bytes = some (n, rest) → 2 ^ 64 ≤ n → (readVarInt 64).run bytes = .error sizeTooLarge :=
  varInt_bijective (by decide)

end FullNode.Wire

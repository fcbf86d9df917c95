import FullNode.BitStream

/-! # Golomb-Rice codes -/

namespace FullNode.GolombRice

open Bits BitStream List

/-! ## The code -/

def writeQuotient (writer : BitStreamWriter) (q : Nat) : Checked BitStreamWriter :=
  if q = 0 then .ok writer
  else do
    let nbits := if q ≤ 64 then q else 64
    let writer ← writer.write (BitVec.allOnes 64) nbits
    writeQuotient writer (q - nbits)
termination_by q
decreasing_by split <;> omega

def golombRiceEncode (writer : BitStreamWriter) (P : Nat) (x : Uint64) : Checked BitStreamWriter :=
  if P ≥ 64 then .error .badShift
  else do
    let writer ← writeQuotient writer (x >>> P).toNat
    let writer ← writer.write 0 1
    writer.write x P

def readQuotient (reader : BitStreamReader) (q : Uint64) : Checked (Uint64 × BitStreamReader) :=
  match h : reader.read 1 with
  | .error e => .error e
  | .ok (bit, reader') => if bit = 1 then readQuotient reader' (q + 1) else .ok (q, reader')
termination_by reader.bits.length
decreasing_by exact BitStreamReader.read_one_length h

def golombRiceDecode (reader : BitStreamReader) (P : Nat) : Checked (Uint64 × BitStreamReader) := do
  let (q, reader) ← readQuotient reader 0
  let (r, reader) ← reader.read P
  if P ≥ 64 then .error .badShift else .ok (q <<< P + r, reader)

/-! ## Round trip -/

variable {writer : BitStreamWriter} {reader : BitStreamReader} {P q : Nat} {x : Uint64} {tail : List Bool}

def codeBits (P : Nat) (x : Uint64) : List Bool := List.replicate (x >>> P).toNat true ++ false :: lastBits x P

theorem writeQuotient_spec (hclean : writer.Clean) (q : Nat) :
    ∃ writer', writeQuotient writer q = .ok writer' ∧ writer'.Clean ∧
      writer'.bits = writer.bits ++ replicate q true := by
  induction q using Nat.strong_induction_on generalizing writer with
  | _ q ih =>
    unfold writeQuotient
    split
    · next hzero =>
      subst hzero
      exact ⟨writer, rfl, hclean, (append_nil _).symm⟩
    · next hpos =>
      dsimp only
      have hround : (if q ≤ 64 then q else 64) ≤ 64 ∧ (if q ≤ 64 then q else 64) ≤ q ∧
          0 < if q ≤ 64 then q else 64 := by
        split <;> omega
      generalize (if q ≤ 64 then q else 64) = nbits at hround ⊢
      obtain ⟨_, hwrite, hclean1, hbits1⟩ := BitStreamWriter.write_spec (BitVec.allOnes 64) hclean hround.1
      obtain ⟨writer2, hrest, hclean2, hbits2⟩ := ih (q - nbits) (by omega) hclean1
      refine ⟨writer2, by rw [hwrite, ok_bind, hrest], hclean2, ?_⟩
      rw [hbits2, hbits1, lastBits_ones nbits hround.1, append_assoc, replicate_append_replicate,
        show nbits + (q - nbits) = q by omega]

theorem golombRiceEncode_spec (hclean : writer.Clean) (hP : P < 64) (x : Uint64) :
    ∃ writer', golombRiceEncode writer P x = .ok writer' ∧ writer'.Clean ∧
      writer'.bits = writer.bits ++ codeBits P x := by
  obtain ⟨_, hquotient, hclean1, hbits1⟩ := writeQuotient_spec hclean (x >>> P).toNat
  obtain ⟨_, hzero, hclean2, hbits2⟩ := BitStreamWriter.write_spec 0 hclean1 (show 1 ≤ 64 by decide)
  obtain ⟨writer3, hremainder, hclean3, hbits3⟩ := BitStreamWriter.write_spec x hclean2 (show P ≤ 64 by omega)
  refine ⟨writer3, ?_, hclean3, ?_⟩
  · unfold golombRiceEncode
    rw [if_neg (by omega), hquotient, ok_bind, hzero, ok_bind, hremainder]
  · have hbit : lastBits (0 : Uint64) 1 = [false] := rfl
    rw [hbits3, hbits2, hbits1, hbit, append_assoc, append_assoc]
    rfl

theorem read_bit {bit : Bool} (h : reader.bits = bit :: tail) :
    ∃ reader', reader.read 1 = .ok (if bit then 1 else 0, reader') ∧ reader'.bits = tail := by
  obtain ⟨reader', hread, hrest⟩ := BitStreamReader.read_spec reader (show 1 ≤ 64 by decide) (by rw [h]; simp)
  rw [h] at hread hrest
  refine ⟨reader', ?_, hrest⟩
  rw [hread]
  cases bit <;> rfl

theorem readQuotient_spec (n : Nat) (q : Uint64) (h : reader.bits = replicate n true ++ false :: tail) :
    ∃ reader', readQuotient reader q = .ok (q + BitVec.ofNat 64 n, reader') ∧ reader'.bits = tail := by
  induction n generalizing reader q with
  | zero =>
    obtain ⟨reader', hread, hrest⟩ := read_bit h
    refine ⟨reader', ?_, hrest⟩
    unfold readQuotient
    split
    · next e herror =>
      rw [hread] at herror
      cases herror
    · next bit reader'' hok =>
      rw [hread] at hok
      cases hok
      rw [if_neg (by decide), BitVec.add_zero]
  | succ n ih =>
    obtain ⟨reader', hread, hrest⟩ := read_bit h
    obtain ⟨reader'', hagain, htail⟩ := ih (q + 1) hrest
    refine ⟨reader'', ?_, htail⟩
    unfold readQuotient
    split
    · next e herror =>
      rw [hread] at herror
      cases herror
    · next bit reader1 hok =>
      rw [hread] at hok
      cases hok
      have hsum : q + 1 + BitVec.ofNat 64 n = q + BitVec.ofNat 64 (n + 1) := by
        rw [BitVec.ofNat_add, BitVec.add_assoc]
        congr 1
        exact BitVec.add_comm _ _
      rw [if_pos rfl, hagain]
      exact congrArg (fun q => Except.ok (q, reader'')) hsum

theorem quotient_remainder (x : Uint64) (P : Nat) : (x >>> P) <<< P + shiftIn 0 (lastBits x P) = x := by
  apply BitVec.eq_of_toNat_eq
  have hlt := x.isLt
  have hle : x.toNat / 2 ^ P * 2 ^ P ≤ x.toNat := Nat.div_mul_le_self _ _
  rw [BitVec.toNat_add, BitVec.toNat_shiftLeft, BitVec.toNat_ushiftRight, toNat_shiftIn_zero, Nat.shiftRight_eq_div_pow,
    Nat.shiftLeft_eq, Nat.mod_eq_of_lt (show x.toNat / 2 ^ P * 2 ^ P < 2 ^ 64 by omega), Nat.div_add_mod',
      Nat.mod_eq_of_lt hlt]

theorem golombRiceDecode_spec (hP : P < 64) (h : reader.bits = codeBits P x ++ tail) :
    ∃ reader', golombRiceDecode reader P = .ok (x, reader') ∧ reader'.bits = tail := by
  unfold codeBits at h
  rw [append_assoc, cons_append] at h
  obtain ⟨reader1, hquotient, hbits1⟩ := readQuotient_spec (x >>> P).toNat 0 h
  obtain ⟨reader2, hremainder, hbits2⟩ :=
      BitStreamReader.read_spec reader1 (show P ≤ 64 by omega) (by rw [hbits1]; simp)
  rw [hbits1, take_left' (length_lastBits _ _)] at hremainder
  rw [hbits1, drop_left' (length_lastBits _ _)] at hbits2
  refine ⟨reader2, ?_, hbits2⟩
  unfold golombRiceDecode
  rw [hquotient, ok_bind]
  dsimp only
  rw [hremainder, ok_bind]
  have hzero : (0 : Uint64) + BitVec.ofNat 64 (x >>> P).toNat = x >>> P := by
    rw [BitVec.ofNat_toNat, BitVec.setWidth_eq]
    exact BitVec.zero_add _
  rw [if_neg (by omega), hzero, quotient_remainder]

end FullNode.GolombRice

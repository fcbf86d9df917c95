import FullNode.Basic
import FullNode.Lib.Bits

/-! # Bit streams and Golomb-Rice codes -/

namespace FullNode.BitStream

open Bits List

/-! ## The writer -/

/-- The bytes out, and the one being filled from the highest bit. -/
structure BitStreamWriter where
  ostream : List UInt8
  buffer : BitVec 8
  offset : Fin 8
  deriving DecidableEq

def BitStreamWriter.new (ostream : List UInt8) : BitStreamWriter := ⟨ostream, 0, 0⟩

def BitStreamWriter.flush (writer : BitStreamWriter) : BitStreamWriter :=
  if writer.offset = 0 then writer else ⟨writer.ostream ++ [⟨writer.buffer⟩], 0, 0⟩

/-- One round of `Write`, of `bits` bits. A full byte goes out. -/
def BitStreamWriter.fill (writer : BitStreamWriter) (data : Uint64) (nbits bits : Nat) : BitStreamWriter :=
  let buffer := writer.buffer ||| ((data <<< (64 - nbits)) >>> (64 - 8 + writer.offset.val)).setWidth 8
  if h : writer.offset.val + bits < 8 then ⟨writer.ostream, buffer, ⟨writer.offset.val + bits, h⟩⟩
  else ⟨writer.ostream ++ [⟨buffer⟩], 0, 0⟩

def BitStreamWriter.writeLoop (writer : BitStreamWriter) (data : Uint64) (nbits : Nat) : BitStreamWriter :=
  if nbits = 0 then writer
  else
    let bits := min (8 - writer.offset.val) nbits
    (writer.fill data nbits bits).writeLoop data (nbits - bits)
termination_by nbits

def nbitsOutOfRange : Fault := .logicError "nbits must be between 0 and 64"

def BitStreamWriter.write (writer : BitStreamWriter) (data : Uint64) (nbits : Nat) : Checked BitStreamWriter :=
  if nbits > 64 then .error nbitsOutOfRange else .ok (writer.writeLoop data nbits)

/-! ## The reader -/

/-- The rest of the stream, and a byte with `offset` bits read. -/
structure BitStreamReader where
  istream : List UInt8
  buffer : BitVec 8
  offset : Fin 9
  deriving DecidableEq

def BitStreamReader.new (istream : List UInt8) : BitStreamReader := ⟨istream, 0, 8⟩

def endOfData : Fault := .runtimeError "SpanReader::read(): end of data"

def BitStreamReader.current (reader : BitStreamReader) : Checked (List UInt8 × BitVec 8 × Fin 8) :=
  if h : reader.offset.val < 8 then .ok (reader.istream, reader.buffer, ⟨reader.offset.val, h⟩)
  else
    match reader.istream with
    | [] => .error endOfData
    | byte :: istream => .ok (istream, byte.toBitVec, 0)

def BitStreamReader.readLoop (reader : BitStreamReader) (data : Uint64)
    (nbits : Nat) : Checked (Uint64 × BitStreamReader) :=
  if nbits = 0 then .ok (data, reader)
  else do
    let (istream, buffer, offset) ← reader.current
    let bits := min (8 - offset.val) nbits
    BitStreamReader.readLoop ⟨istream, buffer, ⟨offset.val + bits, by omega⟩⟩
      (data <<< bits ||| ((buffer <<< offset.val) >>> (8 - bits)).setWidth 64) (nbits - bits)
termination_by nbits

def BitStreamReader.read (reader : BitStreamReader) (nbits : Nat) : Checked (Uint64 × BitStreamReader) :=
  if nbits > 64 then .error nbitsOutOfRange else reader.readLoop 0 nbits

/-! ## The bits of a stream -/

def byteBits (bytes : List UInt8) : List Bool := bytes.flatMap fun byte => lastBits byte.toBitVec 8

@[simp] theorem byteBits_nil : byteBits [] = [] := rfl

theorem byteBits_cons (byte : UInt8) (bytes : List UInt8) :
    byteBits (byte :: bytes) = lastBits byte.toBitVec 8 ++ byteBits bytes :=
  flatMap_cons

theorem byteBits_append (bytes bytes' : List UInt8) : byteBits (bytes ++ bytes') = byteBits bytes ++ byteBits bytes' :=
  flatMap_append

theorem length_byteBits (bytes : List UInt8) : (byteBits bytes).length = 8 * bytes.length := by
  induction bytes with
  | nil => rfl
  | cons byte bytes ih =>
    rw [byteBits_cons, length_append, length_lastBits, ih, length_cons]
    omega

theorem byteBits_prefix {bytes bytes' : List UInt8} {bits : List Bool} (h : byteBits bytes = byteBits bytes' ++ bits) :
    ∃ more, bytes = bytes' ++ more ∧ byteBits more = bits := by
  induction bytes' generalizing bytes with
  | nil => exact ⟨bytes, rfl, h⟩
  | cons byte' bytes' ih =>
    cases bytes with
    | nil =>
      have hlength := congrArg length h
      rw [length_append, length_byteBits, length_byteBits, length_nil, length_cons] at hlength
      omega
    | cons byte bytes =>
      rw [byteBits_cons, byteBits_cons, append_assoc] at h
      obtain ⟨hfirst, hrest⟩ := append_inj h (by rw [length_lastBits, length_lastBits])
      obtain ⟨more, rfl, hmore⟩ := ih hrest
      rw [UInt8.toBitVec_inj.mp (lastBits_inj hfirst)]
      exact ⟨more, rfl, hmore⟩

namespace BitStreamWriter

variable {writer : BitStreamWriter} {nbits taken : Nat}

def bits (writer : BitStreamWriter) : List Bool :=
  byteBits writer.ostream ++ lastBits (writer.buffer >>> (8 - writer.offset.val)) writer.offset.val

def Clean (writer : BitStreamWriter) : Prop := ∀ i < 8 - writer.offset.val, writer.buffer.getLsbD i = false

theorem clean_new (ostream : List UInt8) : (new ostream).Clean := fun _ _ => BitVec.getLsbD_zero

theorem bits_new (ostream : List UInt8) : (new ostream).bits = byteBits ostream := append_nil _

theorem fill_getLsbD (writer : BitStreamWriter) (data : Uint64) (hnbits : nbits ≤ 64) {i : Nat} (hi : i < 8) :
    (writer.buffer ||| ((data <<< (64 - nbits)) >>> (64 - 8 + writer.offset.val)).setWidth 8).getLsbD i =
      (writer.buffer.getLsbD i || decide (8 - writer.offset.val ≤ i + nbits ∧ i + writer.offset.val < 8) &&
        data.getLsbD (i + nbits + writer.offset.val - 8)) := by
  rw [BitVec.getLsbD_or, BitVec.getLsbD_setWidth, BitVec.getLsbD_ushiftRight, BitVec.getLsbD_shiftLeft,
    decide_eq_true hi, Bool.true_and]
  congr 1
  by_cases hrange : 8 - writer.offset.val ≤ i + nbits ∧ i + writer.offset.val < 8
  · rw [decide_eq_true hrange, decide_eq_true (by omega : 64 - 8 + writer.offset.val + i < 64),
      decide_eq_false (by omega : ¬ 64 - 8 + writer.offset.val + i < 64 - nbits), Bool.true_and, Bool.not_false,
        Bool.true_and,
      Bool.true_and, show 64 - 8 + writer.offset.val + i - (64 - nbits) = i + nbits + writer.offset.val - 8 by omega]
  · rw [decide_eq_false hrange, Bool.false_and]
    by_cases hin : 64 - 8 + writer.offset.val + i < 64
    · rw [decide_eq_true (by omega : 64 - 8 + writer.offset.val + i < 64 - nbits), Bool.not_true, Bool.and_false,
        Bool.false_and]
    · rw [decide_eq_false hin, Bool.false_and, Bool.false_and]

variable (data : Uint64) (hclean : writer.Clean) (hnbits : nbits ≤ 64)
include data hclean hnbits

theorem fill_spec (htaken : taken = min (8 - writer.offset.val) nbits) :
    (writer.fill data nbits taken).Clean ∧
      (writer.fill data nbits taken).bits = writer.bits ++ lastBits (data >>> (nbits - taken)) taken := by
  have hbuffer := fun i (hi : i < 8) => fill_getLsbD writer data hnbits hi
  unfold fill
  dsimp only
  generalize writer.buffer ||| ((data <<< (64 - nbits)) >>> (64 - 8 + writer.offset.val)).setWidth 8 =
    buffer at hbuffer ⊢
  -- the filled part of the byte
  have hfilled : lastBits (buffer >>> (8 - (writer.offset.val + taken))) (writer.offset.val + taken) =
      lastBits (writer.buffer >>> (8 - writer.offset.val)) writer.offset.val ++
        lastBits (data >>> (nbits - taken)) taken := by
    rw [lastBits_add]
    congr 1
    · apply lastBits_congr
      intro i hi
      rw [BitVec.getLsbD_ushiftRight, BitVec.getLsbD_ushiftRight, BitVec.getLsbD_ushiftRight, hbuffer _ (by omega),
        decide_eq_false (by omega), Bool.false_and, Bool.or_false]
      congr 1
      omega
    · apply lastBits_congr
      intro i hi
      rw [BitVec.getLsbD_ushiftRight, BitVec.getLsbD_ushiftRight, hbuffer _ (by omega), hclean _ (by omega),
        decide_eq_true (by omega), Bool.false_or, Bool.true_and]
      congr 1
      omega
  split
  · next hlt =>
    refine ⟨?_, ?_⟩
    · intro i hi
      dsimp only at hi ⊢
      rw [hbuffer i (by omega), hclean i (by omega), decide_eq_false (by omega), Bool.false_and]
      rfl
    · unfold bits
      dsimp only
      rw [hfilled, append_assoc]
  · next hfull =>
    have height : writer.offset.val + taken = 8 := by omega
    rw [height, Nat.sub_self, BitVec.ushiftRight_zero] at hfilled
    refine ⟨fun _ _ => BitVec.getLsbD_zero, ?_⟩
    unfold bits
    dsimp only
    rw [byteBits_append, byteBits_cons, byteBits_nil, append_nil, hfilled]
    simp only [Fin.val_zero, lastBits_zero, append_nil, append_assoc]

theorem writeLoop_spec :
    (writer.writeLoop data nbits).Clean ∧ (writer.writeLoop data nbits).bits = writer.bits ++ lastBits data nbits := by
  induction nbits using Nat.strong_induction_on generalizing writer with
  | _ nbits ih =>
    unfold writeLoop
    split
    · next hzero =>
      subst hzero
      exact ⟨hclean, (append_nil _).symm⟩
    · next hpos =>
      dsimp only
      obtain ⟨hclean', hbits'⟩ := fill_spec data hclean hnbits rfl
      obtain ⟨hclean'', hbits''⟩ := ih (nbits - min (8 - writer.offset.val) nbits) (by omega) hclean' (by omega)
      refine ⟨hclean'', ?_⟩
      rw [hbits'', hbits', append_assoc, ← lastBits_split (min_le_right _ _)]

theorem write_spec :
    ∃ writer', writer.write data nbits = .ok writer' ∧ writer'.Clean ∧
      writer'.bits = writer.bits ++ lastBits data nbits := by
  obtain ⟨hclean', hbits'⟩ := writeLoop_spec data hclean hnbits
  refine ⟨_, ?_, hclean', hbits'⟩
  unfold write
  rw [if_neg (by omega)]

omit data hclean hnbits

theorem flush_spec (hclean : writer.Clean) :
    ∃ k < 8, byteBits writer.flush.ostream = writer.bits ++ replicate k false := by
  unfold flush
  split
  · next hzero =>
    refine ⟨0, by decide, ?_⟩
    unfold bits
    rw [hzero]
    simp
  · next hpos =>
    refine ⟨8 - writer.offset.val, by omega, ?_⟩
    unfold bits
    rw [byteBits_append, byteBits_cons, byteBits_nil, append_nil, append_assoc, ← lastBits_false hclean]
    rw [lastBits_split (show writer.offset.val ≤ 8 by omega)]

end BitStreamWriter

namespace BitStreamReader

variable {reader reader' : BitStreamReader} {x : Uint64} {nbits : Nat}

def bits (reader : BitStreamReader) : List Bool :=
  lastBits reader.buffer (8 - reader.offset.val) ++ byteBits reader.istream

theorem bits_new (istream : List UInt8) : (new istream).bits = byteBits istream := rfl

theorem length_bits (reader : BitStreamReader) :
    reader.bits.length = 8 - reader.offset.val + 8 * reader.istream.length := by
  unfold bits
  rw [length_append, length_lastBits, length_byteBits]

theorem istream_nil (h : reader.bits.length < 8) : reader.istream = [] := by
  rw [length_bits] at h
  exact eq_nil_of_length_eq_zero (by omega)

theorem current_spec (reader : BitStreamReader) :
    (reader.current = .error endOfData ∧ reader.bits = []) ∨ ∃ istream buffer, ∃ offset : Fin 8,
      reader.current = .ok (istream, buffer, offset) ∧
        reader.bits = lastBits buffer (8 - offset.val) ++ byteBits istream := by
  unfold current
  split
  · exact .inr ⟨_, _, _, rfl, rfl⟩
  · next hfull =>
    have hoffset : 8 - reader.offset.val = 0 := by omega
    unfold bits
    rw [hoffset]
    split
    · next hnil => exact .inl ⟨rfl, by rw [hnil]; rfl⟩
    · next byte istream hcons => exact .inr ⟨_, _, _, rfl, by rw [hcons]; rfl⟩

theorem round_data (data : Uint64) (buffer : BitVec 8) {offset bits : Nat} (hbits : offset + bits ≤ 8) :
    data <<< bits ||| ((buffer <<< offset) >>> (8 - bits)).setWidth 64 =
      shiftIn data ((lastBits buffer (8 - offset)).take bits) := by
  rw [take_lastBits (by omega)]
  apply BitVec.eq_of_getLsbD_eq
  intro i hi
  rw [getLsbD_shiftIn_lastBits _ _ _ hi, BitVec.getLsbD_or, BitVec.getLsbD_shiftLeft, BitVec.getLsbD_setWidth,
    BitVec.getLsbD_ushiftRight, BitVec.getLsbD_ushiftRight, BitVec.getLsbD_shiftLeft, decide_eq_true hi]
  by_cases hlt : i < bits
  · rw [if_pos hlt, decide_eq_true hlt, decide_eq_true (by omega : 8 - bits + i < 8),
      decide_eq_false (by omega : ¬ 8 - bits + i < offset), show 8 - bits + i - offset = 8 - offset - bits + i by omega]
    simp
  · rw [if_neg hlt, decide_eq_false hlt, decide_eq_false (by omega : ¬ 8 - bits + i < 8)]
    simp

theorem readLoop_spec (reader : BitStreamReader) (data : Uint64) (h : nbits ≤ reader.bits.length) :
    ∃ reader', reader.readLoop data nbits = .ok (shiftIn data (reader.bits.take nbits), reader') ∧
      reader'.bits = reader.bits.drop nbits := by
  induction nbits using Nat.strong_induction_on generalizing reader data with
  | _ nbits ih =>
    unfold readLoop
    split
    · next hzero =>
      subst hzero
      exact ⟨reader, rfl, rfl⟩
    · next hpos =>
      rcases current_spec reader with ⟨-, hnil⟩ | ⟨istream, buffer, offset, hcurrent, hbits⟩
      · rw [hnil] at h
        exact absurd (Nat.le_zero.mp h) hpos
      · rw [hcurrent, ok_bind]
        dsimp only
        have hlast : (lastBits buffer (8 - offset.val)).length = 8 - offset.val := length_lastBits _ _
        have hround : offset.val + min (8 - offset.val) nbits ≤ 8 := by omega
        have hleft : (⟨istream, buffer, ⟨offset.val + min (8 - offset.val) nbits, by omega⟩⟩ : BitStreamReader).bits =
            reader.bits.drop (min (8 - offset.val) nbits) := by
          rw [hbits, drop_append_of_le_length (by omega), drop_lastBits (by omega)]
          unfold bits
          rw [Nat.sub_sub]
        have htake : (lastBits buffer (8 - offset.val)).take (min (8 - offset.val) nbits) =
            reader.bits.take (min (8 - offset.val) nbits) := by
          rw [hbits, take_append_of_le_length (by omega)]
        rw [round_data data buffer hround, htake]
        obtain ⟨reader', hread, hrest⟩ :=
            ih (nbits - min (8 - offset.val) nbits) (by omega) ⟨istream, buffer,
              ⟨offset.val + min (8 - offset.val) nbits, by omega⟩⟩
          (shiftIn data (reader.bits.take (min (8 - offset.val) nbits))) (by rw [hleft, length_drop]; omega)
        refine ⟨reader', ?_, ?_⟩
        · rw [hread, hleft, ← shiftIn_append, ← take_add,
            show min (8 - offset.val) nbits + (nbits - min (8 - offset.val) nbits) = nbits by omega]
        · rw [hrest, hleft, drop_drop, show min (8 - offset.val) nbits + (nbits - min (8 - offset.val) nbits) =
            nbits by omega]

theorem read_spec (reader : BitStreamReader) (hnbits : nbits ≤ 64) (h : nbits ≤ reader.bits.length) :
    ∃ reader', reader.read nbits = .ok (shiftIn 0 (reader.bits.take nbits), reader') ∧
      reader'.bits = reader.bits.drop nbits := by
  unfold read
  rw [if_neg (by omega)]
  exact readLoop_spec reader 0 h

theorem read_one_length (h : reader.read 1 = .ok (x, reader')) : reader'.bits.length < reader.bits.length := by
  cases hbits : reader.bits with
  | nil =>
    unfold read readLoop at h
    rw [if_neg (by decide), if_neg (by decide)] at h
    rcases current_spec reader with ⟨hcurrent, -⟩ | ⟨_, _, _, -, hsome⟩
    · rw [hcurrent] at h
      cases h
    · rw [hsome] at hbits
      have hlength := congrArg length hbits
      rw [length_append, length_lastBits, length_nil] at hlength
      omega
  | cons bit bits =>
    obtain ⟨_, hread, hrest⟩ := read_spec reader (show 1 ≤ 64 by decide) (by rw [hbits]; simp)
    rw [h] at hread
    obtain ⟨-, rfl⟩ := Prod.mk.inj (Except.ok.inj hread)
    rw [hrest, hbits]
    simp

end BitStreamReader

end FullNode.BitStream

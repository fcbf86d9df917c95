import FullNode.GolombRice
import FullNode.Lib.SipHash
import FullNode.Wire

/-!
# Block filters

A Golomb coded set: the hashes of its elements in order, each as the distance from the last.
-/

namespace FullNode.BlockFilter

open BitStream GolombRice List BitStreamReader
open Wire (MAX_SIZE readCompactSize writeCompactSize writeCompactSize_canonical writeCompactSize_unchecked)

/-! ## The code -/

structure ElementSet where
  elements : List (List UInt8)
  nodup : elements.Nodup

structure Params where
  m_siphash_k0 : Uint64
  m_siphash_k1 : Uint64
  m_P : UInt8
  m_M : Uint32
  deriving DecidableEq

structure GCSFilter where
  m_params : Params
  m_N : Uint32
  m_F : Uint64
  m_encoded : List UInt8
  deriving DecidableEq

def fastRange64 (x n : Uint64) : Uint64 := ((x.setWidth 128 * n.setWidth 128) >>> 64).setWidth 64

def hashToRange (params : Params) (m_F : Uint64) (element : List UInt8) : Uint64 :=
  fastRange64 (sipHash params.m_siphash_k0 params.m_siphash_k1 element) m_F

def buildHashedSet (params : Params) (m_F : Uint64) (elements : ElementSet) : List Uint64 :=
  (elements.elements.map (hashToRange params m_F)).insertionSort (· ≤ ·)

def range (params : Params) (m_N : Uint32) : Uint64 := m_N.setWidth 64 * params.m_M.setWidth 64

def writeValues (P : Nat) (writer : BitStreamWriter) (last_value : Uint64) : List Uint64 → Checked BitStreamWriter
  | [] => .ok writer
  | value :: values => do
    let writer ← golombRiceEncode writer P (value - last_value)
    writeValues P writer value values

def ofElements (params : Params) (elements : ElementSet) : Checked GCSFilter :=
  let N := elements.elements.length
  let m_N := BitVec.ofNat 32 N
  if m_N.toNat ≠ N then .error (.logicError "N must be <2^32")
  else
    let m_F := range params m_N
    if elements.elements.isEmpty then .ok ⟨params, m_N, m_F, writeCompactSize m_N.toNat⟩
    else do
      let bitwriter ← writeValues params.m_P.toNat (.new (writeCompactSize m_N.toNat)) 0
          (buildHashedSet params m_F elements)
      return ⟨params, m_N, m_F, bitwriter.flush.ostream⟩

/-- An exception of a `SpanReader` at the end of the data. -/
def spanFailure (what : Wire.Failure) : Fault :=
  if what = Wire.endOfData then BitStream.endOfData else .runtimeError what

/-- `ReadCompactSize` from a `SpanReader`. -/
def readSize (encoded : List UInt8) : Checked (Nat × List UInt8) := (readCompactSize.mapError spanFailure).run encoded

def skipValues (P : Nat) : Nat → BitStreamReader → Checked BitStreamReader
  | 0, reader => .ok reader
  | n + 1, reader => do
    let (_, reader) ← golombRiceDecode reader P
    skipValues P n reader

def ofEncoded (params : Params) (encoded_filter : List UInt8) (skip_decode_check : Bool) : Checked GCSFilter := do
  let (N, stream) ← readSize encoded_filter
  let m_N := BitVec.ofNat 32 N
  if m_N.toNat ≠ N then .error (.runtimeError "N must be <2^32")
  else
    let filter : GCSFilter := ⟨params, m_N, range params m_N, encoded_filter⟩
    if skip_decode_check then return filter
    else do
      let bitreader ← skipValues params.m_P.toNat m_N.toNat (.new stream)
      if bitreader.istream ≠ [] then .error (.runtimeError "encoded_filter contains excess data") else return filter

/-- The inner loop of `MatchInternal`: the answer, or what is left. -/
def seek (value : Uint64) : List Uint64 → Bool ⊕ List Uint64
  | [] => .inl false
  | hash :: hashes => if hash =
    value then .inl true else if hash > value then .inr (hash :: hashes) else seek value hashes

def matchLoop (P : Nat) : Nat → BitStreamReader → Uint64 → List Uint64 → Checked Bool
  | 0, _, _, _ => .ok false
  | n + 1, reader, value, hashes => do
    let (delta, reader) ← golombRiceDecode reader P
    match seek (value + delta) hashes with
    | .inl answer => return answer
    | .inr hashes => matchLoop P n reader (value + delta) hashes

namespace GCSFilter

def matchInternal (filter : GCSFilter) (element_hashes : List Uint64) : Checked Bool := do
  let (N, stream) ← readSize filter.m_encoded
  let () ← check (N == filter.m_N.toNat)
  matchLoop filter.m_params.m_P.toNat filter.m_N.toNat (.new stream) 0 element_hashes

def «match» (filter : GCSFilter) (element : List UInt8) : Checked Bool :=
  filter.matchInternal [hashToRange filter.m_params filter.m_F element]

def matchAny (filter : GCSFilter) (elements : ElementSet) : Checked Bool :=
  filter.matchInternal (buildHashedSet filter.m_params filter.m_F elements)

end GCSFilter

def readValues (P : Nat) : Nat → BitStreamReader → Uint64 → Checked (List Uint64 × BitStreamReader)
  | 0, reader, _ => .ok ([], reader)
  | n + 1, reader, value => do
    let (delta, reader) ← golombRiceDecode reader P
    let (values, reader) ← readValues P n reader (value + delta)
    return ((value + delta) :: values, reader)

def GCSFilter.values (filter : GCSFilter) : Checked (List Uint64 × BitStreamReader) := do
  let (_, stream) ← readSize filter.m_encoded
  readValues filter.m_params.m_P.toNat filter.m_N.toNat (.new stream) 0

/-! ## The bits of a filter -/

variable {P : Nat} {writer : BitStreamWriter} {reader : BitStreamReader} {value last : Uint64}
  {values hashes : List Uint64} {tail : List Bool} {params : Params} {elements : ElementSet} {filter : GCSFilter}

def valueBits (P : Nat) (last : Uint64) : List Uint64 → List Bool
  | [] => []
  | value :: values => codeBits P (value - last) ++ valueBits P value values

theorem writeValues_spec (hclean : writer.Clean) (hP : P < 64) (last : Uint64) (values : List Uint64) :
    ∃ writer', writeValues P writer last values = .ok writer' ∧ writer'.Clean ∧
      writer'.bits = writer.bits ++ valueBits P last values := by
  induction values generalizing writer last with
  | nil => exact ⟨writer, rfl, hclean, (append_nil _).symm⟩
  | cons value values ih =>
    obtain ⟨_, hencode, hclean1, hbits1⟩ := golombRiceEncode_spec hclean hP (value - last)
    obtain ⟨writer2, hrest, hclean2, hbits2⟩ := ih hclean1 value
    refine ⟨writer2, ?_, hclean2, ?_⟩
    · unfold writeValues
      rw [hencode, ok_bind, hrest]
    · rw [hbits2, hbits1, append_assoc]
      rfl

theorem decode_value (hP : P < 64) (h : reader.bits = valueBits P last (value :: values) ++ tail) :
    ∃ reader', golombRiceDecode reader P = .ok (value - last, reader') ∧
      reader'.bits = valueBits P value values ++ tail := by
  unfold valueBits at h
  rw [append_assoc] at h
  exact golombRiceDecode_spec hP h

theorem readValues_spec (hP : P < 64) (h : reader.bits = valueBits P last values ++ tail) :
    ∃ reader', readValues P values.length reader last = .ok (values, reader') ∧ reader'.bits = tail := by
  induction values generalizing reader last with
  | nil => exact ⟨reader, rfl, h⟩
  | cons value values ih =>
    obtain ⟨_, hdecode, hbits1⟩ := decode_value hP h
    obtain ⟨reader2, hrest, hbits2⟩ := ih hbits1
    refine ⟨reader2, ?_, hbits2⟩
    rw [length_cons, readValues, hdecode, ok_bind]
    dsimp only
    rw [add_sub_cancel, hrest]
    rfl

theorem skipValues_spec (hP : P < 64) (h : reader.bits = valueBits P last values ++ tail) :
    ∃ reader', skipValues P values.length reader = .ok reader' ∧ reader'.bits = tail := by
  induction values generalizing reader last with
  | nil => exact ⟨reader, rfl, h⟩
  | cons value values ih =>
    obtain ⟨_, hdecode, hbits1⟩ := decode_value hP h
    obtain ⟨reader2, hrest, hbits2⟩ := ih hbits1
    exact ⟨reader2, by rw [length_cons, skipValues, hdecode, ok_bind]; exact hrest, hbits2⟩

/-! ## Matching -/

variable {hash : Uint64}

theorem below_of_not (hne : ¬ hash = value) (hle : ¬ hash > value) : hash < value := by bv_omega

theorem not_lt_of_le (hle : value ≤ hash) : ¬ hash < value := by bv_omega

theorem seek_found (h : seek value hashes = .inl true) : value ∈ hashes := by
  induction hashes with
  | nil => cases h
  | cons hash hashes ih =>
    unfold seek at h
    split at h
    · next heq => exact heq ▸ mem_cons_self
    split at h
    · cases h
    · exact mem_cons_of_mem _ (ih h)

theorem seek_exhausted (h : seek value hashes = .inl false) : ∀ hash ∈ hashes, hash < value := by
  induction hashes with
  | nil => exact fun hash hhash => absurd hhash not_mem_nil
  | cons hash hashes ih =>
    unfold seek at h
    split at h
    · cases h
    split at h
    · cases h
    next hne hle =>
      intro hash' hhash'
      rcases mem_cons.mp hhash' with rfl | hmem
      · exact below_of_not hne hle
      · exact ih h hash' hmem

theorem seek_left {left : List Uint64} (hsorted : hashes.Pairwise (· ≤ ·)) (h : seek value hashes = .inr left) :
    left.Pairwise (· ≤ ·) ∧ value ∉ hashes ∧ ∀ later, value ≤ later → (later ∈ left ↔ later ∈ hashes) := by
  induction hashes with
  | nil => cases h
  | cons hash hashes ih =>
    obtain ⟨hfirst, htail⟩ := pairwise_cons.mp hsorted
    unfold seek at h
    split at h
    · cases h
    next hne =>
    split at h
    · next hgt =>
      obtain rfl := Sum.inr.inj h
      refine ⟨hsorted, ?_, fun _ _ => Iff.rfl⟩
      intro hmem
      rcases mem_cons.mp hmem with heq | hmem
      · exact hne heq.symm
      · exact not_lt_of_le (hfirst value hmem) hgt
    · next hle =>
      obtain ⟨hleft, hnot, hsame⟩ := ih htail h
      have hbelow := below_of_not hne hle
      refine ⟨hleft, ?_, ?_⟩
      · rw [mem_cons, not_or]
        exact ⟨fun heq => hne heq.symm, hnot⟩
      · intro later hlater
        rw [hsame later hlater, mem_cons]
        exact ⟨.inr, fun hmem => hmem.resolve_left fun heq => not_lt_of_le hlater (heq ▸ hbelow)⟩

theorem matchLoop_spec (hP : P < 64) (hbits : reader.bits = valueBits P last values ++ tail)
    (hvalues : values.Pairwise (· ≤ ·)) (hhashes : hashes.Pairwise (· ≤ ·)) :
    ∃ answer, matchLoop P values.length reader last hashes = .ok answer ∧
      (answer = true ↔ ∃ hash ∈ hashes, hash ∈ values) := by
  induction values generalizing reader last hashes with
  | nil => exact ⟨false, rfl, by simp⟩
  | cons value values ih =>
    obtain ⟨_, hdecode, hbits1⟩ := decode_value hP hbits
    obtain ⟨hfirst, htail⟩ := pairwise_cons.mp hvalues
    rw [length_cons, matchLoop, hdecode, ok_bind]
    dsimp only
    rw [add_sub_cancel]
    rcases hseek : seek value hashes with (_ | _) | left
    · refine ⟨false, rfl, ?_⟩
      have hbelow := seek_exhausted hseek
      refine ⟨nofun, ?_⟩
      rintro ⟨hash, hhash, hmem⟩
      rcases mem_cons.mp hmem with rfl | hmem
      · exact absurd (hbelow hash hhash) (BitVec.lt_irrefl _)
      · exact absurd (hbelow hash hhash) (not_lt_of_le (hfirst hash hmem))
    · exact ⟨true, rfl, fun _ => ⟨value, seek_found hseek, mem_cons_self⟩, fun _ => rfl⟩
    · obtain ⟨hleft, hnot, hsame⟩ := seek_left hhashes hseek
      obtain ⟨answer, hloop, hiff⟩ := ih hbits1 htail hleft
      refine ⟨answer, hloop, hiff.trans ⟨?_, ?_⟩⟩
      · rintro ⟨hash, hhash, hmem⟩
        exact ⟨hash, (hsame hash (hfirst hash hmem)).mp hhash, mem_cons_of_mem _ hmem⟩
      · rintro ⟨hash, hhash, hmem⟩
        rcases mem_cons.mp hmem with rfl | hmem
        · exact absurd hhash hnot
        · exact ⟨hash, (hsame hash (hfirst hash hmem)).mpr hhash, hmem⟩

/-! ## A filter of a set -/

theorem buildHashedSet_sorted (params : Params) (m_F : Uint64) (elements : ElementSet) :
    (buildHashedSet params m_F elements).Pairwise (· ≤ ·) :=
  pairwise_insertionSort _ _

theorem mem_buildHashedSet {m_F : Uint64} : value ∈ buildHashedSet params m_F elements ↔
    ∃ element ∈ elements.elements, hashToRange params m_F element = value := by
  unfold buildHashedSet
  rw [mem_insertionSort, mem_map]

theorem length_buildHashedSet (params : Params) (m_F : Uint64) (elements : ElementSet) :
    (buildHashedSet params m_F elements).length = elements.elements.length := by
  unfold buildHashedSet
  rw [length_insertionSort, length_map]

/-- The count and the codes, filled with less than a byte. -/
structure Encodes (params : Params) (elements : ElementSet) (filter : GCSFilter) : Prop where
  m_params : filter.m_params = params
  m_N : filter.m_N.toNat = elements.elements.length
  m_F : filter.m_F = range params filter.m_N
  m_encoded : ∃ stream, filter.m_encoded = writeCompactSize filter.m_N.toNat ++ stream ∧ ∃ k < 8,
    byteBits stream = valueBits params.m_P.toNat 0 (buildHashedSet params filter.m_F elements) ++ List.replicate k false

theorem ofElements_spec (params : Params) (hP : params.m_P.toNat < 64) (elements : ElementSet)
    (hlength : elements.elements.length < 2 ^ 32) : ∃ filter, ofElements params elements = .ok filter ∧
      Encodes params elements filter := by
  unfold ofElements
  dsimp only
  have hN : (BitVec.ofNat 32 elements.elements.length).toNat = elements.elements.length := by
    rw [BitVec.toNat_ofNat, Nat.mod_eq_of_lt hlength]
  generalize BitVec.ofNat 32 elements.elements.length = m_N at hN ⊢
  rw [if_neg (not_not.mpr hN)]
  split
  · next hempty =>
    refine ⟨⟨params, m_N, range params m_N, writeCompactSize m_N.toNat⟩, rfl, rfl, hN, rfl, [],
      (append_nil _).symm, 0, by decide, ?_⟩
    unfold buildHashedSet
    rw [isEmpty_iff.mp hempty]
    rfl
  · obtain ⟨writer, hwrite, hclean, hbits⟩ :=
        writeValues_spec (BitStreamWriter.clean_new (writeCompactSize m_N.toNat)) hP 0
      (buildHashedSet params (range params m_N) elements)
    obtain ⟨k, hk, hflush⟩ := BitStreamWriter.flush_spec hclean
    rw [hbits, BitStreamWriter.bits_new, append_assoc] at hflush
    obtain ⟨stream, hstream, hcodes⟩ := byteBits_prefix hflush
    refine ⟨⟨params, m_N, range params m_N, writer.flush.ostream⟩, ?_, rfl, hN, rfl, stream, hstream, k, hk, hcodes⟩
    rw [hwrite]
    rfl

/-! ## Reading a filter -/

theorem readSize_ok {n : Nat} (hn : n ≤ MAX_SIZE) (stream : List UInt8) :
    readSize (writeCompactSize n ++ stream) = .ok (n, stream) :=
  Reader.mapError_run_of_ok spanFailure (writeCompactSize_canonical.unser_ser hn stream)

theorem readSize_refused {n : Nat} (hn : MAX_SIZE < n) (hlt : n < 2 ^ 64) (stream : List UInt8) :
    ∃ e, readSize (writeCompactSize n ++ stream) = .error e := by
  have hrun : readSize (writeCompactSize n ++ stream) =
      (readCompactSize.run (writeCompactSize n ++ stream)).mapError spanFailure := rfl
  rw [hrun]
  cases hread : readCompactSize.run (writeCompactSize n ++ stream) with
  | error e => exact ⟨_, rfl⟩
  | ok r =>
    obtain ⟨m, rest⟩ := r
    obtain ⟨hm, heq⟩ := writeCompactSize_canonical.ser_unser hread
    have hn' := writeCompactSize_unchecked.unser_ser hlt stream
    have hm' := writeCompactSize_unchecked.unser_ser (show m < 2 ^ 64 by unfold MAX_SIZE at hm; omega) rest
    rw [heq, hm'] at hn'
    obtain ⟨rfl, -⟩ := Prod.mk.inj (Except.ok.inj hn')
    omega

variable (h : Encodes params elements filter) (hP : params.m_P.toNat < 64)
  (hlength : elements.elements.length ≤ MAX_SIZE)
include h hP hlength

theorem matchInternal_spec (hhashes : hashes.Pairwise (· ≤ ·)) :
    ∃ answer, filter.matchInternal hashes = .ok answer ∧
      (answer = true ↔ ∃ hash ∈ hashes, hash ∈ buildHashedSet params filter.m_F elements) := by
  obtain ⟨stream, hencoded, _, -, hbits⟩ := h.m_encoded
  have hnew := (bits_new stream).trans hbits
  have hcount := length_buildHashedSet params filter.m_F elements
  obtain ⟨answer, hloop, hiff⟩ := matchLoop_spec hP hnew
    (buildHashedSet_sorted params filter.m_F elements) hhashes
  refine ⟨answer, ?_, hiff⟩
  unfold GCSFilter.matchInternal
  rw [hencoded, readSize_ok (by rw [h.m_N]; exact hlength), ok_bind]
  dsimp only
  rw [beq_self_eq_true, check_true, ok_bind, h.m_params, h.m_N, ← hcount, hloop]

theorem match_spec (element : List UInt8) : ∃ answer, filter.match element = .ok answer ∧
    (answer = true ↔ hashToRange params filter.m_F element ∈ buildHashedSet params filter.m_F elements) := by
  obtain ⟨answer, hmatch, hiff⟩ :=
      matchInternal_spec h hP hlength (pairwise_singleton _ (hashToRange params filter.m_F element))
  refine ⟨answer, ?_, by rw [hiff]; simp⟩
  unfold GCSFilter.match
  rw [h.m_params, hmatch]

omit h hP hlength

structure Serves (params : Params) (elements : ElementSet) (filter : GCSFilter) : Prop where
  built : ofElements params elements = .ok filter
  decoded : ∃ bitreader, filter.values = .ok (buildHashedSet params filter.m_F elements, bitreader) ∧
      bitreader.istream = []
  accepted : ofEncoded params filter.m_encoded false = .ok filter
  found : ∀ element ∈ elements.elements, filter.match element = .ok true
  matchedAny : ∀ queries : ElementSet, ∃ answer, filter.matchAny queries = .ok answer ∧
    (answer = true ↔ ∃ element ∈ queries.elements, filter.match element = .ok true)

variable (h : Encodes params elements filter) (hP : params.m_P.toNat < 64)
  (hlength : elements.elements.length ≤ MAX_SIZE)
include h hP hlength

theorem decoded_of_encodes :
    ∃ bitreader, filter.values = .ok (buildHashedSet params filter.m_F elements, bitreader) ∧
      bitreader.istream = [] := by
  obtain ⟨stream, hencoded, _, hk, hbits⟩ := h.m_encoded
  have hnew := (bits_new stream).trans hbits
  obtain ⟨reader, hread, hrest⟩ := readValues_spec hP hnew
  refine ⟨reader, ?_, istream_nil (by rw [hrest, length_replicate]; exact hk)⟩
  unfold GCSFilter.values
  rw [hencoded, readSize_ok (by rw [h.m_N]; exact hlength), ok_bind]
  dsimp only
  rw [h.m_params, h.m_N, ← length_buildHashedSet params filter.m_F elements, hread]

theorem accepted_of_encodes : ofEncoded params filter.m_encoded false = .ok filter := by
  obtain ⟨stream, hencoded, _, hk, hbits⟩ := h.m_encoded
  have hnew := (bits_new stream).trans hbits
  obtain ⟨_, hskip, hrest⟩ := skipValues_spec hP hnew
  have hend := istream_nil (by rw [hrest, length_replicate]; exact hk)
  have hN : BitVec.ofNat 32 filter.m_N.toNat = filter.m_N := by rw [BitVec.ofNat_toNat, BitVec.setWidth_eq]
  have hfilter : (⟨params, filter.m_N, range params filter.m_N, filter.m_encoded⟩ : GCSFilter) = filter := by
    rw [← h.m_F, ← h.m_params]
  unfold ofEncoded
  rw [hencoded, readSize_ok (by rw [h.m_N]; exact hlength), ok_bind, ← hencoded]
  dsimp only
  rw [hN, if_neg (not_not.mpr rfl), if_neg (by decide), hfilter,
    h.m_N, ← length_buildHashedSet params filter.m_F elements, hskip, ok_bind, if_neg (not_not.mpr hend)]
  rfl

theorem matchedAny_of_encodes (queries : ElementSet) : ∃ answer, filter.matchAny queries = .ok answer ∧
    (answer = true ↔ ∃ element ∈ queries.elements, filter.match element = .ok true) := by
  obtain ⟨answer, hmatch, hiff⟩ := matchInternal_spec h hP hlength (buildHashedSet_sorted params filter.m_F queries)
  refine ⟨answer, ?_, hiff.trans ⟨?_, ?_⟩⟩
  · unfold GCSFilter.matchAny
    rw [h.m_params, hmatch]
  · rintro ⟨_, hquery, hmem⟩
    obtain ⟨element, helement, rfl⟩ := mem_buildHashedSet.mp hquery
    obtain ⟨found, hfound, hiff⟩ := match_spec h hP hlength element
    exact ⟨element, helement, by rw [hfound, hiff.mpr hmem]⟩
  · rintro ⟨element, helement, hone⟩
    obtain ⟨found, hfound, hiff⟩ := match_spec h hP hlength element
    rw [hone] at hfound
    exact ⟨_, mem_buildHashedSet.mpr ⟨element, helement, rfl⟩, hiff.mp (Except.ok.inj hfound).symm⟩

omit h hP hlength

theorem ofElements_refused (h : 2 ^ 32 ≤ elements.elements.length) :
    ofElements params elements = .error (.logicError "N must be <2^32") := by
  have hN : (BitVec.ofNat 32 elements.elements.length).toNat ≠ elements.elements.length := by
    omega
  unfold ofElements
  rw [if_pos hN]

theorem unreadable (hP : params.m_P.toNat < 64) (hlarge : MAX_SIZE < elements.elements.length)
    (hlength : elements.elements.length < 2 ^ 32) :
    ∃ filter, ofElements params elements = .ok filter ∧ (∃ e, ofEncoded params filter.m_encoded false = .error e) ∧
      ∀ element, ∃ e, filter.match element = .error e := by
  obtain ⟨filter, hbuilt, h⟩ := ofElements_spec params hP elements hlength
  obtain ⟨stream, hencoded, -⟩ := h.m_encoded
  have hN := h.m_N
  obtain ⟨e, hread⟩ := readSize_refused (n := filter.m_N.toNat) (by omega) (by omega) stream
  refine ⟨filter, hbuilt, ⟨e, ?_⟩, fun element => ⟨e, ?_⟩⟩
  · unfold ofEncoded
    rw [hencoded, hread]
    rfl
  · unfold GCSFilter.match GCSFilter.matchInternal
    rw [hencoded, hread]
    rfl

theorem not_serves (hP : params.m_P.toNat < 64) (hlarge : MAX_SIZE < elements.elements.length) :
    ¬ Serves params elements filter := by
  intro h
  have hbuilt := h.built
  by_cases hlength : elements.elements.length < 2 ^ 32
  · obtain ⟨_, hbuilt', ⟨_, hrefused⟩, -⟩ := unreadable hP hlarge hlength
    rw [hbuilt] at hbuilt'
    cases hbuilt'
    rw [h.accepted] at hrefused
    cases hrefused
  · rw [ofElements_refused (by omega)] at hbuilt
    cases hbuilt

/-- A filter serves its set exactly if its count can be read back. -/
theorem serves_iff (params : Params) (hP : params.m_P.toNat < 32) (elements : ElementSet) :
    (∃ filter, Serves params elements filter) ↔ elements.elements.length ≤ MAX_SIZE := by
  constructor
  · rintro ⟨filter, h⟩
    by_contra hlarge
    exact not_serves (by omega) (by omega) h
  · intro hlength
    have hP' : params.m_P.toNat < 64 := by omega
    obtain ⟨filter, hbuilt, h⟩ := ofElements_spec params hP' elements (by unfold MAX_SIZE at hlength; omega)
    refine ⟨filter, hbuilt, decoded_of_encodes h hP' hlength, accepted_of_encodes h hP' hlength, ?_,
      matchedAny_of_encodes h hP' hlength⟩
    intro element helement
    obtain ⟨_, hmatch, hiff⟩ := match_spec h hP' hlength element
    rw [hmatch, hiff.mpr (mem_buildHashedSet.mpr ⟨element, helement, rfl⟩)]

def basicParams : Params := ⟨0, 0, 19, 784931⟩

theorem basic_serves : (∃ filter, Serves basicParams ⟨[[1], [2, 3]], by decide⟩ filter) ↔ 2 ≤ MAX_SIZE :=
  serves_iff basicParams (by decide) ⟨[[1], [2, 3]], by decide⟩

theorem leBytes_nodup {k n : Nat} (hn : n ≤ 256 ^ k) : ((List.range n).map (leBytes k)).Nodup := by
  apply Nodup.map_on _ nodup_range
  intro a ha b hb heq
  rw [mem_range] at ha hb
  rw [← leValue_leBytes (show a < 256 ^ k by omega), heq, leValue_leBytes (by omega)]

def manyElements : ElementSet where
  elements := (List.range (MAX_SIZE + 1)).map (leBytes 4)
  nodup := leBytes_nodup (by decide)

theorem manyElements_unreadable : ∃ filter, ofElements basicParams manyElements = .ok filter ∧
    (∃ e, ofEncoded basicParams filter.m_encoded false = .error e) ∧ ∀ element, ∃ e,
      filter.match element = .error e := by
  have hlength : manyElements.elements.length = MAX_SIZE + 1 := by
    unfold manyElements
    rw [length_map, length_range]
  exact unreadable (by decide) (by omega) (by rw [hlength]; decide)

end FullNode.BlockFilter

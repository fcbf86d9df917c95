import FullNode.Basic
import FullNode.Lib.Codec

/-!
# The wire format

Serialization of numbers, lists and transactions. A transaction is written with its witnesses
or without. With them, an empty list of inputs and a flag byte stand in front.
-/

namespace FullNode.Wire

open List Reader

/-- The text of a `std::ios_base::failure`. -/
abbrev Failure := String

abbrev Stream (α : Type) := Reader Failure α

def MAX_SIZE : Nat := 0x02000000

/-! ## Numbers -/

def endOfData : Failure := "DataStream::read(): end of data"

/-- `ser_readdata8`, `16`, `32` and `64`, by the number of bytes. -/
def readdata (k : Nat) : Stream Nat := Reader.le endOfData k

def writeBits {w : Nat} (v : BitVec w) : List UInt8 := leBytes (w / 8) v.toNat

def readBits (w : Nat) : Stream (BitVec w) := do
  let n ← readdata (w / 8)
  return BitVec.ofNat w n

def writeByte (b : UInt8) : List UInt8 := leBytes 1 b.toNat

def readByte : Stream UInt8 := do
  let n ← readdata 1
  return UInt8.ofNat n

def writeCompactSize (nSize : Nat) : List UInt8 :=
  if nSize < 253 then leBytes 1 nSize
  else if nSize ≤ 0xffff then leBytes 1 253 ++ leBytes 2 nSize
  else if nSize ≤ 0xffffffff then leBytes 1 254 ++ leBytes 4 nSize
  else leBytes 1 255 ++ leBytes 8 nSize

def readWide (k least : Nat) : Stream Nat := do
  let nSizeRet ← readdata k
  if nSizeRet < least then throw "non-canonical ReadCompactSize()" else return nSizeRet

def readMarked (chSize : Nat) : Stream Nat :=
  if chSize < 253 then return chSize
  else if chSize = 253 then readWide 2 253
  else if chSize = 254 then readWide 4 0x10000
  else readWide 8 0x100000000

/-- `ReadCompactSize` without its range check. -/
def readUncheckedSize : Stream Nat := do
  let chSize ← readdata 1
  readMarked chSize

/-- `ReadCompactSize` with its range check. -/
def readCompactSize : Stream Nat := do
  let nSizeRet ← (do
    let chSize ← readdata 1
    readMarked chSize)
  if nSizeRet > MAX_SIZE then throw "ReadCompactSize(): size too large" else return nSizeRet

/-! ## Lists -/

def writeVector {α : Type} (ser : α → List UInt8) (v : List α) : List UInt8 :=
  writeCompactSize v.length ++ v.flatMap ser

def readVector {α : Type} (unser : Stream α) : Stream (List α) := do
  let size ← readCompactSize
  unser.replicate size

def writeByteVector (v : List UInt8) : List UInt8 := writeCompactSize v.length ++ v

def readByteVector : Stream (List UInt8) := do
  let nSize ← readCompactSize
  Reader.take endOfData nSize

/-! ## Transactions -/

structure COutPoint where
  hash : Uint256
  n : Uint32
  deriving DecidableEq

structure CTxIn where
  prevout : COutPoint
  scriptSig : List UInt8
  nSequence : Uint32
  /-- The stack of `scriptWitness`, written with the transaction. -/
  scriptWitness : List (List UInt8)
  deriving DecidableEq

structure CTxOut where
  nValue : BitVec 64
  scriptPubKey : List UInt8
  deriving DecidableEq

structure CMutableTransaction where
  vin : List CTxIn
  vout : List CTxOut
  version : Uint32
  nLockTime : Uint32
  deriving DecidableEq

def CMutableTransaction.hasWitness (tx : CMutableTransaction) : Bool :=
  tx.vin.any fun txin => !txin.scriptWitness.isEmpty

def writeOutPoint (o : COutPoint) : List UInt8 := writeBits o.hash ++ writeBits o.n

def readOutPoint : Stream COutPoint := do
  let hash ← readBits 256
  let n ← readBits 32
  return { hash, n }

def writeTxIn (txin : CTxIn) : List UInt8 :=
  writeOutPoint txin.prevout ++ (writeByteVector txin.scriptSig ++ writeBits txin.nSequence)

def readTxIn : Stream CTxIn := do
  let prevout ← readOutPoint
  let scriptSig ← readByteVector
  let nSequence ← readBits 32
  return { prevout, scriptSig, nSequence, scriptWitness := [] }

def writeTxOut (txout : CTxOut) : List UInt8 := writeBits txout.nValue ++ writeByteVector txout.scriptPubKey

def readTxOut : Stream CTxOut := do
  let nValue ← readBits 64
  let scriptPubKey ← readByteVector
  return { nValue, scriptPubKey }

def writeWitness (txin : CTxIn) : List UInt8 := writeVector writeByteVector txin.scriptWitness

def readWitnesses : List CTxIn → Stream (List CTxIn)
  | [] => return []
  | txin :: vin => do
    let stack ← readVector readByteVector
    let vin ← readWitnesses vin
    return { txin with scriptWitness := stack } :: vin

/-- The flags, the inputs and the outputs after the first list. -/
def readInsOuts (fAllowWitness : Bool) (vin : List CTxIn) : Stream (UInt8 × List CTxIn × List CTxOut) :=
  if vin.length = 0 ∧ fAllowWitness then do
    let flags ← readByte
    if flags ≠ 0 then do
      let vin ← readVector readTxIn
      let vout ← readVector readTxOut
      return (flags, vin, vout)
    else return (flags, vin, [])
  else do
    let vout ← readVector readTxOut
    return (0, vin, vout)

/-- The witnesses, when announced, and the flags left. -/
def readFlagged (fAllowWitness : Bool) (flags : UInt8) (vin : List CTxIn) : Stream (UInt8 × List CTxIn) :=
  if flags &&& 1 ≠ 0 ∧ fAllowWitness then do
    let vin ← readWitnesses vin
    if !vin.any (fun txin => !txin.scriptWitness.isEmpty) then throw "Superfluous witness record"
    else return (flags ^^^ 1, vin)
  else return (flags, vin)

def unserializeTransaction (fAllowWitness : Bool) : Stream CMutableTransaction := do
  let version ← readBits 32
  let vin ← readVector readTxIn
  let (flags, vin, vout) ← readInsOuts fAllowWitness vin
  let (flags, vin) ← readFlagged fAllowWitness flags vin
  if flags ≠ 0 then throw "Unknown transaction optional data"
  else do
    let nLockTime ← readBits 32
    return { vin, vout, version, nLockTime }

def serializeTransaction (fAllowWitness : Bool) (tx : CMutableTransaction) : List UInt8 :=
  let flags : UInt8 := if fAllowWitness ∧ tx.hasWitness then 1 else 0
  writeBits tx.version ++
  (if flags ≠ 0 then writeVector writeTxIn [] ++ writeByte flags else []) ++
  writeVector writeTxIn tx.vin ++
  writeVector writeTxOut tx.vout ++
  (if flags &&& 1 ≠ 0 then tx.vin.flatMap writeWitness else []) ++
  writeBits tx.nLockTime

/-! ## The formats of the parts -/

theorem writeBits_canonical {w : Nat} (hw : 8 ∣ w) : IsCanonical (writeBits (w := w)) (readBits w) (fun _ => True) := by
  have hpow : 256 ^ (w / 8) = 2 ^ w := by
    rw [show 256 = 2 ^ 8 from rfl, ← Nat.pow_mul, Nat.mul_div_cancel' hw]
  unfold readBits writeBits readdata
  refine ((IsCanonical.le endOfData (w / 8)).bind BitVec.toNat (fun n => .done (BitVec.ofNat w n)) ?_).congr ?_ ?_
  · rintro n v hn rfl
    rw [BitVec.toNat_ofNat, Nat.mod_eq_of_lt (hpow ▸ hn)]
  · intro v
    rw [BitVec.ofNat_toNat, BitVec.setWidth_eq, hpow]
    simp [v.isLt]
  · intro v _
    exact append_nil _

theorem writeByte_canonical : IsCanonical writeByte readByte (fun _ => True) := by
  unfold readByte writeByte readdata
  refine ((IsCanonical.le endOfData 1).bind UInt8.toNat (fun n => .done (UInt8.ofNat n)) ?_).congr ?_ ?_
  · rintro n b hn rfl
    rw [UInt8.toNat_ofNat', Nat.mod_eq_of_lt (by omega)]
  · intro b
    have := b.toNat_lt
    simp
    omega
  · intro b _
    exact append_nil _

theorem readWide_canonical (k least : Nat) :
    IsCanonical (leBytes k) (readWide k least) (fun n => n < 256 ^ k ∧ ¬ n < least) :=
  (IsCanonical.le endOfData k).refuse _

def marker (n : Nat) : Nat := if n < 253 then n else if n ≤ 0xffff then 253 else if n ≤ 0xffffffff then 254 else 255

def Announced (chSize n : Nat) : Prop :=
  if chSize < 253 then n = chSize
  else if chSize = 253 then n < 256 ^ 2 ∧ ¬ n < 253
  else if chSize = 254 then n < 256 ^ 4 ∧ ¬ n < 0x10000
  else n < 256 ^ 8 ∧ ¬ n < 0x100000000

def writeMarked (chSize n : Nat) : List UInt8 :=
  if chSize < 253 then [] else if chSize = 253 then leBytes 2 n else if chSize = 254 then leBytes 4 n else leBytes 8 n

theorem readMarked_canonical (chSize : Nat) :
    IsCanonical (writeMarked chSize) (readMarked chSize) (Announced chSize) := by
  unfold writeMarked readMarked Announced
  split_ifs
  · exact .done _
  · exact readWide_canonical 2 _
  · exact readWide_canonical 4 _
  · exact readWide_canonical 8 _

theorem announced_marker {chSize n : Nat} (hlt : chSize < 256 ^ 1) (h : Announced chSize n) : marker n = chSize := by
  unfold Announced at h
  unfold marker
  split_ifs at h ⊢ <;> omega

theorem writeCompactSize_unchecked : IsCanonical writeCompactSize readUncheckedSize (· < 2 ^ 64) := by
  refine ((IsCanonical.le endOfData 1).bind marker readMarked_canonical fun _ _ => announced_marker).congr ?_ ?_
  · intro n
    unfold marker Announced
    split_ifs <;> omega
  · intro n _
    unfold marker writeMarked writeCompactSize
    split_ifs <;> first | rfl | omega

theorem writeCompactSize_canonical : IsCanonical writeCompactSize readCompactSize (· ≤ MAX_SIZE) := by
  refine (writeCompactSize_unchecked.refuse "ReadCompactSize(): size too large").congr ?_ fun _ _ => rfl
  intro n
  unfold MAX_SIZE
  omega

theorem writeVector_canonical {α : Type} {ser : α → List UInt8} {unser : Stream α} {valid : α → Prop}
    (h : IsCanonical ser unser valid) :
    IsCanonical (writeVector ser) (readVector unser) (fun v => v.length ≤ MAX_SIZE ∧ ∀ a ∈ v, valid a) := by
  refine (writeCompactSize_canonical.bind length (fun n => h.replicate n) fun _ _ _ hv => hv.1).congr ?_ ?_
  · intro v
    simp
  · intro v _
    rfl

theorem writeByteVector_canonical : IsCanonical writeByteVector readByteVector (·.length ≤ MAX_SIZE) := by
  refine (writeCompactSize_canonical.bind length (fun n => .take endOfData n) fun _ _ _ hv => hv).congr ?_ ?_
  · intro v
    simp
  · intro v _
    rfl

theorem writeOutPoint_canonical : IsCanonical writeOutPoint readOutPoint (fun _ => True) := by
  unfold readOutPoint
  refine ((writeBits_canonical (by decide)).bind COutPoint.hash (fun hash =>
    (writeBits_canonical (by decide)).bind COutPoint.n (fun n => .done { hash, n }) ?_) ?_).congr ?_ ?_
  · rintro n o - rfl
    rfl
  · rintro hash o - ⟨-, ho⟩
    exact congrArg COutPoint.hash ho
  · intro o
    simp
  · intro o _
    simp [writeOutPoint]

def CTxIn.bare (txin : CTxIn) : CTxIn := { txin with scriptWitness := [] }

theorem writeTxIn_canonical :
    IsCanonical writeTxIn readTxIn (fun txin => txin.scriptSig.length ≤ MAX_SIZE ∧ txin.bare = txin) := by
  unfold readTxIn
  refine (writeOutPoint_canonical.bind CTxIn.prevout (fun prevout =>
    writeByteVector_canonical.bind CTxIn.scriptSig (fun scriptSig =>
      (writeBits_canonical (by decide)).bind CTxIn.nSequence
        (fun nSequence => .done { prevout, scriptSig, nSequence, scriptWitness := [] }) ?_) ?_) ?_).congr ?_ ?_
  · rintro nSequence txin - rfl
    rfl
  · rintro scriptSig txin - ⟨-, htxin⟩
    exact congrArg CTxIn.scriptSig htxin
  · rintro prevout txin - ⟨-, -, htxin⟩
    exact congrArg CTxIn.prevout htxin
  · intro txin
    simp only [true_and, and_congr_right_iff]
    exact fun _ => eq_comm
  · intro txin _
    simp [writeTxIn]

theorem writeTxOut_canonical :
    IsCanonical writeTxOut readTxOut (fun txout => txout.scriptPubKey.length ≤ MAX_SIZE) := by
  unfold readTxOut
  refine ((writeBits_canonical (by decide)).bind CTxOut.nValue (fun nValue =>
    writeByteVector_canonical.bind CTxOut.scriptPubKey (fun scriptPubKey => .done { nValue, scriptPubKey }) ?_)
      ?_).congr ?_ ?_
  · rintro scriptPubKey txout - rfl
    rfl
  · rintro nValue txout - ⟨-, htxout⟩
    exact congrArg CTxOut.nValue htxout
  · intro txout
    simp
  · intro txout _
    simp [writeTxOut]

def SmallWitness (stack : List (List UInt8)) : Prop := stack.length ≤ MAX_SIZE ∧ ∀ item ∈ stack, item.length ≤ MAX_SIZE

variable (vin : List CTxIn)

theorem readWitnesses_canonical : IsCanonical (fun vin' => vin'.flatMap writeWitness) (readWitnesses vin)
    (fun vin' => vin'.map CTxIn.bare = vin.map CTxIn.bare ∧ ∀ txin ∈ vin', SmallWitness txin.scriptWitness) := by
  induction vin with
  | nil =>
    refine (IsCanonical.done []).congr ?_ ?_
    · intro vin'
      rw [map_nil, map_eq_nil_iff]
      constructor
      · rintro rfl
        simp
      · exact And.left
    · rintro vin' rfl
      rfl
  | cons txin vin ih =>
    have hstack := writeVector_canonical writeByteVector_canonical
    constructor
    · rintro vin' ⟨hbare, hsmall⟩ rest
      obtain ⟨txin', vin', rfl⟩ := exists_cons_of_length_eq_add_one (by simpa using congrArg length hbare)
      obtain ⟨hhead, htail⟩ := cons.inj hbare
      unfold readWitnesses
      rw [flatMap_cons, append_assoc, writeWitness]
      rw [run_bind_of_ok (hstack.unser_ser (hsmall txin' mem_cons_self) _)]
      rw [run_bind_of_ok (ih.unser_ser ⟨htail, fun i hi => hsmall i (mem_cons_of_mem _ hi)⟩ rest)]
      obtain ⟨_, _, _, stack⟩ := txin'
      obtain ⟨_, _, _, _⟩ := txin
      simp only [CTxIn.bare, CTxIn.mk.injEq] at hhead
      obtain ⟨rfl, rfl, rfl, -⟩ := hhead
      rfl
    · intro bytes vin' rest hrun
      unfold readWitnesses at hrun
      obtain ⟨stack, _, hleft, hright⟩ := run_bind_ok.mp hrun
      obtain ⟨_, _, hmid, hdone⟩ := run_bind_ok.mp hright
      cases hdone
      obtain ⟨hsmall, rfl⟩ := hstack.ser_unser hleft
      obtain ⟨⟨hbare, hall⟩, rfl⟩ := ih.ser_unser hmid
      refine ⟨⟨?_, ?_⟩, ?_⟩
      · rw [map_cons, map_cons, hbare]
        rfl
      · intro i hi
        rcases mem_cons.mp hi with rfl | hi
        · exact hsmall
        · exact hall i hi
      · rw [flatMap_cons, append_assoc]
        rfl

/-! ## The format of a transaction -/

structure Small (tx : CMutableTransaction) : Prop where
  vin : tx.vin.length ≤ MAX_SIZE
  vout : tx.vout.length ≤ MAX_SIZE
  scriptSig : ∀ txin ∈ tx.vin, txin.scriptSig.length ≤ MAX_SIZE
  scriptPubKey : ∀ txout ∈ tx.vout, txout.scriptPubKey.length ≤ MAX_SIZE
  scriptWitness : ∀ txin ∈ tx.vin, SmallWitness txin.scriptWitness

theorem flatMap_writeTxIn_bare : (vin.map CTxIn.bare).flatMap writeTxIn = vin.flatMap writeTxIn := by
  rw [flatMap_map]
  rfl

theorem writeVector_bare : writeVector writeTxIn (vin.map CTxIn.bare) = writeVector writeTxIn vin := by
  unfold writeVector
  rw [length_map, flatMap_writeTxIn_bare]

variable {tx : CMutableTransaction} {bytes rest : List UInt8}

theorem Small.bare_valid (h : Small tx) : (tx.vin.map CTxIn.bare).length ≤ MAX_SIZE ∧
    ∀ txin ∈ tx.vin.map CTxIn.bare, txin.scriptSig.length ≤ MAX_SIZE ∧ txin.bare = txin := by
  rw [length_map]
  refine ⟨h.vin, ?_⟩
  intro txin hmem
  obtain ⟨txin, hin, rfl⟩ := mem_map.mp hmem
  exact ⟨h.scriptSig txin hin, rfl⟩

theorem map_bare_of_not_hasWitness (h : tx.hasWitness = false) : tx.vin.map CTxIn.bare = tx.vin := by
  unfold CMutableTransaction.hasWitness at h
  rw [any_eq_false] at h
  refine (map_congr_left ?_).trans (map_id _)
  intro txin hmem
  have hempty : txin.scriptWitness = [] := by simpa using h txin hmem
  unfold CTxIn.bare
  rw [← hempty]
  rfl

theorem serializeTransaction_of_hasWitness (h : tx.hasWitness = true) :
    serializeTransaction true tx = writeBits tx.version ++ (writeVector writeTxIn [] ++ (writeByte 1 ++
      (writeVector writeTxIn tx.vin ++ (writeVector writeTxOut tx.vout ++
        (tx.vin.flatMap writeWitness ++ writeBits tx.nLockTime))))) := by
  unfold serializeTransaction
  simp [h]

theorem serializeTransaction_of_not_hasWitness (h : tx.hasWitness = false) :
    serializeTransaction true tx = writeBits tx.version ++
    (writeVector writeTxIn tx.vin ++ (writeVector writeTxOut tx.vout ++ writeBits tx.nLockTime)) := by
  unfold serializeTransaction
  simp [h]

theorem unser_ser_of_hasWitness (h : Small tx) (hwitness : tx.hasWitness = true) (rest : List UInt8) :
    (unserializeTransaction true).run (serializeTransaction true tx ++ rest) = .ok (tx, rest) := by
  have hvin := writeVector_canonical writeTxIn_canonical
  have hvout := writeVector_canonical writeTxOut_canonical
  have hword := writeBits_canonical (w := 32) (by decide)
  rw [serializeTransaction_of_hasWitness hwitness]
  simp only [append_assoc]
  unfold unserializeTransaction
  rw [run_bind_of_ok (hword.unser_ser trivial _)]
  rw [run_bind_of_ok (hvin.unser_ser ⟨Nat.zero_le _, by simp⟩ _)]
  -- The empty list sends the reader to the flag byte.
  have hinsOuts : (readInsOuts true []).run (writeByte 1 ++ (writeVector writeTxIn tx.vin ++
      (writeVector writeTxOut tx.vout ++ (tx.vin.flatMap writeWitness ++ (writeBits tx.nLockTime ++ rest))))) =
      .ok ((1, tx.vin.map CTxIn.bare, tx.vout), tx.vin.flatMap writeWitness ++ (writeBits tx.nLockTime ++ rest)) := by
    unfold readInsOuts
    rw [if_pos ⟨rfl, rfl⟩, run_bind_of_ok (writeByte_canonical.unser_ser trivial _), if_pos (by decide),
      ← writeVector_bare, run_bind_of_ok (hvin.unser_ser h.bare_valid _),
      run_bind_of_ok (hvout.unser_ser ⟨h.vout, h.scriptPubKey⟩ _)]
    rfl
  rw [run_bind_of_ok hinsOuts]
  have hflagged : (readFlagged true 1 (tx.vin.map CTxIn.bare)).run
      (tx.vin.flatMap writeWitness ++ (writeBits tx.nLockTime ++ rest)) =
        .ok ((0, tx.vin), writeBits tx.nLockTime ++ rest) := by
    have hall := (readWitnesses_canonical (tx.vin.map CTxIn.bare)).unser_ser (a := tx.vin)
      ⟨by rw [map_map]; rfl, h.scriptWitness⟩ (writeBits tx.nLockTime ++ rest)
    unfold readFlagged
    rw [if_pos ⟨by decide, rfl⟩, run_bind_of_ok hall, if_neg]
    · rfl
    · unfold CMutableTransaction.hasWitness at hwitness
      simp [hwitness]
  simp only
  rw [run_bind_of_ok hflagged]
  simp only [ne_eq, not_true_eq_false, if_false]
  rw [run_bind_of_ok (hword.unser_ser trivial _)]
  rfl

theorem unser_ser_of_not_hasWitness (h : Small tx) (hwitness : tx.hasWitness = false)
    (hne : tx.vin ≠ []) (rest : List UInt8) :
    (unserializeTransaction true).run (serializeTransaction true tx ++ rest) = .ok (tx, rest) := by
  have hvin := writeVector_canonical writeTxIn_canonical
  have hvout := writeVector_canonical writeTxOut_canonical
  have hword := writeBits_canonical (w := 32) (by decide)
  have hbare := h.bare_valid
  rw [map_bare_of_not_hasWitness hwitness] at hbare
  rw [serializeTransaction_of_not_hasWitness hwitness]
  simp only [append_assoc]
  unfold unserializeTransaction
  rw [run_bind_of_ok (hword.unser_ser trivial _), run_bind_of_ok (hvin.unser_ser hbare _)]
  have hinsOuts : (readInsOuts true tx.vin).run (writeVector writeTxOut tx.vout ++ (writeBits tx.nLockTime ++ rest)) =
      .ok ((0, tx.vin, tx.vout), writeBits tx.nLockTime ++ rest) := by
    unfold readInsOuts
    rw [if_neg (by simpa using hne), run_bind_of_ok (hvout.unser_ser ⟨h.vout, h.scriptPubKey⟩ _)]
    rfl
  rw [run_bind_of_ok hinsOuts]
  have hflagged : (readFlagged true 0 tx.vin).run (writeBits tx.nLockTime ++ rest) =
      .ok ((0, tx.vin), writeBits tx.nLockTime ++ rest) := rfl
  simp only
  rw [run_bind_of_ok hflagged]
  simp only [ne_eq, not_true_eq_false, if_false]
  rw [run_bind_of_ok (hword.unser_ser trivial _)]
  rfl

theorem readInsOuts_ok {first vin : List CTxIn} {flags : UInt8} {vout : List CTxOut}
    (h : (readInsOuts true first).run bytes = .ok ((flags, vin, vout), rest)) :
    (first = [] ∧ flags ≠ 0 ∧ vin.map CTxIn.bare = vin ∧
        bytes = writeByte flags ++ (writeVector writeTxIn vin ++ (writeVector writeTxOut vout ++ rest))) ∨
      (first = [] ∧ flags = 0 ∧ vin = [] ∧ vout = [] ∧ bytes = writeByte 0 ++ rest) ∨
      (first ≠ [] ∧ flags = 0 ∧ vin = first ∧ bytes = writeVector writeTxOut vout ++ rest) := by
  unfold readInsOuts at h
  split at h
  · next hempty =>
    have hfirst : first = [] := length_eq_zero_iff.mp hempty.1
    obtain ⟨flags', mid, hflags, hmore⟩ := run_bind_ok.mp h
    obtain ⟨-, rfl⟩ := writeByte_canonical.ser_unser hflags
    split at hmore
    · next hne =>
      obtain ⟨_, _, hvin, hmore⟩ := run_bind_ok.mp hmore
      obtain ⟨vout', _, hvout, hdone⟩ := run_bind_ok.mp hmore
      simp only [run_pure, Except.ok.injEq, Prod.mk.injEq] at hdone
      obtain ⟨⟨rfl, rfl, rfl⟩, rfl⟩ := hdone
      obtain ⟨⟨-, hvalid⟩, rfl⟩ := (writeVector_canonical writeTxIn_canonical).ser_unser hvin
      obtain ⟨-, rfl⟩ := (writeVector_canonical writeTxOut_canonical).ser_unser hvout
      refine .inl ⟨hfirst, hne, ?_, rfl⟩
      exact (map_congr_left fun i hi => (hvalid i hi).2).trans (map_id _)
    · next hzero =>
      simp only [run_pure, Except.ok.injEq, Prod.mk.injEq] at hmore
      obtain ⟨⟨rfl, rfl, rfl⟩, rfl⟩ := hmore
      have hzero : flags' = 0 := by simpa using hzero
      subst hzero
      exact .inr (.inl ⟨hfirst, rfl, hfirst, rfl, rfl⟩)
  · next hne =>
    obtain ⟨vout', mid, hvout, hdone⟩ := run_bind_ok.mp h
    simp only [run_pure, Except.ok.injEq, Prod.mk.injEq] at hdone
    obtain ⟨⟨rfl, rfl, rfl⟩, rfl⟩ := hdone
    obtain ⟨-, rfl⟩ := (writeVector_canonical writeTxOut_canonical).ser_unser hvout
    exact .inr (.inr ⟨by simpa using hne, rfl, rfl, rfl⟩)

theorem readFlagged_ok {flags left : UInt8} {bare vin : List CTxIn}
    (h : (readFlagged true flags bare).run bytes = .ok ((left, vin), rest)) :
    (flags &&& 1 ≠ 0 ∧ left = flags ^^^ 1 ∧ vin.map CTxIn.bare = bare.map CTxIn.bare ∧
        (vin.any fun txin => !txin.scriptWitness.isEmpty) = true ∧ bytes = vin.flatMap writeWitness ++ rest) ∨
      (flags &&& 1 = 0 ∧ left = flags ∧ vin = bare ∧ bytes = rest) := by
  unfold readFlagged at h
  split at h
  · next hflag =>
    obtain ⟨_, _, hwitnesses, hmore⟩ := run_bind_ok.mp h
    split at hmore
    · cases hmore
    · next hany =>
      simp only [run_pure, Except.ok.injEq, Prod.mk.injEq] at hmore
      obtain ⟨⟨rfl, rfl⟩, rfl⟩ := hmore
      obtain ⟨⟨hbare, -⟩, rfl⟩ := (readWitnesses_canonical bare).ser_unser hwitnesses
      exact .inl ⟨hflag.1, rfl, hbare, by simpa using hany, rfl⟩
  · next hflag =>
    simp only [run_pure, Except.ok.injEq, Prod.mk.injEq] at h
    obtain ⟨⟨rfl, rfl⟩, rfl⟩ := h
    exact .inr ⟨by simpa using hflag, rfl, rfl, rfl⟩

theorem ser_unser (h : (unserializeTransaction true).run bytes = .ok (tx, rest)) :
    bytes = serializeTransaction true tx ++ rest := by
  unfold unserializeTransaction at h
  obtain ⟨version, _, hversion, h⟩ := run_bind_ok.mp h
  obtain ⟨_, _, hfirst, h⟩ := run_bind_ok.mp h
  obtain ⟨⟨flags, bare, vout⟩, _, hinsOuts, h⟩ := run_bind_ok.mp h
  obtain ⟨⟨left, vin⟩, _, hflagged, h⟩ := run_bind_ok.mp h
  simp only at h
  split at h
  · cases h
  next hleft =>
  obtain rfl : left = 0 := by simpa using hleft
  obtain ⟨nLockTime, _, hlock, hdone⟩ := run_bind_ok.mp h
  simp only [run_pure, Except.ok.injEq, Prod.mk.injEq] at hdone
  obtain ⟨rfl, rfl⟩ := hdone
  obtain ⟨-, rfl⟩ := (writeBits_canonical (by decide)).ser_unser hversion
  obtain ⟨⟨-, hvalid⟩, rfl⟩ := (writeVector_canonical writeTxIn_canonical).ser_unser hfirst
  obtain ⟨-, rfl⟩ := (writeBits_canonical (by decide)).ser_unser hlock
  rcases readFlagged_ok hflagged with ⟨-, hxor, hbare, hany, rfl⟩ | ⟨-, rfl, rfl, rfl⟩
  · -- Witnesses follow, so the flag byte was one.
    have hflags : flags = 1 := by
      have hcancel : flags = (flags ^^^ 1) ^^^ 1 := by rw [UInt8.xor_assoc, UInt8.xor_self, UInt8.xor_zero]
      rw [hcancel, ← hxor]
      rfl
    subst hflags
    rcases readInsOuts_ok hinsOuts with ⟨rfl, -, hbare', rfl⟩ | ⟨-, hzero, -⟩ | ⟨-, hzero, -⟩
    · have hwitness : CMutableTransaction.hasWitness ⟨vin, vout, version, nLockTime⟩ = true := hany
      rw [serializeTransaction_of_hasWitness hwitness]
      have hwrite : writeVector writeTxIn bare = writeVector writeTxIn vin := by
        rw [← writeVector_bare vin, hbare, hbare']
      simp only [hwrite, append_assoc]
    · exact absurd hzero (by decide)
    · exact absurd hzero (by decide)
  · rcases readInsOuts_ok hinsOuts with ⟨-, hne, -⟩ | ⟨rfl, -, rfl, rfl, rfl⟩ | ⟨hne, -, rfl, rfl⟩
    · exact absurd rfl hne
    · -- No inputs and no outputs: the flag byte is the count of the outputs.
      rw [serializeTransaction_of_not_hasWitness rfl]
      simp only [append_assoc]
      rfl
    · have hwitness : CMutableTransaction.hasWitness ⟨vin, vout, version, nLockTime⟩ = false := by
        unfold CMutableTransaction.hasWitness
        rw [any_eq_false]
        intro txin hmem
        have hbare := congrArg CTxIn.scriptWitness (hvalid txin hmem).2
        simp only [CTxIn.bare] at hbare
        simp [← hbare]
      rw [serializeTransaction_of_not_hasWitness hwitness]
      simp only [append_assoc]

/-- A transaction reads back, and what was read is written so. -/
theorem transaction_format_canonical : (∀ (tx : CMutableTransaction) (rest : List UInt8), tx.vin ≠ [] → Small tx →
    (unserializeTransaction true).run (serializeTransaction true tx ++ rest) = .ok (tx, rest)) ∧
    (∀ (bytes rest : List UInt8) (tx : CMutableTransaction), (unserializeTransaction true).run bytes = .ok (tx, rest) →
      bytes = serializeTransaction true tx ++ rest) ∧
    (∀ (bytes bytes' : List UInt8) (tx : CMutableTransaction), (unserializeTransaction true).run bytes = .ok (tx, []) →
      (unserializeTransaction true).run bytes' = .ok (tx, []) → bytes = bytes') := by
  refine ⟨?_, ?_, ?_⟩
  · intro tx rest hne hsmall
    cases hwitness : tx.hasWitness with
    | true => exact unser_ser_of_hasWitness hsmall hwitness rest
    | false => exact unser_ser_of_not_hasWitness hsmall hwitness hne rest
  · intro bytes rest tx h
    exact ser_unser h
  · intro bytes bytes' tx hleft hright
    rw [ser_unser hleft, ser_unser hright]

def smallTx : CMutableTransaction :=
  ⟨[⟨⟨1, 0⟩, [0x51], 0xffffffff, [[1, 2], []]⟩, ⟨⟨2, 1⟩, [], 0, []⟩], [⟨5000, [0x51]⟩], 2, 0⟩

theorem smallTx_format : (unserializeTransaction true).run (serializeTransaction true smallTx ++ [7]) =
    .ok (smallTx, [7]) := by
  have hsmall : Small smallTx :=
    ⟨by decide, by decide, by decide, by decide, by unfold SmallWitness; decide⟩
  exact transaction_format_canonical.1 smallTx [7] (by decide) hsmall

end FullNode.Wire

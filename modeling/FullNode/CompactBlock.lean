import FullNode.CoinbaseCommitment
import FullNode.Lib.SipHash
import FullNode.Transaction

/-!
# Compact blocks

A block is sent as its header, short ids and some transactions in full.
-/

namespace FullNode.CompactBlock

open Wire (CMutableTransaction Stream readBits readCompactSize readdata readVector serializeTransaction
    unserializeTransaction
  writeBits)
open Pool (blockMerkleRoot checkWitnessMalleation getWitnessHash isCoinBase readBlockHeader)

/-! ## Messages -/

structure PrefilledTransaction where
  /-- The offset from the last prefilled transaction. -/
  index : BitVec 16
  tx : CMutableTransaction
  deriving DecidableEq

structure CBlockHeaderAndShortTxIDs where
  header : CBlockHeader
  nonce : Uint64
  shorttxids : List Uint64
  prefilledtxn : List PrefilledTransaction
  deriving DecidableEq

structure CBlock where
  header : CBlockHeader
  vtx : List CMutableTransaction
  deriving DecidableEq

def isNull (tx : CMutableTransaction) : Bool := tx.vin.isEmpty && tx.vout.isEmpty

def headerIsNull (header : CBlockHeader) : Bool := header.nBits == 0

def nullHeader : CBlockHeader := ⟨0, 0, 0, 0, 0, 0⟩

def writeBlockHeader (header : CBlockHeader) : List UInt8 :=
  writeBits header.nVersion ++ writeBits header.hashPrevBlock ++ writeBits header.hashMerkleRoot ++
    writeBits header.nTime ++ writeBits header.nBits ++ writeBits header.nNonce

namespace CBlockHeaderAndShortTxIDs

def shortTxIDSelector (header : CBlockHeader) (nonce : Uint64) : Uint64 × Uint64 :=
  let shorttxidhash := leValue (sha256 (writeBlockHeader header ++ writeBits nonce))
  (BitVec.ofNat 64 shorttxidhash, BitVec.ofNat 64 (shorttxidhash / 2 ^ 64))

def shortIDOf (header : CBlockHeader) (nonce : Uint64) (wtxid : Uint256) : Uint64 :=
  let (k0, k1) := shortTxIDSelector header nonce
  sipHashUint256 k0 k1 wtxid &&& 0xffffffffffff

def getShortID (cmpctblock : CBlockHeaderAndShortTxIDs) (tx : CMutableTransaction) : Uint64 :=
  shortIDOf cmpctblock.header cmpctblock.nonce (getWitnessHash tx)

def blockTxCount (cmpctblock : CBlockHeaderAndShortTxIDs) : Nat :=
  cmpctblock.shorttxids.length + cmpctblock.prefilledtxn.length

/-- The constructor. A block without transactions has no message. -/
def ofBlock (block : CBlock) (nonce : Uint64) : Option CBlockHeaderAndShortTxIDs :=
  match block.vtx with
  | [] => none
  | gentx :: rest => some {
      header := block.header
      nonce
      shorttxids := rest.map fun tx => shortIDOf block.header nonce (getWitnessHash tx)
      prefilledtxn := [⟨0, gentx⟩] }

end CBlockHeaderAndShortTxIDs

def readPrefilled : Stream PrefilledTransaction := do
  let n ← readCompactSize
  if n > 0xffff then throw "CompactSize exceeds limit of type"
  else do
    let tx ← unserializeTransaction true
    return { index := BitVec.ofNat 16 n, tx }

def readShortID : Stream Uint64 := do
  let n ← readdata 6
  return BitVec.ofNat 64 n

def readCompactBlock : Stream CBlockHeaderAndShortTxIDs := do
  let header ← readBlockHeader
  let nonce ← readBits 64
  let shorttxids ← readVector readShortID
  let prefilledtxn ← readVector readPrefilled
  let cmpctblock : CBlockHeaderAndShortTxIDs := { header, nonce, shorttxids, prefilledtxn }
  if cmpctblock.blockTxCount > 0xffff then throw "indexes overflowed 16 bits" else return cmpctblock

def Deserialized (cmpctblock : CBlockHeaderAndShortTxIDs) : Prop :=
  ∃ bytes rest, readCompactBlock.run bytes = .ok (cmpctblock, rest)

/-! ## The block while it is downloaded -/

inductive ReadStatus where
  | ok
  /-- The peer sent an invalid object. -/
  | invalid
  /-- The object could not be processed. -/
  | failed
  deriving DecidableEq

structure PartiallyDownloadedBlock where
  txnAvailable : List (Option CMutableTransaction) := []
  prefilledCount : Uint64 := 0
  mempoolCount : Uint64 := 0
  extraCount : Uint64 := 0
  header : CBlockHeader := nullHeader

def readAt {α : Type} (v : List α) (i : Nat) : Checked α :=
  match v[i]? with
  | some a => .ok a
  | none => .error .badIterator

def writeAt {α : Type} (v : List α) (i : Nat) (a : α) : Checked (List α) :=
  if i < v.length then .ok (v.set i a) else .error .badIterator

def MIN_SERIALIZABLE_TRANSACTION_WEIGHT : Nat := WITNESS_SCALE_FACTOR * 10

/-- The loop over `prefilledtxn`, with `txn_available`. -/
def placePrefilled (shorttxids : Nat) : Nat → Int → List PrefilledTransaction → List (Option CMutableTransaction) →
    Checked (ReadStatus × List (Option CMutableTransaction))
  | _, _, [], txnAvailable => .ok (.ok, txnAvailable)
  | i, lastprefilledindex, prefilled :: prefilledtxn, txnAvailable =>
    if isNull prefilled.tx then .ok (.invalid, txnAvailable)
    else
      let lastprefilledindex := lastprefilledindex + (prefilled.index.toNat + 1)
      if lastprefilledindex > 0xffff then .ok (.invalid, txnAvailable)
      else if lastprefilledindex.toNat > shorttxids + i then .ok (.invalid, txnAvailable)
      else do
        let txnAvailable ← writeAt txnAvailable lastprefilledindex.toNat (some prefilled.tx)
        placePrefilled shorttxids (i + 1) lastprefilledindex prefilledtxn txnAvailable

/-- The loop `while (txn_available[i + index_offset])`. -/
def skipAvailable (txnAvailable : List (Option CMutableTransaction)) (i : Nat) : Nat → BitVec 16 → Checked (BitVec 16)
  | 0, _ => .error .endless
  | fuel + 1, indexOffset => do
    if (← readAt txnAvailable (i + indexOffset.toNat)).isSome then skipAvailable txnAvailable i fuel (indexOffset + 1)
    else return indexOffset

/-- The bucket size of a key among these, the oldest first. -/
abbrev BucketSize := List Uint64 → Uint64 → Nat

/-- The loop over `shorttxids`, without result at a full bucket. -/
def mapShortIDs (bucketSize : BucketSize) (txnAvailable : List (Option CMutableTransaction)) :
    Nat → BitVec 16 → List Uint64 → AssocMap Uint64 (BitVec 16) → Checked (Option (AssocMap Uint64 (BitVec 16)))
  | _, _, [], positions => .ok (some positions)
  | i, indexOffset, shortid :: shorttxids, positions => do
    let indexOffset ← skipAvailable txnAvailable i 0x10000 indexOffset
    let positions := positions.insert shortid (BitVec.ofNat 16 (i + indexOffset.toNat))
    if bucketSize positions.keys.reverse shortid > 12 then return none
    else mapShortIDs bucketSize txnAvailable (i + 1) indexOffset shorttxids positions

structure Matching where
  txnAvailable : List (Option CMutableTransaction)
  haveTxn : List Bool
  mempoolCount : Uint64
  extraCount : Uint64

section Scan

variable (getWitnessHash : CMutableTransaction → Uint256) (getShortID : CMutableTransaction → Uint64)
  (positions : AssocMap Uint64 (BitVec 16))

def matchMempool (s : Matching) (tx : CMutableTransaction) : Checked Matching :=
  match positions.lookup (getShortID tx) with
  | none => .ok s
  | some pos => do
    if !(← readAt s.haveTxn pos.toNat) then
      return { s with
        txnAvailable := ← writeAt s.txnAvailable pos.toNat (some tx)
        haveTxn := ← writeAt s.haveTxn pos.toNat true
        mempoolCount := s.mempoolCount + 1 }
    else if (← readAt s.txnAvailable pos.toNat).isSome then
      return { s with
        txnAvailable := ← writeAt s.txnAvailable pos.toNat none
        mempoolCount := s.mempoolCount - 1 }
    else return s

def scanMempool : List CMutableTransaction → Matching → Checked Matching
  | [], s => .ok s
  | tx :: txns, s => do
    let s ← matchMempool getShortID positions s tx
    if s.mempoolCount = BitVec.ofNat 64 positions.keys.length then return s else scanMempool txns s

/-- An extra transaction, which only another one withdraws. -/
def matchExtra (s : Matching) (tx : CMutableTransaction) : Checked Matching :=
  match positions.lookup (getShortID tx) with
  | none => .ok s
  | some pos => do
    if !(← readAt s.haveTxn pos.toNat) then
      return { s with
        txnAvailable := ← writeAt s.txnAvailable pos.toNat (some tx)
        haveTxn := ← writeAt s.haveTxn pos.toNat true
        mempoolCount := s.mempoolCount + 1
        extraCount := s.extraCount + 1 }
    else if (← readAt s.txnAvailable pos.toNat).any fun available => getWitnessHash available != getWitnessHash tx then
      return { s with
        txnAvailable := ← writeAt s.txnAvailable pos.toNat none
        mempoolCount := s.mempoolCount - 1
        extraCount := s.extraCount - 1 }
    else return s

/-- A null pointer is skipped without looking whether to stop. -/
def scanExtra : List (Option CMutableTransaction) → Matching → Checked Matching
  | [], s => .ok s
  | none :: extraTxn, s => scanExtra extraTxn s
  | some tx :: extraTxn, s => do
    let s ← matchExtra getWitnessHash getShortID positions s tx
    if s.mempoolCount = BitVec.ofNat 64 positions.keys.length then return s else scanExtra extraTxn s

end Scan

def initData (bucketSize : BucketSize) (cmpctblock : CBlockHeaderAndShortTxIDs) (pool : List CMutableTransaction)
    (extraTxn : List (Option CMutableTransaction)) (s : PartiallyDownloadedBlock) :
    Checked (ReadStatus × PartiallyDownloadedBlock) :=
  if headerIsNull cmpctblock.header || (cmpctblock.shorttxids.isEmpty && cmpctblock.prefilledtxn.isEmpty) then .ok
    (.invalid, s)
  else if cmpctblock.shorttxids.length + cmpctblock.prefilledtxn.length >
    MAX_BLOCK_WEIGHT / MIN_SERIALIZABLE_TRANSACTION_WEIGHT then
    .ok (.invalid, s)
  else if !headerIsNull s.header || !s.txnAvailable.isEmpty then .ok (.invalid, s)
  else do
    let s := { s with header := cmpctblock.header }
    let (status, txnAvailable) ← placePrefilled cmpctblock.shorttxids.length 0 (-1) cmpctblock.prefilledtxn
      (List.replicate cmpctblock.blockTxCount none)
    let s := { s with txnAvailable }
    if status ≠ .ok then return (status, s)
    else do
      let s := { s with prefilledCount := BitVec.ofNat 64 cmpctblock.prefilledtxn.length }
      match ← mapShortIDs bucketSize txnAvailable 0 0 cmpctblock.shorttxids ∅ with
      | none => return (.failed, s)
      | some positions =>
        if positions.keys.length ≠ cmpctblock.shorttxids.length then return (.failed, s)
        else do
          let r ← scanMempool cmpctblock.getShortID positions pool
            ⟨txnAvailable, List.replicate txnAvailable.length false, s.mempoolCount, s.extraCount⟩
          let r ← scanExtra getWitnessHash cmpctblock.getShortID positions extraTxn r
          return (.ok, { s with
            txnAvailable := r.txnAvailable, mempoolCount := r.mempoolCount, extraCount := r.extraCount })

/-! ## The whole block -/

def checkMerkleRoot (block : CBlock) : Bool :=
  decide (block.header.hashMerkleRoot = (blockMerkleRoot block.vtx).1) && !(blockMerkleRoot block.vtx).2

def isBlockMutated (block : CBlock) (checkWitnessRoot : Bool) : Checked Bool :=
  if !checkMerkleRoot block then .ok true
  else if !(block.vtx.head?.any isCoinBase) then .ok (block.vtx.any fun tx =>
    (serializeTransaction false tx).length == 64)
  else (checkWitnessMalleation block.vtx checkWitnessRoot).map Option.isSome

/-- The transactions and the rest of `vtx_missing`, or a failure. -/
def takeMissing : List (Option CMutableTransaction) → List CMutableTransaction →
    Except (List (Option CMutableTransaction)) (List CMutableTransaction × List CMutableTransaction)
  | [], vtxMissing => .ok ([], vtxMissing)
  | none :: txnAvailable, [] => .error (none :: txnAvailable)
  | none :: txnAvailable, tx :: vtxMissing =>
    ((takeMissing txnAvailable vtxMissing).map fun r => (tx :: r.1, r.2)).mapError (none :: ·)
  | some tx :: txnAvailable, vtxMissing =>
    ((takeMissing txnAvailable vtxMissing).map fun r => (tx :: r.1, r.2)).mapError (none :: ·)

/-- `FillBlock`, with the block it has put together. -/
def fillBlock (s : PartiallyDownloadedBlock) (vtxMissing : List CMutableTransaction) (segwitActive : Bool) :
    Checked (ReadStatus × Option CBlock × PartiallyDownloadedBlock) :=
  if headerIsNull s.header then .ok (.invalid, none, s)
  else
    match takeMissing s.txnAvailable vtxMissing with
    | .error txnAvailable => .ok (.invalid, none, { s with txnAvailable })
    | .ok (vtx, rest) =>
      let block : CBlock := ⟨s.header, vtx⟩
      -- it cannot be called again
      let s := { s with header := nullHeader, txnAvailable := [] }
      if !rest.isEmpty then .ok (.invalid, some block, s)
      else do
        if ← isBlockMutated block segwitActive then return (.failed, some block, s) else return (.ok, some block, s)

end FullNode.CompactBlock

import FullNode.Pow

/-!
# Headers sync

`HeadersSyncState`: a peer's headers are downloaded twice.
-/

open FullNode.ArithUint256

namespace FullNode

def HEADER_COMMITMENT_PERIOD : Nat := 632
def REDOWNLOAD_BUFFER_SIZE : Nat := 15009

/-- A header without `hashPrevBlock`. -/
structure CompressedHeader where
  nVersion : BitVec 32
  hashMerkleRoot : Uint256
  nTime : Uint32
  nBits : Uint32
  nNonce : Uint32
  deriving DecidableEq

def CBlockHeader.compress (header : CBlockHeader) : CompressedHeader :=
  ⟨header.nVersion, header.hashMerkleRoot, header.nTime, header.nBits, header.nNonce⟩

def CompressedHeader.getFullHeader (header : CompressedHeader) (hashPrevBlock : Uint256) : CBlockHeader :=
  ⟨header.nVersion, hashPrevBlock, header.hashMerkleRoot, header.nTime, header.nBits, header.nNonce⟩

def getBlockProof (nBits : Uint32) : Checked ArithUint256 :=
  let bnTarget := setCompact nBits
  if bnTarget.fNegative || bnTarget.fOverflow || bnTarget.value == 0 then return 0
  else do
    let q ← div (~~~bnTarget.value) (bnTarget.value + 1)
    return q + 1

structure HeadersSync where
  consensusParams : Params
  getHash : CBlockHeader → Uint256
  /-- The salted hasher. -/
  hasher : Uint256 → Uint64
  commitOffset : Nat
  chainStart : CBlockIndex
  minimumRequiredWork : ArithUint256
  maxCommitments : Nat

inductive DownloadState where
  | presync
  | redownload
  | final
  deriving DecidableEq

structure HeadersSyncState where
  currentChainWork : ArithUint256
  headerCommitments : List Bool
  lastHeaderReceived : CBlockHeader
  currentHeight : Nat
  redownloadedHeaders : List CompressedHeader
  redownloadBufferLastHeight : Nat
  redownloadBufferLastHash : Uint256
  redownloadBufferFirstPrevHash : Uint256
  redownloadChainWork : ArithUint256
  processAllRemainingHeaders : Bool
  downloadState : DownloadState
  /-- The headers of each phase so far. Nothing reads these two. -/
  presynced : List CBlockHeader
  redownloaded : List CBlockHeader
  deriving DecidableEq

inductive SyncAbort where
  | nonContinuousHeaders
  | invalidDifficultyTransition
  | exceededMaxCommitments
  | commitmentOverrun
  | commitmentMismatch
  | wrongState
  deriving DecidableEq

structure ProcessingResult where
  powValidatedHeaders : List CBlockHeader
  /-- Why `success` is false, if it is. -/
  abort : Option SyncAbort
  success : Bool
  requestMore : Bool
  deriving DecidableEq

namespace HeadersSync

def nullHeader : CBlockHeader := ⟨0, 0, 0, 0, 0, 0⟩

def initial (sync : HeadersSync) : HeadersSyncState where
  currentChainWork := sync.chainStart.entry.nChainWork
  headerCommitments := []
  lastHeaderReceived := sync.chainStart.getBlockHeader
  currentHeight := sync.chainStart.nHeight
  redownloadedHeaders := []
  redownloadBufferLastHeight := 0
  redownloadBufferLastHash := 0
  redownloadBufferFirstPrevHash := 0
  redownloadChainWork := 0
  processAllRemainingHeaders := false
  downloadState := .presync
  presynced := []
  redownloaded := []

def finalize (s : HeadersSyncState) : HeadersSyncState :=
  { s with
    headerCommitments := []
    lastHeaderReceived := nullHeader
    redownloadedHeaders := []
    redownloadBufferLastHash := 0
    redownloadBufferFirstPrevHash := 0
    processAllRemainingHeaders := false
    currentHeight := 0
    downloadState := .final }

def commitment (sync : HeadersSync) (header : CBlockHeader) : Bool :=
  sync.hasher (sync.getHash header) &&& 1 ≠ 0

/-! ## First phase -/

def addCommitment (sync : HeadersSync) (s : HeadersSyncState) (height : Nat)
    (header : CBlockHeader) : HeadersSyncState :=
  if height % HEADER_COMMITMENT_PERIOD = sync.commitOffset then
    { s with headerCommitments := s.headerCommitments ++ [sync.commitment header] }
  else s

def validateAndProcessSingleHeader (sync : HeadersSync) (s : HeadersSyncState) (current : CBlockHeader) :
    Checked (Option SyncAbort × HeadersSyncState) := do
  if s.downloadState ≠ .presync then return (some .wrongState, s)
  let nextHeight := s.currentHeight + 1
  let permitted ← permittedDifficultyTransition sync.consensusParams nextHeight s.lastHeaderReceived.nBits
    current.nBits
  if !permitted then return (some .invalidDifficultyTransition, s)
  let s := sync.addCommitment s nextHeight current
  if nextHeight % HEADER_COMMITMENT_PERIOD = sync.commitOffset ∧ s.headerCommitments.length > sync.maxCommitments then
    return (some .exceededMaxCommitments, s)
  let proof ← getBlockProof current.nBits
  return (none, { s with
    currentChainWork := s.currentChainWork + proof
    lastHeaderReceived := current
    currentHeight := nextHeight
    presynced := s.presynced ++ [current] })

def forHeaders (step : HeadersSyncState → CBlockHeader → Checked (Option SyncAbort × HeadersSyncState)) :
    List CBlockHeader → HeadersSyncState → Checked (Option SyncAbort × HeadersSyncState)
  | [], s => .ok (none, s)
  | header :: headers, s => do
    let (abort, s) ← step s header
    match abort with
    | some abort => return (some abort, s)
    | none => forHeaders step headers s

def startRedownload (sync : HeadersSync) (s : HeadersSyncState) : HeadersSyncState :=
  { s with
    redownloadedHeaders := []
    redownloadBufferLastHeight := sync.chainStart.nHeight
    redownloadBufferFirstPrevHash := sync.chainStart.getBlockHash
    redownloadBufferLastHash := sync.chainStart.getBlockHash
    redownloadChainWork := sync.chainStart.entry.nChainWork
    downloadState := .redownload }

def validateAndStoreHeadersCommitments (sync : HeadersSync) (s : HeadersSyncState)
    (headers : List CBlockHeader) : Checked (Option SyncAbort × HeadersSyncState) := do
  match headers with
  | [] => return (none, s)
  | first :: _ =>
    if s.downloadState ≠ .presync then return (some .wrongState, s)
    if first.hashPrevBlock ≠ sync.getHash s.lastHeaderReceived then
      return (some .nonContinuousHeaders, s)
    let (abort, s) ← forHeaders sync.validateAndProcessSingleHeader headers s
    match abort with
    | some abort => return (some abort, s)
    | none =>
      return (none, if s.currentChainWork ≥ sync.minimumRequiredWork then sync.startRedownload s else s)

/-! ## Second phase -/

def checkCommitment (sync : HeadersSync) (s : HeadersSyncState)
    (header : CBlockHeader) : Option SyncAbort × HeadersSyncState :=
  match s.headerCommitments with
  | [] => (some .commitmentOverrun, s)
  | expectedCommitment :: headerCommitments =>
    (if sync.commitment header ≠ expectedCommitment then some .commitmentMismatch else none,
      { s with headerCommitments })

def previousBits (sync : HeadersSync) (s : HeadersSyncState) : Uint32 :=
  (s.redownloadedHeaders.getLast?.map CompressedHeader.nBits).getD sync.chainStart.nBits

def validateAndStoreRedownloadedHeader (sync : HeadersSync) (s : HeadersSyncState) (header : CBlockHeader) :
    Checked (Option SyncAbort × HeadersSyncState) := do
  if s.downloadState ≠ .redownload then return (some .wrongState, s)
  let nextHeight := s.redownloadBufferLastHeight + 1
  if header.hashPrevBlock ≠ s.redownloadBufferLastHash then return (some .nonContinuousHeaders, s)
  let permitted ← permittedDifficultyTransition sync.consensusParams nextHeight (sync.previousBits s)
    header.nBits
  if !permitted then return (some .invalidDifficultyTransition, s)
  let proof ← getBlockProof header.nBits
  let redownloadChainWork := s.redownloadChainWork + proof
  let s := { s with
    redownloadChainWork
    processAllRemainingHeaders :=
      s.processAllRemainingHeaders || decide (redownloadChainWork ≥ sync.minimumRequiredWork) }
  let (abort, s) := if !s.processAllRemainingHeaders ∧
      nextHeight % HEADER_COMMITMENT_PERIOD = sync.commitOffset then sync.checkCommitment s header
    else (none, s)
  match abort with
  | some abort => return (some abort, s)
  | none =>
    return (none, { s with
      redownloadedHeaders := s.redownloadedHeaders ++ [header.compress]
      redownloadBufferLastHeight := nextHeight
      redownloadBufferLastHash := sync.getHash header
      redownloaded := s.redownloaded ++ [header] })

/-- The loop that empties the buffer: headers, rest, hash before. -/
def popHeaders (sync : HeadersSync) (processAllRemainingHeaders : Bool) :
    List CompressedHeader → Uint256 → List CBlockHeader × List CompressedHeader × Uint256
  | [], firstPrevHash => ([], [], firstPrevHash)
  | compressed :: buffer, firstPrevHash =>
    if (compressed :: buffer).length > REDOWNLOAD_BUFFER_SIZE || processAllRemainingHeaders then
      let header := compressed.getFullHeader firstPrevHash
      let (headers, rest, hash) := popHeaders sync processAllRemainingHeaders buffer (sync.getHash header)
      (header :: headers, rest, hash)
    else ([], compressed :: buffer, firstPrevHash)

def popHeadersReadyForAcceptance (sync : HeadersSync) (s : HeadersSyncState) : List CBlockHeader × HeadersSyncState :=
  if s.downloadState ≠ .redownload then ([], s)
  else
    let (headers, redownloadedHeaders, redownloadBufferFirstPrevHash) :=
      sync.popHeaders s.processAllRemainingHeaders s.redownloadedHeaders s.redownloadBufferFirstPrevHash
    (headers, { s with redownloadedHeaders, redownloadBufferFirstPrevHash })

/-! ## Batches -/

def processPresync (sync : HeadersSync) (s : HeadersSyncState) (headers : List CBlockHeader)
    (fullHeadersMessage : Bool) : Checked (ProcessingResult × HeadersSyncState) := do
  let (abort, s) ← sync.validateAndStoreHeadersCommitments s headers
  return (⟨[], abort, abort.isNone, abort.isNone && (fullHeadersMessage || s.downloadState == .redownload)⟩, s)

def processRedownload (sync : HeadersSync) (s : HeadersSyncState) (headers : List CBlockHeader)
    (fullHeadersMessage : Bool) : Checked (ProcessingResult × HeadersSyncState) := do
  let (abort, s) ← forHeaders sync.validateAndStoreRedownloadedHeader headers s
  match abort with
  | some abort => return (⟨[], some abort, false, false⟩, s)
  | none =>
    let (powValidatedHeaders, s) := sync.popHeadersReadyForAcceptance s
    let complete := s.redownloadedHeaders.isEmpty && s.processAllRemainingHeaders
    return (⟨powValidatedHeaders, none, true, !complete && fullHeadersMessage⟩, s)

def processInState (sync : HeadersSync) (s : HeadersSyncState) (headers : List CBlockHeader)
    (fullHeadersMessage : Bool) : Checked (ProcessingResult × HeadersSyncState) :=
  if s.downloadState = .presync then sync.processPresync s headers fullHeadersMessage
  else sync.processRedownload s headers fullHeadersMessage

def processNextHeaders (sync : HeadersSync) (s : HeadersSyncState) (headers : List CBlockHeader)
    (fullHeadersMessage : Bool) : Checked (ProcessingResult × HeadersSyncState) := do
  if headers.isEmpty || s.downloadState == .final then return (⟨[], none, false, false⟩, s)
  let (ret, s) ← sync.processInState s headers fullHeadersMessage
  return (ret, if ret.success && ret.requestMore then s else finalize s)

/-- The results of a sequence of batches, and the state after them. -/
def run (sync : HeadersSync) : HeadersSyncState → List (List CBlockHeader × Bool) →
    Checked (List ProcessingResult × HeadersSyncState)
  | s, [] => .ok ([], s)
  | s, (headers, fullHeadersMessage) :: batches => do
    let (ret, s) ← sync.processNextHeaders s headers fullHeadersMessage
    let (rets, s) ← run sync s batches
    return (ret :: rets, s)

end HeadersSync

end FullNode

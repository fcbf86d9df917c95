import FullNode.BlockProof
import FullNode.Lib.Forest

/-!
# The block tree of a chainstate

Headers and blocks arrive, the best chain is activated, a user prefers a block, takes one out or
back in. One chainstate, nothing pruned, no fault of the disk, and each call runs to its end before the next.
A block index entry is named by its pointer, and sets of pointers are lists.
-/

namespace FullNode.BlockTree

open Forest

abbrev Ptr := Nat

/-! ## Entries -/

/-- The validity levels of `BlockStatus`. -/
inductive BlockValid where
  | unknown | reserved | tree | transactions | chain | scripts
  deriving DecidableEq

def BlockValid.level : BlockValid → Nat
  | unknown => 0
  | reserved => 1
  | tree => 2
  | transactions => 3
  | chain => 4
  | scripts => 5

/-- `nStatus`: the level and the flags for data and failure. -/
structure BlockStatus where
  valid : BlockValid
  haveData : Bool
  failedValid : Bool
  failedChild : Bool
  deriving DecidableEq

namespace BlockStatus

/-- `nStatus & BLOCK_FAILED_MASK`. -/
def failed (st : BlockStatus) : Bool := st.failedValid || st.failedChild

def isValid (st : BlockStatus) (nUpTo : BlockValid) : Bool := !st.failed && nUpTo.level ≤ st.valid.level

def raiseValidity (nUpTo : BlockValid) (st : BlockStatus) : BlockStatus :=
  if st.failed then st else if st.valid.level < nUpTo.level then { st with valid := nUpTo } else st

def markValid (st : BlockStatus) : BlockStatus := { st with failedValid := true }
def markChild (st : BlockStatus) : BlockStatus := { st with failedChild := true }
/-- `(nStatus ^ BLOCK_FAILED_VALID) | BLOCK_FAILED_CHILD`. -/
def toChild (st : BlockStatus) : BlockStatus := { st with failedValid := !st.failedValid, failedChild := true }
/-- `nStatus & ~BLOCK_FAILED_MASK`. -/
def clear (st : BlockStatus) : BlockStatus := { st with failedValid := false, failedChild := false }

end BlockStatus

structure CBlockIndex where
  pprev : Option Ptr
  nHeight : Nat
  nChainWork : Nat
  nStatus : BlockStatus
  nTx : Nat
  chainTxCount : Nat
  nSequenceId : Int
  deriving DecidableEq

/-- `block` is read for entries of `blockIndex` only. -/
structure Chainstate where
  blockIndex : List Ptr
  block : Ptr → CBlockIndex
  tip : Ptr
  setBlockIndexCandidates : List Ptr
  blocksUnlinked : List (Ptr × Ptr)
  failedBlocks : List Ptr
  nBlockSequenceId : Int
  nBlockReverseSequenceId : Int
  nLastPreciousChainwork : Nat

/-- The parameters, and the verdict of `ConnectBlock`. -/
structure Env where
  hashGenesisBlock : Ptr
  genesisWork : Nat
  consensus : Params
  minimumChainWork : Nat
  connects : Ptr → Bool

/-- A header with the entries its hash and its parent's hash name. -/
structure CBlockHeader where
  self : Ptr
  hashPrevBlock : Ptr
  hash : Uint256
  nBits : Uint32

/-- What `CheckBlock` and `ContextualCheckBlock` say together. -/
inductive BlockVerdict where
  | valid | invalid | mutated
  deriving DecidableEq

structure CBlock extends CBlockHeader where
  vtxSize : Nat
  verdict : BlockVerdict
  vtx_ne : verdict = .valid → vtxSize ≠ 0

namespace Chainstate

variable (env : Env) (s : Chainstate)

def pprev (x : Ptr) : Option Ptr := (s.block x).pprev
def nHeight (x : Ptr) : Nat := (s.block x).nHeight
def nChainWork (x : Ptr) : Nat := (s.block x).nChainWork
def nTx (x : Ptr) : Nat := (s.block x).nTx
def chainTxCount (x : Ptr) : Nat := (s.block x).chainTxCount
def nSequenceId (x : Ptr) : Int := (s.block x).nSequenceId
def level (x : Ptr) : Nat := (s.block x).nStatus.valid.level
def haveData (x : Ptr) : Bool := (s.block x).nStatus.haveData
def failedValid (x : Ptr) : Bool := (s.block x).nStatus.failedValid
def failedChild (x : Ptr) : Bool := (s.block x).nStatus.failedChild
def failed (x : Ptr) : Bool := (s.block x).nStatus.failed
def isValid (x : Ptr) (nUpTo : BlockValid) : Bool := (s.block x).nStatus.isValid nUpTo
def haveNumChainTxs (x : Ptr) : Bool := s.chainTxCount x != 0

def modify (x : Ptr) (f : CBlockIndex → CBlockIndex) : Chainstate :=
  { s with block := fun y => if y = x then f (s.block x) else s.block y }

def setStatus (x : Ptr) (f : BlockStatus → BlockStatus) : Chainstate :=
  s.modify x fun b => { b with nStatus := f b.nStatus }

/-- A loop over `m_block_index` that changes an entry's own status. -/
def setStatusWhere (cond : Ptr → Bool) (f : BlockStatus → BlockStatus) : Chainstate :=
  { s with block := fun y =>
      if y ∈ s.blockIndex ∧ cond y then { s.block y with nStatus := f (s.block y).nStatus } else s.block y }

def insertCandidate (x : Ptr) : Chainstate := { s with setBlockIndexCandidates := s.setBlockIndexCandidates.insert x }
def insertCandidates (xs : List Ptr) : Chainstate :=
  { s with setBlockIndexCandidates := xs ∪ s.setBlockIndexCandidates }
def eraseCandidate (x : Ptr) : Chainstate :=
  { s with setBlockIndexCandidates := s.setBlockIndexCandidates.filter (· ≠ x) }

/-! ## Order and ancestors -/

/-- `CBlockIndexWorkComparator`. -/
def comp (pa pb : Ptr) : Bool :=
  if s.nChainWork pa ≠ s.nChainWork pb then s.nChainWork pa < s.nChainWork pb
  else if s.nSequenceId pa ≠ s.nSequenceId pb then s.nSequenceId pa > s.nSequenceId pb
  else pa > pb

/-- `GetAncestor` with the parents in place of the skip list. -/
def getAncestor (x : Ptr) (height : Nat) : Option Ptr :=
  climb s.pprev (fun y => s.nHeight y == height) (s.nHeight x + 1) x

/-- `m_chain.Contains`. -/
def contains (x : Ptr) : Bool := s.getAncestor s.tip (s.nHeight x) == some x

/-- `m_chain.FindFork`. -/
def findFork (x : Ptr) : Option Ptr :=
  (if s.nHeight x > s.nHeight s.tip then s.getAncestor x (s.nHeight s.tip) else some x).bind fun y =>
    climb s.pprev s.contains (s.nHeight y + 1) y

def bestCandidate : List Ptr → Option Ptr
  | [] => none
  | x :: xs =>
    match bestCandidate xs with
    | none => some x
    | some best => if s.comp best x then some x else some best

/-! ## Headers and blocks arrive -/

def checkBlockHeader (header : CBlockHeader) : Bool := checkProofOfWorkImpl header.hash header.nBits env.consensus

def SEQ_ID_INIT_FROM_DISK : Int := 1

def addEntry (x : Ptr) (entry : CBlockIndex) : Chainstate :=
  { s with
    blockIndex := s.blockIndex ++ [x]
    block := fun y => if y = x then entry else s.block y }

/-- The sum of chain work stays far below `2^256`. -/
def addToBlockIndex (header : CBlockHeader) : Checked Chainstate := do
  if header.self ∈ s.blockIndex then return s
  let proof ← getBlockProof header.nBits
  let hasPrev := header.hashPrevBlock ∈ s.blockIndex
  return s.addEntry header.self {
    pprev := if hasPrev then some header.hashPrevBlock else none
    nHeight := if hasPrev then s.nHeight header.hashPrevBlock + 1 else 0
    nChainWork := (if hasPrev then s.nChainWork header.hashPrevBlock else 0) + proof.toNat
    nStatus := ⟨.tree, false, false, false⟩
    nTx := 0
    chainTxCount := 0
    nSequenceId := SEQ_ID_INIT_FROM_DISK }

/-- The loop of `AcceptBlockHeader` over `m_failed_blocks`. -/
def failedAncestor (pindexPrev : Ptr) : List Ptr → Checked (Chainstate × Bool)
  | [] => .ok (s, false)
  | failedit :: rest =>
    if s.getAncestor pindexPrev (s.nHeight failedit) == some failedit then do
      check (s.failedValid failedit)
      let walk := wayTo s.pprev (· == failedit) (s.nHeight pindexPrev + 1) pindexPrev
      return (walk.foldl (fun s y => s.setStatus y .markChild) s, true)
    else failedAncestor pindexPrev rest

/-- The end of `AcceptBlockHeader`, and whether it accepts. -/
def addHeader (header : CBlockHeader) (minPowChecked : Bool) : Checked (Chainstate × Bool) :=
  if !minPowChecked then .ok (s, false)
  else do
    let s ← s.addToBlockIndex header
    return (s, true)

def acceptBlockHeader (header : CBlockHeader) (contextual minPowChecked : Bool) : Checked (Chainstate × Bool) :=
  if header.self ≠ env.hashGenesisBlock then
    if header.self ∈ s.blockIndex then .ok (s, !s.failed header.self)
    else if !checkBlockHeader env header then .ok (s, false)
    else if header.hashPrevBlock ∉ s.blockIndex then .ok (s, false)
    else if s.failed header.hashPrevBlock then .ok (s, false)
    else if !contextual then .ok (s, false)
    else do
      let (s, refused) ← if s.isValid header.hashPrevBlock .scripts then .ok (s, false)
        else s.failedAncestor header.hashPrevBlock s.failedBlocks
      if refused then return (s, false)
      s.addHeader header minPowChecked
  else s.addHeader header minPowChecked

def tryAddBlockIndexCandidate (x : Ptr) : Chainstate := if s.comp x s.tip then s else s.insertCandidate x

/-- `prev_tx_sum`. -/
def prevTxSum (x : Ptr) : Nat := s.nTx x + match s.pprev x with
  | none => 0
  | some p => s.chainTxCount p

def assignChainTxs (x : Ptr) : Chainstate :=
  { s.modify x fun b => { b with chainTxCount := s.prevTxSum x, nSequenceId := s.nBlockSequenceId } with
    nBlockSequenceId := s.nBlockSequenceId + 1 }

/-- The queue of `ReceivedBlockTransactions` moves on by one block. -/
def linkBlock (x : Ptr) : Chainstate × List Ptr :=
  ({ (s.assignChainTxs x).tryAddBlockIndexCandidate x with blocksUnlinked := s.blocksUnlinked.filter (·.1 ≠ x) },
    (s.blocksUnlinked.filter (·.1 = x)).map (·.2))

def linkBlocks : Nat → Chainstate → List Ptr → Checked Chainstate
  | _, s, [] => .ok s
  | 0, _, _ :: _ => .error .endless
  | fuel + 1, s, x :: queue =>
    let (s, range) := s.linkBlock x
    linkBlocks fuel s (queue ++ range)

def receiveData (x : Ptr) (vtxSize : Nat) : Chainstate :=
  s.modify x fun b => { b with
    nTx := vtxSize
    chainTxCount :=
      if b.chainTxCount = vtxSize + (match b.pprev with | none => 0 | some p => s.chainTxCount p) then b.chainTxCount
      else 0
    nStatus := BlockStatus.raiseValidity .transactions { b.nStatus with haveData := true } }

/-- Every block goes through the queue once. -/
def linkOrWait (x : Ptr) : Checked Chainstate :=
  match s.pprev x with
  | none => linkBlocks (s.blocksUnlinked.length + 1) s [x]
  | some p =>
    if s.haveNumChainTxs p then linkBlocks (s.blocksUnlinked.length + 1) s [x]
    else if s.isValid p .tree then .ok { s with blocksUnlinked := s.blocksUnlinked ++ [(p, x)] }
    else .ok s

def receivedBlockTransactions (x : Ptr) (vtxSize : Nat) : Checked Chainstate := (s.receiveData x vtxSize).linkOrWait x

def MIN_BLOCKS_TO_KEEP : Nat := 288

/-- Blocks nobody asked for are skipped when too far off. -/
def skipsUnrequested (x : Ptr) : Bool :=
  s.nTx x ≠ 0 || s.nChainWork x < s.nChainWork s.tip || s.nHeight x > s.nHeight s.tip + MIN_BLOCKS_TO_KEEP ||
    s.nChainWork x < env.minimumChainWork

def acceptBlock (block : CBlock) (fRequested contextual minPowChecked : Bool) : Checked Chainstate := do
  let (s, acceptedHeader) ← s.acceptBlockHeader env block.toCBlockHeader contextual minPowChecked
  if !acceptedHeader then return s
  if s.haveData block.self then return s
  if !fRequested && s.skipsUnrequested env block.self then return s
  match block.verdict with
  | .invalid => return s.setStatus block.self .markValid
  | .mutated => return s
  | .valid => s.receivedBlockTransactions block.self block.vtxSize

/-! ## Failure flags -/

def setBlockFailureFlags (invalidBlock : Ptr) : Chainstate :=
  s.setStatusWhere (fun y => s.getAncestor y (s.nHeight invalidBlock) == some invalidBlock && !s.failed y) .markChild

/-- Of `InvalidChainFound` the flags alone are read again. -/
def invalidChainFound (x : Ptr) : Chainstate := s.setBlockFailureFlags x

/-- The block itself, in `InvalidBlockFound` and in `InvalidateBlock`. -/
def markInvalid (x : Ptr) : Chainstate :=
  { (s.setStatus x .markValid).eraseCandidate x with failedBlocks := s.failedBlocks.insert x }

def invalidBlockFound (x : Ptr) : Chainstate := (s.markInvalid x).invalidChainFound x

/-! ## The best chain -/

/-- The first block above the active chain that cannot be used. -/
def findUnusable (pindexNew : Ptr) : Checked (Option Ptr) :=
  match climb s.pprev (fun y =>
    s.contains y || !(s.haveNumChainTxs y || s.nHeight y == 0) || s.failed y || !s.haveData y)
      (s.nHeight pindexNew + 1) pindexNew with
  | none => .ok none
  | some y => if s.contains y then .ok none else do
    check (s.haveNumChainTxs y || s.nHeight y == 0)
    return some y

/-- Takes the way from `pindexNew` to `pindexTest` out. -/
def removeChain (pindexNew pindexTest : Ptr) : Chainstate :=
  let way := wayTo s.pprev (· == pindexTest) (s.nHeight pindexNew + 1) pindexNew
  let marked := if s.failed pindexTest then way.foldl (fun s y => s.setStatus y .markChild) s
    else { s with blocksUnlinked := s.blocksUnlinked ++ way.filterMap fun y => (s.pprev y).map (·, y) }
  { marked with setBlockIndexCandidates :=
      s.setBlockIndexCandidates.filter fun y => y ∉ way ∧ y ≠ pindexTest }

def findMostWorkChain : Nat → Chainstate → Checked (Chainstate × Option Ptr)
  | 0, _ => .error .endless
  | fuel + 1, s =>
    match s.bestCandidate s.setBlockIndexCandidates with
    | none => .ok (s, none)
    | some pindexNew => do
      match ← s.findUnusable pindexNew with
      | none => return (s, some pindexNew)
      | some pindexTest => findMostWorkChain fuel (s.removeChain pindexNew pindexTest)

def disconnectTip : Checked Chainstate :=
  match s.pprev s.tip with
  | none => .error .badIterator
  | some p => .ok { s with tip := p }

def disconnectTo (pindexFork : Ptr) : Nat → Chainstate → Checked Chainstate
  | 0, _ => .error .endless
  | fuel + 1, s => if s.tip = pindexFork then .ok s else do
    let s ← s.disconnectTip
    disconnectTo pindexFork fuel s

def connectTip (pindexNew : Ptr) : Checked (Chainstate × Bool) := do
  check (s.pprev pindexNew == some s.tip)
  if env.connects pindexNew then
    return ({ s.setStatus pindexNew (.raiseValidity .scripts) with tip := pindexNew }, true)
  else return (s.invalidBlockFound pindexNew, false)

def pruneBlockIndexCandidates : Checked Chainstate := do
  let kept := s.setBlockIndexCandidates.filter fun y => !s.comp y s.tip
  check (!kept.isEmpty)
  return { s with setBlockIndexCandidates := kept }

/-- All is connected, the tip is better, or a block is invalid. -/
inductive Progress where
  | all | better | invalidFound
  deriving DecidableEq

def connectBlocks (front oldTip : Ptr) : List Ptr → Chainstate → Checked (Chainstate × Progress)
  | [], s => .ok (s, .all)
  | x :: rest, s => do
    let (s, connected) ← s.connectTip env x
    if !connected then return (s.invalidChainFound front, .invalidFound)
    let s ← s.pruneBlockIndexCandidates
    if s.nChainWork s.tip > s.nChainWork oldTip then return (s, .better)
    connectBlocks front oldTip rest s

/-- `vpindexToConnect`, highest block first. -/
def pathToConnect (pindexMostWork : Ptr) (nHeight nTargetHeight : Nat) : List Ptr :=
  match s.getAncestor pindexMostWork nTargetHeight with
  | none => []
  | some x => wayTo s.pprev (fun y => s.nHeight y == nHeight) (s.nHeight x + 1) x

/-- At most 32 blocks at a time, and whether one was invalid. -/
def connectChunks (pindexMostWork oldTip : Ptr) : Nat → Nat → Chainstate → Checked (Chainstate × Bool)
  | 0, _, _ => .error .endless
  | fuel + 1, nHeight, s =>
    if nHeight = s.nHeight pindexMostWork then .ok (s, false)
    else do
      let nTargetHeight := min (nHeight + 32) (s.nHeight pindexMostWork)
      let vpindexToConnect := s.pathToConnect pindexMostWork nHeight nTargetHeight
      let (s, progress) ← connectBlocks env (vpindexToConnect.headD pindexMostWork) oldTip vpindexToConnect.reverse s
      match progress with
      | .all => connectChunks pindexMostWork oldTip fuel nTargetHeight s
      | .better => return (s, false)
      | .invalidFound => return (s, true)

def activateBestChainStep (fuel : Nat) (pindexMostWork : Ptr) : Checked (Chainstate × Bool) :=
  match s.findFork pindexMostWork with
  | none => .error .badIterator
  | some pindexFork => do
    let disconnected ← disconnectTo pindexFork fuel s
    connectChunks env pindexMostWork s.tip fuel (s.nHeight pindexFork) disconnected

/-- `FindMostWorkChain`, unless there is a `pindexMostWork`. -/
def mostWorkChain (fuel : Nat) : Option Ptr → Checked (Chainstate × Option Ptr)
  | none => findMostWorkChain fuel s
  | some x => .ok (s, some x)

/-- The inner loop, with `pindexMostWork` and whether it made a step. -/
def activateRound (startingTip : Ptr) : Nat → Chainstate → Option Ptr → Bool → Checked (Chainstate × Option Ptr × Bool)
  | 0, _, _, _ => .error .endless
  | fuel + 1, s, pindexMostWork, blocksConnected => do
    let (s, pindexMostWork) ← s.mostWorkChain fuel pindexMostWork
    match pindexMostWork with
    | none => return (s, none, blocksConnected)
    | some x =>
      if x = s.tip then return (s, some x, blocksConnected)
      let (s, fInvalidFound) ← s.activateBestChainStep env fuel x
      let pindexMostWork := if fInvalidFound then none else some x
      if s.comp s.tip startingTip then activateRound startingTip fuel s pindexMostWork true
      else return (s, pindexMostWork, true)

/-- The outer loop of `ActivateBestChain`. -/
def activateRounds : Nat → Chainstate → Option Ptr → Checked Chainstate
  | 0, _, _ => .error .endless
  | fuel + 1, s, pindexMostWork => do
    let (s, pindexMostWork, blocksConnected) ← activateRound env s.tip fuel s pindexMostWork false
    if !blocksConnected then return s
    if some s.tip = pindexMostWork then return s
    activateRounds fuel s pindexMostWork

def activateBestChain (fuel : Nat) : Checked Chainstate := activateRounds env fuel s none

/-! ## A user prefers a block -/

def INT32_MIN : Int := -2 ^ 31

/-- The id, from a counter that starts again after an extension. -/
def preciousId : Int := if s.nChainWork s.tip > s.nLastPreciousChainwork then -1 else s.nBlockReverseSequenceId

def setPrecious (pindex : Ptr) : Chainstate :=
  { (s.eraseCandidate pindex).modify pindex fun b => { b with nSequenceId := s.preciousId } with
    nLastPreciousChainwork := s.nChainWork s.tip
    nBlockReverseSequenceId := if s.preciousId > INT32_MIN then s.preciousId - 1 else s.preciousId }

/-- `PreciousBlock` before it activates the best chain. -/
def makePrecious (pindex : Ptr) : Checked Chainstate :=
  let s := s.setPrecious pindex
  if s.isValid pindex .transactions &&
    s.haveNumChainTxs pindex then (s.insertCandidate pindex).pruneBlockIndexCandidates
  else .ok s

def preciousBlock (pindex : Ptr) (fuel : Nat) : Checked Chainstate :=
  if s.nChainWork pindex < s.nChainWork s.tip then .ok s
  else do
    let s ← s.makePrecious pindex
    s.activateBestChain env fuel

/-! ## A user takes a block out and back in -/

/-- Marks the block just disconnected, and unmarks the one before. -/
def markDisconnected (invalidWalkTip toMarkFailed : Ptr) : Chainstate :=
  let s := ((s.setStatus invalidWalkTip .markValid).eraseCandidate invalidWalkTip).insertCandidate s.tip
  if s.pprev invalidWalkTip = some toMarkFailed ∧ s.failedValid toMarkFailed then s.setStatus toMarkFailed .toChild
  else s

/-- The loop of `InvalidateBlock` over `candidate_blocks_by_work`. -/
def disconnectInvalid (pindex : Ptr) : Nat → Chainstate → List Ptr → Ptr → Checked (Chainstate × Ptr)
  | 0, _, _, _ => .error .endless
  | fuel + 1, s, byWork, toMarkFailed =>
    if !s.contains pindex then .ok (s, toMarkFailed)
    else do
      let disconnected ← s.disconnectTip
      let marked := disconnected.markDisconnected s.tip toMarkFailed
      let reached := fun y => decide (marked.nChainWork marked.tip ≤ marked.nChainWork y) && !marked.comp y marked.tip
      disconnectInvalid pindex fuel (marked.insertCandidates (byWork.filter reached)) (byWork.filter (!reached ·)) s.tip

def candidateBlocksByWork (prev : Ptr) : List Ptr :=
  s.blockIndex.filter fun y =>
    !s.contains y && !s.comp y prev && s.isValid y .transactions && s.haveNumChainTxs y

/-- The last loop of `InvalidateBlock`. -/
def insertMissing : Chainstate :=
  s.insertCandidates (s.blockIndex.filter fun y =>
    s.isValid y .transactions && s.haveNumChainTxs y && !s.comp y s.tip)

def invalidateBlock (pindex : Ptr) : Checked Chainstate :=
  if s.nHeight pindex = 0 then .ok s else
  match s.pprev pindex with
  | none => .error .badIterator
  | some prev => do
    let (s, toMarkFailed) ← disconnectInvalid pindex (s.nHeight s.tip + 1) s (s.candidateBlocksByWork prev) pindex
    if s.contains toMarkFailed then return s
    return (s.markInvalid toMarkFailed).insertMissing.invalidChainFound toMarkFailed

/-- The first loop of `ResetBlockFailureFlags`. -/
def resets (pindex y : Ptr) : Bool := !s.isValid y .transactions && s.getAncestor y (s.nHeight pindex) == some pindex

def resetDescendants (pindex : Ptr) : Chainstate :=
  let cleared := s.setStatusWhere (s.resets pindex) .clear
  { cleared.insertCandidates (s.blockIndex.filter fun y =>
      s.resets pindex y && cleared.isValid y .transactions && s.haveNumChainTxs y && s.comp s.tip y) with
    failedBlocks := s.failedBlocks.filter fun y => !(y ∈ s.blockIndex && s.resets pindex y) }

/-- The second loop of `ResetBlockFailureFlags`. -/
def resetOne (x : Ptr) : Chainstate :=
  if s.failed x then { s.setStatus x .clear with failedBlocks := s.failedBlocks.filter (· ≠ x) } else s

def resetAncestors : Nat → Chainstate → Option Ptr → Chainstate
  | 0, s, _ => s
  | _ + 1, s, none => s
  | fuel + 1, s, some x => resetAncestors fuel (s.resetOne x) ((s.resetOne x).pprev x)

def resetBlockFailureFlags (pindex : Ptr) : Chainstate :=
  resetAncestors (s.nHeight pindex + 1) (s.resetDescendants pindex) (some pindex)

end Chainstate

/-! ## Runs -/

inductive Call where
  | header (header : CBlockHeader) (contextual minPowChecked : Bool)
  | block (block : CBlock) (fRequested contextual minPowChecked : Bool)
  | activateBestChain (fuel : Nat)
  | invalidateBlock (pindex : Ptr)

def Call.run (env : Env) (s : Chainstate) : Call → Checked Chainstate
  | .header offered contextual minPowChecked => do
    let (s, _) ← s.acceptBlockHeader env offered contextual minPowChecked
    return s
  | .block pblock fRequested contextual minPowChecked => s.acceptBlock env pblock fRequested contextual minPowChecked
  | .activateBestChain fuel => s.activateBestChain env fuel
  | .invalidateBlock pindex => if pindex ∈ s.blockIndex then s.invalidateBlock pindex else .ok s

inductive Op where
  | call (call : Call)
  | preciousBlock (pindex : Ptr) (fuel : Nat)

def Op.run (env : Env) (s : Chainstate) : Op → Checked Chainstate
  | .call c => c.run env s
  | .preciousBlock pindex fuel => if pindex ∈ s.blockIndex then s.preciousBlock env pindex fuel else .ok s

def start (env : Env) : Chainstate where
  blockIndex := [env.hashGenesisBlock]
  block := fun y =>
    if y = env.hashGenesisBlock then ⟨none, 0, env.genesisWork, ⟨.transactions, true, false, false⟩, 1, 1, 2⟩
    else ⟨none, 0, 0, ⟨.unknown, false, false, false⟩, 0, 0, 0⟩
  tip := env.hashGenesisBlock
  setBlockIndexCandidates := [env.hashGenesisBlock]
  blocksUnlinked := []
  failedBlocks := []
  nBlockSequenceId := 3
  nBlockReverseSequenceId := -1
  nLastPreciousChainwork := 0

inductive Reachable (env : Env) : Chainstate → Prop
  | start : Reachable env (start env)
  | call {s s' : Chainstate} {call : Call} (h : Reachable env s) (hrun : call.run env s = .ok s') : Reachable env s'

end FullNode.BlockTree

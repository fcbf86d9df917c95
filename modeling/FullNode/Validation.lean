import FullNode.Coins
import FullNode.Pow

/-!
# Connecting and disconnecting blocks

`ConnectBlock` and `DisconnectBlock` on a coins view, with the checks they make. Script
execution, serialization and merkle trees are parameters of the rules.
-/

namespace FullNode

structure CBlock where
  header : CBlockHeader
  vtx : List CTransaction
  deriving DecidableEq

inductive BlockValidationResult where
  | consensus
  | invalidHeader
  | mutated
  /-- `state.Error`, which is not about the block. -/
  | systemError
  deriving DecidableEq

structure BlockInvalid where
  result : BlockValidationResult
  reason : String
  deriving DecidableEq

abbrev CTxUndo := List Coin
abbrev CBlockUndo := List CTxUndo

structure Rules where
  params : Params
  getHash : CBlockHeader → Uint256
  txSize : CTransaction → Nat
  blockSize : CBlock → Nat
  /-- The merkle root, and whether the tree repeats transactions. -/
  merkleRoot : CBlock → Uint256 × Bool
  checkSignetBlockSolution : CBlock → Bool
  getLegacySigOpCount : CTransaction → Nat
  /-- The sigops of the inputs that spend the given coins. -/
  inputSigOpCost : CTransaction → List Coin → Uint32 → Nat
  /-- The reason why scripts fail, if they do. -/
  checkInputScripts : CTransaction → List Coin → Uint32 → Option String
  /-- False below the assumed valid block. -/
  fScriptChecks : CBlockIndex → Bool
  parallelScriptChecks : Bool
  writeBlockUndo : CBlockUndo → Bool

/-! ## Subsidy -/

def reduceSubsidy : Nat → Int → Int
  | 0, nSubsidy => nSubsidy
  | n + 1, nSubsidy =>
    let nSubsidy := (nSubsidy * 99).tdiv 100
    if nSubsidy = 0 then nSubsidy else reduceSubsidy n nSubsidy

def getBlockSubsidy (nHeight : Int) (params : Params) : Checked Int := do
  let reductions ← cdiv nHeight params.nSubsidyHalvingInterval
  return reduceSubsidy reductions.toNat ((239726 * COIN).tdiv 100)

/-! ## `CheckBlock` -/

def MAX_BLOCK_SIGOPS_COST : Nat := 80000

def checkMerkleRoot (rules : Rules) (block : CBlock) : Except BlockInvalid Unit := do
  let (merkleRoot, mutated) := rules.merkleRoot block
  if block.header.hashMerkleRoot ≠ merkleRoot then throw ⟨.mutated, "bad-txnmrklroot"⟩
  if mutated then throw ⟨.mutated, "bad-txns-duplicate"⟩

def checkTransactions (rules : Rules) : List CTransaction → Except BlockInvalid Unit
  | [] => .ok ()
  | tx :: vtx =>
    match checkTransaction rules.txSize tx with
    | .error e => .error ⟨.consensus, e.reason⟩
    | .ok () => checkTransactions rules vtx

def checkBlock (rules : Rules) (block : CBlock) (fCheckPOW fCheckMerkleRoot : Bool) : Except BlockInvalid Unit := do
  if fCheckPOW && !checkProofOfWorkImpl (rules.getHash block.header) block.header.nBits rules.params then
    throw ⟨.invalidHeader, "high-hash"⟩
  if rules.params.signetBlocks && fCheckPOW && !rules.checkSignetBlockSolution block then
    throw ⟨.consensus, "bad-signet-blksig"⟩
  if fCheckMerkleRoot then checkMerkleRoot rules block
  if block.vtx.isEmpty || block.vtx.length * WITNESS_SCALE_FACTOR > MAX_BLOCK_WEIGHT ||
      rules.blockSize block * WITNESS_SCALE_FACTOR > MAX_BLOCK_WEIGHT then
    throw ⟨.consensus, "bad-blk-length"⟩
  match block.vtx with
  | [] => throw ⟨.consensus, "bad-cb-missing"⟩
  | coinbase :: rest =>
    if !coinbase.isCoinBase then throw ⟨.consensus, "bad-cb-missing"⟩
    if rest.any (·.isCoinBase) then throw ⟨.consensus, "bad-cb-multiple"⟩
  checkTransactions rules block.vtx
  let nSigOps := (block.vtx.map rules.getLegacySigOpCount).sum
  if nSigOps * WITNESS_SCALE_FACTOR > MAX_BLOCK_SIGOPS_COST then throw ⟨.consensus, "bad-blk-sigops"⟩

/-! ## Inputs -/

def COINBASE_MATURITY : Int := 100

/-- Whether the view has all, up to the first missing one. -/
def haveCoins (view : CoinsView) : List CTxIn → Bool × CoinsView
  | [] => (true, view)
  | txin :: vin =>
    let (have_, view) := view.haveCoin txin.prevout
    if have_ then haveCoins view vin else (false, view)

def haveInputs (view : CoinsView) (tx : CTransaction) : Bool × CoinsView :=
  if tx.isCoinBase then (true, view) else haveCoins view tx.vin

def inputsMissing : TxInvalid := ⟨.missingInputs, "bad-txns-inputs-missingorspent"⟩
def prematureSpend : TxInvalid := ⟨.prematureSpend, "bad-txns-premature-spend-of-coinbase"⟩
def inputValuesOutOfRange : TxInvalid := ⟨.consensus, "bad-txns-inputvalues-outofrange"⟩

/-- The loop of `CheckTxInputs` over the inputs. -/
def sumInputs (nSpendHeight : Int) (nValueIn : Int) :
    List CTxIn → CoinsView → Checked (Except TxInvalid Int × CoinsView)
  | [], view => .ok (.ok nValueIn, view)
  | txin :: vin, view => do
    let (coin, view) := view.accessCoin txin.prevout
    check !coin.isSpent
    if coin.fCoinBase && nSpendHeight - coin.nHeight < COINBASE_MATURITY then
      return (.error prematureSpend, view)
    let nValueIn := nValueIn + coin.out.nValue
    if !moneyRange coin.out.nValue || !moneyRange nValueIn then
      return (.error inputValuesOutOfRange, view)
    sumInputs nSpendHeight nValueIn vin view

def checkTxInputs (tx : CTransaction) (inputs : CoinsView)
    (nSpendHeight : Int) : Checked (Except TxInvalid Int × CoinsView) := do
  let (have_, inputs) := haveInputs inputs tx
  if !have_ then return (.error inputsMissing, inputs)
  let (sum, inputs) ← sumInputs nSpendHeight 0 tx.vin inputs
  match sum with
  | .error e => return (.error e, inputs)
  | .ok nValueIn =>
    let valueOut ← tx.getValueOut
    if nValueIn < valueOut then return (.error ⟨.consensus, "bad-txns-in-belowout"⟩, inputs)
    let txfee := nValueIn - valueOut
    if !moneyRange txfee then return (.error ⟨.consensus, "bad-txns-fee-outofrange"⟩, inputs)
    return (.ok txfee, inputs)

def accessCoins (view : CoinsView) : List CTxIn → List Coin × CoinsView
  | [] => ([], view)
  | txin :: vin =>
    let (coin, view) := view.accessCoin txin.prevout
    let (coins, view) := accessCoins view vin
    (coin :: coins, view)

/-! ## Sequence locks -/

def calculateSequenceLocks (block : CBlockIndex) : Int × Int → List (CTxIn × Int) → Checked (Int × Int)
  | locks, [] => .ok locks
  | (nMinHeight, nMinTime), (txin, nCoinHeight) :: vin => do
    let value : Int := (txin.nSequence &&& 0xffff#32).toNat
    if txin.nSequence &&& 0x80000000#32 ≠ 0 then
      calculateSequenceLocks block (nMinHeight, nMinTime) vin
    else if txin.nSequence &&& 0x00400000#32 ≠ 0 then
      let ancestor ← block.getAncestor (max (nCoinHeight - 1) 0)
      check !ancestor.isNull
      calculateSequenceLocks block
        (nMinHeight, max nMinTime (ancestor.getMedianTimePast + value * 512 - 1)) vin
    else calculateSequenceLocks block (max nMinHeight (nCoinHeight + value - 1), nMinTime) vin

def evaluateSequenceLocks (block : CBlockIndex) (lockPair : Int × Int) : Checked Bool := do
  check !block.pprev.isNull
  return !(lockPair.1 ≥ block.nHeight || lockPair.2 ≥ block.pprev.getMedianTimePast)

def sequenceLocks (tx : CTransaction) (verifySequence : Bool) (prevHeights : List Int)
    (block : CBlockIndex) : Checked Bool := do
  let lockPair ← if tx.version ≥ 2#32 ∧ verifySequence then
      calculateSequenceLocks block (-1, -1) (tx.vin.zip prevHeights)
    else pure (-1, -1)
  evaluateSequenceLocks block lockPair

/-! ## Updating the view -/

/-- `AddCoins`, from output `i` on. -/
def addOutputs (tx : CTransaction) (nHeight : Nat) (checkForOverwrite : Bool) : Nat → List CTxOut → CoinsView →
    Checked CoinsView
  | _, [], view => .ok view
  | i, out :: vout, view =>
    let outpoint := tx.outpoint i
    let (overwrite, view) :=
      if checkForOverwrite then view.haveCoin outpoint else (tx.isCoinBase, view)
    match view.addCoin outpoint ⟨out, tx.isCoinBase, nHeight⟩ (copyAllocation out.scriptPubKey.length)
        overwrite with
    | (.error f, _) => .error f
    | (.ok (), view) => addOutputs tx nHeight checkForOverwrite (i + 1) vout view

def addCoins (view : CoinsView) (tx : CTransaction) (nHeight : Nat) (checkForOverwrite : Bool) : Checked CoinsView :=
  addOutputs tx nHeight checkForOverwrite 0 tx.vout view

def spendInputs : List CTxIn → CoinsView → Checked (CTxUndo × CoinsView)
  | [], view => .ok ([], view)
  | txin :: vin, view =>
    match view.spendCoin txin.prevout with
    | (none, _) => .error .assertion
    | (some coin, view) => do
      let (vprevout, view) ← spendInputs vin view
      return (coin :: vprevout, view)

def updateCoins (tx : CTransaction) (inputs : CoinsView) (nHeight : Nat) : Checked (CTxUndo × CoinsView) := do
  let (vprevout, inputs) ← if tx.isCoinBase then pure ([], inputs) else spendInputs tx.vin inputs
  let inputs ← addCoins inputs tx nHeight false
  return (vprevout, inputs)

/-! ## `ConnectBlock` -/

def isBIP30Repeat (pindex : CBlockIndex) : Bool :=
  (pindex.nHeight == 91842 &&
    pindex.getBlockHash == 0x00000000000a4d0a398161ffc163c503763b1f4360639393e0e4c8e300e0caec#256) ||
  (pindex.nHeight == 91880 &&
    pindex.getBlockHash == 0x00000000000743f190a18c5577a3c2d2a1f610ae9601ac046a38084ccb7cd721#256)

def BIP34_IMPLIES_BIP30_LIMIT : Nat := 1983702

def enforcesBIP30 (params : Params) (pindex : CBlockIndex) : Checked Bool := do
  check !pindex.pprev.isNull
  let pindexBIP34height ← pindex.pprev.getAncestor params.BIP34Height
  let fEnforceBIP30 := !isBIP30Repeat pindex &&
    (pindexBIP34height.isNull || !(pindexBIP34height.getBlockHash == params.BIP34Hash))
  return fEnforceBIP30 || pindex.nHeight ≥ BIP34_IMPLIES_BIP30_LIMIT

def badTxnsBIP30 : BlockInvalid := ⟨.consensus, "bad-txns-BIP30"⟩

/-- Looks for outputs the view has, past the first too. -/
def checkOverwrites : List COutPoint → CoinsView → Option BlockInvalid → Option BlockInvalid × CoinsView
  | [], view, state => (state, view)
  | outpoint :: outpoints, view, state =>
    let (have_, view) := view.haveCoin outpoint
    checkOverwrites outpoints view (if have_ then some badTxnsBIP30 else state)

def CTransaction.outpoints (tx : CTransaction) : List COutPoint :=
  (List.range tx.vout.length).map tx.outpoint

def getBlockScriptFlags (params : Params) (pindex : CBlockIndex) : Uint32 :=
  let flags : Uint32 := (params.scriptFlagExceptions.lookup pindex.getBlockHash).getD
    (1#32 <<< 0 ||| 1#32 <<< 11 ||| 1#32 <<< 17)
  let flags := if pindex.nHeight ≥ params.BIP66Height then flags ||| 1#32 <<< 2 else flags
  let flags := if pindex.nHeight ≥ params.BIP65Height then flags ||| 1#32 <<< 9 else flags
  let flags := if pindex.nHeight ≥ params.CSVHeight then flags ||| 1#32 <<< 10 else flags
  if pindex.nHeight ≥ params.SegwitHeight then flags ||| 1#32 <<< 4 else flags

structure ConnectState where
  view : CoinsView
  state : Option BlockInvalid
  nFees : Int
  nSigOpsCost : Nat
  /-- The first failure that the script check queue will report. -/
  scriptFailure : Option String
  vtxundo : CBlockUndo

/-- The checks on the inputs of a transaction that is not a coinbase. -/
def connectInputs (rules : Rules) (pindex : CBlockIndex) (tx : CTransaction)
    (s : ConnectState) : Checked ConnectState := do
  if tx.isCoinBase then return s
  let (result, view) ← checkTxInputs tx s.view pindex.nHeight
  match result with
  | .error e => return { s with view, state := some ⟨.consensus, e.reason⟩ }
  | .ok txfee =>
    let nFees := s.nFees + txfee
    if !moneyRange nFees then
      return { s with view, nFees, state := some ⟨.consensus, "bad-txns-accumulated-fee-outofrange"⟩ }
    let (coins, view) := accessCoins view tx.vin
    let final ← sequenceLocks tx (pindex.nHeight ≥ rules.params.CSVHeight)
      (coins.map fun coin => (coin.nHeight : Int)) pindex
    if !final then return { s with view, nFees, state := some ⟨.consensus, "bad-txns-nonfinal"⟩ }
    return { s with view, nFees }

/-- The scripts of a transaction, run at once or queued. -/
def connectScripts (rules : Rules) (pindex : CBlockIndex) (flags : Uint32) (tx : CTransaction)
    (s : ConnectState) : Checked ConnectState := do
  if tx.isCoinBase || !rules.fScriptChecks pindex then return s
  let (coins, view) := accessCoins s.view tx.vin
  check (coins.all (!·.isSpent))
  match rules.checkInputScripts tx coins flags with
  | none => return { s with view }
  | some reason =>
    if rules.parallelScriptChecks then return { s with view, scriptFailure := s.scriptFailure.or (some reason) }
    else return { s with view, state := some ⟨.consensus, reason⟩ }

def connectSigOps (rules : Rules) (flags : Uint32) (tx : CTransaction) (s : ConnectState) : Checked ConnectState := do
  let (coins, view) := if tx.isCoinBase then ([], s.view) else accessCoins s.view tx.vin
  check (coins.all (!·.isSpent))
  let nSigOpsCost := s.nSigOpsCost + rules.getLegacySigOpCount tx * WITNESS_SCALE_FACTOR +
    (if tx.isCoinBase then 0 else rules.inputSigOpCost tx coins flags)
  let s := { s with view, nSigOpsCost }
  return if nSigOpsCost > MAX_BLOCK_SIGOPS_COST then { s with state := some ⟨.consensus, "bad-blk-sigops"⟩ }
    else s

def connectUpdate (pindex : CBlockIndex) (tx : CTransaction) (s : ConnectState) : Checked ConnectState := do
  let (txundo, view) ← updateCoins tx s.view pindex.nHeight
  return { s with view, vtxundo := s.vtxundo ++ [txundo] }

/-- Goes on only from a valid state, as a `break` does. -/
def ConnectState.whenValid (s : ConnectState) (next : ConnectState → Checked ConnectState) : Checked ConnectState :=
  if s.state.isSome then .ok s else next s

def connectTx (rules : Rules) (pindex : CBlockIndex) (flags : Uint32) (tx : CTransaction)
    (s : ConnectState) : Checked ConnectState :=
  s.whenValid fun s => do
    let s ← connectInputs rules pindex tx s
    s.whenValid fun s => do
      let s ← connectSigOps rules flags tx s
      s.whenValid fun s => do
        let s ← connectScripts rules pindex flags tx s
        s.whenValid (connectUpdate pindex tx)

def connectTxs (rules : Rules) (pindex : CBlockIndex) (flags : Uint32) : List CTransaction → ConnectState →
    Checked ConnectState
  | [], s => .ok s
  | tx :: vtx, s => do
    let s ← connectTx rules pindex flags tx s
    connectTxs rules pindex flags vtx s

/-- The end: the coinbase, the queued scripts, the undo data. -/
def connectReward (rules : Rules) (block : CBlock) (pindex : CBlockIndex) (fJustCheck : Bool)
    (s : ConnectState) : Checked (Except BlockInvalid CBlockUndo × CoinsView) := do
  let subsidy ← getBlockSubsidy pindex.nHeight rules.params
  let blockReward := s.nFees + subsidy
  let valueOut ← match block.vtx with
    | [] => .error .assertion
    | coinbase :: _ => coinbase.getValueOut
  let state := if valueOut > blockReward && s.state.isNone then some ⟨.consensus, "bad-cb-amount"⟩
    else s.state
  let state := state.or (s.scriptFailure.map fun reason => ⟨.consensus, reason⟩)
  match state with
  | some e => return (.error e, s.view)
  | none =>
    -- The undo data of the coinbase is dropped.
    let blockundo := s.vtxundo.tail
    if fJustCheck then return (.ok [], s.view)
    if !rules.writeBlockUndo blockundo then
      return (.error ⟨.systemError, "Failed to write undo data."⟩, s.view)
    return (.ok blockundo, s.view.setBestBlock pindex.getBlockHash)

def connectCoins (rules : Rules) (block : CBlock) (pindex : CBlockIndex) (view : CoinsView)
    (fJustCheck : Bool) : Checked (Except BlockInvalid CBlockUndo × CoinsView) := do
  let fEnforceBIP30 ← enforcesBIP30 rules.params pindex
  let (state, view) := if fEnforceBIP30 then
      checkOverwrites (block.vtx.flatMap CTransaction.outpoints) view none
    else (none, view)
  let s ← connectTxs rules pindex (getBlockScriptFlags rules.params pindex) block.vtx
    { view, state, nFees := 0, nSigOpsCost := 0, scriptFailure := none, vtxundo := [] }
  connectReward rules block pindex fJustCheck s

/-- The undo data and the view, if it is more than a check. -/
def connectBlock (rules : Rules) (block : CBlock) (pindex : CBlockIndex) (view : CoinsView)
    (fJustCheck : Bool) : Checked (Except BlockInvalid CBlockUndo × CoinsView) := do
  check !pindex.isNull
  let blockHash := rules.getHash block.header
  check (pindex.getBlockHash == blockHash)
  match checkBlock rules block (!fJustCheck) (!fJustCheck) with
  | .error e => return (.error e, view)
  | .ok () =>
    let hashPrevBlock := if pindex.pprev.isNull then 0 else pindex.pprev.getBlockHash
    let (bestBlock, view) := view.getBestBlock
    check (hashPrevBlock == bestBlock)
    if blockHash = rules.params.hashGenesisBlock then
      return (.ok [], if fJustCheck then view else view.setBestBlock pindex.getBlockHash)
    connectCoins rules block pindex view fJustCheck

/-! ## `DisconnectBlock` -/

inductive DisconnectResult where
  | ok
  | unclean
  | failed
  deriving DecidableEq

/-- The outputs that `AccessByTxid` looks at. -/
def MAX_OUTPUTS_PER_BLOCK : Nat := MAX_BLOCK_WEIGHT / (WITNESS_SCALE_FACTOR * 9)

/-- Some unspent output from `n` on, or the empty coin. -/
def accessByTxid (txid : Uint256) : Nat → Nat → CoinsView → Coin × CoinsView
  | 0, _, view => (Coin.empty, view)
  | fuel + 1, n, view =>
    let (alternate, view) := view.accessCoin ⟨txid, n⟩
    if !alternate.isSpent then (alternate, view) else accessByTxid txid fuel (n + 1) view

def applyTxInUndo (undo : Coin) (view : CoinsView) (out : COutPoint) : Checked (DisconnectResult × CoinsView) := do
  let (have_, view) := view.haveCoin out
  let fClean := !have_
  let (undo, view) := if undo.nHeight = 0 then
      let (alternate, view) := accessByTxid out.hash MAX_OUTPUTS_PER_BLOCK 0 view
      if !alternate.isSpent then
        (some { undo with nHeight := alternate.nHeight, fCoinBase := alternate.fCoinBase }, view)
      else (none, view)
    else (some undo, view)
  match undo with
  | none => return (.failed, view)
  | some undo =>
    match view.addCoin out undo (copyAllocation undo.out.scriptPubKey.length) (!fClean) with
    | (.error f, _) => .error f
    | (.ok (), view) => return (if fClean then .ok else .unclean, view)

def removeOutputs (tx : CTransaction) (nHeight : Nat) (exempt : Bool) : Nat → List CTxOut → Bool × CoinsView →
    Bool × CoinsView
  | _, [], s => s
  | o, out :: vout, (fClean, view) =>
    if isUnspendable out.scriptPubKey then removeOutputs tx nHeight exempt (o + 1) vout (fClean, view)
    else
      let (spent, view) := view.spendCoin (tx.outpoint o)
      let mismatch := match spent with
        | none => true
        | some coin => out ≠ coin.out || nHeight ≠ coin.nHeight || tx.isCoinBase ≠ coin.fCoinBase
      removeOutputs tx nHeight exempt (o + 1) vout (fClean && !(mismatch && !exempt), view)

def restoreInputs : List (COutPoint × Coin) → Bool × CoinsView → Checked (DisconnectResult × CoinsView)
  | [], (fClean, view) => .ok (if fClean then .ok else .unclean, view)
  | (out, undo) :: inputs, (fClean, view) => do
    let (res, view) ← applyTxInUndo undo view out
    if res = .failed then return (.failed, view)
    restoreInputs inputs (fClean && res ≠ .unclean, view)

/-- Undoes transactions, the last first, with their undo data. -/
def disconnectTxs (nHeight : Nat) (fEnforceBIP30 : Bool) :
    List (CTransaction × Option CTxUndo) → Bool × CoinsView → Checked (DisconnectResult × CoinsView)
  | [], (fClean, view) => .ok (if fClean then .ok else .unclean, view)
  | (tx, txundo) :: rest, s => do
    let (fClean, view) := removeOutputs tx nHeight (tx.isCoinBase && !fEnforceBIP30) 0 tx.vout s
    match txundo with
    | none => disconnectTxs nHeight fEnforceBIP30 rest (fClean, view)
    | some vprevout =>
      if vprevout.length ≠ tx.vin.length then return (.failed, view)
      let (res, view) ← restoreInputs ((tx.vin.map CTxIn.prevout).zip vprevout).reverse (fClean, view)
      if res = .failed then return (.failed, view)
      disconnectTxs nHeight fEnforceBIP30 rest (decide (res = .ok), view)

def isBIP30Unspendable (pindex : CBlockIndex) : Bool :=
  (pindex.nHeight == 91722 &&
    pindex.getBlockHash == 0x00000000000271a2dc26e7667f8419f2e15416dc6955e5a6c6cdf3f2574dd08e#256) ||
  (pindex.nHeight == 91812 &&
    pindex.getBlockHash == 0x00000000000af0aed4792b1acee3d966af36cf5def14935db8de83d6f9306f2f#256)

def disconnectBlock (block : CBlock) (blockUndo : CBlockUndo) (pindex : CBlockIndex) (view : CoinsView) :
    Checked (DisconnectResult × CoinsView) := do
  if blockUndo.length + 1 ≠ block.vtx.length then return (.failed, view)
  let fEnforceBIP30 := !isBIP30Unspendable pindex
  let (res, view) ← disconnectTxs pindex.nHeight fEnforceBIP30
    (block.vtx.zip (none :: blockUndo.map some)).reverse (true, view)
  if res = .failed then return (.failed, view)
  return (res, view.setBestBlock pindex.pprev.getBlockHash)

/-! ## A small chain -/

/-- A block hash is the nonce, and all scripts succeed. -/
def easyRules : Rules where
  params := mainParams 1
  getHash header := header.nNonce.setWidth 256
  txSize _ := 100
  blockSize _ := 200
  merkleRoot _ := (0, false)
  checkSignetBlockSolution _ := true
  getLegacySigOpCount _ := 0
  inputSigOpCost _ _ _ := 0
  checkInputScripts _ _ _ := none
  fScriptChecks _ := true
  parallelScriptChecks := false
  writeBlockUndo _ := true

def easyGenesis : CBlockIndex := .mk ⟨1, 0, 0, 1, 0, 0, mainGenesisBits, 1⟩ .null .null
def easyIndex : CBlockIndex := .mk ⟨2, 1, 0, 1, 0, 30, mainGenesisBits, 2⟩ easyGenesis easyGenesis
def easyCoinbase : CTransaction := ⟨[⟨⟨0, COutPoint.nullIndex⟩, [1, 1], 0⟩], [⟨50, [0x51]⟩], 1, 0, 100⟩
def easyView : CoinsView := ⟨[.new], ⟨1, ∅⟩⟩

end FullNode

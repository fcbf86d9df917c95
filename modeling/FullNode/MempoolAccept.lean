import FullNode.Coins
import FullNode.Mempool

/-!
# Acceptance of one transaction

`MemPoolAccept::PreChecks` and `ReplacementChecks`. The checks that only look at the transaction, its
coins and the chain answer through `TxFacts`: they can refuse the transaction and nothing else. Fees
for a size are computed in floating point and are functions of the options.
-/

namespace FullNode.Mempool

open OrderedIndex
open TxRequest (memoryBytes)

/-! ## Settings and arguments -/

inductive RBFPolicy where
  | never
  | optIn
  | always
  deriving DecidableEq

inductive TRUCPolicy where
  | reject
  | accept
  | enforce
  deriving DecidableEq

inductive SpkReuseModes where
  | allow
  | reject
  deriving DecidableEq

/-- `m_opts` of the pool, and the settings read with it. -/
structure Options where
  requireStandard : Bool
  rbfPolicy : RBFPolicy
  trucPolicy : TRUCPolicy
  limits : Limits
  /-- `min_relay_feerate.GetFee`. -/
  minRelayFee : Int → Int
  /-- `GetMinFee().GetFee`. -/
  minFee : Int → Int
  /-- `incremental_relay_feerate.GetFee`. -/
  incrementalRelayFee : Int → Int
  minrelaymaturity : Int
  acceptNonStdDatacarrier : Bool
  datacarrierFullcount : Bool
  maxDatacarrierBytes : Option Nat
  bytesPerSigOp : Nat
  bytesPerSigOpStrict : Nat
  spkReuseMode : SpkReuseModes
  /-- `ScriptHashkey`. -/
  scriptHashkey : CScript → Uint160

structure ATMPArgs where
  acceptTime : Int
  ignoreRejects : List String
  allowReplacement : Bool
  allowSiblingEviction : Bool
  packageFeerates : Bool
  allowCarveouts : Bool

/-- What other checks answer. A text is the reason of a refusal. -/
structure TxFacts where
  witnessHash : Uint256
  /-- `GetSerializeSize` without the witness. -/
  nonWitnessSize : Nat
  nTxWeight : Int
  isStandardTx : Option String
  checkFinalTxAtTip : Bool
  /-- The coins of `m_view`. -/
  coins : COutPoint → Option Coin
  /-- `HaveCoinInCache` of an output of the transaction. -/
  haveOutputInCache : Bool
  bestBlockIsTip : Bool
  checkSequenceLocksAtTip : Bool
  blockHeightCurrent : Int
  /-- The fee. -/
  checkTxInputs : Except TxInvalid Int
  areInputsStandard : Option String
  datacarrierBytes : Nat × Nat
  isWitnessStandard : Option String
  sigOpsCost : Int
  accurateSigOpsCost : Int
  /-- `inputs_coin_age` reaches `minrelaycoinblocks`. -/
  coinAgeReached : Bool
  extraWeight : Int
  preCheckEphemeralTx : Option TxInvalid
  /-- `RecursiveDynamicUsage` of the transaction. -/
  usageSize : Int := 0

/-- What later checks read. `entry` is what `m_tx_handle` points at. -/
structure Workspace where
  /-- True is a consensus conflict, and false is a policy conflict. -/
  conflictsInclPolicy : AssocMap Uint256 Bool
  itersConflicting : List Uint256
  ancestors : List Uint256
  entry : CTxMemPoolEntry
  siblingEviction : Bool

def Workspace.vsize (ws : Workspace) : Int := ws.entry.getTxSize
def Workspace.modifiedFees (ws : Workspace) : Int := ws.entry.modifiedFee

/-! ## Refusals -/

inductive Refusal where
  | invalid (i : TxInvalid)
  | fault (f : Fault)
  deriving DecidableEq

def invalid {α : Type} (result : TxValidationResult) (reason : String) : Except Refusal α :=
  .error (.invalid ⟨result, reason⟩)

def rejectIf (cond : Bool) (result : TxValidationResult) (reason : String) : Except Refusal Unit :=
  if cond then invalid result reason else .ok ()

def maybeRejectIf (args : ATMPArgs) (cond : Bool) (result : TxValidationResult)
    (reason : String) : Except Refusal Unit :=
  rejectIf (cond && reason ∉ args.ignoreRejects) result reason

def rejectFor (reason : Option String) (result : TxValidationResult) : Except Refusal Unit :=
  match reason with
  | some reason => invalid result reason
  | none => .ok ()

def liftInvalid {α : Type} : Except TxInvalid α → Except Refusal α
  | .ok a => .ok a
  | .error i => .error (.invalid i)

def liftFault {α : Type} : Checked α → Except Refusal α
  | .ok a => .ok a
  | .error f => .error (.fault f)

/-! ## Conflicts -/

def MAX_BIP125_RBF_SEQUENCE : Nat := 0xfffffffd
def TRUC_VERSION : Uint32 := 3

def signalsOptInRBF (tx : CTransaction) : Bool := tx.vin.any fun txin => txin.nSequence.toNat ≤ MAX_BIP125_RBF_SEQUENCE

def allowRbf (opts : Options) (args : ATMPArgs) (conflicting : CTransaction) : Bool :=
  if opts.rbfPolicy = .always ∨ "txn-mempool-conflict" ∈ args.ignoreRejects then true
  else if opts.rbfPolicy = .never then false
  else signalsOptInRBF conflicting || conflicting.version = TRUC_VERSION

def emplace (conflicts : AssocMap Uint256 Bool) (txid : Uint256) (consensus : Bool) : AssocMap Uint256 Bool :=
  if txid ∈ conflicts then conflicts else conflicts.insert txid consensus

/-- The inputs that the pool spends too. -/
def collectConflicts (pool : CTxMemPool) (opts : Options) (args : ATMPArgs) :
    List CTxIn → AssocMap Uint256 Bool → Except Refusal (AssocMap Uint256 Bool)
  | [], conflicts => .ok conflicts
  | txin :: vin, conflicts =>
    match pool.getConflictTx txin.prevout with
    | none => collectConflicts pool opts args vin conflicts
    | some txid =>
      if !args.allowReplacement then invalid .mempoolPolicy "bip125-replacement-disallowed"
      else if txid ∈ conflicts then collectConflicts pool opts args vin conflicts
      else
        match pool.find txid with
        | none => .error (.fault .badIterator)
        | some conflicting =>
          if !allowRbf opts args conflicting.tx then invalid .mempoolPolicy "txn-mempool-conflict"
          else collectConflicts pool opts args vin (emplace conflicts txid true)

/-- `spk_reuse_mode`. -/
def reuseMode (opts : Options) (args : ATMPArgs) : SpkReuseModes :=
  if "txn-spk-reused" ∈ args.ignoreRejects then .allow else opts.spkReuseMode

def emplaceUsed (conflicts : AssocMap Uint256 Bool) : Option Uint256 → AssocMap Uint256 Bool
  | none => conflicts
  | some txid => emplace conflicts txid false

/-- The outputs whose scripts the pool creates or spends. -/
def collectCreated (pool : CTxMemPool) (opts : Options) (args : ATMPArgs) :
    List CTxOut → AssocMap Uint256 Bool → AssocMap Uint160 SpkState →
      Except Refusal (AssocMap Uint256 Bool × AssocMap Uint160 SpkState)
  | [], conflicts, mapSPK => .ok (conflicts, mapSPK)
  | txout :: vout, conflicts, mapSPK => do
    let hashSPK := opts.scriptHashkey txout.scriptPubKey
    let used := (pool.mapUsedSPK.lookup hashSPK).getD (none, none)
    let conflicts := emplaceUsed (emplaceUsed conflicts used.1) used.2
    maybeRejectIf args (hashSPK ∈ mapSPK) .mempoolPolicy "txn-spk-reused-twinoutputs"
    let state := (mapSPK.lookup hashSPK).getD {}
    collectCreated pool opts args vout conflicts (mapSPK.insert hashSPK { state with created := true })

/-- The coins whose scripts the pool spends. -/
def collectSpent (pool : CTxMemPool) (opts : Options) (args : ATMPArgs) (coins : COutPoint → Option Coin) :
    List CTxIn → AssocMap Uint256 Bool → AssocMap Uint160 SpkState →
      Except Refusal (AssocMap Uint256 Bool × AssocMap Uint160 SpkState)
  | [], conflicts, mapSPK => .ok (conflicts, mapSPK)
  | txin :: vin, conflicts, mapSPK => do
    let coin := (coins txin.prevout).getD Coin.empty
    let hashSPK := opts.scriptHashkey coin.out.scriptPubKey
    let state := (mapSPK.lookup hashSPK).getD {}
    maybeRejectIf args state.created .mempoolPolicy "txn-spk-reused-change"
    let used := (pool.mapUsedSPK.lookup hashSPK).getD (none, none)
    let conflicts := emplaceUsed conflicts used.2
    collectSpent pool opts args coins vin conflicts (mapSPK.insert hashSPK { state with spent := true })

/-! ## The stages of `PreChecks` -/

def MIN_STANDARD_TX_NONWITNESS_SIZE : Nat := 65
def MAX_STANDARD_TX_SIGOPS_COST : Int := 16000
def EXTRA_DESCENDANT_TX_SIZE_LIMIT : Int := 10000

def checkAlone (pool : CTxMemPool) (opts : Options) (args : ATMPArgs) (facts : TxFacts)
    (tx : CTransaction) : Except Refusal Unit := do
  liftInvalid (checkTransaction (fun _ => facts.nonWitnessSize) tx)
  rejectIf tx.isCoinBase .consensus "coinbase"
  rejectIf (tx.version = TRUC_VERSION ∧ opts.trucPolicy = .reject) .notStandard "version"
  rejectFor (if opts.requireStandard then facts.isStandardTx else none) .notStandard
  maybeRejectIf args (facts.nonWitnessSize < MIN_STANDARD_TX_NONWITNESS_SIZE) .notStandard "tx-size-small"
  maybeRejectIf args (!facts.checkFinalTxAtTip) .prematureSpend "non-final"
  rejectIf (pool.existsWtxid facts.witnessHash) .conflict "txn-already-in-mempool"
  rejectIf (pool.existsTxid tx.hash) .conflict "txn-same-nonwitness-data-in-mempool"

def collectCreatedIf (pool : CTxMemPool) (opts : Options) (args : ATMPArgs) (tx : CTransaction)
    (conflicts : AssocMap Uint256 Bool) : Except Refusal (AssocMap Uint256 Bool × AssocMap Uint160 SpkState) :=
  if reuseMode opts args = .allow then .ok (conflicts, ∅) else collectCreated pool opts args tx.vout conflicts ∅

def collectSpentIf (pool : CTxMemPool) (opts : Options) (args : ATMPArgs) (facts : TxFacts) (tx : CTransaction)
    (conflicts : AssocMap Uint256 Bool) (mapSPK : AssocMap Uint160 SpkState) :
    Except Refusal (AssocMap Uint256 Bool × AssocMap Uint160 SpkState) :=
  if reuseMode opts args = .allow then .ok (conflicts, mapSPK)
  else collectSpent pool opts args facts.coins tx.vin conflicts mapSPK

def missingInputs (facts : TxFacts) (tx : CTransaction) : Except Refusal Unit :=
  if tx.vin.all fun txin => (facts.coins txin.prevout).isSome then .ok ()
  else if facts.haveOutputInCache then invalid .conflict "txn-already-known"
  else invalid .missingInputs "bad-txns-inputs-missingorspent"

/-- A coin is younger than `minrelaymaturity` asks. -/
def immature (opts : Options) (facts : TxFacts) (tx : CTransaction) : Bool :=
  opts.minrelaymaturity ≠ 0 ∧ tx.vin.any fun txin =>
    ((facts.coins txin.prevout).getD Coin.empty).nHeight > facts.blockHeightCurrent + 1 - opts.minrelaymaturity

def checkCoins (opts : Options) (args : ATMPArgs) (facts : TxFacts) (tx : CTransaction) : Except Refusal Int := do
  missingInputs facts tx
  liftFault (check facts.bestBlockIsTip)
  rejectIf (!facts.checkSequenceLocksAtTip) .prematureSpend "non-BIP68-final"
  let fee ← liftInvalid facts.checkTxInputs
  maybeRejectIf args (immature opts facts tx) .prematureSpend "bad-txns-input-immature-depth"
  return fee

/-- The policy on inputs and data, after the search for conflicts. -/
def checkInputPolicy (opts : Options) (args : ATMPArgs) (facts : TxFacts) : Except Refusal Unit := do
  rejectFor (if opts.requireStandard then facts.areInputsStandard else none) .inputsNotStandard
  rejectIf ((opts.datacarrierFullcount || !opts.acceptNonStdDatacarrier) && facts.datacarrierBytes.2 > 0 &&
    !(opts.acceptNonStdDatacarrier || "txn-datacarrier-nonstandard" ∈ args.ignoreRejects))
    .inputsNotStandard "txn-datacarrier-nonstandard"
  rejectIf (opts.datacarrierFullcount && "txn-datacarrier-exceeded" ∉ args.ignoreRejects &&
    facts.datacarrierBytes.1 + facts.datacarrierBytes.2 > opts.maxDatacarrierBytes.getD 0)
    .inputsNotStandard "txn-datacarrier-exceeded"
  rejectFor (if opts.requireStandard then facts.isWitnessStandard else none) .witnessMutated
  maybeRejectIf args (!facts.coinAgeReached) .prematureSpend "bad-txns-input-immature-coinblocks"

def stageAddition (pool : CTxMemPool) (opts : Options) (args : ATMPArgs) (facts : TxFacts)
    (tx : CTransaction) (fee : Int) (mapSPK : AssocMap Uint160 SpkState) : CTxMemPoolEntry :=
  let e := CTxMemPoolEntry.new tx facts.witnessHash fee facts.nTxWeight args.acceptTime facts.sigOpsCost
    facts.extraWeight opts.bytesPerSigOp facts.usageSize
  let delta := pool.applyDeltas tx.hash 0
  { (if delta ≠ 0 then e.updateModifiedFee delta else e) with mapSPK }

def rejectmsgLowfeeMempool : String := "mempool min fee not met"
def rejectmsgLowfeeRelay : String := "min relay fee not met"

def tooManySigops (opts : Options) (facts : TxFacts) (vsize : Int) : Bool :=
  facts.sigOpsCost > MAX_STANDARD_TX_SIGOPS_COST ∨
    opts.bytesPerSigOpStrict ≠ 0 ∧
      facts.accurateSigOpsCost > (vsize * WITNESS_SCALE_FACTOR).tdiv opts.bytesPerSigOpStrict

def preCheckEphemeral (opts : Options) (args : ATMPArgs) (facts : TxFacts) : Except Refusal Unit :=
  match facts.preCheckEphemeralTx with
  | some i => if opts.requireStandard ∧ "dust" ∉ args.ignoreRejects then .error (.invalid i) else .ok ()
  | none => .ok ()

def checkFeeRate (opts : Options) (args : ATMPArgs) (packageSize packageFee : Int) : Except Refusal Unit := do
  rejectIf (opts.minFee packageSize > 0 ∧ packageFee < opts.minFee packageSize ∧
    rejectmsgLowfeeMempool ∉ args.ignoreRejects) .reconsiderable rejectmsgLowfeeMempool
  rejectIf (packageFee < opts.minRelayFee packageSize ∧ rejectmsgLowfeeRelay ∉ args.ignoreRejects)
    .reconsiderable rejectmsgLowfeeRelay

def checkFees (opts : Options) (args : ATMPArgs) (facts : TxFacts) (entry : CTxMemPoolEntry) : Except Refusal Unit := do
  preCheckEphemeral opts args facts
  maybeRejectIf args (tooManySigops opts facts entry.getTxSize) .notStandard "bad-txns-too-many-sigops"
  rejectIf ((entry.tx.version ≠ TRUC_VERSION ∨ opts.trucPolicy ≠ .enforce) ∧
    entry.modifiedFee < opts.minRelayFee entry.getTxSize ∧ rejectmsgLowfeeRelay ∉ args.ignoreRejects)
    .mempoolPolicy rejectmsgLowfeeRelay
  if args.packageFeerates then .ok () else checkFeeRate opts args entry.getTxSize entry.modifiedFee

/-! ## Ancestors -/

/-- The txids in the order of `std::set`. -/
def conflictsAsASet (conflicts : AssocMap Uint256 Bool) : List Uint256 :=
  conflicts.keys.foldr (insertNew memoryBytes) []

/-- One direct conflict makes room for itself and its descendants. -/
def maybeRbfLimits (pool : CTxMemPool) (opts : Options) (args : ATMPArgs) (conflicts : AssocMap Uint256 Bool)
    (itersConflicting : List Uint256) : Except Refusal Limits :=
  if conflicts.keys.length = 1 ∧ args.allowCarveouts then
    match itersConflicting.map pool.find with
    | [some conflict] => .ok { opts.limits with
        descendantCount := opts.limits.descendantCount.map (· + 1)
        descendantSizeVbytes := opts.limits.descendantSizeVbytes.map (· + conflict.sizeWithDescendants) }
    | _ => .error (.fault .assertion)
  else .ok opts.limits

def cpfpCarveOutLimits (limits : Limits) : Limits where
  ancestorCount := some 2
  ancestorSizeVbytes := limits.ancestorSizeVbytes
  descendantCount := limits.descendantCount.map (· + 1)
  descendantSizeVbytes := limits.descendantSizeVbytes.map (· + EXTRA_DESCENDANT_TX_SIZE_LIMIT)

/-- `CalculateMemPoolAncestors`, refusing beyond a limit. -/
def ancestorsWithin (pool : CTxMemPool) (entry : CTxMemPoolEntry) (limits : Limits) : Except Refusal (List Uint256) :=
  match pool.calculateMemPoolAncestors entry limits with
  | .ok ancestors => .ok ancestors
  | .error (.limit _) => invalid .mempoolPolicy "too-long-mempool-chain"
  | .error (.fault f) => .error (.fault f)

/-- The ancestors within the limits, or those of the carve-out. -/
def findAncestors (pool : CTxMemPool) (opts : Options) (args : ATMPArgs) (entry : CTxMemPoolEntry)
    (maybeRbfLimits : Limits) : Except Refusal (List Uint256) :=
  let limits := if "too-long-mempool-chain" ∈ args.ignoreRejects then Limits.noLimits else maybeRbfLimits
  match pool.calculateMemPoolAncestors entry limits with
  | .ok ancestors => .ok ancestors
  | .error (.fault f) => .error (.fault f)
  | .error (.limit _) =>
    if !args.allowCarveouts then invalid .mempoolPolicy "too-long-mempool-chain"
    else if entry.getTxSize > EXTRA_DESCENDANT_TX_SIZE_LIMIT ∨
      entry.tx.version = TRUC_VERSION ∧ opts.trucPolicy = .enforce then
      invalid .mempoolPolicy "too-long-mempool-chain"
    else ancestorsWithin pool entry (cpfpCarveOutLimits maybeRbfLimits)

/-! ## TRUC -/

def TRUC_DESCENDANT_LIMIT : Int := 2
def TRUC_ANCESTOR_LIMIT : Nat := 2
def TRUC_MAX_VSIZE : Int := 10000
def TRUC_CHILD_MAX_VSIZE : Int := 1000

def trucInheritance (pool : CTxMemPool) (ignoreRejects : List String) (tx : CTransaction)
    (a : Uint256) : Option String :=
  let isTruc := (pool.find a).any fun e => e.tx.version = TRUC_VERSION
  if tx.version ≠ TRUC_VERSION ∧ isTruc ∧ "truc-spent-by-nontruc" ∉ ignoreRejects then some "truc-spent-by-nontruc"
  else if tx.version = TRUC_VERSION ∧ !isTruc ∧ "truc-spends-nontruc" ∉ ignoreRejects then some "truc-spends-nontruc"
  else none

/-- The rules on the parent's descendants, which may be evicted. -/
def trucParent (pool : CTxMemPool) (ignoreRejects : List String) (directConflicts : List Uint256)
    (parent : CTxMemPoolEntry) : Option (String × Option Uint256) :=
  let childWillBeReplaced := parent.children.any (· ∈ directConflicts)
  if parent.countWithDescendants + 1 > TRUC_DESCENDANT_LIMIT ∧ !childWillBeReplaced ∧
    "truc-descendants-toomany" ∉ ignoreRejects then
    let first := parent.children.head?
    let considerSiblingEviction := parent.countWithDescendants = 2 ∧ (first.bind pool.find).any fun child =>
        child.countWithAncestors = 2
    some ("truc-descendants-toomany", if considerSiblingEviction then first else none)
  else none

/-- The prefix of the reasons is `truc-`. -/
def singleTRUCChecks (pool : CTxMemPool) (tx : CTransaction) (ignoreRejects : List String)
    (mempoolAncestors directConflicts : List Uint256) (vsize : Int) : Option (String × Option Uint256) :=
  match mempoolAncestors.findSome? (trucInheritance pool ignoreRejects tx) with
  | some reason => some (reason, none)
  | none =>
    if tx.version ≠ TRUC_VERSION then none
    else if vsize > TRUC_MAX_VSIZE ∧ "truc-vsize-toobig" ∉ ignoreRejects then some ("truc-vsize-toobig", none)
    else if mempoolAncestors.length + 1 > TRUC_ANCESTOR_LIMIT ∧ "truc-ancestors-toomany" ∉ ignoreRejects then
      some ("truc-ancestors-toomany", none)
    else
      match mempoolAncestors.head?.bind pool.find with
      | none => none
      | some parent =>
        if vsize > TRUC_CHILD_MAX_VSIZE ∧ "truc-child-toobig" ∉ ignoreRejects then some ("truc-child-toobig", none)
        else trucParent pool ignoreRejects directConflicts parent

/-- The conflicts, the iterators and whether a sibling goes. -/
def checkTruc (pool : CTxMemPool) (opts : Options) (args : ATMPArgs) (entry : CTxMemPoolEntry)
    (ancestors : List Uint256) (conflicts : AssocMap Uint256 Bool) (itersConflicting : List Uint256) :
    Except Refusal (AssocMap Uint256 Bool × List Uint256 × Bool) :=
  if opts.trucPolicy = .enforce ∧ "truc" ∉ args.ignoreRejects then
    match singleTRUCChecks pool entry.tx args.ignoreRejects ancestors (conflictsAsASet conflicts) entry.getTxSize with
    | none => .ok (conflicts, itersConflicting, false)
    | some (reason, sibling) =>
      match args.allowSiblingEviction, sibling with
      | true, some sibling =>
        match pool.getIter sibling with
        | none => .error (.fault .badIterator)
        | some it => .ok (emplace conflicts sibling false, insertNew memoryBytes it itersConflicting, true)
      | _, _ => invalid .mempoolPolicy reason
  else .ok (conflicts, itersConflicting, false)

/-! ## `PreChecks` -/

/-- `none` is a consensus conflict, true a policy conflict. -/
def entriesAndTxidsDisjoint (directConflicts : AssocMap Uint256 Bool) : List Uint256 → Bool → Option Bool
  | [], violatesPolicy => some violatesPolicy
  | ancestor :: ancestors, violatesPolicy =>
    match directConflicts.lookup ancestor with
    | none => entriesAndTxidsDisjoint directConflicts ancestors violatesPolicy
    | some false => entriesAndTxidsDisjoint directConflicts ancestors true
    | some true => none

def checkDisjoint (args : ATMPArgs) (ancestors : List Uint256) (conflicts : AssocMap Uint256 Bool) :
    Except Refusal Unit :=
  match entriesAndTxidsDisjoint conflicts ancestors false with
  | none => invalid .consensus "bad-txns-spends-conflicting-tx"
  | some hasPolicyConflict => maybeRejectIf args hasPolicyConflict .mempoolPolicy "txn-spk-reused-chained"

def preChecks (pool : CTxMemPool) (opts : Options) (args : ATMPArgs) (facts : TxFacts) (tx : CTransaction) :
    Except Refusal Workspace := do
  checkAlone pool opts args facts tx
  let conflicts ← collectConflicts pool opts args tx.vin ∅
  let (conflicts, mapSPK) ← collectCreatedIf pool opts args tx conflicts
  let fee ← checkCoins opts args facts tx
  let (conflicts, mapSPK) ← collectSpentIf pool opts args facts tx conflicts mapSPK
  checkInputPolicy opts args facts
  let entry := stageAddition pool opts args facts tx fee mapSPK
  checkFees opts args facts entry
  let itersConflicting := pool.getIterSet (conflictsAsASet conflicts)
  let limits ← maybeRbfLimits pool opts args conflicts itersConflicting
  let ancestors ← findAncestors pool opts args entry limits
  let (conflicts, itersConflicting, siblingEviction) ← checkTruc pool opts args entry ancestors conflicts
      itersConflicting
  checkDisjoint args ancestors conflicts
  return { conflictsInclPolicy := conflicts, itersConflicting, ancestors, entry, siblingEviction }

/-! ## `ReplacementChecks` -/

def MAX_REPLACEMENT_CANDIDATES : Nat := 100

def feeRate (nFeePaid numBytes : Int) : Checked Int :=
  if numBytes % 2 ^ 32 > 0 then do
    let product ← int64 (nFeePaid * 1000)
    return product.tdiv (numBytes % 2 ^ 32)
  else .ok 0

/-- Whether the new rate is above the rate of every direct conflict. -/
def paysMoreThanConflicts (pool : CTxMemPool) (replacementFeerate : Int) : List Uint256 → Checked Bool
  | [] => .ok true
  | k :: iters =>
    match pool.find k with
    | none => .error .badIterator
    | some mi => do
      let originalFeerate ← feeRate mi.modifiedFee mi.getTxSize
      if replacementFeerate ≤ originalFeerate then return false
      else paysMoreThanConflicts pool replacementFeerate iters

/-- The count of `GetEntriesForConflicts` stays within the limit. -/
def countWithin (pool : CTxMemPool) (args : ATMPArgs) : List Uint256 → Int → Checked Bool
  | [], _ => .ok true
  | k :: iters, nConflictingCount =>
    match pool.find k with
    | none => .error .badIterator
    | some mi =>
      let nConflictingCount := nConflictingCount + mi.countWithDescendants
      if nConflictingCount > MAX_REPLACEMENT_CANDIDATES ∧ "too-many-replacements" ∉ args.ignoreRejects ∧
          "too many potential replacements" ∉ args.ignoreRejects then .ok false
      else countWithin pool args iters nConflictingCount

def hasNoNewUnconfirmed (pool : CTxMemPool) (tx : CTransaction) (itersConflicting : List Uint256) : Bool :=
  let parentsOfConflicts := itersConflicting.flatMap fun k => (pool.find k).elim [] fun e => e.tx.parentHashes
  tx.parentHashes.all fun hash => hash ∈ parentsOfConflicts || !pool.existsTxid hash

def conflictingFees (pool : CTxMemPool) : List Uint256 → Int → Checked Int
  | [], fees => .ok fees
  | k :: iters, fees =>
    match pool.find k with
    | none => .error .badIterator
    | some it => do
      let fees ← int64 (fees + it.modifiedFee)
      conflictingFees pool iters fees

def paysForRBF (opts : Options) (originalFees replacementFees replacementVsize : Int) : Checked Bool :=
  if replacementFees < originalFees then .ok false
  else do
    let additionalFees ← int64 (replacementFees - originalFees)
    return !(additionalFees < opts.incrementalRelayFee replacementVsize)

def withSibling (ws : Workspace) (reason : String) : String :=
  if ws.siblingEviction then reason ++ " (including sibling eviction)" else reason

/-- Fee rules are skipped when `insufficient fee` is ignored. -/
def checkFeeRule (args : ATMPArgs) (ws : Workspace) (rule : Checked Bool) : Except Refusal Unit :=
  if "insufficient fee" ∈ args.ignoreRejects then .ok ()
  else do
    let pays ← liftFault rule
    rejectIf (!pays) .reconsiderable (withSibling ws "insufficient fee")

def replacementChecks (pool : CTxMemPool) (opts : Options) (args : ATMPArgs)
    (ws : Workspace) : Except Refusal (List Uint256) := do
  checkFeeRule args ws do
    let newFeeRate ← feeRate ws.modifiedFees ws.vsize
    paysMoreThanConflicts pool newFeeRate ws.itersConflicting
  let within ← liftFault (countWithin pool args ws.itersConflicting 0)
  rejectIf (!within) .mempoolPolicy (withSibling ws "too many potential replacements")
  let allConflicts ← liftFault (pool.calculateAllDescendants ws.itersConflicting [])
  rejectIf ("replacement-adds-unconfirmed" ∉ args.ignoreRejects ∧ !hasNoNewUnconfirmed pool ws.entry.tx allConflicts)
    .mempoolPolicy (withSibling ws "replacement-adds-unconfirmed")
  let fees ← liftFault (conflictingFees pool allConflicts 0)
  checkFeeRule args ws (paysForRBF opts fees ws.modifiedFees ws.vsize)
  return allConflicts

/-- `ReplacementChecks` runs when there are conflicts. -/
def stageReplacement (pool : CTxMemPool) (opts : Options) (args : ATMPArgs)
    (ws : Workspace) : Except Refusal (List Uint256) :=
  if ws.conflictsInclPolicy.keys.isEmpty then .ok [] else replacementChecks pool opts args ws

end FullNode.Mempool

import FullNode.Lib.Loop
import FullNode.Mempool

/-!
# Block templates

`BlockAssembler`: first transactions by coin age priority, then packages by fee rate. The template
holds the keys of the chosen entries, without the coinbase. The comparisons of rates and priorities
are made in floating point and are functions of the context.
-/

namespace FullNode.Miner

open OrderedIndex Mempool
open TxRequest (memoryBytes)

def MAX_BLOCK_SERIALIZED_SIZE : Nat := 4000000
def MAX_BLOCK_SIGOPS_COST : Int := 80000
def MINIMUM_BLOCK_RESERVED_WEIGHT : Nat := 2000

/-! ## Options -/

structure BlockCreateOptions where
  blockReservedSize : Nat
  blockReservedWeight : Nat
  coinbaseOutputMaxAdditionalSigops : Nat
  nBlockMaxWeight : Nat
  nBlockMaxSize : Nat
  /-- `blockMinFeeRate.GetFee`. -/
  blockMinFee : Int → Int

def checkNonfatal (cond : Bool) (what : String) : Checked Unit := if cond then .ok () else .error (.runtimeError what)

def BlockCreateOptions.clamped (options : BlockCreateOptions) : Checked BlockCreateOptions := do
  checkNonfatal (options.blockReservedSize ≤ MAX_BLOCK_SERIALIZED_SIZE)
    "options.block_reserved_size <= MAX_BLOCK_SERIALIZED_SIZE"
  checkNonfatal (options.blockReservedWeight ≤ MAX_BLOCK_WEIGHT) "options.block_reserved_weight <= MAX_BLOCK_WEIGHT"
  checkNonfatal (options.blockReservedWeight ≥ MINIMUM_BLOCK_RESERVED_WEIGHT)
    "options.block_reserved_weight >= MINIMUM_BLOCK_RESERVED_WEIGHT"
  checkNonfatal (options.coinbaseOutputMaxAdditionalSigops ≤ MAX_BLOCK_SIGOPS_COST)
    "options.coinbase_output_max_additional_sigops <= MAX_BLOCK_SIGOPS_COST"
  return { options with
    nBlockMaxSize := max options.blockReservedSize (min options.nBlockMaxSize MAX_BLOCK_SERIALIZED_SIZE)
    nBlockMaxWeight := max options.blockReservedWeight (min options.nBlockMaxWeight MAX_BLOCK_WEIGHT) }

/-- What `CompareTxMemPoolEntryByAncestorFee` reads. -/
structure AncestorScore where
  modifiedFee : Int
  txSize : Int
  sizeWithAncestors : Int
  modFeesWithAncestors : Int
  hash : Uint256

/-- The chain, and the orders, which see an entry with its priority. -/
structure Context where
  nHeight : Int
  lockTimeCutoff : Int
  /-- `-blockprioritysize`. -/
  blockPrioritySize : Int
  /-- `GetSerializeSize` with the witness. -/
  serializeSize : CTransaction → Nat
  pricomparer : Uint256 → Uint256 → Bool
  /-- The priority is at most `MINIMUM_TX_PRIORITY`. -/
  lowPriority : Uint256 → Bool
  ancestorFee : AncestorScore → AncestorScore → Bool

/-! ## The template -/

structure BlockAssembler where
  vtx : List Uint256 := []
  vTxFees : List Int := []
  vTxSigOpsCost : List Int := []
  packageFeerates : List (Int × Int) := []
  fNeedSizeAccounting : Bool
  nBlockWeight : Int
  nBlockSize : Int
  nBlockTx : Nat := 0
  nBlockSigOpsCost : Int
  nFees : Int := 0
  inBlock : List Uint256 := []
  lastFewTxs : Nat := 0
  blockFinished : Bool := false

def resetBlock (options : BlockCreateOptions) (fNeedSizeAccounting : Bool) : BlockAssembler where
  fNeedSizeAccounting := fNeedSizeAccounting
  nBlockWeight := options.blockReservedWeight
  nBlockSize := options.blockReservedSize
  nBlockSigOpsCost := options.coinbaseOutputMaxAdditionalSigops

def LOCKTIME_THRESHOLD : Int := 500000000
def SEQUENCE_FINAL : Uint32 := 0xffffffff

def isFinalTx (tx : CTransaction) (nBlockHeight nBlockTime : Int) : Bool :=
  if tx.nLockTime = 0 then true
  else if (tx.nLockTime.toNat : Int) <
    (if (tx.nLockTime.toNat : Int) < LOCKTIME_THRESHOLD then nBlockHeight else nBlockTime)
  then true
  else tx.vin.all fun txin => txin.nSequence = SEQUENCE_FINAL

variable (ctx : Context) (options : BlockCreateOptions) (pool : CTxMemPool)

def testPackage (b : BlockAssembler) (packageSize packageSigOpsCost : Int) : Bool :=
  if b.nBlockWeight + WITNESS_SCALE_FACTOR * packageSize ≥ options.nBlockMaxWeight then false
  else if b.nBlockSigOpsCost + packageSigOpsCost ≥ MAX_BLOCK_SIGOPS_COST then false
  else true

/-- The loop of `TestPackageTransactions`. -/
def testTransactions (b : BlockAssembler) : List Uint256 → Int → Bool
  | [], _ => true
  | k :: package, nPotentialBlockSize =>
    match pool.find k with
    | none => false
    | some it =>
      let nTxSize := ctx.serializeSize it.tx
      if !isFinalTx it.tx ctx.nHeight ctx.lockTimeCutoff then false
      else if b.fNeedSizeAccounting then
        if nPotentialBlockSize + nTxSize ≥ options.nBlockMaxSize then false
        else testTransactions b package (nPotentialBlockSize + nTxSize)
      else testTransactions b package nPotentialBlockSize

def testPackageTransactions (b : BlockAssembler) (package : List Uint256) : Bool :=
  testTransactions ctx options pool b package b.nBlockSize

def addToBlock (b : BlockAssembler) (k : Uint256) : BlockAssembler :=
  match pool.find k with
  | none => b
  | some it => { b with
      vtx := b.vtx ++ [k]
      vTxFees := b.vTxFees ++ [it.nFee]
      vTxSigOpsCost := b.vTxSigOpsCost ++ [it.sigOpCost]
      nBlockSize := if b.fNeedSizeAccounting then b.nBlockSize + ctx.serializeSize it.tx else b.nBlockSize
      nBlockWeight := b.nBlockWeight + it.nTxWeight
      nBlockTx := b.nBlockTx + 1
      nBlockSigOpsCost := b.nBlockSigOpsCost + it.sigOpCost
      nFees := b.nFees + it.nFee
      inBlock := insertNew memoryBytes k b.inBlock }

/-! ## By priority -/

/-- A difference of `size_t`. -/
def sizeDiff (a b : Int) : Int := (a - b) % 2 ^ 64

def isStillDependent (b : BlockAssembler) (k : Uint256) : Bool := (pool.parentsOf k).any (· ∉ b.inBlock)

def testForBlock (b : BlockAssembler) (iter : CTxMemPoolEntry) (k : Uint256) : Bool × BlockAssembler :=
  if !testPackage options b iter.sizeWithAncestors iter.sigOpCostWithAncestors then
    if b.nBlockWeight > sizeDiff options.nBlockMaxWeight 400 ∨ b.nBlockSigOpsCost > MAX_BLOCK_SIGOPS_COST - 8 ∨
        b.lastFewTxs > 50 then (false, { b with blockFinished := true })
    else if b.nBlockWeight > sizeDiff options.nBlockMaxWeight 4000 then (false,
      { b with lastFewTxs := b.lastFewTxs + 1 })
    else (false, b)
  else if !testPackageTransactions ctx options pool b [k] then
    if b.nBlockSize > sizeDiff options.nBlockMaxSize 100 ∨
      b.lastFewTxs > 50 then (false, { b with blockFinished := true })
    else if b.nBlockSize > sizeDiff options.nBlockMaxSize 1000 then (false, { b with lastFewTxs := b.lastFewTxs + 1 })
    else (false, b)
  else (true, b)

def heapFront (less : Uint256 → Uint256 → Bool) (k : Uint256) (heap : List Uint256) : Uint256 :=
  heap.foldl (fun front y => if less front y then y else front) k

structure PriorityState where
  b : BlockAssembler
  vecPriority : List Uint256
  waitPriMap : List Uint256

/-- The children that waited for a transaction go back to the heap. -/
def wakeChildren (children : List Uint256) (s : PriorityState) : PriorityState :=
  children.foldl (fun s child =>
    if child ∈ s.waitPriMap then
      { s with vecPriority := s.vecPriority ++ [child], waitPriMap := s.waitPriMap.erase child }
    else s) s

def priorityStep (nBlockPrioritySize : Int) (s : PriorityState) : Checked (Next PriorityState) :=
  match s.vecPriority with
  | [] => .ok (.done s)
  | k :: rest =>
    if s.b.blockFinished then .ok (.done s)
    else
      let iter := heapFront ctx.pricomparer k rest
      let s := { s with vecPriority := (k :: rest).erase iter }
      match pool.find iter with
      | none => .error .badIterator
      | some entry => do
        check (iter ∉ s.b.inBlock)
        if isStillDependent pool s.b iter then
          return .again { s with waitPriMap := insertNew memoryBytes iter s.waitPriMap }
        else
          let (fits, b) := testForBlock ctx options pool s.b entry iter
          if !fits then return .again { s with b }
          else
            let s := { s with b := addToBlock ctx pool b iter }
            if s.b.nBlockSize ≥ nBlockPrioritySize ∨ ctx.lowPriority iter then return .done s
            else return .again (wakeChildren entry.children s)

/-- `-blockprioritysize` as an `uint64_t`, cut at the block size. -/
def blockPrioritySize : Int :=
  let size : Int := ctx.blockPrioritySize % 2 ^ 64
  if (options.nBlockMaxSize : Int) < size then options.nBlockMaxSize else size

/-- The heap has each entry once, so the pairs bound the rounds. -/
def priorityFuel : Nat := (pool.mapTx.keys.length + 1) * (pool.mapTx.keys.length + 2)

def addPriorityTxs (b : BlockAssembler) : Checked BlockAssembler :=
  if blockPrioritySize ctx options ≤ 0 then .ok b
  else do
    let fSizeAccounting := b.fNeedSizeAccounting
    let s ← loop (priorityStep ctx options pool (blockPrioritySize ctx options)) (priorityFuel pool)
      { b := { b with fNeedSizeAccounting := true }, vecPriority := pool.mapTx.keys, waitPriMap := [] }
    return { s.b with fNeedSizeAccounting := fSizeAccounting }

/-! ## By package -/

structure CTxMemPoolModifiedEntry where
  nSizeWithAncestors : Int
  nModFeesWithAncestors : Int
  nSigOpCostWithAncestors : Int
  deriving DecidableEq

def CTxMemPoolModifiedEntry.ofEntry (e : CTxMemPoolEntry) : CTxMemPoolModifiedEntry :=
  ⟨e.sizeWithAncestors, e.modFeesWithAncestors, e.sigOpCostWithAncestors⟩

def CTxMemPoolModifiedEntry.updateForParentInclusion (iter : CTxMemPoolEntry) (m : CTxMemPoolModifiedEntry) :
    CTxMemPoolModifiedEntry :=
  ⟨m.nSizeWithAncestors - iter.getTxSize, m.nModFeesWithAncestors - iter.modifiedFee,
    m.nSigOpCostWithAncestors - iter.sigOpCost⟩

abbrev ModifiedSet := AssocMap Uint256 CTxMemPoolModifiedEntry

def updateDescendant (it : CTxMemPoolEntry) (alreadyAdded : List Uint256) (mapModifiedTx : ModifiedSet)
    (desc : Uint256) : ModifiedSet :=
  if desc ∈ alreadyAdded then mapModifiedTx
  else
    match pool.find desc with
    | none => mapModifiedTx
    | some entry =>
      let modEntry := (mapModifiedTx.lookup desc).getD (.ofEntry entry)
      mapModifiedTx.insert desc (modEntry.updateForParentInclusion it)

def updateForEach (alreadyAdded : List Uint256) : List Uint256 → ModifiedSet → Checked ModifiedSet
  | [], mapModifiedTx => .ok mapModifiedTx
  | k :: its, mapModifiedTx =>
    match pool.find k with
    | none => .error .badIterator
    | some it => do
      let descendants ← pool.calculateDescendants k []
      updateForEach alreadyAdded its (descendants.foldl (updateDescendant pool it alreadyAdded) mapModifiedTx)

def updatePackagesForAdded (alreadyAdded : List Uint256) (mapModifiedTx : ModifiedSet) : Checked ModifiedSet :=
  updateForEach pool alreadyAdded alreadyAdded mapModifiedTx

/-- `CompareTxIterByAncestorCount`: by ancestors, then by hash. -/
def ancestorCountKey (k : Uint256) : Lex (Int × List Nat) :=
  toLex ((pool.find k).elim 0 CTxMemPoolEntry.countWithAncestors, memoryBytes k)

def sortForBlock (package : List Uint256) : List Uint256 :=
  package.insertionSort fun a b => ancestorCountKey pool a ≤ ancestorCountKey pool b

def modifiedScore (k : Uint256) (m : CTxMemPoolModifiedEntry) : AncestorScore where
  modifiedFee := (pool.find k).elim 0 CTxMemPoolEntry.modifiedFee
  txSize := (pool.find k).elim 0 CTxMemPoolEntry.getTxSize
  sizeWithAncestors := m.nSizeWithAncestors
  modFeesWithAncestors := m.nModFeesWithAncestors
  hash := k

def entryScore (k : Uint256) : AncestorScore where
  modifiedFee := (pool.find k).elim 0 CTxMemPoolEntry.modifiedFee
  txSize := (pool.find k).elim 0 CTxMemPoolEntry.getTxSize
  sizeWithAncestors := (pool.find k).elim 0 CTxMemPoolEntry.sizeWithAncestors
  modFeesWithAncestors := (pool.find k).elim 0 CTxMemPoolEntry.modFeesWithAncestors
  hash := k

/-- The index `ancestor_score` of the pool. -/
def byAncestorScore : List Uint256 :=
  pool.mapTx.keys.insertionSort fun a b => !ctx.ancestorFee (entryScore pool b) (entryScore pool a)

def bestModified (mapModifiedTx : ModifiedSet) : Option (Σ _ : Uint256, CTxMemPoolModifiedEntry) :=
  match mapModifiedTx.entries with
  | [] => none
  | s :: rest => some (rest.foldl (fun best t =>
      if ctx.ancestorFee (modifiedScore pool t.1 t.2) (modifiedScore pool best.1 best.2) then t else best) s)

structure PackageState where
  b : BlockAssembler
  /-- What `mi` has before it. -/
  mi : List Uint256
  mapModifiedTx : ModifiedSet
  failedTx : List Uint256
  nConsecutiveFailed : Nat

def MAX_CONSECUTIVE_FAILURES : Nat := 1000
def BLOCK_FULL_ENOUGH_SIZE_DELTA : Int := 1000
def BLOCK_FULL_ENOUGH_WEIGHT_DELTA : Int := 4000

/-- An entry that fails is taken out of the modified ones. -/
def PackageState.fail (s : PackageState) (iter : Uint256) (fUsingModified : Bool) : PackageState :=
  if fUsingModified then
    { s with mapModifiedTx := s.mapModifiedTx.erase iter, failedTx := insertNew memoryBytes iter s.failedTx }
  else s

/-- `iter` and its ancestors that are not in the block. -/
def packageOf (s : PackageState) (iter : Uint256) (entry : CTxMemPoolEntry) : Checked (List Uint256) := do
  let ancestors ← pool.linkedAncestors entry
  return insertNew memoryBytes iter (ancestors.filter (· ∉ s.b.inBlock))

def addPackage (s : PackageState) (package : List Uint256) (m : CTxMemPoolModifiedEntry) : Checked PackageState := do
  let sortedEntries := sortForBlock pool package
  let b := sortedEntries.foldl (addToBlock ctx pool) s.b
  let mapModifiedTx ← updatePackagesForAdded pool package (sortedEntries.foldl (fun m k => m.erase k) s.mapModifiedTx)
  return { s with
    b := { b with packageFeerates := b.packageFeerates ++ [(m.nModFeesWithAncestors, int32 m.nSizeWithAncestors)] }
    mapModifiedTx
    nConsecutiveFailed := 0 }

/-- The rest of a round. `m` is the modified entry, if used. -/
def evaluate (s : PackageState) (iter : Uint256) (m : Option CTxMemPoolModifiedEntry) : Checked (Next PackageState) :=
  match pool.find iter with
  | none => .error .badIterator
  | some entry => do
    check (iter ∉ s.b.inBlock)
    let fUsingModified := m.isSome
    let m := m.getD (.ofEntry entry)
    if m.nModFeesWithAncestors < options.blockMinFee m.nSizeWithAncestors then return .done s
    else if !testPackage options s.b m.nSizeWithAncestors m.nSigOpCostWithAncestors then
      let s := { s.fail iter fUsingModified with nConsecutiveFailed := s.nConsecutiveFailed + 1 }
      if s.nConsecutiveFailed > MAX_CONSECUTIVE_FAILURES ∧
          s.b.nBlockWeight + BLOCK_FULL_ENOUGH_WEIGHT_DELTA > options.nBlockMaxWeight then return .done s
      else return .again s
    else
      let package ← packageOf pool s iter entry
      if !testPackageTransactions ctx options pool s.b package then
        let s := s.fail iter fUsingModified
        if !s.b.fNeedSizeAccounting then return .again s
        else
          let s := { s with nConsecutiveFailed := s.nConsecutiveFailed + 1 }
          if s.nConsecutiveFailed > MAX_CONSECUTIVE_FAILURES ∧
              s.b.nBlockSize > sizeDiff options.nBlockMaxSize BLOCK_FULL_ENOUGH_SIZE_DELTA then return .done s
          else return .again s
      else
        let s ← addPackage ctx pool s package m
        return .again s

inductive Choice where
  | finish
  | skip (mi : List Uint256)
  | entry (mi : List Uint256) (iter : Uint256) (m : Option CTxMemPoolModifiedEntry)

/-- What a round looks at, with the rest of the index. -/
def choose (s : PackageState) : Choice :=
  match s.mi, bestModified ctx pool s.mapModifiedTx with
  | [], none => .finish
  | [], some modit => .entry [] modit.1 (some modit.2)
  | it :: mi, modit =>
    if it ∈ s.mapModifiedTx ∨ it ∈ s.b.inBlock ∨ it ∈ s.failedTx then .skip mi
    else
      match modit with
      | none => .entry mi it none
      | some modit =>
        if ctx.ancestorFee (modifiedScore pool modit.1 modit.2) (entryScore pool it) then
          .entry (it :: mi) modit.1 (some modit.2)
        else .entry mi it none

def packageStep (s : PackageState) : Checked (Next PackageState) :=
  match choose ctx pool s with
  | .finish => .ok (.done s)
  | .skip mi => .ok (.again { s with mi })
  | .entry mi iter m => evaluate ctx options pool { s with mi } iter m

def packageFuel : Nat := (pool.mapTx.keys.length + 1) * (2 * pool.mapTx.keys.length + 2)

def packageStart (b : BlockAssembler) : Checked PackageState := do
  let mapModifiedTx ← updatePackagesForAdded pool b.inBlock ∅
  return { b, mi := byAncestorScore ctx pool, mapModifiedTx, failedTx := [], nConsecutiveFailed := 0 }

def addPackageTxs (b : BlockAssembler) : Checked BlockAssembler := do
  let s ← packageStart ctx pool b
  let s ← loop (packageStep ctx options pool) (packageFuel pool) s
  return s.b

/-- The transactions of `CreateNewBlock`, options clamped. -/
def createNewBlock (fNeedSizeAccounting : Bool) : Checked BlockAssembler := do
  let b ← addPriorityTxs ctx options pool (resetBlock options fNeedSizeAccounting)
  addPackageTxs ctx options pool b

end FullNode.Miner

import FullNode.Lib.Ancestry
import FullNode.Lib.Worklist
import FullNode.Transaction
import FullNode.TxRequest

/-!
# The memory pool

`CTxMemPool`: the entries, who spends what among them, and the sums each entry keeps over its
ancestors and descendants. An iterator or a reference into the pool is the key it points at. The sums
of fees saturate, and the model remembers whether one ever did.
-/

namespace FullNode

def CTransaction.prevouts (tx : CTransaction) : List COutPoint := tx.vin.map CTxIn.prevout
def CTransaction.parentHashes (tx : CTransaction) : List Uint256 := tx.vin.map fun txin => txin.prevout.hash

namespace Mempool

open OrderedIndex Worklist
open TxRequest (memoryBytes)

/-! ## Entries -/

abbrev Uint160 := BitVec 160

structure SpkState where
  created : Bool := false
  spent : Bool := false
  deriving DecidableEq

structure CTxMemPoolEntry where
  tx : CTransaction
  witnessHash : Uint256
  nFee : Int
  nTxWeight : Int
  /-- In seconds. -/
  nTime : Int
  sigOpCost : Int
  extraWeight : Int
  /-- The setting `nBytesPerSigOp`, fixed when the node starts. -/
  bytesPerSigOp : Nat
  modifiedFee : Int
  parents : List Uint256 := []
  children : List Uint256 := []
  countWithDescendants : Int := 1
  sizeWithDescendants : Int
  modFeesWithDescendants : Int
  countWithAncestors : Int := 1
  sizeWithAncestors : Int
  modFeesWithAncestors : Int
  sigOpCostWithAncestors : Int
  mapSPK : AssocMap Uint160 SpkState := ∅
  /-- `DynamicMemoryUsage`. -/
  nUsageSize : Int := 0
  idxRandomized : Nat := 0
  /-- A fee sum of this entry saturated. -/
  saturated : Bool := false
  deriving DecidableEq

/-- The conversion to `int32_t`. -/
def int32 (x : Int) : Int := x.bmod (2 ^ 32)

def getVirtualTransactionSize (nWeight nSigOpCost : Int) (bytesPerSigOp : Nat) : Int :=
  (max nWeight (nSigOpCost * bytesPerSigOp) + WITNESS_SCALE_FACTOR - 1).tdiv WITNESS_SCALE_FACTOR

def INT64_MAX : Int := 2 ^ 63 - 1
def INT64_MIN : Int := -2 ^ 63

def int64 (x : Int) : Checked Int := if INT64_MIN ≤ x ∧ x ≤ INT64_MAX then .ok x else .error .overflow

def saturatingAdd (i j : Int) : Int :=
  if i > 0 ∧ j > INT64_MAX - i then INT64_MAX else if i < 0 ∧ j < INT64_MIN - i then INT64_MIN else i + j

def saturates (i j : Int) : Bool := i > 0 ∧ j > INT64_MAX - i ∨ i < 0 ∧ j < INT64_MIN - i

namespace CTxMemPoolEntry

def getTxSize (e : CTxMemPoolEntry) : Int :=
  int32 (getVirtualTransactionSize (int32 (e.nTxWeight + e.extraWeight)) e.sigOpCost e.bytesPerSigOp)

def new (tx : CTransaction) (witnessHash : Uint256) (nFee nTxWeight nTime sigOpCost extraWeight : Int)
    (bytesPerSigOp : Nat) (nUsageSize : Int := 0) : CTxMemPoolEntry :=
  let size := int32 (getVirtualTransactionSize (int32 (nTxWeight + extraWeight)) sigOpCost bytesPerSigOp)
  { tx, witnessHash, nFee, nTxWeight, nTime, sigOpCost, extraWeight, bytesPerSigOp, nUsageSize
    modifiedFee := nFee
    sizeWithDescendants := size
    modFeesWithDescendants := nFee
    sizeWithAncestors := size
    modFeesWithAncestors := nFee
    sigOpCostWithAncestors := sigOpCost }

def updateModifiedFee (feeDiff : Int) (e : CTxMemPoolEntry) : CTxMemPoolEntry :=
  { e with
    modFeesWithDescendants := saturatingAdd e.modFeesWithDescendants feeDiff
    modFeesWithAncestors := saturatingAdd e.modFeesWithAncestors feeDiff
    modifiedFee := saturatingAdd e.modifiedFee feeDiff
    saturated := e.saturated || saturates e.modFeesWithDescendants feeDiff ||
      saturates e.modFeesWithAncestors feeDiff || saturates e.modifiedFee feeDiff }

/-- What an entry adds: count, size, modified fee, sigop cost. -/
def own (e : CTxMemPoolEntry) : Int × Int × Int × Int := (1, e.getTxSize, e.modifiedFee, e.sigOpCost)

def withAncestors (e : CTxMemPoolEntry) : Int × Int × Int × Int :=
  (e.countWithAncestors, e.sizeWithAncestors, e.modFeesWithAncestors, e.sigOpCostWithAncestors)

/-- What it adds to its ancestors: count, size, modified fee. -/
def ownBelow (e : CTxMemPoolEntry) : Int × Int × Int := (1, e.getTxSize, e.modifiedFee)

def withDescendants (e : CTxMemPoolEntry) : Int × Int × Int :=
  (e.countWithDescendants, e.sizeWithDescendants, e.modFeesWithDescendants)

end CTxMemPoolEntry

/-! ## The pool -/

structure CTxMemPool where
  mapTx : AssocMap Uint256 CTxMemPoolEntry := ∅
  mapNextTx : AssocMap COutPoint Uint256 := ∅
  /-- The fee deltas of `mapDeltas`. -/
  mapDeltas : AssocMap Uint256 Int := ∅
  /-- For a script: who creates it in an output, and who spends one. -/
  mapUsedSPK : AssocMap Uint160 (Option Uint256 × Option Uint256) := ∅
  totalTxSize : Int := 0
  totalFee : Int := 0
  txnsRandomized : List Uint256 := []
  cachedInnerUsage : Int := 0
  /-- A sum of fees saturated. -/
  saturated : Bool := false

namespace CTxMemPool

def find (pool : CTxMemPool) (k : Uint256) : Option CTxMemPoolEntry := pool.mapTx.lookup k

def keys (pool : CTxMemPool) : Finset Uint256 := pool.mapTx.keys.toFinset

def parentsOf (pool : CTxMemPool) (k : Uint256) : List Uint256 := (pool.find k).elim [] CTxMemPoolEntry.parents
def childrenOf (pool : CTxMemPool) (k : Uint256) : List Uint256 := (pool.find k).elim [] CTxMemPoolEntry.children

def getConflictTx (pool : CTxMemPool) (prevout : COutPoint) : Option Uint256 := pool.mapNextTx.lookup prevout

def getIter (pool : CTxMemPool) (txid : Uint256) : Option Uint256 := (pool.find txid).map fun _ => txid

/-- `GetIterSet`, over the hashes in their order. -/
def getIterSet (pool : CTxMemPool) (hashes : List Uint256) : List Uint256 := hashes.filterMap pool.getIter

def existsTxid (pool : CTxMemPool) (txid : Uint256) : Bool := (pool.find txid).isSome
def existsWtxid (pool : CTxMemPool) (wtxid : Uint256) : Bool :=
  pool.mapTx.entries.any fun s => s.2.witnessHash = wtxid

def applyDeltas (pool : CTxMemPool) (hash : Uint256) (nFeeDelta : Int) : Int :=
  nFeeDelta + (pool.mapDeltas.lookup hash).getD 0

end CTxMemPool

/-! ## Limits -/

/-- `none` is the largest `int64_t`, which nothing exceeds. -/
structure Limits where
  ancestorCount : Option Int
  ancestorSizeVbytes : Option Int
  descendantCount : Option Int
  descendantSizeVbytes : Option Int
  deriving DecidableEq

def Limits.noLimits : Limits := ⟨none, none, none, none⟩

/-- Counts are compared with the limit as an `uint64_t`. -/
def exceedsCount (n : Int) (limit : Option Int) : Bool := limit.any fun l => n > l % 2 ^ 64
def exceedsSize (n : Int) (limit : Option Int) : Bool := limit.any fun l => n > l

/-- What `CalculateMemPoolAncestors` reports. -/
inductive LimitError where
  | exceedsDescendantSize (txid : Uint256)
  | tooManyDescendants (txid : Uint256)
  | exceedsAncestorSize
  | tooManyUnconfirmedAncestors
  | tooManyUnconfirmedParents
  deriving DecidableEq

inductive WalkStop where
  | limit (e : LimitError)
  | fault (f : Fault)
  deriving DecidableEq

namespace CTxMemPool

/-! ## Descendants -/

/-- The entry read in a step of `CalculateDescendants`. -/
def visitDescendant (pool : CTxMemPool) (_ : Unit) (k : Uint256) (_ _ : List Uint256) : Checked Unit :=
  if pool.existsTxid k then .ok () else .error .badIterator

def calculateDescendants (pool : CTxMemPool) (k : Uint256) (setDescendants : List Uint256) : Checked (List Uint256) :=
  let stage := if k ∈ setDescendants then [] else [k]
  walk memoryBytes pool.childrenOf pool.visitDescendant .endless pool.mapTx.keys.length () stage setDescendants

/-- `CalculateDescendants` for each of `its`. -/
def calculateAllDescendants (pool : CTxMemPool) : List Uint256 → List Uint256 → Checked (List Uint256)
  | [], all => .ok all
  | k :: its, all => do
    let all ← pool.calculateDescendants k all
    pool.calculateAllDescendants its all

/-! ## Ancestors -/

/-- The parents are staged one by one, with a look at the count. -/
def checkStaged (limits : Limits) (entryCount : Nat) (ancestors : List Uint256) : List Uint256 → List Uint256 →
    Except WalkStop Unit
  | [], _ => .ok ()
  | parent :: parents, staged =>
    let staged := if parent ∈ ancestors then staged else insertNew memoryBytes parent staged
    if exceedsCount (staged.length + ancestors.length + entryCount) limits.ancestorCount then
      .error (.limit .tooManyUnconfirmedAncestors)
    else checkStaged limits entryCount ancestors parents staged

/-- One round of `CalculateAncestorsAndCheckLimits`. -/
def visitAncestor (pool : CTxMemPool) (limits : Limits) (entrySize : Int) (entryCount : Nat)
    (totalSizeWithAncestors : Int) (k : Uint256) (staged ancestors : List Uint256) : Except WalkStop Int :=
  match pool.find k with
  | none => .error (.fault .badIterator)
  | some stage =>
    let totalSizeWithAncestors := totalSizeWithAncestors + stage.getTxSize
    if exceedsSize (stage.sizeWithDescendants + entrySize) limits.descendantSizeVbytes then
      .error (.limit (.exceedsDescendantSize k))
    else if exceedsCount (stage.countWithDescendants + entryCount) limits.descendantCount then
      .error (.limit (.tooManyDescendants k))
    else if exceedsSize totalSizeWithAncestors limits.ancestorSizeVbytes then
      .error (.limit .exceedsAncestorSize)
    else do
      checkStaged limits entryCount ancestors stage.parents staged
      return totalSizeWithAncestors

def calculateAncestorsAndCheckLimits (pool : CTxMemPool) (entrySize : Int) (entryCount : Nat)
    (stagedAncestors : List Uint256) (limits : Limits) : Except WalkStop (List Uint256) :=
  walk memoryBytes pool.parentsOf (pool.visitAncestor limits entrySize entryCount) (.fault .endless)
    pool.mapTx.keys.length entrySize stagedAncestors []

def stageParents (pool : CTxMemPool) (limits : Limits) : List CTxIn → List Uint256 → Except WalkStop (List Uint256)
  | [], staged => .ok staged
  | txin :: vin, staged =>
    match pool.getIter txin.prevout.hash with
    | none => pool.stageParents limits vin staged
    | some piter =>
      let staged := insertNew memoryBytes piter staged
      if exceedsCount (staged.length + 1) limits.ancestorCount then .error (.limit .tooManyUnconfirmedParents)
      else pool.stageParents limits vin staged

/-- With `fSearchForParents`. -/
def calculateMemPoolAncestors (pool : CTxMemPool) (entry : CTxMemPoolEntry)
    (limits : Limits) : Except WalkStop (List Uint256) := do
  let staged ← pool.stageParents limits entry.tx.vin []
  pool.calculateAncestorsAndCheckLimits entry.getTxSize 1 staged limits

/-- `AssumeCalculateMemPoolAncestors` by links, without limits. -/
def linkedAncestors (pool : CTxMemPool) (entry : CTxMemPoolEntry) : Checked (List Uint256) :=
  match pool.calculateAncestorsAndCheckLimits entry.getTxSize 1 entry.parents Limits.noLimits with
  | .ok ancestors => .ok ancestors
  | .error (.limit _) => .ok []
  | .error (.fault f) => .error f

end CTxMemPool
end Mempool
end FullNode

import FullNode.Mempool

/-!
# Changes to the memory pool

Sets of entries are lists in the order of their txids. Counts and sizes of 64 bits do not overflow here; a plain sum
of fees does.
-/

namespace FullNode.Mempool

open OrderedIndex
open TxRequest (memoryBytes)

namespace CTxMemPoolEntry

def updateDescendantState (modifySize modifyFee modifyCount : Int) (e : CTxMemPoolEntry) : Checked CTxMemPoolEntry := do
  check (0 < e.sizeWithDescendants + modifySize)
  check (0 < e.countWithDescendants + modifyCount)
  return { e with
    sizeWithDescendants := e.sizeWithDescendants + modifySize
    modFeesWithDescendants := saturatingAdd e.modFeesWithDescendants modifyFee
    countWithDescendants := e.countWithDescendants + modifyCount
    saturated := e.saturated || saturates e.modFeesWithDescendants modifyFee }

def updateAncestorState (modifySize modifyFee modifyCount modifySigOps : Int)
    (e : CTxMemPoolEntry) : Checked CTxMemPoolEntry := do
  check (0 < e.sizeWithAncestors + modifySize)
  check (0 < e.countWithAncestors + modifyCount)
  check (0 ≤ int32 (e.sigOpCostWithAncestors + modifySigOps))
  return { e with
    sizeWithAncestors := e.sizeWithAncestors + modifySize
    modFeesWithAncestors := saturatingAdd e.modFeesWithAncestors modifyFee
    countWithAncestors := e.countWithAncestors + modifyCount
    sigOpCostWithAncestors := e.sigOpCostWithAncestors + modifySigOps
    saturated := e.saturated || saturates e.modFeesWithAncestors modifyFee }

end CTxMemPoolEntry

def int32Sum (x : Int) : Checked Int := if -2 ^ 31 ≤ x ∧ x < 2 ^ 31 then .ok x else .error .overflow

namespace CTxMemPool

def entryAt (pool : CTxMemPool) (k : Uint256) : Checked CTxMemPoolEntry :=
  match pool.find k with
  | some e => .ok e
  | none => .error .badIterator

def modify (pool : CTxMemPool) (k : Uint256) (f : CTxMemPoolEntry → Checked CTxMemPoolEntry) : Checked CTxMemPool := do
  let e ← pool.entryAt k
  let e ← f e
  return { pool with mapTx := pool.mapTx.insert k e, saturated := pool.saturated || e.saturated }

def modifyAll (f : CTxMemPoolEntry → Checked CTxMemPoolEntry) (ks : List Uint256)
    (pool : CTxMemPool) : Checked CTxMemPool :=
  ks.foldlM (fun pool k => pool.modify k f) pool

/-- `IncrementalDynamicUsage` of a set of entries. -/
def SET_NODE_USAGE : Int := 64

def linkUsage (add present : Bool) : Int :=
  if add && !present then SET_NODE_USAGE else if !add && present then -SET_NODE_USAGE else 0

def charge (pool : CTxMemPool) (usage : Int) : CTxMemPool :=
  { pool with cachedInnerUsage := pool.cachedInnerUsage + usage }

def updateChild (pool : CTxMemPool) (k child : Uint256) (add : Bool) : Checked CTxMemPool := do
  let entry ← pool.entryAt k
  let pool ← pool.modify k fun e =>
      .ok { e with children := if add then insertNew memoryBytes child e.children else e.children.erase child }
  return pool.charge (linkUsage add (child ∈ entry.children))

def updateParent (pool : CTxMemPool) (k parent : Uint256) (add : Bool) : Checked CTxMemPool := do
  let entry ← pool.entryAt k
  let pool ← pool.modify k fun e =>
      .ok { e with parents := if add then insertNew memoryBytes parent e.parents else e.parents.erase parent }
  return pool.charge (linkUsage add (parent ∈ entry.parents))

/-! ## Sums -/

def updateAncestorsOf (pool : CTxMemPool) (add : Bool) (k : Uint256) (setAncestors : List Uint256) :
    Checked CTxMemPool := do
  let it ← pool.entryAt k
  let pool ← it.parents.foldlM (fun pool parent => pool.updateChild parent k add) pool
  let updateCount : Int := if add then 1 else -1
  let updateFee ← int64 (updateCount * it.modifiedFee)
  pool.modifyAll (CTxMemPoolEntry.updateDescendantState (updateCount * it.getTxSize) updateFee updateCount) setAncestors

def sumEntries (pool : CTxMemPool) : List Uint256 → Int × Int × Int → Checked (Int × Int × Int)
  | [], sums => .ok sums
  | a :: set, (updateSize, updateFee, updateSigOpsCost) => do
    let e ← pool.entryAt a
    let updateFee ← int64 (updateFee + e.modifiedFee)
    pool.sumEntries set (updateSize + e.getTxSize, updateFee, updateSigOpsCost + e.sigOpCost)

def updateEntryForAncestors (pool : CTxMemPool) (k : Uint256) (setAncestors : List Uint256) : Checked CTxMemPool := do
  let (updateSize, updateFee, updateSigOpsCost) ← pool.sumEntries setAncestors (0, 0, 0)
  pool.modify k (CTxMemPoolEntry.updateAncestorState updateSize updateFee setAncestors.length updateSigOpsCost)

/-! ## Removal -/

def updateChildrenForRemoval (pool : CTxMemPool) (k : Uint256) : Checked CTxMemPool := do
  let it ← pool.entryAt k
  it.children.foldlM (fun pool child => pool.updateParent child k false) pool

def updateDescendantsOf (pool : CTxMemPool) (k : Uint256) : Checked CTxMemPool := do
  let setDescendants ← pool.calculateDescendants k []
  let it ← pool.entryAt k
  let modifyFee ← int64 (-it.modifiedFee)
  pool.modifyAll (CTxMemPoolEntry.updateAncestorState (-it.getTxSize) modifyFee (-1) (int32 (-it.sigOpCost)))
    (setDescendants.erase k)

def severFromAncestors (pool : CTxMemPool) (k : Uint256) : Checked CTxMemPool := do
  let entry ← pool.entryAt k
  let ancestors ← pool.linkedAncestors entry
  pool.updateAncestorsOf false k ancestors

def updateForRemoveFromMempool (pool : CTxMemPool) (entriesToRemove : List Uint256)
    (updateDescendants : Bool) : Checked CTxMemPool := do
  let pool ← if updateDescendants then entriesToRemove.foldlM updateDescendantsOf pool else .ok pool
  let pool ← entriesToRemove.foldlM severFromAncestors pool
  entriesToRemove.foldlM updateChildrenForRemoval pool

def releaseSPK (txid : Uint256) (used : AssocMap Uint160 (Option Uint256 × Option Uint256)) (key : Uint160) :
    AssocMap Uint160 (Option Uint256 × Option Uint256) :=
  let pair := (used.lookup key).getD (none, none)
  let pair := (if pair.1 = some txid then none else pair.1, if pair.2 = some txid then none else pair.2)
  if pair = (none, none) then used.erase key else used.insert key pair

/-- The last transaction of the list takes the place. -/
def dropRandomized (pool : CTxMemPool) (it : CTxMemPoolEntry) : Checked CTxMemPool :=
  match pool.txnsRandomized.getLast? with
  | some back =>
    if pool.txnsRandomized.length > 1 then do
      check (pool.existsTxid back)
      let pool ← pool.modify back fun e => .ok { e with idxRandomized := it.idxRandomized }
      if it.idxRandomized < pool.txnsRandomized.length then
        return { pool with txnsRandomized := (pool.txnsRandomized.set it.idxRandomized back).dropLast }
      else .error .badIterator
    else return { pool with txnsRandomized := [] }
  | none => return pool

def entryUsage (e : CTxMemPoolEntry) : Int := e.nUsageSize + SET_NODE_USAGE * (e.parents.length + e.children.length)

def removeUnchecked (pool : CTxMemPool) (k : Uint256) : Checked CTxMemPool := do
  let it ← pool.entryAt k
  let pool ← pool.dropRandomized it
  return { pool with
    cachedInnerUsage := pool.cachedInnerUsage - entryUsage it
    mapNextTx := it.tx.vin.foldl (fun next txin => next.erase txin.prevout) pool.mapNextTx
    mapUsedSPK := it.mapSPK.keys.foldl (releaseSPK k) pool.mapUsedSPK
    totalTxSize := pool.totalTxSize - it.getTxSize
    totalFee := pool.totalFee - it.nFee
    mapTx := pool.mapTx.erase k }

def removeStaged (pool : CTxMemPool) (stage : List Uint256) (updateDescendants : Bool) : Checked CTxMemPool := do
  let pool ← pool.updateForRemoveFromMempool stage updateDescendants
  stage.foldlM removeUnchecked pool

/-- What spends an output of a transaction that is not in the pool. -/
def spendersOf (pool : CTxMemPool) (origTx : CTransaction) : List Uint256 :=
  ((List.range origTx.vout.length).filterMap fun i => pool.mapNextTx.lookup ⟨origTx.hash, i⟩).foldr
    (insertNew memoryBytes) []

def removeRecursive (pool : CTxMemPool) (origTx : CTransaction) : Checked CTxMemPool := do
  let txToRemove := if pool.existsTxid origTx.hash then [origTx.hash] else pool.spendersOf origTx
  check (txToRemove.all pool.existsTxid)
  let setAllRemoves ← pool.calculateAllDescendants txToRemove []
  pool.removeStaged setAllRemoves false

def keysWhere (pool : CTxMemPool) (p : Uint256 → CTxMemPoolEntry → Bool) : List Uint256 :=
  ((pool.mapTx.entries.filter fun s => p s.1 s.2).map fun s => s.1).foldr (insertNew memoryBytes) []

def removeForReorg (pool : CTxMemPool) (checkFinalAndMature : Uint256 → Bool) : Checked CTxMemPool := do
  let setAllRemoves ← pool.calculateAllDescendants (pool.keysWhere fun k _ => checkFinalAndMature k) []
  pool.removeStaged setAllRemoves false

def clearPrioritisation (pool : CTxMemPool) (hash : Uint256) : CTxMemPool :=
  { pool with mapDeltas := pool.mapDeltas.erase hash }

def removeConflict (tx : CTransaction) (pool : CTxMemPool) (txin : CTxIn) : Checked CTxMemPool :=
  match pool.mapNextTx.lookup txin.prevout with
  | none => .ok pool
  | some k => do
    let txConflict ← pool.entryAt k
    if txConflict.tx.hash ≠ tx.hash then (pool.clearPrioritisation txConflict.tx.hash).removeRecursive txConflict.tx
    else return pool

def removeConflicts (pool : CTxMemPool) (tx : CTransaction) : Checked CTxMemPool :=
  tx.vin.foldlM (removeConflict tx) pool

def removeForBlockTx (pool : CTxMemPool) (tx : CTransaction) : Checked CTxMemPool := do
  let pool ← if pool.existsTxid tx.hash then pool.removeStaged [tx.hash] true else .ok pool
  let pool ← pool.removeConflicts tx
  return pool.clearPrioritisation tx.hash

def removeForBlock (pool : CTxMemPool) (vtx : List CTransaction) : Checked CTxMemPool :=
  if pool.mapTx.keys.isEmpty ∧ pool.mapNextTx.keys.isEmpty ∧ pool.mapDeltas.keys.isEmpty then .ok pool
  else vtx.foldlM removeForBlockTx pool

def expire (pool : CTxMemPool) (time : Int) : Checked CTxMemPool := do
  let stage ← pool.calculateAllDescendants (pool.keysWhere fun _ e => e.nTime < time) []
  pool.removeStaged stage false

/-- `full` compares the memory with the limit, round by round. -/
def trimToSize (full : CTxMemPool → Bool) : List Uint256 → CTxMemPool → Checked CTxMemPool
  | [], pool => .ok pool
  | it :: its, pool =>
    if pool.mapTx.keys.isEmpty ∨ !full pool then .ok pool
    else do
      let stage ← pool.calculateDescendants it []
      let pool ← pool.removeStaged stage false
      trimToSize full its pool

/-! ## Addition -/

def spendInputs (k : Uint256) (next : AssocMap COutPoint Uint256) (txin : CTxIn) : AssocMap COutPoint Uint256 :=
  if txin.prevout ∈ next then next else next.insert txin.prevout k

def claimSPK (k : Uint256) (used : AssocMap Uint160 (Option Uint256 × Option Uint256))
    (claim : Σ _ : Uint160, SpkState) : AssocMap Uint160 (Option Uint256 × Option Uint256) :=
  let pair := (used.lookup claim.1).getD (none, none)
  let pair := (if claim.2.created then some k else pair.1, if claim.2.spent then some k else pair.2)
  if claim.2.created ∨ claim.2.spent then used.insert claim.1 pair else used

def addNewTransaction (pool : CTxMemPool) (k : Uint256) (setAncestors : List Uint256) : Checked CTxMemPool := do
  let entry ← pool.entryAt k
  let pool := { pool with
    cachedInnerUsage := pool.cachedInnerUsage + entry.nUsageSize
    mapNextTx := entry.tx.vin.foldl (spendInputs k) pool.mapNextTx }
  let setParentTransactions := entry.tx.parentHashes.foldr (insertNew memoryBytes) []
  let pool ← (pool.getIterSet setParentTransactions).foldlM (fun pool pit => pool.updateParent k pit true) pool
  let pool ← pool.updateAncestorsOf true k setAncestors
  let pool ← pool.updateEntryForAncestors k setAncestors
  let pool ← pool.modify k fun e => .ok { e with idxRandomized := pool.txnsRandomized.length }
  return { pool with
    txnsRandomized := pool.txnsRandomized ++ [k]
    totalTxSize := pool.totalTxSize + entry.getTxSize
    totalFee := pool.totalFee + entry.nFee
    mapUsedSPK := entry.mapSPK.entries.foldl (claimSPK k) pool.mapUsedSPK }

/-- `mapTx.insert` of a staged entry. -/
def insertEntry (pool : CTxMemPool) (entry : CTxMemPoolEntry) : CTxMemPool :=
  { pool with mapTx := pool.mapTx.insert entry.tx.hash entry, saturated := pool.saturated || entry.saturated }

/-- `AssumeCalculateMemPoolAncestors` with a search for parents. -/
def searchedAncestors (pool : CTxMemPool) (entry : CTxMemPoolEntry) : Checked (List Uint256) :=
  match pool.calculateMemPoolAncestors entry Limits.noLimits with
  | .ok ancestors => .ok ancestors
  | .error (.limit _) => .ok []
  | .error (.fault f) => .error f

def applyNext (pool : CTxMemPool) (entry : CTxMemPoolEntry) : Checked CTxMemPool := do
  check (!pool.existsTxid entry.tx.hash)
  let pool := pool.insertEntry entry
  let ancestors ← pool.searchedAncestors entry
  pool.addNewTransaction entry.tx.hash ancestors

/-- The ancestors of the first entry are those found before. -/
def apply (pool : CTxMemPool) (toRemove : List Uint256) (cachedAncestors : List Uint256)
    (entries : List CTxMemPoolEntry) : Checked CTxMemPool := do
  let pool ← pool.removeStaged toRemove false
  match entries with
  | [] => return pool
  | entry :: entries => do
    check (!pool.existsTxid entry.tx.hash)
    let pool ← (pool.insertEntry entry).addNewTransaction entry.tx.hash cachedAncestors
    entries.foldlM applyNext pool

/-! ## `PrioritiseTransaction` -/

def prioritiseEntry (pool : CTxMemPool) (hash : Uint256) (nFeeDelta : Int) : Checked CTxMemPool := do
  let pool ← pool.modify hash fun e => .ok (e.updateModifiedFee nFeeDelta)
  let it ← pool.entryAt hash
  let ancestors ← pool.linkedAncestors it
  let pool ← pool.modifyAll (CTxMemPoolEntry.updateDescendantState 0 nFeeDelta 0) ancestors
  let setDescendants ← pool.calculateDescendants hash []
  pool.modifyAll (CTxMemPoolEntry.updateAncestorState 0 nFeeDelta 0 0) (setDescendants.erase hash)

def prioritiseTransaction (pool : CTxMemPool) (hash : Uint256) (nFeeDelta : Int) : Checked CTxMemPool := do
  let delta := (pool.mapDeltas.lookup hash).getD 0
  let total := saturatingAdd delta nFeeDelta
  let pool := { pool with
    mapDeltas := if total = 0 then pool.mapDeltas.erase hash else pool.mapDeltas.insert hash total
    saturated := pool.saturated || saturates delta nFeeDelta }
  if pool.existsTxid hash then pool.prioritiseEntry hash nFeeDelta else return pool

end CTxMemPool
end FullNode.Mempool

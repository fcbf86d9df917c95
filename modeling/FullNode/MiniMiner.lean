import FullNode.Lib.Loop
import FullNode.Mempool

/-!
# The mini miner

`MiniMiner`: for outputs of transactions in the pool, what it costs to bring them to a feerate. An iterator into a map
is the key it points at. `Assume` stops nothing, and is left out.
-/

namespace FullNode

open Worklist
open TxRequest (memoryBytes)

structure MiniMinerMempoolEntry where
  tx : CTransaction
  vsize_individual : Int
  vsize_with_ancestors : Int
  fee_individual : Int
  fee_with_ancestors : Int
  deriving DecidableEq

def MiniMinerMempoolEntry.updateAncestorState (vsize_change fee_change : Int)
    (e : MiniMinerMempoolEntry) : MiniMinerMempoolEntry :=
  { e with
    vsize_with_ancestors := e.vsize_with_ancestors + vsize_change
    fee_with_ancestors := e.fee_with_ancestors + fee_change }

abbrev MockEntryMap := AssocMap Uint256 MiniMinerMempoolEntry

structure MiniMiner where
  m_ready_to_calculate : Bool := true
  m_to_be_replaced : List Uint256 := []
  m_requested_outpoints_by_txid : AssocMap Uint256 (List COutPoint) := ∅
  m_bump_fees : AssocMap COutPoint Int := ∅
  m_in_block : List Uint256 := []
  m_entries_by_txid : MockEntryMap := ∅
  m_entries : List Uint256 := []
  m_descendant_set_by_txid : AssocMap Uint256 (List Uint256) := ∅

namespace MiniMiner

/-- `emplace` of a map. -/
def emplace {κ v : Type} [DecidableEq κ] (m : AssocMap κ v) (k : κ) (x : v) : AssocMap κ v :=
  if k ∈ m then m else m.insert k x

/-! ## Feerates -/

/-- `CFeeRate::GetFee`, rounded up, per 1000 virtual bytes. -/
def getFee (nSatoshisPerK num_bytes : Int) : Int := (nSatoshisPerK * num_bytes + 999) / 1000

structure FeeFrac where
  fee : Int
  size : Int
  deriving DecidableEq

def FeeFrac.lt (a b : FeeFrac) : Bool :=
  if a.fee * b.size = b.fee * a.size then b.size < a.size else a.fee * b.size < b.fee * a.size

def minFeerate (e : MiniMinerMempoolEntry) : FeeFrac :=
  let self_feerate : FeeFrac := ⟨e.fee_individual, e.vsize_individual⟩
  let ancestor_feerate : FeeFrac := ⟨e.fee_with_ancestors, e.vsize_with_ancestors⟩
  if self_feerate.lt ancestor_feerate then self_feerate else ancestor_feerate

def ancestorFeerateComparator (a b : Uint256 × MiniMinerMempoolEntry) : Bool :=
  if minFeerate a.2 ≠ minFeerate b.2 then (minFeerate b.2).lt (minFeerate a.2) else memoryBytes a.1 < memoryBytes b.1

/-! ## The graph -/

def parentsIn (m : MockEntryMap) (k : Uint256) : List Uint256 :=
  ((m.lookup k).elim [] fun e => e.tx.parentHashes).filter (· ∈ m)

def childrenIn (m : MockEntryMap) (k : Uint256) : List Uint256 := m.keys.filter fun c => k ∈ parentsIn m c

/-- Everything that `next` leads to from the stage. -/
def closure (m : MockEntryMap) (next : Uint256 → List Uint256) (stage : List Uint256) : Checked (List Uint256) :=
  walk memoryBytes next (fun _ _ _ _ => .ok ()) .endless m.keys.length () stage []

def getConflictTx (mempool : MockEntryMap) (outpoint : COutPoint) : Option Uint256 :=
  (mempool.entries.find? fun s => outpoint ∈ s.2.tx.prevouts).map Sigma.fst

def calculateDescendants (mempool : MockEntryMap) (k : Uint256) : Checked (List Uint256) :=
  closure mempool (childrenIn mempool) [k]

def gatherClusters (mempool : MockEntryMap) (txids : List Uint256) : Checked (List Uint256) := do
  let clustered_txs ← closure mempool (fun k => parentsIn mempool k ++ childrenIn mempool k)
      (txids.filter (· ∈ mempool))
  return if clustered_txs.length > 500 then [] else clustered_txs

/-! ## The constructor -/

def requestOutpoint (mempool : MockEntryMap) (s : MiniMiner) (outpoint : COutPoint) : Checked MiniMiner :=
  if outpoint.hash ∉ mempool then .ok { s with m_bump_fees := emplace s.m_bump_fees outpoint 0 }
  else do
    let requested := (s.m_requested_outpoints_by_txid.lookup outpoint.hash).getD []
    let s := { s with
      m_requested_outpoints_by_txid := s.m_requested_outpoints_by_txid.insert outpoint.hash (requested ++ [outpoint]) }
    match getConflictTx mempool outpoint with
    | none => return s
    | some ptx =>
      let descendants ← calculateDescendants mempool ptx
      return { s with m_to_be_replaced := s.m_to_be_replaced ++ descendants }

def addEntry (mempool : MockEntryMap) (s : MiniMiner) (txid : Uint256) : Checked MiniMiner :=
  match mempool.lookup txid with
  | none => .error .badIterator
  | some e =>
    if txid ∉ s.m_to_be_replaced then
      .ok { s with
        m_entries_by_txid := emplace s.m_entries_by_txid txid e
        m_entries := s.m_entries ++ [txid] }
    else
      let requested := (s.m_requested_outpoints_by_txid.lookup txid).getD []
      .ok { s with
        m_bump_fees := requested.foldl (fun fees outpoint => emplace fees outpoint 0) s.m_bump_fees
        m_requested_outpoints_by_txid := s.m_requested_outpoints_by_txid.erase txid }

def cacheDescendants (mempool : MockEntryMap) (s : MiniMiner) (txid : Uint256) : Checked MiniMiner := do
  let descendants ← calculateDescendants mempool txid
  if txid ∈ s.m_to_be_replaced then return s
  else return { s with
    m_descendant_set_by_txid :=
      emplace s.m_descendant_set_by_txid txid (descendants.filter (· ∉ s.m_to_be_replaced)) }

def new (mempool : MockEntryMap) (outpoints : List COutPoint) : Checked MiniMiner := do
  let s ← outpoints.foldlM (requestOutpoint mempool) {}
  if s.m_requested_outpoints_by_txid.keys.isEmpty then return s
  let cluster ← gatherClusters mempool s.m_requested_outpoints_by_txid.keys
  if cluster.isEmpty then return { s with m_ready_to_calculate := false }
  let s ← cluster.foldlM (addEntry mempool) s
  cluster.foldlM (cacheDescendants mempool) s

/-! ## The mock template -/

/-- A mined ancestor is taken out of the totals of one descendant. -/
def deduct (own : MiniMinerMempoolEntry) (m : MockEntryMap) (descendant : Uint256) : Checked MockEntryMap :=
  match m.lookup descendant with
  | none => .error .badIterator
  | some e => .ok (m.insert descendant (e.updateAncestorState (-own.vsize_individual) (-own.fee_individual)))

def mineEntry (s : MiniMiner) (anc : Uint256) : Checked MiniMiner :=
  match s.m_entries_by_txid.lookup anc, s.m_descendant_set_by_txid.lookup anc with
  | some own, some descendants => do
    let m_entries_by_txid ← descendants.foldlM (deduct own) s.m_entries_by_txid
    return { s with m_in_block := anc :: s.m_in_block, m_entries_by_txid }
  | _, _ => .error .badIterator

def eraseEntry (s : MiniMiner) (anc : Uint256) : MiniMiner :=
  { s with
    m_descendant_set_by_txid := s.m_descendant_set_by_txid.erase anc
    m_entries := s.m_entries.erase anc
    m_entries_by_txid := s.m_entries_by_txid.erase anc }

def deleteAncestorPackage (s : MiniMiner) (ancestors : List Uint256) : Checked MiniMiner := do
  let s ← ancestors.foldlM mineEntry s
  return ancestors.foldl eraseEntry s

def sortEntries (s : MiniMiner) : List (Uint256 × MiniMinerMempoolEntry) :=
  (s.m_entries.filterMap fun k => (s.m_entries_by_txid.lookup k).map fun e => (k, e)).insertionSort
    fun a b => ¬ ancestorFeerateComparator b a

/-- One round of `BuildMockTemplate`. -/
def templateRound (target_feerate : Option Int) (s : MiniMiner) : Checked (Next MiniMiner) :=
  if s.m_entries_by_txid.keys.isEmpty then .ok (.done s)
  else
    let sorted := sortEntries s
    let s := { s with m_entries := sorted.map Prod.fst }
    match sorted with
    | [] => .error .badIterator
    | (best, e) :: _ =>
      if target_feerate.any fun rate => e.fee_with_ancestors < getFee rate e.vsize_with_ancestors then .ok (.done s)
      else do
        let ancestors ← closure s.m_entries_by_txid (parentsIn s.m_entries_by_txid) [best]
        let s ← deleteAncestorPackage s ancestors
        return .again s

def buildMockTemplate (target_feerate : Option Int) (s : MiniMiner) : Checked MiniMiner := do
  let s ← loop (templateRound target_feerate) (s.m_entries_by_txid.keys.length + 1) s
  return { s with m_ready_to_calculate := false }

/-! ## The bump fees -/

def settleMined (s : MiniMiner) (txid : Uint256) : MiniMiner :=
  match s.m_requested_outpoints_by_txid.lookup txid with
  | none => s
  | some outpoints =>
    { s with
      m_bump_fees := outpoints.foldl (fun fees outpoint => emplace fees outpoint 0) s.m_bump_fees
      m_requested_outpoints_by_txid := s.m_requested_outpoints_by_txid.erase txid }

def bumpFee (target_feerate : Int) (e : MiniMinerMempoolEntry) : Int :=
  let bump_fee_with_ancestors := getFee target_feerate e.vsize_with_ancestors - e.fee_with_ancestors
  let bump_fee_individual := getFee target_feerate e.vsize_individual - e.fee_individual
  max bump_fee_with_ancestors bump_fee_individual

def settleLeft (target_feerate : Int) (m : MockEntryMap) (fees : AssocMap COutPoint Int)
    (request : Sigma fun _ : Uint256 => List COutPoint) : AssocMap COutPoint Int :=
  match m.lookup request.1 with
  | none => fees
  | some e => request.2.foldl (fun fees outpoint => emplace fees outpoint (bumpFee target_feerate e)) fees

def calculateBumpFees (s : MiniMiner) (target_feerate : Int) : Checked (AssocMap COutPoint Int) :=
  if !s.m_ready_to_calculate then .ok ∅
  else do
    let s ← buildMockTemplate (some target_feerate) s
    let s := s.m_in_block.foldl settleMined s
    return s.m_requested_outpoints_by_txid.entries.foldl (settleLeft target_feerate s.m_entries_by_txid) s.m_bump_fees

/-- The ancestors are what is processed and what is to process. -/
def calculateTotalBumpFees (s : MiniMiner) (target_feerate : Int) : Checked (Option Int) :=
  if !s.m_ready_to_calculate then .ok none
  else do
    let s ← buildMockTemplate (some target_feerate) s
    let to_process := s.m_requested_outpoints_by_txid.keys.filter fun txid =>
      txid ∉ s.m_in_block ∧ txid ∈ s.m_entries_by_txid
    let ancestors ← closure s.m_entries_by_txid (parentsIn s.m_entries_by_txid) to_process
    let left := ancestors.filterMap s.m_entries_by_txid.lookup
    let ancestor_package_size := (left.map (·.vsize_individual)).sum
    let ancestor_package_fee := (left.map (·.fee_individual)).sum
    return some (getFee target_feerate ancestor_package_size - ancestor_package_fee)

end MiniMiner
end FullNode

import FullNode.TxOrphanage
import Mathlib.Data.List.Destutter

/-!
# Transaction downloads

The filters of recent transactions are made on their first use, which no caller can tell, and stand here from the
start.
-/

namespace FullNode.TxDownload

open Orphanage
open TxRequest (GenTxid PriorityComputer Tracker memoryBytes byTxHashView byTxHashKey)

/-! ## What comes from outside -/

/-- `TxValidationResult`. -/
inductive Verdict where
  | resultUnset
  | consensus
  | inputsNotStandard
  | notStandard
  | missingInputs
  | prematureSpend
  | witnessMutated
  | witnessStripped
  | conflict
  | mempoolPolicy
  | noMempool
  | reconsiderable
  | unknown
  deriving DecidableEq

structure CTransactionRef extends TransactionRef where
  hasWitness : Bool
  deriving DecidableEq

structure TxDownloadConnectionInfo where
  m_preferred : Bool
  m_relay_permissions : Bool
  m_wtxid_relay : Bool
  deriving DecidableEq

structure Filtering (F : Type) where
  insert : F → Uint256 → F
  contains : F → Uint256 → Bool
  /-- The number is the new tweak. -/
  reset : F → Uint32 → F

structure Surroundings where
  /-- `m_mempool.exists`. -/
  inMempool : GenTxid → Bool
  m_rng : Nat → Nat
  /-- In microseconds. -/
  now : Int
  /-- In seconds, each time the clock is read. -/
  clock : Nat → Int
  /-- Where the map keeps the entry of an orphan. -/
  address : Uint256 → Nat

def MAX_PEER_TX_REQUEST_IN_FLIGHT : Nat := 100
def MAX_PEER_TX_ANNOUNCEMENTS : Nat := 5000
def TXID_RELAY_DELAY : Int := 2000000
def NONPREF_PEER_TX_DELAY : Int := 2000000
def OVERLOADED_PEER_TX_DELAY : Int := 2000000
def GETDATA_TX_INTERVAL : Int := 60000000

structure PackageToValidate where
  m_txns : List TransactionRef
  m_senders : List Int
  deriving DecidableEq

structure RejectedTxTodo where
  m_should_add_extra_compact_tx : Bool
  m_unique_parents : List Uint256
  m_package_to_validate : Option PackageToValidate
  deriving DecidableEq

structure TxDownloadManagerImpl (computer : PriorityComputer) (F : Type) where
  m_max_orphan_txs : Nat
  m_orphanage : TxOrphanage := {}
  m_txrequest : Tracker computer := .initial
  m_recent_rejects : F
  m_recent_rejects_reconsiderable : F
  m_recent_confirmed_transactions : F
  m_peer_info : AssocMap Int TxDownloadConnectionInfo := ∅
  m_num_wtxid_peers : Uint32 := 0

end FullNode.TxDownload

/-! ## What the components answer -/

namespace FullNode.TxRequest.Tracker

variable {computer : PriorityComputer}

def count (s : Tracker computer) (peer : Int) : Nat := (s.peerinfo.lookup peer).elim 0 (·.total)

def countInFlight (s : Tracker computer) (peer : Int) : Nat := (s.peerinfo.lookup peer).elim 0 (·.requested)

def size (s : Tracker computer) : Nat := s.byPeer.length

def getCandidatePeers (s : Tracker computer) (txhash : Uint256) : List Int :=
  let start := byTxHashKey txhash .candidateDelayed 0
  ((s.byTxHash.dropWhile fun ann => byTxHashView computer ann < start).takeWhile
    fun ann => ann.txhash = txhash ∧ ann.state ≠ .completed).map (·.peer)

end FullNode.TxRequest.Tracker

namespace FullNode.Orphanage.TxOrphanage

def haveTx (s : TxOrphanage) (wtxid : Uint256) : Bool := (s.orphans.lookup wtxid).isSome

def getTx (s : TxOrphanage) (wtxid : Uint256) : Option TransactionRef := (s.orphans.lookup wtxid).map (·.tx)

def haveTxFromPeer (s : TxOrphanage) (wtxid : Uint256) (peer : Int) : Bool :=
  (s.orphans.lookup wtxid).any fun orphan => peer ∈ orphan.announcers

def usageByPeer (s : TxOrphanage) (peer : Int) : Uint32 := (s.peerOrphanageInfo.lookup peer).elim 0 (·.totalUsage)

def haveTxToReconsider (s : TxOrphanage) (peer : Int) : Bool :=
  (s.peerOrphanageInfo.lookup peer).any fun info => !info.workSet.isEmpty

def newerFirst (address : Uint256 → Nat) (lhs rhs : Uint256 × OrphanTx) : Bool :=
  if lhs.2.nTimeExpire = rhs.2.nTimeExpire then address lhs.1 ≤ address rhs.1 else lhs.2.nTimeExpire > rhs.2.nTimeExpire

def deref (s : TxOrphanage) (it : Uint256) : Checked (Uint256 × OrphanTx) :=
  match s.orphans.lookup it with
  | none => .error .badIterator
  | some orphan => .ok (it, orphan)

def getChildrenFromSamePeer (s : TxOrphanage) (address : Uint256 → Nat) (parent : CTransaction) (nodeid : Int) :
    Checked (List TransactionRef) := do
  let found ← (s.children parent).mapM s.deref
  let iters := (found.filter fun e => nodeid ∈ e.2.announcers).insertionSort fun lhs rhs => newerFirst address lhs rhs
  return (iters.destutter (· ≠ ·)).map (·.2.tx)

end FullNode.Orphanage.TxOrphanage

/-! ## The manager -/

namespace FullNode.TxDownload

open Orphanage
open TxRequest (GenTxid PriorityComputer Tracker memoryBytes)

variable {computer : PriorityComputer} {F : Type} (filter : Filtering F) (sha256 : List Uint256 → Uint256)
  (env : Surroundings)

namespace TxDownloadManagerImpl

def alreadyHaveTx (s : TxDownloadManagerImpl computer F) (gtxid : GenTxid) (include_reconsiderable : Bool) : Bool :=
  if s.m_orphanage.haveTx gtxid.hash then true
  else if include_reconsiderable && filter.contains s.m_recent_rejects_reconsiderable gtxid.hash then true
  else if filter.contains s.m_recent_confirmed_transactions gtxid.hash then true
  else filter.contains s.m_recent_rejects gtxid.hash || env.inMempool gtxid

def forgetTxHash (s : TxDownloadManagerImpl computer F)
    (txhash : Uint256) : Checked (TxDownloadManagerImpl computer F) := do
  let m_txrequest ← s.m_txrequest.forgetTxHash txhash
  return { s with m_txrequest }

def activeTipChange (s : TxDownloadManagerImpl computer F)
    (tweak : Uint32 × Uint32) : TxDownloadManagerImpl computer F :=
  { s with
    m_recent_rejects := filter.reset s.m_recent_rejects tweak.1
    m_recent_rejects_reconsiderable := filter.reset s.m_recent_rejects_reconsiderable tweak.2 }

def confirm (s : TxDownloadManagerImpl computer F)
    (ptx : CTransactionRef) : Checked (TxDownloadManagerImpl computer F) := do
  let confirmed := filter.insert s.m_recent_confirmed_transactions ptx.hash
  let s := { s with
    m_recent_confirmed_transactions := if ptx.hasWitness then filter.insert confirmed ptx.witnessHash else confirmed }
  let s ← s.forgetTxHash ptx.hash
  s.forgetTxHash ptx.witnessHash

def blockConnected (s : TxDownloadManagerImpl computer F) (vtx : List CTransactionRef) :
    Checked (TxDownloadManagerImpl computer F) := do
  let m_orphanage ← s.m_orphanage.eraseForBlock (vtx.map (·.toCTransaction))
  vtx.foldlM (confirm filter) { s with m_orphanage }

def blockDisconnected (s : TxDownloadManagerImpl computer F) (tweak : Uint32) : TxDownloadManagerImpl computer F :=
  { s with m_recent_confirmed_transactions := filter.reset s.m_recent_confirmed_transactions tweak }

/-! ### Peers -/

def connectedPeer (s : TxDownloadManagerImpl computer F) (nodeid : Int) (info : TxDownloadConnectionInfo) :
    TxDownloadManagerImpl computer F :=
  if nodeid ∈ s.m_peer_info then s
  else { s with
    m_peer_info := s.m_peer_info.insert nodeid info
    m_num_wtxid_peers := if info.m_wtxid_relay then s.m_num_wtxid_peers + 1 else s.m_num_wtxid_peers }

def disconnectedPeer (s : TxDownloadManagerImpl computer F)
    (nodeid : Int) : Checked (TxDownloadManagerImpl computer F) := do
  let m_orphanage ← s.m_orphanage.eraseForPeer nodeid
  let m_txrequest ← s.m_txrequest.disconnectedPeer nodeid
  match s.m_peer_info.lookup nodeid with
  | none => return { s with m_orphanage, m_txrequest }
  | some info => return { s with
      m_orphanage
      m_txrequest
      m_num_wtxid_peers := if info.m_wtxid_relay then s.m_num_wtxid_peers - 1 else s.m_num_wtxid_peers
      m_peer_info := s.m_peer_info.erase nodeid }

/-! ### Announcements -/

def getUniqueParents (tx : CTransaction) : List Uint256 :=
  ((tx.vin.map fun txin => txin.prevout.hash).insertionSort fun a b => memoryBytes a ≤ memoryBytes b).destutter (· ≠ ·)

def missingParents (s : TxDownloadManagerImpl computer F) (tx : CTransaction) : List Uint256 :=
  (getUniqueParents tx).filter fun txid => !s.alreadyHaveTx filter env ⟨false, txid⟩ false

/-- How long a request waits. `byTxid` says how it names it. -/
def requestDelay (s : TxDownloadManagerImpl computer F) (peer : Int) (info : TxDownloadConnectionInfo)
    (byTxid : Bool) : Int :=
  let overloaded := !info.m_relay_permissions && s.m_txrequest.countInFlight peer ≥ MAX_PEER_TX_REQUEST_IN_FLIGHT
  (if !info.m_preferred then NONPREF_PEER_TX_DELAY else 0) +
    (if byTxid && s.m_num_wtxid_peers > 0 then TXID_RELAY_DELAY else 0) +
    (if overloaded then OVERLOADED_PEER_TX_DELAY else 0)

def maybeAddOrphanResolutionCandidate (s : TxDownloadManagerImpl computer F) (unique_parents : List Uint256)
    (wtxid : Uint256) (nodeid now : Int) : Bool × TxDownloadManagerImpl computer F :=
  match s.m_peer_info.lookup nodeid with
  | none => (false, s)
  | some info =>
    if s.m_orphanage.haveTxFromPeer wtxid nodeid then (false, s)
    else if !info.m_relay_permissions &&
        s.m_txrequest.count nodeid + unique_parents.length > MAX_PEER_TX_ANNOUNCEMENTS then (false, s)
    else
      let reqtime := now + s.requestDelay nodeid info true
      (true, { s with
        m_txrequest := unique_parents.foldl
          (fun tracker parent_txid => tracker.receivedInv nodeid ⟨false, parent_txid⟩ info.m_preferred reqtime)
          s.m_txrequest })

def addTxAnnouncement (s : TxDownloadManagerImpl computer F) (peer : Int) (gtxid : GenTxid) (now : Int) :
    Checked (Bool × TxDownloadManagerImpl computer F) :=
  match if gtxid.isWtxid then s.m_orphanage.getTx gtxid.hash else none with
  | some orphan_tx =>
    let unique_parents := s.missingParents filter env orphan_tx.toCTransaction
    if unique_parents.isEmpty then .ok (true, s)
    else
      let (candidate, s) := s.maybeAddOrphanResolutionCandidate unique_parents gtxid.hash peer now
      if candidate then do
        let (_, m_orphanage) ← s.m_orphanage.addAnnouncer orphan_tx.witnessHash peer
        return (true, { s with m_orphanage })
      else .ok (true, s)
  | none =>
    if s.alreadyHaveTx filter env gtxid true then .ok (true, s)
    else match s.m_peer_info.lookup peer with
      | none => .ok (false, s)
      | some info =>
        if !info.m_relay_permissions && s.m_txrequest.count peer ≥ MAX_PEER_TX_ANNOUNCEMENTS then .ok (false, s)
        else
          let reqtime := now + s.requestDelay peer info !gtxid.isWtxid
          .ok (false, { s with m_txrequest := s.m_txrequest.receivedInv peer gtxid info.m_preferred reqtime })

/-- The round of `GetRequestsToSend` for one transaction. -/
def sendRequest (nodeid current_time : Int) (acc : List GenTxid × TxDownloadManagerImpl computer F) (gtxid : GenTxid) :
    Checked (List GenTxid × TxDownloadManagerImpl computer F) :=
  if !acc.2.alreadyHaveTx filter env gtxid false then do
    let m_txrequest ← acc.2.m_txrequest.requestedTx nodeid gtxid.hash (current_time + GETDATA_TX_INTERVAL)
    return (acc.1 ++ [gtxid], { acc.2 with m_txrequest })
  else do
    let s ← acc.2.forgetTxHash gtxid.hash
    return (acc.1, s)

def getRequestsToSend (s : TxDownloadManagerImpl computer F) (nodeid current_time : Int) :
    Checked (List GenTxid × TxDownloadManagerImpl computer F) := do
  let (requestable, _, m_txrequest) ← s.m_txrequest.getRequestable nodeid current_time
  requestable.foldlM (sendRequest filter env nodeid current_time) ([], { s with m_txrequest })

def receivedResponse (nodeid : Int) (s : TxDownloadManagerImpl computer F) (txhash : Uint256) :
    Checked (TxDownloadManagerImpl computer F) := do
  let m_txrequest ← s.m_txrequest.receivedResponse nodeid txhash
  return { s with m_txrequest }

def receivedNotFound (s : TxDownloadManagerImpl computer F) (nodeid : Int) (txhashes : List Uint256) :
    Checked (TxDownloadManagerImpl computer F) :=
  txhashes.foldlM (receivedResponse nodeid) s

/-! ### Packages -/

def getPackageHash (package : List TransactionRef) : Uint256 :=
  sha256 ((package.map (·.witnessHash)).insertionSort fun a b => a.toNat ≤ b.toNat)

def find1P1CPackage (s : TxDownloadManagerImpl computer F) (ptx : TransactionRef) (nodeid : Int) :
    Checked (Option PackageToValidate) := do
  let cpfp_candidates_same_peer ← s.m_orphanage.getChildrenFromSamePeer env.address ptx.toCTransaction nodeid
  let child := cpfp_candidates_same_peer.find? fun child =>
    !filter.contains s.m_recent_rejects_reconsiderable (getPackageHash sha256 [ptx, child]) &&
      !filter.contains s.m_recent_rejects child.hash
  return child.map fun child => ⟨[ptx, child], [nodeid, nodeid]⟩

def mempoolRejectedPackage (s : TxDownloadManagerImpl computer F) (package : List TransactionRef) :
    TxDownloadManagerImpl computer F :=
  { s with
    m_recent_rejects_reconsiderable :=
      filter.insert s.m_recent_rejects_reconsiderable (getPackageHash sha256 package) }

def receivedTx (s : TxDownloadManagerImpl computer F) (nodeid : Int) (ptx : CTransactionRef) :
    Checked ((Bool × Option PackageToValidate) × TxDownloadManagerImpl computer F) := do
  let s ← receivedResponse nodeid s ptx.hash
  let s ← (if ptx.hasWitness then receivedResponse nodeid s ptx.witnessHash else .ok s)
  if s.alreadyHaveTx filter env ⟨true, ptx.witnessHash⟩ false then return ((false, none), s)
  else if filter.contains s.m_recent_rejects_reconsiderable ptx.witnessHash then do
    let package ← s.find1P1CPackage filter sha256 env ptx.toTransactionRef nodeid
    return ((false, package), s)
  else return ((true, none), s)

/-! ### Verdicts -/

def mempoolAcceptedTx (s : TxDownloadManagerImpl computer F)
    (tx : CTransactionRef) : Checked (TxDownloadManagerImpl computer F) := do
  let s ← s.forgetTxHash tx.hash
  let s ← s.forgetTxHash tx.witnessHash
  let m_orphanage ← s.m_orphanage.addChildrenToWorkSet tx.toCTransaction env.m_rng
  let (_, m_orphanage) ← m_orphanage.eraseTx tx.witnessHash
  return { s with m_orphanage }

/-- `rejected`: a parent was rejected that may be reconsidered. -/
def hasRejectedParents (s : TxDownloadManagerImpl computer F) : List Uint256 → (rejected : Bool) → Bool
  | [], _ => false
  | parent_txid :: rest, rejected =>
    if filter.contains s.m_recent_rejects parent_txid then true
    else if filter.contains s.m_recent_rejects_reconsiderable parent_txid && !env.inMempool ⟨false, parent_txid⟩ then
      if rejected then true else hasRejectedParents s rest true
    else hasRejectedParents s rest rejected

def addCandidate (ptx : CTransactionRef) (unique_parents : List Uint256) (s : TxDownloadManagerImpl computer F)
    (candidate : Int × Nat) : Checked (TxDownloadManagerImpl computer F) :=
  let (added, s) := s.maybeAddOrphanResolutionCandidate unique_parents ptx.witnessHash candidate.1 env.now
  if added then do
    let (_, m_orphanage) ← s.m_orphanage.addTx ptx.toTransactionRef candidate.1 (env.clock candidate.2)
    return { s with m_orphanage }
  else .ok s

def keepOrphan (s : TxDownloadManagerImpl computer F) (ptx : CTransactionRef) (unique_parents : List Uint256)
    (nodeid : Int) : Checked (TxDownloadManagerImpl computer F) := do
  let orphan_resolution_candidates := [nodeid] ++ s.m_txrequest.getCandidatePeers ptx.hash ++
    if ptx.hasWitness then s.m_txrequest.getCandidatePeers ptx.witnessHash else []
  let s ← orphan_resolution_candidates.zipIdx.foldlM (addCandidate env ptx unique_parents) s
  let s ← s.forgetTxHash ptx.hash
  let s ← s.forgetTxHash ptx.witnessHash
  let m_orphanage ← s.m_orphanage.limitOrphans s.m_max_orphan_txs
    (env.clock orphan_resolution_candidates.length) env.m_rng
  return { s with m_orphanage }

def rejectOrphan (s : TxDownloadManagerImpl computer F)
    (ptx : CTransactionRef) : Checked (TxDownloadManagerImpl computer F) := do
  let s := { s with m_recent_rejects := filter.insert (filter.insert s.m_recent_rejects ptx.hash) ptx.witnessHash }
  let s ← s.forgetTxHash ptx.hash
  s.forgetTxHash ptx.witnessHash

def rejectMissingInputs (s : TxDownloadManagerImpl computer F) (ptx : CTransactionRef) (nodeid : Int)
    (first_time_failure : Bool) : Checked (RejectedTxTodo × TxDownloadManagerImpl computer F) :=
  if first_time_failure && !filter.contains s.m_recent_rejects ptx.witnessHash then
    if !s.hasRejectedParents filter env (getUniqueParents ptx.toCTransaction) false then do
      let unique_parents := s.missingParents filter env ptx.toCTransaction
      let add_extra_compact_tx := first_time_failure && !s.m_orphanage.haveTx ptx.witnessHash
      let s ← s.keepOrphan env ptx unique_parents nodeid
      return (⟨add_extra_compact_tx, unique_parents, none⟩, s)
    else do
      let s ← s.rejectOrphan filter ptx
      return (⟨first_time_failure, [], none⟩, s)
  else .ok (⟨first_time_failure, [], none⟩, s)

def rejectOther (s : TxDownloadManagerImpl computer F) (ptx : CTransactionRef) (result : Verdict) (nodeid : Int)
    (first_time_failure : Bool) : Checked (RejectedTxTodo × TxDownloadManagerImpl computer F) := do
  let s := if result = .reconsiderable then
      { s with m_recent_rejects_reconsiderable := filter.insert s.m_recent_rejects_reconsiderable ptx.witnessHash }
    else { s with m_recent_rejects := filter.insert s.m_recent_rejects ptx.witnessHash }
  let package_to_validate ← (if result = .reconsiderable ∧ first_time_failure
    then s.find1P1CPackage filter sha256 env ptx.toTransactionRef nodeid else .ok none)
  let s ← s.forgetTxHash ptx.witnessHash
  let s ← (if result = .inputsNotStandard ∧ ptx.hasWitness then
      forgetTxHash { s with m_recent_rejects := filter.insert s.m_recent_rejects ptx.hash } ptx.hash
    else .ok s)
  return (⟨first_time_failure, [], package_to_validate⟩, s)

def rejectFor (s : TxDownloadManagerImpl computer F) (ptx : CTransactionRef) (result : Verdict) (nodeid : Int)
    (first_time_failure : Bool) : Checked (RejectedTxTodo × TxDownloadManagerImpl computer F) :=
  if result = .missingInputs then s.rejectMissingInputs filter env ptx nodeid first_time_failure
  else if result = .witnessStripped then .ok (⟨false, [], none⟩, s)
  else s.rejectOther filter sha256 env ptx result nodeid first_time_failure

def mempoolRejectedTx (s : TxDownloadManagerImpl computer F) (ptx : CTransactionRef) (result : Verdict) (nodeid : Int)
    (first_time_failure : Bool) : Checked (RejectedTxTodo × TxDownloadManagerImpl computer F) := do
  let (todo, s) ← s.rejectFor filter sha256 env ptx result nodeid first_time_failure
  if result = .missingInputs then return (todo, s)
  else do
    let (_, m_orphanage) ← s.m_orphanage.eraseTx ptx.witnessHash
    return (todo, { s with m_orphanage })

/-! ### The rest -/

def getTxToReconsider (s : TxDownloadManagerImpl computer F)
    (nodeid : Int) : Option TransactionRef × TxDownloadManagerImpl computer F :=
  let (tx, m_orphanage) := s.m_orphanage.getTxToReconsider nodeid
  (tx, { s with m_orphanage })

def setMaxOrphanTxs (s : TxDownloadManagerImpl computer F)
    (max_orphan_txs : Nat) : Checked (TxDownloadManagerImpl computer F) := do
  let m_orphanage ← s.m_orphanage.limitOrphans max_orphan_txs (env.clock 0) env.m_rng
  return { s with m_max_orphan_txs := max_orphan_txs, m_orphanage }

/-- `CheckIsEmpty(nodeid)`. -/
def checkIsEmptyFor (s : TxDownloadManagerImpl computer F) (nodeid : Int) : Checked Unit := do
  check (s.m_txrequest.count nodeid == 0)
  check (s.m_orphanage.usageByPeer nodeid == 0)

def checkIsEmpty (s : TxDownloadManagerImpl computer F) : Checked Unit := do
  check (s.m_orphanage.totalOrphanUsage == 0)
  check (s.m_orphanage.orphans.entries.length == 0)
  check (s.m_txrequest.size == 0)
  check (s.m_num_wtxid_peers == 0)

end TxDownloadManagerImpl

/-! ## Runs -/

inductive Event where
  | activeTipChange (tweak : Uint32 × Uint32)
  | blockConnected (vtx : List CTransactionRef)
  | blockDisconnected (tweak : Uint32)
  | connectedPeer (nodeid : Int) (info : TxDownloadConnectionInfo)
  | disconnectedPeer (nodeid : Int)
  | addTxAnnouncement (peer : Int) (gtxid : GenTxid) (now : Int)
  | getRequestsToSend (nodeid current_time : Int)
  | receivedNotFound (nodeid : Int) (txhashes : List Uint256)
  | receivedTx (nodeid : Int) (ptx : CTransactionRef)
  | mempoolAcceptedTx (tx : CTransactionRef)
  | mempoolRejectedTx (ptx : CTransactionRef) (result : Verdict) (nodeid : Int) (first_time_failure : Bool)
  | mempoolRejectedPackage (package : List TransactionRef)
  | getTxToReconsider (nodeid : Int)
  | setMaxOrphanTxs (max_orphan_txs : Nat)

def step (s : TxDownloadManagerImpl computer F) : Event → Checked (TxDownloadManagerImpl computer F)
  | .activeTipChange tweak => .ok (s.activeTipChange filter tweak)
  | .blockConnected vtx => s.blockConnected filter vtx
  | .blockDisconnected tweak => .ok (s.blockDisconnected filter tweak)
  | .connectedPeer nodeid info => .ok (s.connectedPeer nodeid info)
  | .disconnectedPeer nodeid => s.disconnectedPeer nodeid
  | .addTxAnnouncement peer gtxid now => Prod.snd <$> s.addTxAnnouncement filter env peer gtxid now
  | .getRequestsToSend nodeid current_time => Prod.snd <$> s.getRequestsToSend filter env nodeid current_time
  | .receivedNotFound nodeid txhashes => s.receivedNotFound nodeid txhashes
  | .receivedTx nodeid ptx => Prod.snd <$> s.receivedTx filter sha256 env nodeid ptx
  | .mempoolAcceptedTx tx => s.mempoolAcceptedTx env tx
  | .mempoolRejectedTx ptx result nodeid first_time_failure =>
    Prod.snd <$> s.mempoolRejectedTx filter sha256 env ptx result nodeid first_time_failure
  | .mempoolRejectedPackage package => .ok (s.mempoolRejectedPackage filter sha256 package)
  | .getTxToReconsider nodeid => .ok (s.getTxToReconsider nodeid).2
  | .setMaxOrphanTxs max_orphan_txs => s.setMaxOrphanTxs env max_orphan_txs

def run (s : TxDownloadManagerImpl computer F) (events : List (Surroundings × Event)) :
    Checked (TxDownloadManagerImpl computer F) :=
  events.foldlM (fun s event => step filter sha256 event.1 s event.2) s

end FullNode.TxDownload

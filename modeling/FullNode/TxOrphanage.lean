import FullNode.Transaction
import FullNode.TxRequest

/-!
# Orphan transactions

`TxOrphanage`: transactions whose parents are missing, who announced them, and the peers' totals.
An iterator into the map of orphans is the key it points at. The counters are 32 bits wide, and the
model remembers whether one was ever taken below zero.
-/

namespace FullNode.Orphanage

open OrderedIndex
open TxRequest (memoryBytes)

/-- A transaction with what the orphanage reads of its serialization. -/
structure TransactionRef extends CTransaction where
  witnessHash : Uint256
  /-- `GetTransactionWeight`. -/
  weight : Uint32
  deriving DecidableEq

def TransactionRef.prevouts (tx : TransactionRef) : List COutPoint := tx.vin.map CTxIn.prevout

structure OrphanTx where
  tx : TransactionRef
  announcers : List Int
  /-- In seconds. -/
  nTimeExpire : Int
  listPos : Nat
  deriving DecidableEq

def OrphanTx.getUsage (orphan : OrphanTx) : Uint32 := orphan.tx.weight

structure PeerOrphanInfo where
  workSet : List Uint256 := []
  totalUsage : Uint32 := 0
  deriving DecidableEq

structure TxOrphanage where
  totalOrphanUsage : Uint32 := 0
  totalAnnouncements : Uint32 := 0
  orphans : AssocMap Uint256 OrphanTx := ∅
  peerOrphanageInfo : AssocMap Int PeerOrphanInfo := ∅
  outpointToOrphanIt : AssocMap COutPoint (List Uint256) := ∅
  orphanList : List Uint256 := []
  nextSweep : Int := 0
  /-- A counter went below zero. -/
  underflowed : Bool := false
  deriving DecidableEq

def MAX_STANDARD_TX_WEIGHT : Nat := 400000
def ORPHAN_TX_EXPIRE_TIME : Int := 20 * 60
def ORPHAN_TX_EXPIRE_INTERVAL : Int := 5 * 60

namespace TxOrphanage

def orphanKeys (s : TxOrphanage) : List Uint256 := s.orphans.keys.mergeSort fun a b => memoryBytes a ≤ memoryBytes b

/-! ## Announcements -/

/-- `try_emplace(peer)` and the addition to the peer's total. -/
def addPeerUsage (s : TxOrphanage) (peer : Int) (usage : Uint32) : TxOrphanage :=
  let info := (s.peerOrphanageInfo.lookup peer).getD {}
  { s with peerOrphanageInfo := s.peerOrphanageInfo.insert peer { info with totalUsage := info.totalUsage + usage } }

def addAnnouncer (s : TxOrphanage) (wtxid : Uint256) (peer : Int) : Checked (Bool × TxOrphanage) :=
  match s.orphans.lookup wtxid with
  | none => .ok (false, s)
  | some orphan => do
    check !orphan.announcers.isEmpty
    if peer ∈ orphan.announcers then return (false, s)
    else
      let orphan := { orphan with announcers := insertNew id peer orphan.announcers }
      let s := { s with orphans := s.orphans.insert wtxid orphan, totalAnnouncements := s.totalAnnouncements + 1 }
      return (true, s.addPeerUsage peer orphan.getUsage)

/-- `m_outpoint_to_orphan_it[txin.prevout].insert(it)`. -/
def indexOutpoints (wtxid : Uint256) (prevouts : List COutPoint) (index : AssocMap COutPoint (List Uint256)) :
    AssocMap COutPoint (List Uint256) :=
  prevouts.foldl (fun index prevout =>
    index.insert prevout (insertNew memoryBytes wtxid ((index.lookup prevout).getD []))) index

/-- `now` is the time of the call. -/
def addTx (s : TxOrphanage) (tx : TransactionRef) (peer : Int) (now : Int) : Checked (Bool × TxOrphanage) :=
  match s.orphans.lookup tx.witnessHash with
  | some _ => do
    let (_, s) ← s.addAnnouncer tx.witnessHash peer
    return (false, s)
  | none =>
    if tx.weight.toNat > MAX_STANDARD_TX_WEIGHT then .ok (false, s)
    else
      let orphan :=
        { tx, announcers := [peer], nTimeExpire := now + ORPHAN_TX_EXPIRE_TIME, listPos := s.orphanList.length }
      let s := { s with
        orphans := s.orphans.insert tx.witnessHash orphan
        orphanList := s.orphanList ++ [tx.witnessHash]
        outpointToOrphanIt := indexOutpoints tx.witnessHash tx.prevouts s.outpointToOrphanIt
        totalOrphanUsage := s.totalOrphanUsage + tx.weight
        totalAnnouncements := s.totalAnnouncements + 1 }
      .ok (true, s.addPeerUsage peer tx.weight)

/-! ## Erasure -/

/-- The loop of `EraseTx` over the inputs. -/
def unindexOutpoints (wtxid : Uint256) (prevouts : List COutPoint) (index : AssocMap COutPoint (List Uint256)) :
    AssocMap COutPoint (List Uint256) :=
  prevouts.foldl (fun index prevout =>
    match index.lookup prevout with
    | none => index
    | some iters =>
      if (iters.erase wtxid).isEmpty then index.erase prevout else index.insert prevout (iters.erase wtxid)) index

def subPeerUsage (txSize : Uint32) : List Int → TxOrphanage → Checked TxOrphanage
  | [], s => .ok s
  | peer :: announcers, s =>
    match s.peerOrphanageInfo.lookup peer with
    | none => .error .assertion
    | some info =>
      subPeerUsage txSize announcers { s with
        peerOrphanageInfo := s.peerOrphanageInfo.insert peer { info with totalUsage := info.totalUsage - txSize }
        underflowed := s.underflowed || info.totalUsage < txSize }

/-- The last entry of the list takes the place of the erased one. -/
def moveLast (s : TxOrphanage) (oldPos : Nat) : Checked TxOrphanage :=
  if oldPos + 1 ≠ s.orphanList.length then
    match s.orphanList.getLast? with
    | none => .error .badIterator
    | some last =>
      match s.orphans.lookup last with
      | none => .error .badIterator
      | some orphan =>
        .ok { s with
          orphanList := s.orphanList.set oldPos last
          orphans := s.orphans.insert last { orphan with listPos := oldPos } }
  else .ok s

def discount (s : TxOrphanage) (wtxid : Uint256) (orphan : OrphanTx) : TxOrphanage :=
  let announced := BitVec.ofNat 32 orphan.announcers.length
  { s with
    outpointToOrphanIt := unindexOutpoints wtxid orphan.tx.prevouts s.outpointToOrphanIt
    totalOrphanUsage := s.totalOrphanUsage - orphan.getUsage
    totalAnnouncements := s.totalAnnouncements - announced
    underflowed := s.underflowed || s.totalOrphanUsage < orphan.getUsage || s.totalAnnouncements < announced }

def eraseTx (s : TxOrphanage) (wtxid : Uint256) : Checked (Nat × TxOrphanage) :=
  match s.orphans.lookup wtxid with
  | none => .ok (0, s)
  | some orphan => do
    let s ← subPeerUsage orphan.getUsage orphan.announcers (s.discount wtxid orphan)
    check (s.orphanList[orphan.listPos]? == some wtxid)
    let s ← s.moveLast orphan.listPos
    return (1, { s with orphanList := s.orphanList.dropLast, orphans := s.orphans.erase wtxid })

def eraseAll : List Uint256 → TxOrphanage → Checked TxOrphanage
  | [], s => .ok s
  | wtxid :: wtxids, s => do
    let (_, s) ← s.eraseTx wtxid
    eraseAll wtxids s

/-- The round of `EraseForPeer` for one orphan. -/
def forgetAnnouncer (peer : Int) (s : TxOrphanage) (wtxid : Uint256) : Checked TxOrphanage :=
  match s.orphans.lookup wtxid with
  | none => .error .badIterator
  | some orphan =>
    if peer ∈ orphan.announcers then
      let announcers := orphan.announcers.erase peer
      let s := { s with
        orphans := s.orphans.insert wtxid { orphan with announcers }
        totalAnnouncements := s.totalAnnouncements - 1
        underflowed := s.underflowed || s.totalAnnouncements < 1 }
      if announcers.isEmpty then do
        let (_, s) ← s.eraseTx orphan.tx.witnessHash
        return s
      else .ok s
    else .ok s

def eraseForPeer (s : TxOrphanage) (peer : Int) : Checked TxOrphanage :=
  s.orphanKeys.foldlM (forgetAnnouncer peer) { s with peerOrphanageInfo := s.peerOrphanageInfo.erase peer }

/-- One orphan of the sweep, with the earliest expiry seen. -/
def sweepOne (nNow : Int) (acc : Int × TxOrphanage) (wtxid : Uint256) : Checked (Int × TxOrphanage) :=
  match acc.2.orphans.lookup wtxid with
  | none => .error .badIterator
  | some orphan =>
    if orphan.nTimeExpire ≤ nNow then do
      let (_, s) ← acc.2.eraseTx wtxid
      return (acc.1, s)
    else .ok (min orphan.nTimeExpire acc.1, acc.2)

def sweep (s : TxOrphanage) (nNow : Int) : Checked TxOrphanage :=
  if s.nextSweep ≤ nNow then do
    let (nMinExpTime, s) ← s.orphanKeys.foldlM (sweepOne nNow)
      (nNow + ORPHAN_TX_EXPIRE_TIME - ORPHAN_TX_EXPIRE_INTERVAL, s)
    return { s with nextSweep := nMinExpTime + ORPHAN_TX_EXPIRE_INTERVAL }
  else .ok s

/-- `rng.randrange(range)` by a raw random number. -/
def randrange (raw range : Nat) : Checked Nat := do
  check (range > 0)
  return raw % range

/-- Evicts random orphans, with the random numbers of `rng`. -/
def evict (maxOrphans : Nat) (rng : Nat → Nat) : Nat → TxOrphanage → Checked TxOrphanage
  | 0, _ => .error .endless
  | rounds + 1, s =>
    if s.orphans.entries.length > maxOrphans then do
      let randompos ← randrange (rng rounds) s.orphanList.length
      match s.orphanList[randompos]? with
      | none => .error .badIterator
      | some wtxid => do
        let (_, s) ← s.eraseTx wtxid
        evict maxOrphans rng rounds s
    else .ok s

def limitOrphans (s : TxOrphanage) (maxOrphans : Nat) (nNow : Int) (rng : Nat → Nat) : Checked TxOrphanage := do
  let s ← s.sweep nNow
  evict maxOrphans rng (s.orphans.entries.length + 1) s

/-! ## Work sets -/

def assignWork (raw : Nat) (s : TxOrphanage) (wtxid : Uint256) : Checked TxOrphanage :=
  match s.orphans.lookup wtxid with
  | none => .error .badIterator
  | some orphan => do
    check !orphan.announcers.isEmpty
    let advance ← randrange raw orphan.announcers.length
    match orphan.announcers[advance]? with
    | none => .error .badIterator
    | some announcer =>
      let info := (s.peerOrphanageInfo.lookup announcer).getD {}
      return { s with
        peerOrphanageInfo := s.peerOrphanageInfo.insert announcer
          { info with workSet := insertNew memoryBytes wtxid info.workSet } }

/-- The orphans that spend the transaction, by output. -/
def children (s : TxOrphanage) (tx : CTransaction) : List Uint256 :=
  (List.range tx.vout.length).flatMap fun i => (s.outpointToOrphanIt.lookup (tx.outpoint i)).getD []

/-- `rng` gives the random number for each orphan in turn. -/
def addChildrenToWorkSet (s : TxOrphanage) (tx : CTransaction) (rng : Nat → Nat) : Checked TxOrphanage :=
  (s.children tx).zipIdx.foldlM (fun s (wtxid, i) => assignWork (rng i) s wtxid) s

/-- The loop over the work set: the orphan and the rest. -/
def popWork (orphans : AssocMap Uint256 OrphanTx) : List Uint256 → Option TransactionRef × List Uint256
  | [] => (none, [])
  | wtxid :: workSet =>
    match orphans.lookup wtxid with
    | some orphan => (some orphan.tx, workSet)
    | none => popWork orphans workSet

def getTxToReconsider (s : TxOrphanage) (peer : Int) : Option TransactionRef × TxOrphanage :=
  match s.peerOrphanageInfo.lookup peer with
  | none => (none, s)
  | some info =>
    let (tx, workSet) := popWork s.orphans info.workSet
    (tx, { s with peerOrphanageInfo := s.peerOrphanageInfo.insert peer { info with workSet } })

/-! ## Blocks -/

def conflicting (s : TxOrphanage) (vtx : List CTransaction) : Checked (List Uint256) :=
  (vtx.flatMap fun tx => tx.vin.flatMap fun txin => (s.outpointToOrphanIt.lookup txin.prevout).getD []).mapM fun it =>
    match s.orphans.lookup it with
    | none => .error .badIterator
    | some orphan => .ok orphan.tx.witnessHash

def eraseForBlock (s : TxOrphanage) (vtx : List CTransaction) : Checked TxOrphanage :=
  if s.orphans.entries.isEmpty then .ok s
  else do
    let vOrphanErase ← s.conflicting vtx
    eraseAll vOrphanErase s

/-! ## `SanityCheck` -/

def countedSizePerPeer (s : TxOrphanage) : AssocMap Int Uint32 :=
  AssocMap.collect Prod.fst (fun count pair => count + pair.2) 0
    (s.orphans.entries.flatMap fun e => e.2.announcers.map fun peer => (peer, e.2.getUsage))

def sanityCheck (s : TxOrphanage) : Bool :=
  let countedTotalAnnouncements := (s.orphans.entries.map fun e => BitVec.ofNat 32 e.2.announcers.length).sum
  let countedTotalUsage := (s.orphans.entries.map fun e => e.2.getUsage).sum
  s.orphans.entries.all (fun e => !e.2.announcers.isEmpty) &&
  s.totalAnnouncements.toNat ≥ s.orphans.entries.length &&
  countedTotalAnnouncements == s.totalAnnouncements &&
  countedTotalUsage == s.totalOrphanUsage &&
  s.countedSizePerPeer.entries.length ≤ s.peerOrphanageInfo.entries.length &&
  s.peerOrphanageInfo.entries.all fun e => (s.countedSizePerPeer.lookup e.1).getD 0 == e.2.totalUsage

end TxOrphanage

/-! ## Runs -/

inductive Operation where
  | addTx (tx : TransactionRef) (peer : Int) (now : Int)
  | addAnnouncer (wtxid : Uint256) (peer : Int)
  | eraseTx (wtxid : Uint256)
  | eraseForPeer (peer : Int)
  | limitOrphans (maxOrphans : Nat) (nNow : Int) (rng : Nat → Nat)
  | addChildrenToWorkSet (tx : CTransaction) (rng : Nat → Nat)
  | getTxToReconsider (peer : Int)
  | eraseForBlock (vtx : List CTransaction)

def TxOrphanage.step (s : TxOrphanage) : Operation → Checked TxOrphanage
  | .addTx tx peer now => Prod.snd <$> s.addTx tx peer now
  | .addAnnouncer wtxid peer => Prod.snd <$> s.addAnnouncer wtxid peer
  | .eraseTx wtxid => Prod.snd <$> s.eraseTx wtxid
  | .eraseForPeer peer => s.eraseForPeer peer
  | .limitOrphans maxOrphans nNow rng => s.limitOrphans maxOrphans nNow rng
  | .addChildrenToWorkSet tx rng => s.addChildrenToWorkSet tx rng
  | .getTxToReconsider peer => .ok (s.getTxToReconsider peer).2
  | .eraseForBlock vtx => s.eraseForBlock vtx

def run (operations : List Operation) : Checked TxOrphanage := operations.foldlM TxOrphanage.step {}

end FullNode.Orphanage

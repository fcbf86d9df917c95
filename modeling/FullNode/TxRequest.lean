import FullNode.Basic
import FullNode.Lib.AssocMap
import FullNode.Lib.OrderedIndex
import Mathlib.Data.List.Lex
import Mathlib.Data.Prod.Lex

/-!
# Transaction requests

`TxRequestTracker`: which peer announced which transaction, and whom to ask next.
-/

open FullNode.OrderedIndex

namespace FullNode.TxRequest

inductive State where
  | candidateDelayed
  | candidateReady
  | candidateBest
  | requested
  | completed
  deriving DecidableEq

def State.rank : State → Nat
  | candidateDelayed => 0
  | candidateReady => 1
  | candidateBest => 2
  | requested => 3
  | completed => 4

structure GenTxid where
  isWtxid : Bool
  hash : Uint256
  deriving DecidableEq

structure Announcement where
  txhash : Uint256
  /-- The time to request, or the expiry of a request. In microseconds. -/
  time : Int
  peer : Int
  sequence : BitVec 59
  preferred : Bool
  isWtxid : Bool
  state : State
  deriving DecidableEq

namespace Announcement

def isSelected (ann : Announcement) : Bool := ann.state == .candidateBest || ann.state == .requested
def isWaiting (ann : Announcement) : Bool := ann.state == .requested || ann.state == .candidateDelayed
def isSelectable (ann : Announcement) : Bool := ann.state == .candidateReady || ann.state == .candidateBest
def isCompleted (ann : Announcement) : Bool := ann.state == .completed
def isRequested (ann : Announcement) : Bool := ann.state == .requested

def setState (ann : Announcement) (state : State) : Announcement := { ann with state }

def toGenTxid (ann : Announcement) : GenTxid := ⟨ann.isWtxid, ann.txhash⟩

end Announcement

structure PriorityComputer where
  sipHash : Uint256 → Int → Uint64

def PriorityComputer.compute (computer : PriorityComputer) (txhash : Uint256) (peer : Int)
    (preferred : Bool) : Uint64 :=
  (computer.sipHash txhash peer >>> 1) ||| ((BitVec.ofBool preferred).setWidth 64 <<< 63)

def PriorityComputer.priority (computer : PriorityComputer) (ann : Announcement) : Uint64 :=
  computer.compute ann.txhash ann.peer ann.preferred

/-! ## Indices -/

def memoryBytes (hash : Uint256) : List Nat := (List.range 32).map fun i => (hash >>> (8 * i)).toNat % 256

def byPeerKey (peer : Int) (best : Bool) (txhash : Uint256) : Int ×ₗ Bool ×ₗ List Nat :=
  toLex (peer, toLex (best, memoryBytes txhash))

def byPeerView (ann : Announcement) : Int ×ₗ Bool ×ₗ List Nat :=
  byPeerKey ann.peer (ann.state == .candidateBest) ann.txhash

def byTxHashKey (txhash : Uint256) (state : State) (priority : Uint64) : List Nat ×ₗ Nat ×ₗ Nat :=
  toLex (memoryBytes txhash, toLex (state.rank, priority.toNat))

def byTxHashView (computer : PriorityComputer) (ann : Announcement) : List Nat ×ₗ Nat ×ₗ Nat :=
  byTxHashKey ann.txhash ann.state (if ann.state = .candidateReady then computer.priority ann else 0)

inductive WaitState where
  | futureEvent
  | noEvent
  | pastEvent

def WaitState.rank : WaitState → Nat
  | futureEvent => 0
  | noEvent => 1
  | pastEvent => 2

def getWaitState (ann : Announcement) : WaitState :=
  if ann.isWaiting then .futureEvent else if ann.isSelectable then .pastEvent else .noEvent

def byTimeView (ann : Announcement) : Nat ×ₗ Int := toLex ((getWaitState ann).rank, ann.time)

abbrev Index (computer : PriorityComputer) := MultiIndex byPeerView (byTxHashView computer) byTimeView

structure PeerInfo where
  total : Nat
  completed : Nat
  requested : Nat
  deriving DecidableEq

structure Tracker (computer : PriorityComputer) where
  currentSequence : Uint64
  index : Index computer
  peerinfo : AssocMap Int PeerInfo

namespace Tracker

variable {computer : PriorityComputer}

def initial : Tracker computer := ⟨0, .empty, ∅⟩

def byPeer (s : Tracker computer) : List Announcement := s.index.byFirst
def byTxHash (s : Tracker computer) : List Announcement := s.index.bySecond
def byTime (s : Tracker computer) : List Announcement := s.index.byThird

/-! ## Changes to one announcement -/

def erase (s : Tracker computer) (it : Announcement) : Checked (Tracker computer) :=
  match s.peerinfo.lookup it.peer with
  | none => .error .badIterator
  | some info =>
    if it ∈ s.index then
      let info : PeerInfo := ⟨info.total - 1, info.completed - it.isCompleted.toNat,
          info.requested - it.isRequested.toNat⟩
      .ok { s with
        index := s.index.erase it
        peerinfo := if info.total = 0 then s.peerinfo.erase it.peer else s.peerinfo.insert it.peer info }
    else .error .badIterator

/-- A change that is refused drops the element, then read. -/
def modify (s : Tracker computer) (it ann : Announcement) : Checked (Tracker computer) :=
  match s.peerinfo.lookup it.peer, s.index.modify it ann with
  | some info, some index =>
    .ok { s with
      index
      peerinfo := s.peerinfo.insert it.peer
        ⟨info.total, info.completed - it.isCompleted.toNat + ann.isCompleted.toNat,
          info.requested - it.isRequested.toNat + ann.isRequested.toNat⟩ }
  | _, _ => .error .badIterator

def setState (s : Tracker computer) (it : Announcement) (state : State) : Checked (Tracker computer) :=
  s.modify it (it.setState state)

def promoteCandidateReady (s : Tracker computer) (it : Announcement) : Checked (Tracker computer) := do
  check (it.state == .candidateDelayed)
  let s ← s.setState it .candidateReady
  let it := it.setState .candidateReady
  match next it s.byTxHash with
  | none => s.setState it .candidateBest
  | some itNext =>
    if itNext.txhash ≠ it.txhash ∨ itNext.state = .completed then s.setState it .candidateBest
    else if itNext.state = .candidateBest ∧ computer.priority it > computer.priority itNext then
      let s ← s.setState itNext .candidateReady
      s.setState it .candidateBest
    else return s

/-- The next best announcement takes the place of a selected one. -/
def reselect (s : Tracker computer) (it : Announcement) : Checked (Tracker computer) :=
  match prev it s.byTxHash with
  | none => .ok s
  | some itPrev =>
    if it.isSelected ∧ itPrev.txhash = it.txhash ∧ itPrev.state = .candidateReady then
      s.setState itPrev .candidateBest
    else .ok s

def changeAndReselect (s : Tracker computer) (it : Announcement) (newState : State) : Checked (Tracker computer) := do
  check (newState == .completed || newState == .candidateDelayed)
  let s ← s.reselect it
  s.setState it newState

def isOnlyNonCompleted (s : Tracker computer) (it : Announcement) : Checked Bool := do
  check (it.state != .completed)
  return !((prev it s.byTxHash).any fun itPrev => itPrev.txhash == it.txhash) &&
    !((next it s.byTxHash).any fun itNext => itNext.txhash == it.txhash && itNext.state != .completed)

def eraseAll : List Announcement → Tracker computer → Checked (Tracker computer)
  | [], s => .ok s
  | it :: rest, s => do
    let s ← s.erase it
    eraseAll rest s

def runOf (txhash : Uint256) (l : List Announcement) : List Announcement := l.takeWhile fun ann => ann.txhash = txhash

def makeCompleted (s : Tracker computer) (it : Announcement) : Checked (Option Announcement × Tracker computer) := do
  if it.state = .completed then return (some it, s)
  if ← s.isOnlyNonCompleted it then
    let s ← eraseAll (runOf it.txhash (s.byTxHash.dropWhile (· ≠ it))) s
    return (none, s)
  else
    let s ← s.changeAndReselect it .completed
    return (some (it.setState .completed), s)

/-! ## Time -/

def expireAndPromote (now : Int) : Nat → List (Int × GenTxid) → Tracker computer →
    Checked (List (Int × GenTxid) × Tracker computer)
  | 0, _, _ => .error .endless
  | rounds + 1, expired, s =>
    match s.byTime.head? with
    | none => .ok (expired, s)
    | some it =>
      if it.state = .candidateDelayed ∧ it.time ≤ now then do
        let s ← s.promoteCandidateReady it
        expireAndPromote now rounds expired s
      else if it.state = .requested ∧ it.time ≤ now then do
        let (_, s) ← s.makeCompleted it
        expireAndPromote now rounds (expired ++ [(it.peer, it.toGenTxid)]) s
      else .ok (expired, s)

def demote (now : Int) : Nat → Tracker computer → Checked (Tracker computer)
  | 0, _ => .error .endless
  | rounds + 1, s =>
    match s.byTime.getLast? with
    | none => .ok s
    | some it =>
      if it.isSelectable ∧ it.time > now then do
        let s ← s.changeAndReselect it .candidateDelayed
        demote now rounds s
      else .ok s

def setTimePoint (s : Tracker computer) (now : Int) : Checked (List (Int × GenTxid) × Tracker computer) := do
  let (expired, s) ← expireAndPromote now (s.byTime.length + 1) [] s
  let s ← demote now (s.byTime.length + 1) s
  return (expired, s)

/-! ## Operations -/

def disconnectLoop (peer : Int) : Nat → Option Announcement → Tracker computer → Checked (Tracker computer)
  | _, none, s => .ok s
  | 0, some _, _ => .error .endless
  | rounds + 1, some it, s =>
    if it.peer ≠ peer then .ok s
    else do
      let itNext := (next it s.byPeer).filter fun ann => ann.peer = peer
      let (left, s) ← s.makeCompleted it
      let s ← eraseAll left.toList s
      disconnectLoop peer rounds itNext s

def disconnectedPeer (s : Tracker computer) (peer : Int) : Checked (Tracker computer) :=
  disconnectLoop peer s.byPeer.length (lowerBound byPeerView (byPeerKey peer false 0) s.byPeer) s

def forgetTxHash (s : Tracker computer) (txhash : Uint256) : Checked (Tracker computer) :=
  let start := byTxHashKey txhash .candidateDelayed 0
  eraseAll (runOf txhash (s.byTxHash.dropWhile fun ann => byTxHashView computer ann < start)) s

def receivedInv (s : Tracker computer) (peer : Int) (gtxid : GenTxid) (preferred : Bool)
    (reqtime : Int) : Tracker computer :=
  if (s.index.find (byPeerKey peer true gtxid.hash)).isSome then s
  else match s.index.emplace ⟨gtxid.hash, reqtime, peer, s.currentSequence.setWidth 59, preferred, gtxid.isWtxid,
    .candidateDelayed⟩ with
    | none => s
    | some index =>
      let info := (s.peerinfo.lookup peer).getD ⟨0, 0, 0⟩
      { index
        peerinfo := s.peerinfo.insert peer { info with total := info.total + 1 }
        currentSequence := s.currentSequence + 1 }

def getRequestable (s : Tracker computer) (peer : Int) (now : Int) :
    Checked (List GenTxid × List (Int × GenTxid) × Tracker computer) := do
  let (expired, s) ← s.setTimePoint now
  let selected := (s.byPeer.dropWhile fun ann => byPeerView ann < byPeerKey peer true 0).takeWhile
    fun ann => ann.peer = peer ∧ ann.state = .candidateBest
  let sorted := selected.insertionSort fun a b => a.sequence.toNat ≤ b.sequence.toNat
  return (sorted.map Announcement.toGenTxid, expired, s)

def unselect (s : Tracker computer) (txhash : Uint256) : Checked (Tracker computer) :=
  match lowerBound (byTxHashView computer) (byTxHashKey txhash .candidateBest 0) s.byTxHash with
  | none => .ok s
  | some itOld =>
    if itOld.txhash ≠ txhash then .ok s
    else if itOld.state = .candidateBest then s.setState itOld .candidateReady
    else if itOld.state = .requested then s.setState itOld .completed
    else .ok s

def requestedTx (s : Tracker computer) (peer : Int) (txhash : Uint256) (expiry : Int) : Checked (Tracker computer) :=
  match s.index.find (byPeerKey peer true txhash) with
  | some it => s.modify it { it with state := .requested, time := expiry }
  | none =>
    match s.index.find (byPeerKey peer false txhash) with
    | none => .ok s
    | some it =>
      if it.state ≠ .candidateDelayed ∧ it.state ≠ .candidateReady then .ok s
      else do
        let s ← s.unselect txhash
        s.modify it { it with state := .requested, time := expiry }

def receivedResponse (s : Tracker computer) (peer : Int) (txhash : Uint256) : Checked (Tracker computer) :=
  match (s.index.find (byPeerKey peer false txhash)).or (s.index.find (byPeerKey peer true txhash)) with
  | none => .ok s
  | some it => do
    let (_, s) ← s.makeCompleted it
    return s

/-! ## Sanity checks -/

def countAnnouncement (info : PeerInfo) (ann : Announcement) : PeerInfo :=
  ⟨info.total + 1, info.completed + ann.isCompleted.toNat, info.requested + ann.isRequested.toNat⟩

def recomputePeerInfo (l : List Announcement) : AssocMap Int PeerInfo :=
  AssocMap.collect Announcement.peer countAnnouncement ⟨0, 0, 0⟩ l

structure TxHashInfo where
  candidateDelayed : Nat
  candidateReady : Nat
  candidateBest : Nat
  requested : Nat
  priorityCandidateBest : Uint64
  priorityBestCandidateReady : Uint64
  peers : List Int

def TxHashInfo.new : TxHashInfo := ⟨0, 0, 0, 0, BitVec.allOnes 64, 0, []⟩

def TxHashInfo.add (computer : PriorityComputer) (info : TxHashInfo) (ann : Announcement) : TxHashInfo where
  candidateDelayed := info.candidateDelayed + (ann.state == .candidateDelayed).toNat
  candidateReady := info.candidateReady + (ann.state == .candidateReady).toNat
  candidateBest := info.candidateBest + (ann.state == .candidateBest).toNat
  requested := info.requested + (ann.state == .requested).toNat
  priorityCandidateBest := if ann.state = .candidateBest then computer.priority ann else info.priorityCandidateBest
  priorityBestCandidateReady :=
    if ann.state = .candidateReady ∧ info.priorityBestCandidateReady < computer.priority ann
    then computer.priority ann else info.priorityBestCandidateReady
  peers := info.peers ++ [ann.peer]

def computeTxHashInfo (computer : PriorityComputer) (l : List Announcement) : AssocMap Uint256 TxHashInfo :=
  AssocMap.collect Announcement.txhash (TxHashInfo.add computer) .new l

def adjacentFind : List Int → Bool
  | a :: b :: l => a == b || adjacentFind (b :: l)
  | _ => false

def TxHashInfo.check (info : TxHashInfo) : Checked Unit := do
  FullNode.check (info.candidateDelayed + info.candidateReady + info.candidateBest + info.requested > 0)
  FullNode.check (info.candidateBest + info.requested ≤ 1)
  FullNode.check (!(info.candidateReady > 0) || info.candidateBest + info.requested == 1)
  FullNode.check (!(info.candidateReady ≠ 0 && info.candidateBest ≠ 0) ||
    info.priorityCandidateBest ≥ info.priorityBestCandidateReady)
  FullNode.check (!adjacentFind (info.peers.insertionSort (· ≤ ·)))

def checkAll {α : Type} (f : α → Checked Unit) : List α → Checked Unit
  | [] => .ok ()
  | a :: l => do
    f a
    checkAll f l

def sanityCheck (s : Tracker computer) : Checked Unit := do
  FullNode.check (AssocMap.same s.peerinfo (recomputePeerInfo s.byPeer))
  checkAll (fun item => TxHashInfo.check item.2) (computeTxHashInfo computer s.byPeer).entries

def postGetRequestableSanityCheck (s : Tracker computer) (now : Int) : Checked Unit :=
  checkAll (fun ann => if ann.isWaiting then FullNode.check (ann.time > now)
    else if ann.isSelectable then FullNode.check (ann.time ≤ now) else .ok ()) s.byPeer

/-! ## Runs -/

inductive Op where
  | receivedInv (peer : Int) (gtxid : GenTxid) (preferred : Bool) (reqtime : Int)
  | requestedTx (peer : Int) (txhash : Uint256) (expiry : Int)
  | receivedResponse (peer : Int) (txhash : Uint256)
  | forgetTxHash (txhash : Uint256)
  | disconnectedPeer (peer : Int)
  | getRequestable (peer : Int) (now : Int)

def step (s : Tracker computer) : Op → Checked (Tracker computer)
  | .receivedInv peer gtxid preferred reqtime => .ok (s.receivedInv peer gtxid preferred reqtime)
  | .requestedTx peer txhash expiry => s.requestedTx peer txhash expiry
  | .receivedResponse peer txhash => s.receivedResponse peer txhash
  | .forgetTxHash txhash => s.forgetTxHash txhash
  | .disconnectedPeer peer => s.disconnectedPeer peer
  | .getRequestable peer now => do
    let (_, _, s) ← s.getRequestable peer now
    return s

def run : List Op → Tracker computer → Checked (Tracker computer)
  | [], s => .ok s
  | op :: ops, s => do
    let s ← s.step op
    run ops s

end Tracker

end FullNode.TxRequest

import FullNode.Basic
import FullNode.Lib.AssocMap

/-!
# The address manager

`AddrManImpl`: addresses that were heard of, in the `new` table, and addresses that were connected to, in the `tried`
table.
-/

namespace FullNode.AddrMan

def ADDRMAN_TRIED_BUCKET_COUNT : Nat := 256
def ADDRMAN_NEW_BUCKET_COUNT : Nat := 1024
def ADDRMAN_BUCKET_SIZE : Nat := 64
def ADDRMAN_NEW_BUCKETS_PER_ADDRESS : Int := 8
def ADDRMAN_HORIZON : Int := 30 * 24 * 3600
def ADDRMAN_RETRIES : Int := 3
def ADDRMAN_MAX_FAILURES : Int := 10
def ADDRMAN_MIN_FAIL : Int := 7 * 24 * 3600
def ADDRMAN_REPLACEMENT : Int := 4 * 3600
def ADDRMAN_SET_TRIED_COLLISION_SIZE : Nat := 10
def ADDRMAN_TEST_WINDOW : Int := 40 * 60

inductive Network where
  | unroutable
  | ipv4
  | ipv6
  | onion
  | i2p
  | cjdns
  | internal
  deriving DecidableEq

/-- What the tables need of addresses `A` and sources `R`. -/
structure Context (A R : Type) where
  network : A → Network
  netClass : A → Network
  isRoutable : A → Bool
  isValid : A → Bool
  /-- An address equals a source up to its port. -/
  sameHost : A → R → Bool
  triedHash : Uint256 → A → Nat
  newHash : Uint256 → A → R → Nat
  positionHash : Uint256 → Bool → Nat → A → Nat

structure AddrInfo (A R : Type) where
  addr : A
  source : R
  nServices : Nat
  nTime : Int
  m_last_try : Int := 0
  m_last_count_attempt : Int := 0
  m_last_success : Int := 0
  nAttempts : Int := 0
  nRefCount : Int := 0
  fInTried : Bool := false
  nRandomPos : Nat

variable {A R : Type} (c : Context A R)

namespace Context

def getTriedBucket (key : Uint256) (a : A) : Nat := c.triedHash key a % ADDRMAN_TRIED_BUCKET_COUNT

def getNewBucket (key : Uint256) (a : A) (source : R) : Nat := c.newHash key a source % ADDRMAN_NEW_BUCKET_COUNT

def getBucketPosition (key : Uint256) (fNew : Bool) (bucket : Nat) (a : A) : Nat :=
  c.positionHash key fNew bucket a % ADDRMAN_BUCKET_SIZE

end Context

def AddrInfo.isTerrible (info : AddrInfo A R) (now : Int) : Bool :=
  if now - info.m_last_try ≤ 60 then false
  else if info.nTime > now + 600 then true
  else if now - info.nTime > ADDRMAN_HORIZON then true
  else if info.m_last_success = 0 ∧ info.nAttempts ≥ ADDRMAN_RETRIES then true
  else if now - info.m_last_success > ADDRMAN_MIN_FAIL ∧ info.nAttempts ≥ ADDRMAN_MAX_FAILURES then true
  else false

/-! ## State -/

abbrev Table := Nat → Nat → Option Nat

def Table.set (t : Table) (bucket pos : Nat) (slot : Option Nat) : Table :=
  fun bucket' pos' => if bucket' = bucket ∧ pos' = pos then slot else t bucket' pos'

structure NewTriedCount where
  n_new : Int := 0
  n_tried : Int := 0

structure State (A R : Type) where
  nKey : Uint256
  nIdCount : Nat := 0
  mapInfo : AssocMap Nat (AddrInfo A R) := ∅
  mapAddr : AssocMap A Nat := ∅
  vRandom : List Nat := []
  nTried : Int := 0
  vvTried : Table := fun _ _ => none
  nNew : Int := 0
  vvNew : Table := fun _ _ => none
  m_last_good : Int := 1
  /-- In order. -/
  m_tried_collisions : List Nat := []
  m_network_counts : AssocMap Network NewTriedCount := ∅

namespace State

def count (counts : AssocMap Network NewTriedCount) (net : Network) : NewTriedCount := (counts.lookup net).getD {}

def addNew (counts : AssocMap Network NewTriedCount) (net : Network) (n : Int) : AssocMap Network NewTriedCount :=
  counts.insert net { count counts net with n_new := (count counts net).n_new + n }

def addTried (counts : AssocMap Network NewTriedCount) (net : Network) (n : Int) : AssocMap Network NewTriedCount :=
  counts.insert net { count counts net with n_tried := (count counts net).n_tried + n }

def infoAt (s : State A R) (id : Nat) : Checked (AddrInfo A R) :=
  match s.mapInfo.lookup id with
  | some info => .ok info
  | none => .error .badIterator

def modify (s : State A R) (id : Nat) (f : AddrInfo A R → AddrInfo A R) : State A R :=
  match s.mapInfo.lookup id with
  | some info => { s with mapInfo := s.mapInfo.insert id (f info) }
  | none => s

end State

open State

variable [DecidableEq A]

def find (s : State A R) (a : A) : Option (Nat × AddrInfo A R) := do
  let id ← s.mapAddr.lookup a
  let info ← s.mapInfo.lookup id
  return (id, info)

structure CAddress (A : Type) where
  addr : A
  nServices : Nat
  nTime : Int

def create (s : State A R) (a : CAddress A) (source : R) : State A R × Nat :=
  let nId := s.nIdCount
  ({ s with
    nIdCount := nId + 1
    mapInfo := s.mapInfo.insert nId
      { addr := a.addr, source, nServices := a.nServices, nTime := a.nTime, nRandomPos := s.vRandom.length }
    mapAddr := s.mapAddr.insert a.addr nId
    vRandom := s.vRandom ++ [nId]
    nNew := s.nNew + 1
    m_network_counts := addNew s.m_network_counts (c.network a.addr) 1 }, nId)

def swapRandom (s : State A R) (nRndPos1 nRndPos2 : Nat) : Checked (State A R) :=
  if nRndPos1 = nRndPos2 then .ok s
  else do
    check (nRndPos1 < s.vRandom.length && nRndPos2 < s.vRandom.length)
    let nId1 := s.vRandom.getD nRndPos1 0
    let nId2 := s.vRandom.getD nRndPos2 0
    check (s.mapInfo.lookup nId1).isSome
    check (s.mapInfo.lookup nId2).isSome
    let s := s.modify nId1 fun info => { info with nRandomPos := nRndPos2 }
    let s := s.modify nId2 fun info => { info with nRandomPos := nRndPos1 }
    return { s with vRandom := (s.vRandom.set nRndPos1 nId2).set nRndPos2 nId1 }

def delete (s : State A R) (nId : Nat) : Checked (State A R) := do
  check (s.mapInfo.lookup nId).isSome
  let info ← s.infoAt nId
  check (!info.fInTried)
  check (info.nRefCount = 0)
  let s ← swapRandom s info.nRandomPos (s.vRandom.length - 1)
  return { s with
    m_network_counts := addNew s.m_network_counts (c.network info.addr) (-1)
    vRandom := s.vRandom.dropLast
    mapAddr := s.mapAddr.erase info.addr
    mapInfo := s.mapInfo.erase nId
    nNew := s.nNew - 1 }

def clearNew (s : State A R) (nUBucket nUBucketPos : Nat) : Checked (State A R) :=
  match s.vvNew nUBucket nUBucketPos with
  | none => .ok s
  | some nIdDelete => do
    let infoDelete ← s.infoAt nIdDelete
    check (0 < infoDelete.nRefCount)
    let s := s.modify nIdDelete fun info => { info with nRefCount := info.nRefCount - 1 }
    let s := { s with vvNew := s.vvNew.set nUBucket nUBucketPos none }
    if infoDelete.nRefCount - 1 = 0 then delete c s nIdDelete else return s

def clearRefs (key : Uint256) (a : A) (nId : Nat) : List Nat → Table → Int → Table × Int
  | [], vvNew, nRefCount => (vvNew, nRefCount)
  | bucket :: buckets, vvNew, nRefCount =>
    let pos := c.getBucketPosition key true bucket a
    if vvNew bucket pos = some nId then
      if nRefCount - 1 = 0 then (vvNew.set bucket pos none, nRefCount - 1)
      else clearRefs key a nId buckets (vvNew.set bucket pos none) (nRefCount - 1)
    else clearRefs key a nId buckets vvNew nRefCount

def bucketsFrom (start : Nat) : List Nat :=
  (List.range ADDRMAN_NEW_BUCKET_COUNT).map fun n => (start + n) % ADDRMAN_NEW_BUCKET_COUNT

def evictTried (s : State A R) (nKBucket nKBucketPos nIdEvict : Nat) : Checked (State A R) := do
  check (s.mapInfo.lookup nIdEvict).isSome
  let infoOld ← s.infoAt nIdEvict
  let s := s.modify nIdEvict fun info => { info with fInTried := false }
  let s := { s with
    vvTried := s.vvTried.set nKBucket nKBucketPos none
    nTried := s.nTried - 1
    m_network_counts := addTried s.m_network_counts (c.network infoOld.addr) (-1) }
  let nUBucket := c.getNewBucket s.nKey infoOld.addr infoOld.source
  let nUBucketPos := c.getBucketPosition s.nKey true nUBucket infoOld.addr
  let s ← clearNew c s nUBucket nUBucketPos
  check (s.vvNew nUBucket nUBucketPos).isNone
  let s := s.modify nIdEvict fun info => { info with nRefCount := 1 }
  return { s with
    vvNew := s.vvNew.set nUBucket nUBucketPos (some nIdEvict)
    nNew := s.nNew + 1
    m_network_counts := addNew s.m_network_counts (c.network infoOld.addr) 1 }

def makeTried (s : State A R) (nId : Nat) : Checked (State A R) := do
  let info ← s.infoAt nId
  let (vvNew, nRefCount) :=
      clearRefs c s.nKey info.addr nId (bucketsFrom (c.getNewBucket s.nKey info.addr info.source)) s.vvNew
        info.nRefCount
  let s := s.modify nId fun info => { info with nRefCount }
  let s := { s with
    vvNew
    nNew := s.nNew - 1
    m_network_counts := addNew s.m_network_counts (c.network info.addr) (-1) }
  check (nRefCount = 0)
  let nKBucket := c.getTriedBucket s.nKey info.addr
  let nKBucketPos := c.getBucketPosition s.nKey false nKBucket info.addr
  let s ← match s.vvTried nKBucket nKBucketPos with
    | some nIdEvict => evictTried c s nKBucket nKBucketPos nIdEvict
    | none => .ok s
  check (s.vvTried nKBucket nKBucketPos).isNone
  let s := s.modify nId fun info => { info with fInTried := true }
  return { s with
    vvTried := s.vvTried.set nKBucket nKBucketPos (some nId)
    nTried := s.nTried + 1
    m_network_counts := addTried s.m_network_counts (c.network info.addr) 1 }

/-! ## `Add` -/

structure Draw where
  online : Int
  rand : Nat
  now : Int

/-- Puts an entry into its slot of the new table, or gives it up. -/
def place (s : State A R) (nId : Nat) (source : R) (now : Int) : Checked (Bool × State A R) := do
  let info ← s.infoAt nId
  let nUBucket := c.getNewBucket s.nKey info.addr source
  let nUBucketPos := c.getBucketPosition s.nKey true nUBucket info.addr
  if s.vvNew nUBucket nUBucketPos = some nId then return (false, s)
  else do
    let fInsert ← match s.vvNew nUBucket nUBucketPos with
      | none => pure true
      | some nIdExisting => do
        let infoExisting ← s.infoAt nIdExisting
        pure (infoExisting.isTerrible now || (infoExisting.nRefCount > 1 && info.nRefCount = 0))
    if fInsert then do
      let s ← clearNew c s nUBucket nUBucketPos
      let s := s.modify nId fun info => { info with nRefCount := info.nRefCount + 1 }
      return (true, { s with vvNew := s.vvNew.set nUBucket nUBucketPos (some nId) })
    else if info.nRefCount = 0 then do
      let s ← delete c s nId
      return (false, s)
    else return (false, s)

def refresh (info : AddrInfo A R) (a : CAddress A) (time_penalty : Int) (online : Int) : AddrInfo A R :=
  let update_interval := if online - a.nTime < 24 * 3600 then 3600 else 24 * 3600
  { info with
    nTime := if info.nTime < a.nTime - update_interval - time_penalty then max 0 (a.nTime - time_penalty)
      else info.nTime
    nServices := info.nServices ||| a.nServices }

def addSingle (s : State A R) (a : CAddress A) (source : R) (time_penalty : Int)
    (d : Draw) : Checked (Bool × State A R) :=
  if !c.isRoutable a.addr then .ok (false, s)
  else
    let time_penalty := if c.sameHost a.addr source then 0 else time_penalty
    match find s a.addr with
    | some (nId, info) =>
      let info := refresh info a time_penalty d.online
      let s := s.modify nId fun _ => info
      if a.nTime ≤ info.nTime then .ok (false, s)
      else if info.fInTried then .ok (false, s)
      else if info.nRefCount = ADDRMAN_NEW_BUCKETS_PER_ADDRESS then .ok (false, s)
      else if info.nRefCount > 0 ∧ d.rand % 2 ^ info.nRefCount.toNat ≠ 0 then .ok (false, s)
      else place c s nId source d.now
    | none =>
      let (s, nId) := create c s a source
      let s := s.modify nId fun info => { info with nTime := max 0 (info.nTime - time_penalty) }
      place c s nId source d.now

def add (s : State A R) (source : R) (time_penalty : Int) : List (CAddress A × Draw) → Checked (State A R)
  | [] => .ok s
  | (a, d) :: rest => do
    let (_, s) ← addSingle c s a source time_penalty d
    add s source time_penalty rest

/-! ## `Good`, `Attempt`, `Connected` and `SetServices` -/

def insertCollision (collisions : List Nat) (nId : Nat) : List Nat :=
  if nId ∈ collisions then collisions else collisions.orderedInsert (· ≤ ·) nId

def good (s : State A R) (a : A) (test_before_evict : Bool) (time : Int) : Checked (Bool × State A R) :=
  let s := { s with m_last_good := time }
  match find s a with
  | none => .ok (false, s)
  | some (nId, info) =>
    let s := s.modify nId fun info => { info with m_last_success := time, m_last_try := time, nAttempts := 0 }
    if info.fInTried then .ok (false, s)
    else if ¬ 0 < info.nRefCount then .ok (false, s)
    else
      let tried_bucket := c.getTriedBucket s.nKey info.addr
      let tried_bucket_pos := c.getBucketPosition s.nKey false tried_bucket info.addr
      if test_before_evict ∧ (s.vvTried tried_bucket tried_bucket_pos).isSome then
        let s := if s.m_tried_collisions.length < ADDRMAN_SET_TRIED_COLLISION_SIZE
          then { s with m_tried_collisions := insertCollision s.m_tried_collisions nId } else s
        .ok (false, s)
      else do
        let s ← makeTried c s nId
        return (true, s)

def attempt (s : State A R) (a : A) (fCountFailure : Bool) (time : Int) : State A R :=
  match find s a with
  | none => s
  | some (nId, _) =>
    s.modify nId fun info =>
      let info := { info with m_last_try := time }
      if fCountFailure ∧ info.m_last_count_attempt < s.m_last_good
      then { info with m_last_count_attempt := time, nAttempts := info.nAttempts + 1 } else info

def connected (s : State A R) (a : A) (time : Int) : State A R :=
  match find s a with
  | none => s
  | some (nId, _) => s.modify nId fun info => if time - info.nTime > 20 * 60 then { info with nTime := time } else info

def setServices (s : State A R) (a : A) (nServices : Nat) : State A R :=
  match find s a with
  | none => s
  | some (nId, _) => s.modify nId fun info => { info with nServices }

/-! ## Collisions -/

/-- One entry of the collision set, and whether it leaves the set. -/
def resolveCollision (s : State A R) (id_new : Nat) (current_time : Int) : Checked (Bool × State A R) :=
  match s.mapInfo.lookup id_new with
  | none => .ok (true, s)
  | some info_new =>
    let tried_bucket := c.getTriedBucket s.nKey info_new.addr
    let tried_bucket_pos := c.getBucketPosition s.nKey false tried_bucket info_new.addr
    if !c.isValid info_new.addr then .ok (true, s)
    else match s.vvTried tried_bucket tried_bucket_pos with
      | some id_old => do
        let info_old ← s.infoAt id_old
        if current_time - info_old.m_last_success < ADDRMAN_REPLACEMENT then return (true, s)
        else if current_time - info_old.m_last_try < ADDRMAN_REPLACEMENT then
          if current_time - info_old.m_last_try > 60 then do
            let (_, s) ← good c s info_new.addr false current_time
            return (true, s)
          else return (false, s)
        else if current_time - info_new.m_last_success > ADDRMAN_TEST_WINDOW then do
          let (_, s) ← good c s info_new.addr false current_time
          return (true, s)
        else return (false, s)
      | none => do
        let (_, s) ← good c s info_new.addr false current_time
        return (true, s)

/-- The set is gone through in order; each entry reads the clock. -/
def resolveCollisions (clock : Nat → Int) : List Nat → State A R → Checked (State A R)
  | [], s => .ok s
  | id_new :: rest, s => do
    let (erase_collision, s) ← resolveCollision c s id_new (clock id_new)
    let s := if erase_collision then { s with m_tried_collisions := s.m_tried_collisions.erase id_new } else s
    resolveCollisions clock rest s

def selectTriedCollision (s : State A R) (rand : Nat) : Checked (Option (AddrInfo A R) × State A R) :=
  match s.m_tried_collisions[rand % s.m_tried_collisions.length]? with
  | none => .ok (none, s)
  | some id_new =>
    match s.mapInfo.lookup id_new with
    | none => .ok (none, { s with m_tried_collisions := s.m_tried_collisions.erase id_new })
    | some newInfo =>
      let tried_bucket := c.getTriedBucket s.nKey newInfo.addr
      match s.vvTried tried_bucket (c.getBucketPosition s.nKey false tried_bucket newInfo.addr) with
      | none => .error .badIterator
      | some id_old => do
        let info_old ← s.infoAt id_old
        return (some info_old, s)

/-! ## `Select` and `GetAddr` -/

def getEntry (s : State A R) (use_tried : Bool) (bucket position : Nat) : Option Nat :=
  if use_tried then
    if position < ADDRMAN_BUCKET_SIZE ∧ bucket < ADDRMAN_TRIED_BUCKET_COUNT then s.vvTried bucket position else none
  else if position < ADDRMAN_BUCKET_SIZE ∧ bucket < ADDRMAN_NEW_BUCKET_COUNT then s.vvNew bucket position else none

inductive Selection (A R : Type) where
  | nothing
  | found (info : AddrInfo A R)
  /-- The random numbers so far did not end it. -/
  | searching

/-- The first entry of a bucket from a position on, in the networks. -/
def firstEntry (s : State A R) (networks : List Network) (search_tried : Bool) (bucket initial_position : Nat) :
    Option Nat :=
  (List.range ADDRMAN_BUCKET_SIZE).findSome? fun i =>
    match getEntry s search_tried bucket ((initial_position + i) % ADDRMAN_BUCKET_SIZE) with
    | none => none
    | some node_id =>
      if networks.isEmpty then some node_id
      else match s.mapInfo.lookup node_id with
        | some info => if c.network info.addr ∈ networks then some node_id else none
        | none => none

/-- Each round draws a bucket, a position and whether to take. -/
def searchTable (s : State A R) (networks : List Network) (search_tried : Bool) : List (Nat × Nat × Bool) →
    Checked (Selection A R)
  | [] => .ok .searching
  | (bucket, position, accept) :: draws =>
    let bucket_count := if search_tried then ADDRMAN_TRIED_BUCKET_COUNT else ADDRMAN_NEW_BUCKET_COUNT
    match firstEntry c s networks search_tried (bucket % bucket_count) (position % ADDRMAN_BUCKET_SIZE) with
    | none => searchTable s networks search_tried draws
    | some node_id => do
      check (s.mapInfo.lookup node_id).isSome
      let info ← s.infoAt node_id
      if accept then return .found info else searchTable s networks search_tried draws

def select (s : State A R) (new_only : Bool) (networks : List Network) (coin : Bool) (draws : List (Nat × Nat × Bool)) :
    Checked (Selection A R) :=
  if s.vRandom.isEmpty then .ok .nothing
  else
    let new_count := if networks.isEmpty then s.nNew
        else (networks.map fun net => (count s.m_network_counts net).n_new).sum
    let tried_count := if networks.isEmpty then s.nTried
        else (networks.map fun net => (count s.m_network_counts net).n_tried).sum
    if new_only ∧ new_count = 0 then .ok .nothing
    else if new_count + tried_count = 0 then .ok .nothing
    else
      let search_tried := if new_only ∨ tried_count = 0 then false else if new_count = 0 then true else coin
      searchTable c s networks search_tried draws

/-- The loop of `GetAddr`: it shuffles the ids as it goes. -/
def gatherAddr (nNodes : Nat) (network : Option Network) (filtered : Bool) (now : Int) (rand : Nat → Nat) :
    Nat → Nat → State A R → List (AddrInfo A R) → Checked (List (AddrInfo A R) × State A R)
  | 0, _, s, addresses => .ok (addresses, s)
  | left + 1, n, s, addresses =>
    if addresses.length ≥ nNodes then .ok (addresses, s)
    else do
      let nRndPos := rand n % (s.vRandom.length - n) + n
      let s ← swapRandom s n nRndPos
      let id := s.vRandom.getD n 0
      check (s.mapInfo.lookup id).isSome
      let ai ← s.infoAt id
      if network.isSome ∧ network ≠
        some (c.netClass ai.addr) then gatherAddr nNodes network filtered now rand left (n + 1) s addresses
      else if ai.isTerrible now ∧ filtered then gatherAddr nNodes network filtered now rand left (n + 1) s addresses
      else gatherAddr nNodes network filtered now rand left (n + 1) s (addresses ++ [ai])

def getAddr (s : State A R) (max_addresses max_pct : Nat) (network : Option Network) (filtered : Bool) (now : Int)
    (rand : Nat → Nat) : Checked (List (AddrInfo A R) × State A R) :=
  let nNodes := s.vRandom.length
  let nNodes := if max_pct ≠ 0 then min max_pct 100 * nNodes / 100 else nNodes
  let nNodes := if max_addresses ≠ 0 then min nNodes max_addresses else nNodes
  gatherAddr c nNodes network filtered now rand s.vRandom.length 0 s []

/-! ## `CheckAddrman` -/

structure Seen where
  setTried : Finset Nat := ∅
  mapNew : AssocMap Nat Int := ∅
  local_counts : AssocMap Network NewTriedCount := ∅

def seeEntry (n : Nat) (info : AddrInfo A R) (seen : Seen) : Seen :=
  if info.fInTried then
    { seen with
      setTried := Insert.insert n seen.setTried
      local_counts := addTried seen.local_counts (c.network info.addr) 1 }
  else
    { seen with
      mapNew := seen.mapNew.insert n info.nRefCount
      local_counts := addNew seen.local_counts (c.network info.addr) 1 }

def checkEntry (s : State A R) (n : Nat) (info : AddrInfo A R) : Except Int Unit :=
  if info.fInTried ∧ info.m_last_success = 0 then .error (-1)
  else if info.fInTried ∧ info.nRefCount ≠ 0 then .error (-2)
  else if ¬ info.fInTried ∧ (info.nRefCount < 0 ∨ info.nRefCount > ADDRMAN_NEW_BUCKETS_PER_ADDRESS) then .error (-3)
  else if ¬ info.fInTried ∧ info.nRefCount = 0 then .error (-4)
  else if s.mapAddr.lookup info.addr ≠ some n then .error (-5)
  else if s.vRandom[info.nRandomPos]? ≠ some n then .error (-14)
  else if info.m_last_try < 0 then .error (-6)
  else if info.m_last_success < 0 then .error (-8)
  else .ok ()

def checkEntries (s : State A R) : List (Σ _ : Nat, AddrInfo A R) → Seen → Except Int Seen
  | [], seen => .ok seen
  | ⟨n, info⟩ :: rest, seen => do
    checkEntry s n info
    checkEntries s rest (seeEntry c n info seen)

def slots (bucket_count : Nat) : List (Nat × Nat) :=
  (List.range bucket_count).flatMap fun n => (List.range ADDRMAN_BUCKET_SIZE).map fun i => (n, i)

def checkTried (s : State A R) : List (Nat × Nat) → Finset Nat → Except Int (Finset Nat)
  | [], setTried => .ok setTried
  | (n, i) :: rest, setTried =>
    match s.vvTried n i with
    | none => checkTried s rest setTried
    | some id =>
      if id ∉ setTried then .error (-11)
      else match s.mapInfo.lookup id with
        | none => .error (-17)
        | some info =>
          if c.getTriedBucket s.nKey info.addr ≠ n then .error (-17)
          else if c.getBucketPosition s.nKey false n info.addr ≠ i then .error (-18)
          else checkTried s rest (setTried.erase id)

def checkNew (s : State A R) : List (Nat × Nat) → AssocMap Nat Int → Except Int (AssocMap Nat Int)
  | [], mapNew => .ok mapNew
  | (n, i) :: rest, mapNew =>
    match s.vvNew n i with
    | none => checkNew s rest mapNew
    | some id =>
      match mapNew.lookup id with
      | none => .error (-12)
      | some left =>
        match s.mapInfo.lookup id with
        | none => .error (-19)
        | some info =>
          if c.getBucketPosition s.nKey true n info.addr ≠ i then .error (-19)
          else checkNew s rest (if left - 1 = 0 then mapNew.erase id else mapNew.insert id (left - 1))

def checkTables (s : State A R) : Except Int Unit := do
  if (s.vRandom.length : Int) ≠ s.nTried + s.nNew then .error (-7) else .ok ()
  let seen ← checkEntries c s s.mapInfo.entries {}
  if (seen.setTried.card : Int) ≠ s.nTried then .error (-9) else .ok ()
  if (seen.mapNew.keys.length : Int) ≠ s.nNew then .error (-10) else .ok ()
  let setTried ← checkTried c s (slots ADDRMAN_TRIED_BUCKET_COUNT) seen.setTried
  let mapNew ← checkNew c s (slots ADDRMAN_NEW_BUCKET_COUNT) seen.mapNew
  if setTried.card ≠ 0 then .error (-13) else .ok ()
  if mapNew.keys.length ≠ 0 then .error (-15) else .ok ()
  if s.nKey = 0 then .error (-16) else .ok ()
  if s.m_network_counts.keys.length < seen.local_counts.keys.length then .error (-20) else .ok ()
  if s.m_network_counts.keys.any fun net =>
      (count seen.local_counts net).n_new ≠ (count s.m_network_counts net).n_new ||
        (count seen.local_counts net).n_tried ≠ (count s.m_network_counts net).n_tried
  then .error (-21) else .ok ()

def checkAddrman (s : State A R) : Int :=
  match checkTables c s with
  | .ok () => 0
  | .error code => code

/-! ## Runs -/

inductive Call (A R : Type) where
  | add (addrs : List (CAddress A × Draw)) (source : R) (time_penalty : Int)
  | good (a : A) (test_before_evict : Bool) (time : Int)
  | attempt (a : A) (fCountFailure : Bool) (time : Int)
  | connected (a : A) (time : Int)
  | setServices (a : A) (nServices : Nat)
  | resolveCollisions (clock : Nat → Int)
  | selectTriedCollision (rand : Nat)
  | select (new_only : Bool) (networks : List Network) (coin : Bool) (draws : List (Nat × Nat × Bool))
  | getAddr (max_addresses max_pct : Nat) (network : Option Network) (filtered : Bool) (now : Int) (rand : Nat → Nat)

def apply (s : State A R) : Call A R → Checked (State A R)
  | .add addrs source time_penalty => add c s source time_penalty addrs
  | .good a test_before_evict time => do
    let (_, s) ← good c s a test_before_evict time
    return s
  | .attempt a fCountFailure time => .ok (attempt s a fCountFailure time)
  | .connected a time => .ok (connected s a time)
  | .setServices a nServices => .ok (setServices s a nServices)
  | .resolveCollisions clock => resolveCollisions c clock s.m_tried_collisions s
  | .selectTriedCollision rand => do
    let (_, s) ← selectTriedCollision c s rand
    return s
  | .select new_only networks coin draws => do
    let _ ← select c s new_only networks coin draws
    return s
  | .getAddr max_addresses max_pct network filtered now rand => do
    let (_, s) ← getAddr c s max_addresses max_pct network filtered now rand
    return s

def run : State A R → List (Call A R) → Checked (State A R)
  | s, [] => .ok s
  | s, call :: calls => do
    let s ← apply c s call
    run s calls

end FullNode.AddrMan

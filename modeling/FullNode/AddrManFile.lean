import FullNode.NetAddress

/-!
# The file of the address manager

The file has the new entries, the tried entries and, for each bucket of the new table, the places of its entries in
the first list.
-/

namespace FullNode.AddrMan

open Wire State

/-- What the groups of addresses and the hashes with the key give. -/
structure NetGroupManager where
  asmapChecksum : Uint256
  triedHash : Uint256 → CService → Nat
  newHash : Uint256 → CService → CNetAddr → Nat
  positionHash : Uint256 → Bool → Nat → CService → Nat

def NetGroupManager.context (g : NetGroupManager) : Context CService CNetAddr where
  network a := a.getNetwork
  netClass a := a.getNetClass
  isRoutable a := a.isRoutable
  isValid a := a.isValid
  sameHost a source := a.toCNetAddr = source
  triedHash := g.triedHash
  newHash := g.newHash
  positionHash := g.positionHash

/-! ## One entry -/

inductive Encoding where
  | V1
  | V2
  deriving DecidableEq

def DISK_VERSION_INIT : Uint32 := 220000
def DISK_VERSION_IGNORE_MASK : Uint32 := 0x0007ffff
def DISK_VERSION_ADDRV2 : Uint32 := 0x20000000

def writeInt (w : Nat) (n : Int) : List UInt8 := writeBits (BitVec.ofInt w n)

def readInt (w : Nat) : Stream Int := do
  let v ← readBits w
  return v.toInt

def writePort (port : BitVec 16) : List UInt8 := (leBytes 2 port.toNat).reverse

def readPort : Stream (BitVec 16) := do
  let bytes ← Reader.take endOfData 2
  return BitVec.ofNat 16 (leValue bytes.reverse)

def CNetAddr.unserialize : Encoding → Stream CNetAddr
  | .V1 => unserializeV1
  | .V2 => unserializeV2

/-- The entry with `CAddress::V2_DISK`. -/
def writeInfo (info : AddrInfo CService CNetAddr) : List UInt8 :=
  writeBits (DISK_VERSION_INIT ||| DISK_VERSION_ADDRV2) ++
    (writeInt 32 info.nTime ++ (writeCompactSize info.nServices ++
    (info.addr.serializeV2 ++ (writePort info.addr.port ++ (info.source.serializeV2 ++
      (writeInt 64 info.m_last_success ++ writeInt 32 info.nAttempts))))))

def storedEncoding (enc : Encoding) (stored_format_version : Uint32) : Stream Encoding :=
  let stored_format_version := stored_format_version &&& ~~~DISK_VERSION_IGNORE_MASK
  if stored_format_version = 0 then return .V1
  else if stored_format_version = DISK_VERSION_ADDRV2 ∧ enc = .V2 then return .V2
  else throw "Unsupported CAddress disk format version"

def readServices : Encoding → Stream Nat
  | .V1 => readdata 8
  | .V2 => readUncheckedSize

/-- An entry that was not given its place among the random ids yet. -/
def readInfo (enc : Encoding) : Stream (AddrInfo CService CNetAddr) := do
  let stored_format_version ← readBits 32
  let used ← storedEncoding enc stored_format_version
  let nTime ← readdata 4
  let nServices ← readServices used
  let ip ← CNetAddr.unserialize used
  let port ← readPort
  let source ← CNetAddr.unserialize enc
  let m_last_success ← readInt 64
  let nAttempts ← readInt 32
  return { addr := { ip with port }, source, nServices, nTime, m_last_success, nAttempts, nRandomPos := 0 }

/-! ## `Serialize` -/

def V1_DETERMINISTIC : Nat := 1
def V2_ASMAP : Nat := 2
def V3_BIP155 : Nat := 3
def V4_MULTIPORT : Nat := 4
def FILE_FORMAT : Nat := V4_MULTIPORT
def INCOMPATIBILITY_BASE : Nat := 32

structure MapOrder (A R : Type) where
  entries : AssocMap Nat (AddrInfo A R) → List (Σ _ : Nat, AddrInfo A R)
  perm : ∀ m, (entries m).Perm m.entries

variable {A R : Type}

section Serialize

variable (ser : AddrInfo A R → List UInt8)

def writeNew (nNew : Int) : List (Σ _ : Nat, AddrInfo A R) → Nat → AssocMap Nat Nat →
    Checked (List UInt8 × AssocMap Nat Nat)
  | [], _, mapUnkIds => .ok ([], mapUnkIds)
  | ⟨id, info⟩ :: rest, nIds, mapUnkIds =>
    if info.nRefCount ≠ 0 then do
      check ((nIds : Int) ≠ nNew)
      let (bytes, mapUnkIds) ← writeNew nNew rest (nIds + 1) (mapUnkIds.insert id nIds)
      return (ser info ++ bytes, mapUnkIds)
    else writeNew nNew rest nIds (mapUnkIds.insert id nIds)

def writeTried (nTried : Int) : List (Σ _ : Nat, AddrInfo A R) → Nat → Checked (List UInt8)
  | [], _ => .ok []
  | ⟨_, info⟩ :: rest, nIds =>
    if info.fInTried then do
      check ((nIds : Int) ≠ nTried)
      let bytes ← writeTried nTried rest (nIds + 1)
      return ser info ++ bytes
    else writeTried nTried rest nIds

def bucketIds (vvNew : Table) (bucket : Nat) : List Nat := (List.range ADDRMAN_BUCKET_SIZE).filterMap (vvNew bucket)

def writeBucket (vvNew : Table) (mapUnkIds : AssocMap Nat Nat) (bucket : Nat) : List UInt8 :=
  writeInt 32 (bucketIds vvNew bucket).length ++
    (bucketIds vvNew bucket).flatMap fun id => writeInt 32 ((mapUnkIds.lookup id).getD 0 : Nat)

def serialize (asmapChecksum : Uint256) (order : MapOrder A R) (s : State A R) : Checked (List UInt8) := do
  let entries := order.entries s.mapInfo
  let (newBytes, mapUnkIds) ← writeNew ser s.nNew entries 0 ∅
  let triedBytes ← writeTried ser s.nTried entries 0
  return leBytes 1 FILE_FORMAT ++
    (leBytes 1 (INCOMPATIBILITY_BASE + V4_MULTIPORT) ++ (writeBits s.nKey ++ (writeInt 32 s.nNew ++
    (writeInt 32 s.nTried ++ (writeBits (BitVec.ofNat 32 ADDRMAN_NEW_BUCKET_COUNT ^^^ (1#32 <<< 30)) ++
      (newBytes ++ (triedBytes ++
      ((List.range ADDRMAN_NEW_BUCKET_COUNT).flatMap (writeBucket s.vvNew mapUnkIds) ++ writeBits asmapChecksum))))))))

end Serialize

/-! ## `Unserialize` -/

def CLIENT_NAME : String := "Retardio"

structure Header where
  format : Nat
  nKey : Uint256
  nNew : Int
  nTried : Int
  nUBuckets : Int

def readHeader : Stream Header := do
  let format ← readdata 1
  let compat ← readdata 1
  if compat < INCOMPATIBILITY_BASE then
    throw ("Corrupted addrman database: The compat value (" ++ toString compat ++
      ") is lower than the expected minimum value " ++ toString INCOMPATIBILITY_BASE ++ ".")
  else if compat - INCOMPATIBILITY_BASE > FILE_FORMAT then
    throw ("Unsupported format of addrman database: " ++ toString format ++ ". It is compatible with formats >=" ++
      toString (compat - INCOMPATIBILITY_BASE) ++ ", but the maximum supported by this version of " ++
        CLIENT_NAME ++ " is " ++
      toString FILE_FORMAT ++ ".")
  else do
    let nKey ← readBits 256
    let nNew ← readInt 32
    let nTried ← readInt 32
    let nUBuckets ← readBits 32
    let nUBuckets := (if format ≥ V1_DETERMINISTIC then nUBuckets ^^^ (1#32 <<< 30) else nUBuckets).toInt
    if nNew > ADDRMAN_NEW_BUCKET_COUNT * ADDRMAN_BUCKET_SIZE ∨ nNew < 0 then
      throw ("Corrupt AddrMan serialization: nNew=" ++ toString nNew ++ ", should be in [0, " ++
        toString (ADDRMAN_NEW_BUCKET_COUNT * ADDRMAN_BUCKET_SIZE) ++ "]")
    else if nTried > ADDRMAN_TRIED_BUCKET_COUNT * ADDRMAN_BUCKET_SIZE ∨ nTried < 0 then
      throw ("Corrupt AddrMan serialization: nTried=" ++ toString nTried ++ ", should be in [0, " ++
        toString (ADDRMAN_TRIED_BUCKET_COUNT * ADDRMAN_BUCKET_SIZE) ++ "]")
    else return { format, nKey, nNew, nTried, nUBuckets }

/-- The entries of one bucket, up to those without a new entry. -/
def readEntries (nNew : Int) (bucket : Nat) : Nat → Stream (List (Nat × Nat))
  | 0 => return []
  | left + 1 => do
    let entry_index ← readInt 32
    let rest ← readEntries nNew bucket left
    return if 0 ≤ entry_index ∧ entry_index < nNew then (bucket, entry_index.toNat) :: rest else rest

/-- The bucket and place of each entry, bucket by bucket. -/
def readBuckets (nNew : Int) : Nat → Nat → Stream (List (Nat × Nat))
  | 0, _ => return []
  | left + 1, bucket => do
    let num_entries ← readInt 32
    let entries ← readEntries nNew bucket num_entries.toNat
    let rest ← readBuckets nNew left (bucket + 1)
    return entries ++ rest

def readChecksum (format : Nat) : Stream Uint256 := if format ≥ V2_ASMAP then readBits 256 else return 0

/-- `vvNew[bucket][pos]` and `vvTried[bucket][pos]`. -/
def Table.slot (t : Table) (bucket_count bucket pos : Nat) : Checked (Option Nat) :=
  if bucket < bucket_count ∧ pos < ADDRMAN_BUCKET_SIZE then .ok (t bucket pos) else .error .badIterator

section Unserialize

variable [DecidableEq A] (c : Context A R) (unser : Stream (AddrInfo A R))

def loadNew : Nat → Nat → State A R → Reader Fault (State A R)
  | 0, _, s => return s
  | left + 1, n, s => do
    let info ← unser.mapError Fault.runtimeError
    loadNew left (n + 1) { s with
      mapInfo := s.mapInfo.insert n { info with nRandomPos := s.vRandom.length }
      mapAddr := s.mapAddr.insert info.addr n
      vRandom := s.vRandom ++ [n]
      m_network_counts := addNew s.m_network_counts (c.network info.addr) 1 }

/-- A tried entry in its slot, when free. Else it counts as lost. -/
def loadEntry (s : State A R) (nLost : Nat) (info : AddrInfo A R) : Checked (State A R × Nat) :=
  let nKBucket := c.getTriedBucket s.nKey info.addr
  let nKBucketPos := c.getBucketPosition s.nKey false nKBucket info.addr
  if c.isValid info.addr then do
    let slot ← s.vvTried.slot ADDRMAN_TRIED_BUCKET_COUNT nKBucket nKBucketPos
    if slot.isNone then
      return ({ s with
        mapInfo := s.mapInfo.insert s.nIdCount { info with nRandomPos := s.vRandom.length, fInTried := true }
        mapAddr := s.mapAddr.insert info.addr s.nIdCount
        vRandom := s.vRandom ++ [s.nIdCount]
        vvTried := s.vvTried.set nKBucket nKBucketPos (some s.nIdCount)
        nIdCount := s.nIdCount + 1
        m_network_counts := addTried s.m_network_counts (c.network info.addr) 1 }, nLost)
    else return (s, nLost + 1)
  else .ok (s, nLost + 1)

def loadTried : Nat → State A R → Nat → Reader Fault (State A R × Nat)
  | 0, s, nLost => return (s, nLost)
  | left + 1, s, nLost => do
    let info ← unser.mapError Fault.runtimeError
    let (s, nLost) ← Reader.lift (loadEntry c s nLost info)
    loadTried left s nLost

def fillSlot (s : State A R) (bucket bucket_position entry_index : Nat) : State A R :=
  let s := s.modify entry_index fun info => { info with nRefCount := info.nRefCount + 1 }
  { s with vvNew := s.vvNew.set bucket bucket_position (some entry_index) }

/-- `restore_bucketing && vvNew[bucket][bucket_position] == -1`. -/
def canRestore (restore_bucketing : Bool) (vvNew : Table) (bucket bucket_position : Nat) : Checked Bool :=
  if restore_bucketing then do
    let slot ← vvNew.slot ADDRMAN_NEW_BUCKET_COUNT bucket bucket_position
    return slot.isNone
  else .ok false

/-- The new entry goes where it was, or where its source says. -/
def restoreEntry (restore_bucketing : Bool) (s : State A R) (bucket_entry : Nat × Nat) : Checked (State A R) := do
  let bucket := bucket_entry.1
  let entry_index := bucket_entry.2
  let info ← s.infoAt entry_index
  if !c.isValid info.addr then return s
  else if info.nRefCount ≥ ADDRMAN_NEW_BUCKETS_PER_ADDRESS then return s
  else do
    let bucket_position := c.getBucketPosition s.nKey true bucket info.addr
    if ← canRestore restore_bucketing s.vvNew bucket
      bucket_position then return fillSlot s bucket bucket_position entry_index
    else do
      let bucket := c.getNewBucket s.nKey info.addr info.source
      let bucket_position := c.getBucketPosition s.nKey true bucket info.addr
      let slot ← s.vvNew.slot ADDRMAN_NEW_BUCKET_COUNT bucket bucket_position
      if slot.isNone then return fillSlot s bucket bucket_position entry_index else return s

def pruneEntry (s : State A R) (id : Nat) : Checked (State A R) := do
  let info ← s.infoAt id
  if info.fInTried = false ∧ info.nRefCount = 0 then delete c s id else return s

def rebuild (order : MapOrder A R) (restore_bucketing : Bool) (bucket_entries : List (Nat × Nat))
    (s : State A R) : Checked (State A R) := do
  let s ← bucket_entries.foldlM (restoreEntry c restore_bucketing) s
  let s ← ((order.entries s.mapInfo).map Sigma.fst).foldlM (pruneEntry c) s
  let check_code := checkAddrman c s
  if check_code ≠ 0 then .error (.runtimeError ("Corrupt data. Consistency check failed with code " ++
    toString check_code)) else .ok s

def unserialize (unser : Encoding → Stream (AddrInfo A R)) (asmapChecksum : Uint256) (order : MapOrder A R)
    (s : State A R) : Reader Fault (State A R) := do
  Reader.lift (check s.vRandom.isEmpty)
  let h ← readHeader.mapError Fault.runtimeError
  let enc := if h.format ≥ V3_BIP155 then Encoding.V2 else Encoding.V1
  let s := { s with nKey := h.nKey, nNew := h.nNew, nTried := h.nTried }
  let s ← loadNew c (unser enc) h.nNew.toNat 0 s
  let (s, nLost) ← loadTried c (unser enc) h.nTried.toNat { s with nIdCount := h.nNew.toNat } 0
  let bucket_entries ← (readBuckets h.nNew h.nUBuckets.toNat 0).mapError Fault.runtimeError
  let serialized_asmap_checksum ← (readChecksum h.format).mapError Fault.runtimeError
  let restore_bucketing := h.nUBuckets = ADDRMAN_NEW_BUCKET_COUNT && serialized_asmap_checksum = asmapChecksum
  Reader.lift (rebuild c order restore_bucketing bucket_entries { s with nTried := s.nTried - nLost })

end Unserialize

end FullNode.AddrMan

import FullNode.AddrMan
import FullNode.Wire

/-! # Network addresses -/

namespace FullNode.AddrMan

open Wire List Reader

def IPV4_IN_IPV6_PREFIX : List UInt8 := [0x00, 0x00, 0x00, 0x00, 0x00, 0x00, 0x00, 0x00, 0x00, 0x00, 0xFF, 0xFF]
def TORV2_IN_IPV6_PREFIX : List UInt8 := [0xFD, 0x87, 0xD8, 0x7E, 0xEB, 0x43]
def INTERNAL_IN_IPV6_PREFIX : List UInt8 := [0xFD, 0x6B, 0x88, 0xC0, 0x87, 0x24]
def CJDNS_PREFIX : UInt8 := 0xFC
def ADDR_IPV6_SIZE : Nat := 16
def ADDR_INTERNAL_SIZE : Nat := 10
def MAX_ADDRV2_SIZE : Nat := 512

def Network.addrSize : Network → Nat
  | .unroutable => 0
  | .ipv4 => 4
  | .ipv6 => ADDR_IPV6_SIZE
  | .onion => 32
  | .i2p => 32
  | .cjdns => 16
  | .internal => ADDR_INTERNAL_SIZE

def embedded (bytes : List UInt8) : Bool :=
  IPV4_IN_IPV6_PREFIX.isPrefixOf bytes || TORV2_IN_IPV6_PREFIX.isPrefixOf bytes ||
    INTERNAL_IN_IPV6_PREFIX.isPrefixOf bytes

/-- The size of its network, and no other kind inside v6. -/
structure CNetAddr where
  m_net : Network
  m_addr : List UInt8
  net_ne : m_net ≠ .unroutable
  size_eq : m_addr.length = m_net.addrSize
  plain : m_net = .ipv6 → embedded m_addr = false
  deriving DecidableEq

def CNetAddr.unspecified : CNetAddr := ⟨.ipv6, List.replicate ADDR_IPV6_SIZE 0, nofun, rfl, by decide⟩

structure CService extends CNetAddr where
  port : BitVec 16
  deriving DecidableEq

/-! ## Kinds of addresses -/

namespace CNetAddr

variable (a : CNetAddr)

def isIPv4 : Bool := a.m_net = .ipv4
def isIPv6 : Bool := a.m_net = .ipv6
def isCJDNS : Bool := a.m_net = .cjdns
def isInternal : Bool := a.m_net = .internal

def byte (i : Nat) : Nat := (a.m_addr.getD i 0).toNat

def startsWith (bytes : List UInt8) : Bool := bytes.isPrefixOf a.m_addr

def isRFC1918 : Bool :=
  a.isIPv4 && (a.byte 0 = 10 || (a.byte 0 = 192 && a.byte 1 = 168) || (a.byte 0 = 172 && a.byte 1 ≥
    16 && a.byte 1 ≤ 31))

def isRFC2544 : Bool := a.isIPv4 && a.byte 0 = 198 && (a.byte 1 = 18 || a.byte 1 = 19)

def isRFC3927 : Bool := a.isIPv4 && a.startsWith [169, 254]

def isRFC6598 : Bool := a.isIPv4 && a.byte 0 = 100 && a.byte 1 ≥ 64 && a.byte 1 ≤ 127

def isRFC5737 : Bool := a.isIPv4 &&
    (a.startsWith [192, 0, 2] || a.startsWith [198, 51, 100] || a.startsWith [203, 0, 113])

def isRFC3849 : Bool := a.isIPv6 && a.startsWith [0x20, 0x01, 0x0D, 0xB8]

def isRFC3964 : Bool := a.isIPv6 && a.startsWith [0x20, 0x02]

def isRFC6052 : Bool :=
  a.isIPv6 && a.startsWith [0x00, 0x64, 0xFF, 0x9B, 0x00, 0x00, 0x00, 0x00, 0x00, 0x00, 0x00, 0x00]

def isRFC4380 : Bool := a.isIPv6 && a.startsWith [0x20, 0x01, 0x00, 0x00]

def isRFC4862 : Bool := a.isIPv6 && a.startsWith [0xFE, 0x80, 0x00, 0x00, 0x00, 0x00, 0x00, 0x00]

def isRFC4193 : Bool := a.isIPv6 && a.byte 0 &&& 0xFE = 0xFC

def isRFC6145 : Bool :=
  a.isIPv6 && a.startsWith [0x00, 0x00, 0x00, 0x00, 0x00, 0x00, 0x00, 0x00, 0xFF, 0xFF, 0x00, 0x00]

def isRFC4843 : Bool := a.isIPv6 && a.startsWith [0x20, 0x01, 0x00] && a.byte 3 &&& 0xF0 = 0x10

def isRFC7343 : Bool := a.isIPv6 && a.startsWith [0x20, 0x01, 0x00] && a.byte 3 &&& 0xF0 = 0x20

def isLocal : Bool :=
  if a.isIPv4 && (a.byte 0 = 127 || a.byte 0 = 0) then true
  else if a.isIPv6 && a.m_addr = [0, 0, 0, 0, 0, 0, 0, 0, 0, 0, 0, 0, 0, 0, 0, 1] then true
  else false

def isValid : Bool :=
  if a.isIPv6 && a.m_addr = List.replicate 16 0 then false
  else if a.isCJDNS && a.m_addr.head? ≠ some CJDNS_PREFIX then false
  else if a.isRFC3849 then false
  else if a.isInternal then false
  else if a.isIPv4 && (leValue a.m_addr.reverse = 0 || leValue a.m_addr.reverse = 0xffffffff) then false
  else true

def isRoutable : Bool :=
  a.isValid && !(a.isRFC1918 || a.isRFC2544 || a.isRFC3927 || a.isRFC4862 || a.isRFC6598 || a.isRFC5737 ||
    a.isRFC4193 || a.isRFC4843 || a.isRFC7343 || a.isLocal || a.isInternal)

def getNetwork : Network := if a.isInternal then .internal else if !a.isRoutable then .unroutable else a.m_net

def hasLinkedIPv4 : Bool := a.isRoutable && (a.isIPv4 || a.isRFC6145 || a.isRFC6052 || a.isRFC3964 || a.isRFC4380)

def getNetClass : Network :=
  if a.isInternal then .internal
  else if !a.isRoutable then .unroutable
  else if a.hasLinkedIPv4 then .ipv4
  else a.m_net

variable {a : CNetAddr} {net : Network}

theorem isValid_of_isRoutable (h : a.isRoutable) : a.isValid := by
  unfold isRoutable at h
  rw [Bool.and_eq_true] at h
  exact h.1

/-! ## The first format -/

def serializeV1Array : List UInt8 :=
  match a.m_net with
  | .ipv6 => a.m_addr
  | .ipv4 => IPV4_IN_IPV6_PREFIX ++ a.m_addr
  | .internal => INTERNAL_IN_IPV6_PREFIX ++ a.m_addr
  -- the networks that do not fit, and the one no address has
  | .onion | .i2p | .cjdns | .unroutable => List.replicate 16 0

def setLegacyIPv6 (ipv6 : List UInt8) (hsize : ipv6.length = ADDR_IPV6_SIZE) : CNetAddr :=
  if hv4 : IPV4_IN_IPV6_PREFIX.isPrefixOf ipv6 then ⟨.ipv4, ipv6.drop 12,
    nofun, by rw [List.length_drop, hsize]; rfl, nofun⟩
  else if htor : TORV2_IN_IPV6_PREFIX.isPrefixOf ipv6 then unspecified
  else if hin : INTERNAL_IN_IPV6_PREFIX.isPrefixOf ipv6 then
    ⟨.internal, ipv6.drop 6, nofun, by rw [List.length_drop, hsize]; rfl, nofun⟩
  else ⟨.ipv6, ipv6, nofun, hsize, fun _ => by simp [embedded, hv4, htor, hin]⟩

def unserializeV1 : Stream CNetAddr := do
  let serialized ← Reader.takeExact endOfData ADDR_IPV6_SIZE
  return setLegacyIPv6 serialized.val serialized.property

/-! ## The second format -/

/-- The number of a network in the format, when it has one. -/
def getBIP155Network : (net : Network) → net ≠ .unroutable → net ≠ .internal → Nat
  | .ipv4, _, _ => 1
  | .ipv6, _, _ => 2
  | .onion, _, _ => 4
  | .i2p, _, _ => 5
  | .cjdns, _, _ => 6
  | .unroutable, h, _ => absurd rfl h
  | .internal, _, h => absurd rfl h

def serializeV2 : List UInt8 :=
  if h : a.m_net = .internal then leBytes 1 2 ++ (writeCompactSize ADDR_IPV6_SIZE ++ a.serializeV1Array)
  else leBytes 1 (getBIP155Network a.m_net a.net_ne h) ++ writeByteVector a.m_addr

structure Sized (address_size : Nat) where
  net : Network
  net_ne : net ≠ .unroutable
  size_eq : address_size = net.addrSize

def sized (name : String) (net : Network) (hnet : net ≠ .unroutable)
    (address_size : Nat) : Stream (Option (Sized address_size)) :=
  if h : address_size = net.addrSize then return some ⟨net, hnet, h⟩
  else throw ("BIP155 " ++ name ++ " address with length " ++ toString address_size ++ " (should be " ++
    toString net.addrSize ++ ")")

def setNetFromBIP155Network (possible_bip155_net address_size : Nat) : Stream (Option (Sized address_size)) :=
  match possible_bip155_net with
  | 1 => sized "IPv4" .ipv4 nofun address_size
  | 2 => sized "IPv6" .ipv6 nofun address_size
  | 4 => sized "TORv3" .onion nofun address_size
  | 5 => sized "I2P" .i2p nofun address_size
  | 6 => sized "CJDNS" .cjdns nofun address_size
  | _ => return none

def checkIPv6 (net : Network) (m_addr : List UInt8) (hnet : net ≠ .unroutable)
    (hsize : m_addr.length = net.addrSize) : CNetAddr :=
  if h6 : net ≠ .ipv6 then ⟨net, m_addr, hnet, hsize, fun h => absurd h h6⟩
  else if hin : INTERNAL_IN_IPV6_PREFIX.isPrefixOf m_addr then
    ⟨.internal, m_addr.drop 6, nofun, by rw [List.length_drop, hsize, not_not.mp h6]; rfl, nofun⟩
  else if h : !IPV4_IN_IPV6_PREFIX.isPrefixOf m_addr && !TORV2_IN_IPV6_PREFIX.isPrefixOf m_addr then
    ⟨net, m_addr, hnet, hsize, fun _ => by
      rw [Bool.and_eq_true, Bool.not_eq_true', Bool.not_eq_true'] at h
      simp [embedded, h.1, h.2, hin]⟩
  else unspecified

def endOfIgnored : Failure := "DataStream::ignore(): end of data"

def unserializeV2 : Stream CNetAddr := do
  let bip155_net ← readdata 1
  let address_size ← readCompactSize
  if address_size > MAX_ADDRV2_SIZE then
    throw ("Address too long: " ++ toString address_size ++ " > " ++ toString MAX_ADDRV2_SIZE)
  else do
    match ← setNetFromBIP155Network bip155_net address_size with
    | some sized => do
      let m_addr ← Reader.takeExact endOfData address_size
      return checkIPv6 sized.net m_addr.val sized.net_ne (m_addr.property.trans sized.size_eq)
    | none => do
      let _ ← Reader.take endOfIgnored address_size
      return unspecified

/-! ## What is read back -/

theorem checkIPv6_self (a : CNetAddr) (hnet : a.m_net ≠ .unroutable) (hsize : a.m_addr.length = a.m_net.addrSize) :
    checkIPv6 a.m_net a.m_addr hnet hsize = a := by
  unfold checkIPv6
  by_cases h6 : a.m_net = .ipv6
  · have hplain := a.plain h6
    unfold embedded at hplain
    rw [Bool.or_eq_false_iff, Bool.or_eq_false_iff] at hplain
    rw [dif_neg (not_not.mpr h6), dif_neg (by rw [hplain.2]; nofun), dif_pos (by rw [hplain.1.1, hplain.1.2]; rfl)]
  · rw [dif_pos h6]

theorem checkIPv6_internal (h : a.m_net = .internal)
    (hsize : (INTERNAL_IN_IPV6_PREFIX ++ a.m_addr).length = ADDR_IPV6_SIZE) :
    checkIPv6 .ipv6 (INTERNAL_IN_IPV6_PREFIX ++ a.m_addr) nofun hsize = a := by
  obtain ⟨m_net, m_addr, _, _, _⟩ := a
  subst h
  have hmark : INTERNAL_IN_IPV6_PREFIX.isPrefixOf (INTERNAL_IN_IPV6_PREFIX ++ m_addr) = true := by simp
  unfold checkIPv6
  rw [dif_neg (not_not.mpr rfl), dif_pos hmark]
  rfl

theorem sized_run (name : String) (hnet : net ≠ .unroutable) {address_size : Nat} (h : address_size = net.addrSize)
    (bytes : List UInt8) : (sized name net hnet address_size).run bytes = .ok (some ⟨net, hnet, h⟩, bytes) := by
  unfold sized
  rw [dif_pos h]
  rfl

theorem setNet_run (a : CNetAddr) (h : a.m_net ≠ .internal) (bytes : List UInt8) :
    (setNetFromBIP155Network (getBIP155Network a.m_net a.net_ne h) a.m_addr.length).run bytes =
      .ok (some ⟨a.m_net, a.net_ne, a.size_eq⟩, bytes) := by
  obtain ⟨m_net, m_addr, hnet, hsize, -⟩ := a
  cases m_net
  case unroutable => exact absurd rfl hnet
  case internal => exact absurd rfl h
  all_goals exact sized_run _ hnet hsize bytes

theorem getBIP155Network_lt (hnet : net ≠ .unroutable) (h : net ≠ .internal) : getBIP155Network net hnet h < 256 := by
  cases net
  case unroutable => exact absurd rfl hnet
  case internal => exact absurd rfl h
  all_goals simp [getBIP155Network]

theorem unserializeV2_serializeV2 (a : CNetAddr) (rest : List UInt8) :
    unserializeV2.run (a.serializeV2 ++ rest) = .ok (a, rest) := by
  have hbyte : ∀ n, n < 256 → ∀ bytes, (readdata 1).run (leBytes 1 n ++ bytes) = .ok (n, bytes) :=
    fun n hn => (IsCanonical.le endOfData 1).unser_ser hn
  have hlength : ∀ n, n ≤ MAX_SIZE → ∀ bytes, readCompactSize.run (writeCompactSize n ++ bytes) = .ok (n, bytes) :=
    fun n hn => writeCompactSize_canonical.unser_ser hn
  unfold unserializeV2 serializeV2
  by_cases h : a.m_net = .internal
  · have harray : a.serializeV1Array = INTERNAL_IN_IPV6_PREFIX ++ a.m_addr := by
      unfold serializeV1Array
      rw [h]
    have hsize : (INTERNAL_IN_IPV6_PREFIX ++ a.m_addr).length = ADDR_IPV6_SIZE := by
      rw [length_append, a.size_eq, h]
      rfl
    have hnet : ∀ bytes, (setNetFromBIP155Network 2 ADDR_IPV6_SIZE).run bytes = .ok (some ⟨.ipv6, nofun, rfl⟩, bytes) :=
      sized_run "IPv6" (show Network.ipv6 ≠ .unroutable from nofun) rfl
    rw [dif_pos h, harray, append_assoc, append_assoc, run_bind_of_ok (hbyte 2 (by decide) _),
      run_bind_of_ok (hlength ADDR_IPV6_SIZE (by decide) _), if_neg (by decide), run_bind_of_ok (hnet _)]
    simp only
    rw [run_bind_of_ok (takeExact_run endOfData hsize rest), run_pure, checkIPv6_internal h hsize]
  · have hsmall : a.m_addr.length ≤ 32 := by
      rw [a.size_eq]
      cases a.m_net <;> decide
    have hmax : MAX_ADDRV2_SIZE = 512 := rfl
    have hbound : MAX_SIZE = 0x02000000 := rfl
    unfold writeByteVector
    rw [dif_neg h, append_assoc, append_assoc, run_bind_of_ok (hbyte _ (getBIP155Network_lt _ h) _),
      run_bind_of_ok (hlength _ (by omega) _), if_neg (by omega), run_bind_of_ok (setNet_run a h _)]
    simp only
    rw [run_bind_of_ok (takeExact_run endOfData rfl rest), run_pure, checkIPv6_self]

/-- An address reads back from its BIP155 form, and no other does. -/
theorem serializeV2_unambiguous (a : CNetAddr) (rest : List UInt8) :
    unserializeV2.run (a.serializeV2 ++ rest) = .ok (a, rest) ∧
    ∀ b rest', b.serializeV2 ++ rest' = a.serializeV2 ++ rest → b = a ∧ rest' = rest := by
  refine ⟨unserializeV2_serializeV2 a rest, fun b rest' hsame => ?_⟩
  have hread := unserializeV2_serializeV2 b rest'
  rw [hsame, unserializeV2_serializeV2] at hread
  cases hread
  exact ⟨rfl, rfl⟩

end CNetAddr

end FullNode.AddrMan

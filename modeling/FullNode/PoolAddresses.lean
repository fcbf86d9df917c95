import FullNode.PoolCommitments
import FullNode.PoolSessions
import FullNode.WalletBase58
import FullNode.WalletHex
import Mathlib.Data.List.DropRight

/-! # Addresses of the pool -/

namespace FullNode.Pool

open List Option
open Base58 (CTxDestination Spells checksum decodeBase58Check decodeBase58Psz decodeBase58Psz_eq decodeDestination
  encodeBase58Check mainAddressParams mapBase58 startsWith)
open Radix
open Wallet (utf8 utf8_cons utf8EncodeChar_ascii)
open Wire (writeBits)

/-! ## The code -/

/-- The white space of `str.strip`. -/
def isWhitespace (c : Char) : Bool :=
  let n := c.toNat
  (0x09 ≤ n && n ≤ 0x0d) || (0x1c ≤ n && n ≤ 0x20) || n == 0x85 || n == 0xa0 || n == 0x1680 ||
    (0x2000 ≤ n && n ≤ 0x200a) || n == 0x2028 || n == 0x2029 || n == 0x202f || n == 0x205f || n == 0x3000

def strip (text : List Char) : List Char := (text.dropWhile isWhitespace).rdropWhile isWhitespace

section

variable (hash : List UInt8 → Uint256)

/-- `decode_address` with its version byte. -/
def decodeVersioned (address : String) : Option (UInt8 × List UInt8) := do
  let n ← base58Value address.toList 0
  guard (n < 256 ^ 25)
  let data := (leBytes 25 n).reverse
  let payload := data.take 21
  guard (data.drop 21 = checksum hash payload)
  return (payload.headD 0, payload.drop 1)

def p2pkhOutput (amountSatoshis : Uint64) (pubkeyHash : List UInt8) : List UInt8 :=
  let script := [0x76, 0xa9, 0x14] ++ pubkeyHash ++ [0x88, 0xac]
  writeBits amountSatoshis ++ leBytes 1 script.length ++ script

def createOutput (amountSatoshis : Uint64) (address : String) : Option (List UInt8) :=
  (decodeVersioned hash address).map fun decoded => p2pkhOutput amountSatoshis decoded.2

def addressIn (workerName : String) : Option String :=
  let address := strip ((workerName.toList.takeWhile (· ≠ '.')).takeWhile (· ≠ '/'))
  if address.head? ≠ some 'F' ∨ address.length < 25 ∨ address.length > 36 then none
  else if address.any fun c => !ALPHABET.contains c then none
  else if (decodeVersioned hash (String.ofList address)).isNone then none
  else some (String.ofList address)

/-- A number and a list have no `split`. -/
def extractMinerAddress (workerName : WorkerName) : Except String (Option String) :=
  if workerName.truthy then
    match workerName with
    | .str name => .ok (addressIn hash name)
    | _ => .error "AttributeError"
  else .ok none

end

def hash256 (data : List UInt8) : Uint256 := ofBytes (sha256d data)

/-! ## Texts and bytes -/

variable {chars : List Char} {digits : List Nat} {hash : List UInt8 → Uint256} {address : String}
  {pubkeyHash str : List UInt8}

theorem base58Value_some {n value : Nat} (h : base58Value chars n = some value) :
    ∃ digits, Forall₂ (fun c digit => ALPHABET.idxOf? c = some digit) chars digits ∧ value = read 58 n digits := by
  induction chars generalizing n with
  | nil =>
    rw [base58Value, Option.some.injEq] at h
    exact ⟨[], .nil, h.symm⟩
  | cons c chars ih =>
    obtain ⟨digit, hdigit, h⟩ := bind_eq_some_iff.mp h
    obtain ⟨digits, hdigits, hvalue⟩ := ih h
    refine ⟨digit :: digits, .cons hdigit hdigits, ?_⟩
    rw [hvalue, Radix.read, Nat.mul_comm]

theorem mapBase58_of_alphabet {c : Char} {digit : Nat} (h : ALPHABET.idxOf? c = some digit) :
    c.toNat < 128 ∧ mapBase58.getD (UInt8.ofNat c.toNat).toNat (-1) = (digit : Int) := by
  have hall : ∀ entry ∈ ALPHABET.zipIdx,
      entry.1.toNat < 128 ∧ mapBase58.getD (UInt8.ofNat entry.1.toNat).toNat (-1) = (entry.2 : Int) := by decide
  obtain ⟨hlt, hchar, -⟩ := findIdx?_eq_some_iff_getElem.mp h
  have hentry : ALPHABET[digit]? = some c := by
    rw [getElem?_eq_getElem hlt, beq_iff_eq.mp hchar]
  exact hall (c, digit) (mem_zipIdx_iff_getElem?.mpr hentry)

theorem spells_of_alphabet (h : Forall₂ (fun c digit => ALPHABET.idxOf? c = some digit) chars digits) :
    Spells (utf8 chars) digits := by
  induction h with
  | nil => exact .nil
  | cons hc hrest ih =>
    obtain ⟨hascii, hplace⟩ := mapBase58_of_alphabet hc
    rw [utf8_cons, utf8EncodeChar_ascii hascii]
    exact .cons hplace ih

theorem decodeVersioned_some {version : UInt8} (h : decodeVersioned hash address = some (version, pubkeyHash)) :
    ∃ digits, Spells (utf8 address.toList) digits ∧ base58Value address.toList 0 = some (read 58 0 digits) ∧
      read 58 0 digits < 256 ^ 25 ∧
      (leBytes 25 (read 58 0 digits)).reverse.drop 21 = checksum hash
      ((leBytes 25 (read 58 0 digits)).reverse.take 21) ∧
      pubkeyHash = ((leBytes 25 (read 58 0 digits)).reverse.take 21).drop 1 := by
  obtain ⟨_, hn, h⟩ := bind_eq_some_iff.mp h
  obtain ⟨digits, hdigits, rfl⟩ := base58Value_some hn
  obtain ⟨_, hlt, h⟩ := bind_eq_some_iff.mp h
  obtain ⟨_, hsum, h⟩ := bind_eq_some_iff.mp h
  obtain ⟨-, rfl⟩ := Prod.mk.inj (some.inj h)
  exact ⟨digits, spells_of_alphabet hdigits, hn, (guard_eq_some' _).mp hlt, (guard_eq_some' _).mp hsum, rfl⟩

theorem addressIn_some {workerName : String} (h : addressIn hash workerName = some address) :
    address.toList.head? = some 'F' ∧ ∃ decoded, decodeVersioned hash address = some decoded := by
  unfold addressIn at h
  simp only at h
  split at h
  · cases h
  · next hshape =>
    split at h
    · cases h
    · split at h
      · cases h
      · next hdecoded =>
        obtain rfl := some.inj h
        simp only [not_or, not_not] at hshape
        exact ⟨by rw [String.toList_ofList]; exact hshape.1,
          by simpa [isNone_iff_eq_none, ne_none_iff_exists'] using hdecoded⟩

/-! ## The node -/

theorem leBytes_eq_digits {k n : Nat} (h : (Nat.digits 256 n).length = k) :
    leBytes k n = (Nat.digits 256 n).map UInt8.ofNat := by
  induction k generalizing n with
  | zero =>
    rw [length_eq_zero_iff] at h
    rw [h]
    rfl
  | succ k ih =>
    have hpos : 0 < n := by
      by_contra hzero
      obtain rfl : n = 0 := by omega
      simp at h
    rw [length_digits_pos (by norm_num) hpos] at h
    rw [Nat.digits_def' (by norm_num) hpos, map_cons, leBytes, ih (by omega)]

theorem not_segwit (hhead : str.head? = some 0x46) :
    (str.take mainAddressParams.bech32Hrp.length).map Base58.toLower ≠ mainAddressParams.bech32Hrp := by
  cases str with
  | nil => cases hhead
  | cons c rest =>
    obtain rfl := some.inj hhead
    intro heq
    exact absurd (cons.inj heq).1 (by decide)

theorem decodeDestination_pkHash {bech32 : List UInt8 → Except String CTxDestination} (hhead : str.head? = some 0x46)
    (h : decodeDestination hash mainAddressParams bech32 str = .ok (.ok (.pkHash pubkeyHash))) :
    ∃ data, decodeBase58Check hash str 21 = .ok (some data) ∧ data.length = 21 ∧ data.head? = some 35 := by
  unfold decodeDestination at h
  rw [if_neg (not_segwit hhead)] at h
  obtain ⟨found, hfound, h⟩ := bind_ok.mp h
  cases found with
  | none =>
    obtain ⟨other, -, h⟩ := bind_ok.mp h
    cases other <;> cases h
  | some data =>
    simp only at h
    split at h
    · next hpubkey =>
      refine ⟨data, hfound, hpubkey.1, ?_⟩
      obtain ⟨-, hstart⟩ := hpubkey
      cases data with
      | nil => cases hstart
      | cons b data =>
        have hb : b = 35 := by simpa [startsWith, mainAddressParams] using hstart
        rw [hb]
        rfl
    · split at h
      · cases h
      · split at h <;> cases h

theorem decodeBase58Check_some {data : List UInt8} (h : decodeBase58Check hash str 21 = .ok (some data)) :
    ∃ vch, decodeBase58Psz str 25 = .ok (some vch) ∧ 4 ≤ vch.length ∧ data = vch.take (vch.length - 4) := by
  unfold decodeBase58Check at h
  split at h
  · cases h
  · rw [if_neg (by decide)] at h
    obtain ⟨found, hfound, h⟩ := bind_ok.mp h
    cases found with
    | none => cases h
    | some vch =>
      simp only at h
      split at h
      · cases h
      · next hlong =>
        split at h
        · cases h
        · exact ⟨vch, hfound, by omega, (some.inj (Except.ok.inj h)).symm⟩

theorem head_bytes (n : Nat) : ((leBytes 25 n).reverse.take 21).head? = some (UInt8.ofNat (n / 256 ^ 24 % 256)) := by
  rw [leBytes_succ_last, reverse_append]
  rfl

theorem decodeDestination_iff (bech32 : List UInt8 → Except String CTxDestination)
    (hhead : str.head? = some 0x46) (hspells : Spells str digits)
    (hlt : read 58 0 digits < 256 ^ 25)
    (hsum : (leBytes 25 (read 58 0 digits)).reverse.drop 21 =
      checksum hash ((leBytes 25 (read 58 0 digits)).reverse.take 21)) :
    decodeDestination hash mainAddressParams bech32 str =
      .ok (.ok (.pkHash (((leBytes 25 (read 58 0 digits)).reverse.take 21).drop 1))) ↔
      read 58 0 digits / 256 ^ 24 = 35 := by
  have hshort : (Nat.digits 256 (read 58 0 digits)).length ≤ 25 := (Nat.digits_length_le_iff (by norm_num) _).mpr hlt
  have hpsz := decodeBase58Psz_eq hspells (by rw [hhead]; decide) 25
  rw [if_pos hshort] at hpsz
  have hversion : read 58 0 digits / 256 ^ 24 < 256 := by
    rw [Nat.div_lt_iff_lt_mul (by positivity)]
    exact hlt
  constructor
  · intro h
    obtain ⟨_, hdata, hlength, h35⟩ := decodeDestination_pkHash hhead h
    obtain ⟨_, hvch, hfour, rfl⟩ := decodeBase58Check_some hdata
    rw [hpsz] at hvch
    obtain rfl := some.inj (Except.ok.inj hvch)
    rw [length_take, length_map, length_reverse] at hlength
    have hfull : (Nat.digits 256 (read 58 0 digits)).length = 25 := by
      simp only [length_map, length_reverse] at hfour
      omega
    rw [map_reverse, ← leBytes_eq_digits hfull, length_reverse, leBytes_length, head_bytes] at h35
    have hbyte := congrArg UInt8.toNat (some.inj h35)
    rw [UInt8.toNat_ofNat', Nat.mod_mod, Nat.mod_eq_of_lt hversion] at hbyte
    exact hbyte
  · intro h35
    have hfull : (Nat.digits 256 (read 58 0 digits)).length = 25 := by
      have hlong : 24 < (Nat.digits 256 (read 58 0 digits)).length := by
        rw [Nat.lt_digits_length_iff (by norm_num)]
        by_contra hsmall
        rw [Nat.div_eq_of_lt (by omega)] at h35
        omega
      omega
    rw [map_reverse, ← leBytes_eq_digits hfull] at hpsz
    have hcheck : decodeBase58Check hash str 21 = .ok (some ((leBytes 25 (read 58 0 digits)).reverse.take 21)) := by
      unfold decodeBase58Check
      rw [hspells.no_zero, if_neg (by decide), if_neg (by decide), hpsz]
      simp only [ok_bind, length_reverse, leBytes_length]
      rw [if_neg (by decide), if_neg (by rw [hsum, not_not])]
      rfl
    have hhead35 := head_bytes (read 58 0 digits)
    rw [h35] at hhead35
    have hlength : ((leBytes 25 (read 58 0 digits)).reverse.take 21).length = 21 := by
      rw [length_take, length_reverse, leBytes_length]
      rfl
    have hstart : startsWith ((leBytes 25 (read 58 0 digits)).reverse.take 21) mainAddressParams.pubkeyAddress =
        true := by
      cases hpayload : (leBytes 25 (read 58 0 digits)).reverse.take 21 with
      | nil =>
        rw [hpayload] at hhead35
        cases hhead35
      | cons b payload =>
        rw [hpayload] at hhead35
        obtain rfl := some.inj hhead35
        simp [startsWith, mainAddressParams]
    unfold decodeDestination
    rw [if_neg (not_segwit hhead), hcheck]
    simp only [ok_bind]
    rw [if_pos ⟨hlength, hstart⟩]
    rfl

/-! ## Agreement -/

theorem extractMinerAddress_some {workerName : WorkerName}
    (h : extractMinerAddress hash workerName = .ok (some address)) : ∃ name, addressIn hash name = some address := by
  unfold extractMinerAddress at h
  split at h
  · split at h
    · next name _ => exact ⟨name, Except.ok.inj h⟩
    · cases h
  · cases h

/-- The wallet writes addresses as the node, which reads the pool's as its key hash exactly at version byte 35. -/
theorem addresses_agree_iff (hash : List UInt8 → Uint256) :
    (∀ payload : List UInt8, payload.length = 21 → payload.head? = some 35 →
    encodeBase58Check hash payload = .ok (Wallet.base58Encode (payload ++ checksum hash payload))) ∧
    (∀ (bech32 : List UInt8 → Except String CTxDestination) (workerName : WorkerName) (address : String)
      (amount : Uint64), extractMinerAddress hash workerName = .ok (some address) →
        ∃ pubkeyHash n, pubkeyHash.length = 20 ∧
          createOutput hash amount address = some (p2pkhOutput amount pubkeyHash) ∧
          base58Value address.toList 0 = some n ∧
          (decodeDestination hash mainAddressParams bech32 (utf8 address.toList) = .ok (.ok (.pkHash pubkeyHash)) ↔
            n / 256 ^ 24 = 35)) := by
  constructor
  · intro payload _ _
    exact Wallet.encodeBase58_eq_base58Encode _
  · intro bech32 workerName address amount hextract
    obtain ⟨_, hname⟩ := extractMinerAddress_some hextract
    obtain ⟨hF, ⟨_, pubkeyHash⟩, hdecoded⟩ := addressIn_some hname
    obtain ⟨_, hspells, hvalue, hlt, hsum, rfl⟩ := decodeVersioned_some hdecoded
    have hhead : (utf8 address.toList).head? = some 0x46 := by
      cases hchars : address.toList with
      | nil => rw [hchars] at hF; cases hF
      | cons c chars =>
        rw [hchars] at hF
        obtain rfl := some.inj hF
        rfl
    refine ⟨_, _, ?_, ?_, hvalue, decodeDestination_iff bech32 hhead hspells hlt hsum⟩
    · rw [length_drop, length_take, length_reverse, leBytes_length]
      rfl
    · unfold createOutput
      rw [hdecoded]
      rfl

/-- The pool takes version byte 36, and the node does not. -/
theorem version36_not_decoded : extractMinerAddress hash256 (.str "FVosbXcZwKjZ9wMuHLrMuzHxcyhwCz2RX3.rig1") =
      .ok (some "FVosbXcZwKjZ9wMuHLrMuzHxcyhwCz2RX3") ∧
    ∀ bech32, decodeDestination hash256 mainAddressParams bech32 (utf8 "FVosbXcZwKjZ9wMuHLrMuzHxcyhwCz2RX3".toList) =
      .ok (.error "Invalid or unsupported Base58-encoded address.") := by
  constructor
  · decide +kernel
  · intro bech32
    have hdata : decodeBase58Check hash256 (utf8 "FVosbXcZwKjZ9wMuHLrMuzHxcyhwCz2RX3".toList) 21 =
        .ok (some (36 :: replicate 20 7)) := by decide +kernel
    unfold decodeDestination
    rw [if_neg (not_segwit (by decide)), hdata]
    rfl

end FullNode.Pool

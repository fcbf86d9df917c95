import FullNode.Lib.Radix
import FullNode.Wire

/-!
# Base 58 in the node

The last element of an array is the first of the list here.
-/

namespace FullNode.Base58

open Radix List Nat
open Wire (writeBits)

/-! ## The code -/

def pszBase58 : List Char := "123456789ABCDEFGHJKLMNPQRSTUVWXYZabcdefghijkmnopqrstuvwxyz".toList

def mapBase58 : List Int :=
  [-1, -1, -1, -1, -1, -1, -1, -1, -1, -1, -1, -1, -1, -1, -1, -1, -1, -1, -1, -1, -1, -1, -1, -1, -1, -1, -1, -1,
    -1, -1, -1, -1,
  -1, -1, -1, -1, -1, -1, -1, -1, -1, -1, -1, -1, -1, -1, -1, -1, -1, 0, 1, 2, 3, 4, 5, 6, 7, 8, -1, -1, -1, -1, -1, -1,
  -1, 9, 10, 11, 12, 13, 14, 15, 16, -1, 17, 18, 19, 20, 21, -1, 22, 23, 24, 25, 26, 27, 28, 29, 30, 31, 32, -1,
    -1, -1, -1, -1,
  -1, 33, 34, 35, 36, 37, 38, 39, 40, 41, 42, 43, -1, 44, 45, 46, 47, 48, 49, 50, 51, 52, 53, 54, 55, 56, 57, -1,
    -1, -1, -1, -1,
  -1, -1, -1, -1, -1, -1, -1, -1, -1, -1, -1, -1, -1, -1, -1, -1, -1, -1, -1, -1, -1, -1, -1, -1, -1, -1, -1, -1,
    -1, -1, -1, -1,
  -1, -1, -1, -1, -1, -1, -1, -1, -1, -1, -1, -1, -1, -1, -1, -1, -1, -1, -1, -1, -1, -1, -1, -1, -1, -1, -1, -1,
    -1, -1, -1, -1,
  -1, -1, -1, -1, -1, -1, -1, -1, -1, -1, -1, -1, -1, -1, -1, -1, -1, -1, -1, -1, -1, -1, -1, -1, -1, -1, -1, -1,
    -1, -1, -1, -1,
  -1, -1, -1, -1, -1, -1, -1, -1, -1, -1, -1, -1, -1, -1, -1, -1, -1, -1, -1, -1, -1, -1, -1, -1, -1, -1, -1, -1,
    -1, -1, -1, -1]

def isSpace (c : UInt8) : Bool := c == 0x20 || (0x09 ≤ c && c ≤ 0x0d)

/-- The loop over the bytes, with the places of `b58` in use. -/
def encodeLoop : List UInt8 → List Nat → Nat → Checked (List Nat × Nat)
  | [], b58, length => .ok (b58, length)
  | byte :: input, b58, length => do
    let (b58, i, carry) := carryLoop 58 256 length 0 byte.toNat b58
    check (carry == 0)
    encodeLoop input b58 i

def encodeBase58 (input : List UInt8) : Checked (List Char) := do
  let zeroes := (input.takeWhile (· == 0)).length
  let input := input.dropWhile (· == 0)
  let size := input.length * 138 / 100 + 1
  let (b58, length) ← encodeLoop input (List.replicate size 0) 0
  return List.replicate zeroes '1' ++ ((b58.take length).reverse.dropWhile (· == 0)).map fun digit =>
    pszBase58.getD digit ' '

/-- The loop over the characters: what it leaves, or false. -/
def decodeLoop (maxRetLen zeroes : Nat) : List UInt8 → List Nat → Nat → Checked (Option (List Nat × Nat × List UInt8))
  | [], b256, length => .ok (some (b256, length, []))
  | c :: psz, b256, length =>
    if isSpace c then .ok (some (b256, length, c :: psz))
    else if mapBase58.getD c.toNat (-1) = -1 then .ok none
    else do
      let (b256, i, carry) := carryLoop 256 58 length 0 (mapBase58.getD c.toNat (-1)).toNat b256
      check (carry == 0)
      if i + zeroes > maxRetLen then return none
      else decodeLoop maxRetLen zeroes psz b256 i

/-- `DecodeBase58` of a C string. -/
def decodeBase58Psz (psz : List UInt8) (maxRetLen : Nat) : Checked (Option (List UInt8)) := do
  let psz := psz.dropWhile isSpace
  let zeroes := (psz.takeWhile (· == 0x31)).length
  if zeroes > maxRetLen then return none
  else
    let psz := psz.dropWhile (· == 0x31)
    let size := psz.length * 733 / 1000 + 1
    match ← decodeLoop maxRetLen zeroes psz (List.replicate size 0) 0 with
    | none => return none
    | some (b256, length, psz) =>
      if psz.dropWhile isSpace ≠ [] then return none
      else return some (List.replicate zeroes 0 ++ (b256.take length).reverse.map UInt8.ofNat)

def decodeBase58 (str : List UInt8) (maxRetLen : Nat) : Checked (Option (List UInt8)) :=
  if str.contains 0 then .ok none else decodeBase58Psz str maxRetLen

section

variable (hash : List UInt8 → Uint256)

def checksum (payload : List UInt8) : List UInt8 := (writeBits (hash payload)).take 4

def encodeBase58Check (input : List UInt8) : Checked (List Char) := encodeBase58 (input ++ checksum hash input)

def decodeBase58Check (str : List UInt8) (maxRet : Nat) : Checked (Option (List UInt8)) := do
  if str.contains 0 then return none
  else
    match ← decodeBase58Psz str (if maxRet > 2 ^ 31 - 1 - 4 then 2 ^ 31 - 1 else maxRet + 4) with
    | none => return none
    | some vch =>
      if vch.length < 4 then return none
      else if checksum hash (vch.take (vch.length - 4)) ≠ vch.drop (vch.length - 4) then return none
      else return some (vch.take (vch.length - 4))

/-! ## Addresses -/

inductive CTxDestination where
  | pkHash (hash : List UInt8)
  | scriptHash (hash : List UInt8)
  | witness (version : Nat) (program : List UInt8)
  deriving DecidableEq

structure AddressParams where
  pubkeyAddress : List UInt8
  scriptAddress : List UInt8
  bech32Hrp : List UInt8

/-- The main chain, with `ret` for segwit. -/
def mainAddressParams : AddressParams := ⟨[35], [85], [0x72, 0x65, 0x74]⟩

def toLower (c : UInt8) : UInt8 := if 0x41 ≤ c ∧ c ≤ 0x5a then c + 0x20 else c

def startsWith (data pre : List UInt8) : Bool := pre.length ≤ data.length && data.take pre.length == pre

/-- The destination, or `error_str`. `bech32` follows the prefix. -/
def decodeDestination (params : AddressParams) (bech32 : List UInt8 → Except String CTxDestination) (str : List UInt8) :
    Checked (Except String CTxDestination) := do
  if (str.take params.bech32Hrp.length).map toLower = params.bech32Hrp then return bech32 str
  else
    match ← decodeBase58Check hash str 21 with
    | some data =>
      if data.length = 20 + params.pubkeyAddress.length ∧ startsWith data params.pubkeyAddress then
        return .ok (.pkHash (data.drop params.pubkeyAddress.length))
      else if data.length = 20 + params.scriptAddress.length ∧ startsWith data params.scriptAddress then
        return .ok (.scriptHash (data.drop params.scriptAddress.length))
      else if startsWith data params.scriptAddress || startsWith data params.pubkeyAddress then
        return .error "Invalid length for Base58 address (P2PKH or P2SH)"
      else return .error "Invalid or unsupported Base58-encoded address."
    | none =>
      match ← decodeBase58 str 100 with
      | none => return .error "Invalid or unsupported Segwit (Bech32) or Base58 encoding."
      | some _ => return .error "Invalid checksum or length of Base58 address (P2PKH or P2SH)"

end

/-! ## Encoding -/

theorem encode_fits (input : List UInt8) :
    read 256 0 (input.map UInt8.toNat) < 58 ^ (input.length * 138 / 100 + 1) := by
  have hvalue : read 256 0 (input.map UInt8.toNat) < (0 + 1) * 256 ^ (input.map UInt8.toNat).length :=
    read_lt fun digit hdigit => by
      obtain ⟨byte, -, rfl⟩ := mem_map.mp hdigit
      exact byte.toNat_lt
  rw [zero_add, one_mul, length_map] at hvalue
  exact hvalue.trans (pow_lt_of_rate (by norm_num) (by norm_num) (by norm_num) _)

theorem encodeLoop_places {size n : Nat} {input : List UInt8} (hfit : read 256 n (input.map UInt8.toNat) < 58 ^ size) :
    encodeLoop input (places 58 size n) (Nat.digits 58 n).length =
      .ok (places 58 size (read 256 n (input.map UInt8.toNat)),
        (Nat.digits 58 (read 256 n (input.map UInt8.toNat))).length) := by
  induction input generalizing n with
  | nil => rfl
  | cons byte input ih =>
    rw [map_cons, Radix.read] at hfit
    have hstep : 256 * n + byte.toNat < 58 ^ size := Nat.lt_of_le_of_lt (le_read (by norm_num) _ _) hfit
    rw [encodeLoop, carryLoop_places (by norm_num) (by norm_num) (Nat.sub_zero _) hstep]
    simp only [beq_self_eq_true, check_true, ok_bind, Nat.zero_add]
    exact ih hfit

/-- A one for each leading zero, and the digits of the rest. -/
theorem encodeBase58_eq (input : List UInt8) :
    encodeBase58 input = .ok (replicate (input.takeWhile (· == 0)).length '1' ++
    (Nat.digits 58 (read 256 0 ((input.dropWhile (· == 0)).map UInt8.toNat))).reverse.map
      fun digit => pszBase58.getD digit ' ') := by
  unfold encodeBase58
  have hfit := encode_fits (input.dropWhile (· == 0))
  have hloop := encodeLoop_places hfit
  rw [places_zero, digits_zero, length_nil] at hloop
  simp only [hloop, ok_bind, take_places (by norm_num) hfit, dropWhile_reverse_digits]
  rfl

/-! ## Decoding -/

def Spells (psz : List UInt8) (digits : List Nat) : Prop :=
  List.Forall₂ (fun (c : UInt8) (digit : Nat) => mapBase58.getD c.toNat (-1) = (digit : Int)) psz digits

theorem base58_tables : (∀ entry ∈ mapBase58, entry < 58) ∧ 58 ^ 1000 ≤ 256 ^ 733 := by decide +kernel

theorem mapBase58_lt {c : UInt8} {digit : Nat} (h : mapBase58.getD c.toNat (-1) = (digit : Int)) : digit < 58 := by
  rw [getD_eq_getElem?_getD] at h
  cases hentry : mapBase58[c.toNat]? with
  | none =>
    rw [hentry, Option.getD_none] at h
    omega
  | some entry =>
    rw [hentry, Option.getD_some] at h
    have hlt := base58_tables.1 entry (mem_of_getElem? hentry)
    omega

theorem mapBase58_not_space {c : UInt8} {digit : Nat} (h : mapBase58.getD c.toNat (-1) = (digit : Int)) :
    isSpace c = false := by
  have hspaces : ∀ n ∈ [32, 9, 10, 11, 12, 13], mapBase58.getD n (-1) = -1 := by decide
  by_contra hspace
  have hmem : c.toNat ∈ [32, 9, 10, 11, 12, 13] := by
    unfold isSpace at hspace
    simp only [Bool.not_eq_false, Bool.or_eq_true, beq_iff_eq, Bool.and_eq_true, decide_eq_true_eq,
      UInt8.le_iff_toNat_le] at hspace
    rcases hspace with rfl | ⟨hlow, hhigh⟩
    · decide
    · change 9 ≤ c.toNat at hlow
      change c.toNat ≤ 13 at hhigh
      simp only [mem_cons, not_mem_nil, or_false]
      omega
  rw [hspaces _ hmem] at h
  omega

variable {psz : List UInt8} {digits : List Nat}

theorem Spells.lt (h : Spells psz digits) : ∀ digit ∈ digits, digit < 58 := by
  induction h with
  | nil => simp
  | cons hc hrest ih => exact forall_mem_cons.mpr ⟨mapBase58_lt hc, ih⟩

theorem Spells.no_zero (h : Spells psz digits) : psz.contains 0 = false := by
  induction h with
  | nil => rfl
  | @cons c digit psz digits hc hrest ih =>
    have hne : c ≠ 0 := by
      rintro rfl
      have hnone : mapBase58.getD (UInt8.toNat 0) (-1) = -1 := by decide
      rw [hnone] at hc
      omega
    rw [contains_cons, ih, Bool.or_false]
    simpa using hne.symm

theorem decode_fits (h : ∀ digit ∈ digits, digit < 58) : read 58 0 digits < 256 ^ (digits.length * 733 / 1000 + 1) := by
  have hvalue := read_lt (n := 0) h
  rw [zero_add, one_mul] at hvalue
  exact hvalue.trans (pow_lt_of_rate (by norm_num) (by norm_num) base58_tables.2 _)

theorem decodeLoop_places (maxRetLen zeroes : Nat) {size n : Nat} (hspells : Spells psz digits)
    (hfit : read 58 n digits < 256 ^ size) (hshort : (Nat.digits 256 n).length + zeroes ≤ maxRetLen) :
    decodeLoop maxRetLen zeroes psz (places 256 size n) (Nat.digits 256 n).length =
      .ok (if (Nat.digits 256 (read 58 n digits)).length + zeroes ≤ maxRetLen then
        some (places 256 size (read 58 n digits), (Nat.digits 256 (read 58 n digits)).length, []) else none) := by
  induction hspells generalizing n with
  | nil =>
    rw [Radix.read, if_pos hshort]
    rfl
  | @cons c digit psz digits hc hrest ih =>
    rw [Radix.read] at hfit ⊢
    have hle : 58 * n + digit ≤ read 58 (58 * n + digit) digits := le_read (by norm_num) _ _
    rw [decodeLoop, mapBase58_not_space hc, hc, if_neg (by decide), if_neg (by omega), Int.toNat_natCast,
      carryLoop_places (by norm_num) (by norm_num) (Nat.sub_zero _) (by omega)]
    simp only [beq_self_eq_true, check_true, ok_bind, Nat.zero_add]
    split
    · next hlong =>
      have hgrows := Nat.le_length_digits_le 256 _ _ hle
      rw [if_neg (by omega)]
      rfl
    · next hfits => exact ih hfit (by omega)

theorem decodeBase58Psz_ones (zeroes : Nat) (hspells : Spells psz digits) (hhead : psz.head? ≠ some 0x31)
    (maxRetLen : Nat) : decodeBase58Psz (replicate zeroes 0x31 ++ psz) maxRetLen =
      .ok (if (Nat.digits 256 (read 58 0 digits)).length + zeroes ≤ maxRetLen then
        some (replicate zeroes 0 ++ (Nat.digits 256 (read 58 0 digits)).reverse.map UInt8.ofNat) else none) := by
  have hspaces : (replicate zeroes 0x31 ++ psz).dropWhile isSpace = replicate zeroes 0x31 ++ psz := by
    cases zeroes with
    | zero =>
      cases hspells with
      | nil => rfl
      | cons hc hrest => simp [mapBase58_not_space hc]
    | succ zeroes => rfl
  have hones : (replicate zeroes 0x31 ++ psz).takeWhile (· == 0x31) = replicate zeroes 0x31 ∧
      (replicate zeroes 0x31 ++ psz).dropWhile (· == 0x31) = psz := by
    rw [takeWhile_append_of_pos (by simp), dropWhile_append_of_pos (by simp)]
    cases psz with
    | nil => simp
    | cons c psz =>
      have hc : (c == 0x31) = false := by simpa using hhead
      simp [hc]
  have hfit := decode_fits hspells.lt
  rw [← hspells.length_eq] at hfit
  unfold decodeBase58Psz
  simp only [hspaces, hones.1, hones.2, length_replicate, gt_iff_lt]
  by_cases hmany : maxRetLen < zeroes
  · rw [if_pos hmany, if_neg (by omega)]
    rfl
  have hloop := decodeLoop_places maxRetLen zeroes hspells hfit (by simpa using hmany)
  rw [places_zero, Nat.digits_zero, length_nil] at hloop
  rw [if_neg hmany, hloop, ok_bind]
  by_cases hshort : (Nat.digits 256 (read 58 0 digits)).length + zeroes ≤ maxRetLen
  · rw [if_pos hshort, if_pos hshort]
    simp only [take_places (by norm_num) hfit]
    rfl
  · rw [if_neg hshort, if_neg hshort]
    rfl

theorem decodeBase58Psz_eq (hspells : Spells psz digits) (hhead : psz.head? ≠ some 0x31) (maxRetLen : Nat) :
    decodeBase58Psz psz maxRetLen = .ok (if (Nat.digits 256 (read 58 0 digits)).length ≤ maxRetLen then
      some ((Nat.digits 256 (read 58 0 digits)).reverse.map UInt8.ofNat) else none) :=
  decodeBase58Psz_ones 0 hspells hhead maxRetLen

/-! ## There and back -/

theorem read_reverse {mult : Nat} (digits : List Nat) : read mult 0 digits.reverse = Nat.ofDigits mult digits := by
  have happend : ∀ (digits : List Nat) n digit, read mult n (digits ++ [digit]) =
      mult * read mult n digits + digit := by
    intro digits
    induction digits with
    | nil => exact fun _ _ => rfl
    | cons _ _ ih => exact fun _ _ => ih _ _
  induction digits with
  | nil => rfl
  | cons digit digits ih => rw [reverse_cons, happend, ih, ofDigits_cons, add_comm]

def textBytes (text : List Char) : List UInt8 := text.map fun c => UInt8.ofNat c.toNat

theorem encoded_digit : ∀ digit < 58, mapBase58.getD (UInt8.ofNat (pszBase58.getD digit ' ').toNat).toNat (-1) =
    (digit : Int) ∧ (UInt8.ofNat (pszBase58.getD digit ' ').toNat = 0x31 → digit = 0) := by decide

theorem decodeBase58Psz_encodeBase58 (input : List UInt8) : ∃ text, encodeBase58 input = .ok text ∧
    (textBytes text).contains 0 = false ∧
    ∀ maxRetLen, decodeBase58Psz (textBytes text) maxRetLen =
      .ok (if input.length ≤ maxRetLen then some input else none) := by
  have hzeroes : input.takeWhile (· == 0) = replicate (input.takeWhile (· == 0)).length 0 :=
    eq_replicate_iff.mpr ⟨rfl, fun byte hbyte => by simpa using mem_takeWhile_imp hbyte⟩
  have hinput := takeWhile_append_dropWhile (p := (· == 0)) (l := input)
  have hbody := head?_dropWhile_not (· == 0) input
  refine ⟨_, encodeBase58_eq input, ?_⟩
  rw [hzeroes] at hinput
  generalize (input.takeWhile (· == 0)).length = zeroes, input.dropWhile (· == 0) = body at hinput hbody ⊢
  subst hinput
  have hdigits : digits 256 (read 256 0 (body.map UInt8.toNat)) = (body.map UInt8.toNat).reverse := by
    rw [← reverse_reverse (body.map UInt8.toNat), read_reverse, reverse_reverse]
    apply digits_ofDigits 256 (by norm_num)
    · simp only [mem_reverse, mem_map]
      rintro _ ⟨byte, -, rfl⟩
      exact byte.toNat_lt
    · intro hne
      rw [getLast_reverse]
      cases body with
      | nil => exact absurd rfl hne
      | cons byte body => simpa [← UInt8.toNat_inj] using hbody
  generalize read 256 0 (body.map UInt8.toNat) = N at hdigits ⊢
  rw [textBytes, map_append, map_replicate, map_map]
  have hlt : ∀ digit ∈ (digits 58 N).reverse, digit < 58 :=
      fun digit h => digits_lt_base (by norm_num) (mem_reverse.mp h)
  have hspells : Spells ((digits 58 N).reverse.map _) (digits 58 N).reverse :=
    forall₂_map_left_iff.mpr (forall₂_same.mpr fun digit h => (encoded_digit digit (hlt digit h)).1)
  refine ⟨by simpa using hspells.no_zero, fun maxRetLen => ?_⟩
  have hcode := decodeBase58Psz_ones zeroes hspells (fun h => ?_) maxRetLen
  · rw [read_reverse, ofDigits_digits, hdigits, reverse_reverse, map_map, length_reverse, length_map,
      show UInt8.ofNat ∘ UInt8.toNat = id from funext fun _ => UInt8.ofNat_toNat, map_id] at hcode
    rw [length_append, length_replicate, add_comm]
    exact hcode
  · rw [head?_map] at h
    obtain ⟨digit, htop, hone⟩ := Option.map_eq_some_iff.mp h
    obtain rfl := (encoded_digit digit (hlt digit (mem_of_head? htop))).2 hone
    have hnot := head?_dropWhile_not (· == 0) (digits 58 N).reverse
    rw [dropWhile_reverse_digits, htop] at hnot
    cases hnot

/-- Every byte string survives, with a checksum too, if not too long. -/
theorem base58_roundTrip (hash : List UInt8 → Uint256) (input : List UInt8) (maxRet : Nat) :
    (∃ text, encodeBase58 input = .ok text ∧
      decodeBase58 (textBytes text) maxRet = .ok (if input.length ≤ maxRet then some input else none)) ∧
      ∃ text, encodeBase58Check hash input = .ok text ∧
        decodeBase58Check hash (textBytes text) maxRet =
          .ok (if input.length ≤ min maxRet (2 ^ 31 - 5) then some input else none) := by
  obtain ⟨text, htext, hplain, hdecode⟩ := decodeBase58Psz_encodeBase58 input
  obtain ⟨text', htext', hplain', hdecode'⟩ := decodeBase58Psz_encodeBase58 (input ++ checksum hash input)
  refine ⟨⟨text, htext, ?_⟩, text', htext', ?_⟩
  · rw [decodeBase58, hplain, if_neg Bool.false_ne_true, hdecode]
  have hchecksum : (checksum hash input).length = 4 := by simp [checksum, writeBits, leBytes_length]
  rw [decodeBase58Check, hplain', if_neg Bool.false_ne_true, hdecode', ok_bind, length_append, hchecksum]
  by_cases hfits : input.length ≤ min maxRet (2 ^ 31 - 5)
  · rw [if_pos hfits, if_pos (by split <;> omega)]
    simp [hchecksum]
    rfl
  · rw [if_neg hfits, if_neg (by split <;> omega)]
    rfl

end FullNode.Base58

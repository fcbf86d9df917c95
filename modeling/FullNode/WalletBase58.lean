import FullNode.Base58

/-!
# Base 58 in the wallet

`base58_encode` of `crypto.rs` keeps a vector of digits that grows at its front. The vector is the reverse of
the list here. On every input it writes what the node writes.
-/

namespace FullNode.Wallet

open Base58 (checksum encodeBase58 encodeBase58_eq)
open Radix

def ALPHABET : List Char := "123456789ABCDEFGHJKLMNPQRSTUVWXYZabcdefghijkmnopqrstuvwxyz".toList

def base58Loop : List UInt8 → List Nat → List Nat
  | [], digits => digits
  | byte :: data, digits => base58Loop data (mulAdd 58 (1 <<< 8) digits byte.toNat)

def base58Encode (data : List UInt8) : List Char :=
  let leadingZeros := (data.takeWhile (· == 0)).length
  List.replicate leadingZeros '1' ++ (base58Loop (data.drop leadingZeros) []).reverse.map fun digit =>
    ALPHABET.getD digit ' '

def address (hash : List UInt8 → Uint256) (ripemd160Hash : List UInt8) : List Char :=
  let versioned := 35 :: ripemd160Hash
  base58Encode (versioned ++ checksum hash versioned)

theorem base58Loop_digits (data : List UInt8) (n : Nat) :
    base58Loop data (Nat.digits 58 n) = Nat.digits 58 (read 256 n (data.map UInt8.toNat)) := by
  induction data generalizing n with
  | nil => rfl
  | cons byte data ih =>
    rw [base58Loop, mulAdd_digits (by norm_num) (by norm_num), ih]
    rfl

theorem drop_length_takeWhile (p : UInt8 → Bool) (data : List UInt8) :
    data.drop (data.takeWhile p).length = data.dropWhile p := by
  calc data.drop (data.takeWhile p).length
      = (data.takeWhile p ++ data.dropWhile p).drop (data.takeWhile p).length := by rw [List.takeWhile_append_dropWhile]
    _ = data.dropWhile p := List.drop_left

theorem encodeBase58_eq_base58Encode (data : List UInt8) : encodeBase58 data = .ok (base58Encode data) := by
  have hdigits := base58Loop_digits (data.dropWhile (· == 0)) 0
  rw [Nat.digits_zero] at hdigits
  rw [encodeBase58_eq]
  unfold base58Encode
  simp only [drop_length_takeWhile, hdigits]
  rfl

end FullNode.Wallet

import FullNode.Lib.Codec

/-!
# SHA-256

The hash of FIPS 180-4 over byte strings. Words are natural numbers below `2 ^ 32`.
-/

namespace FullNode.Sha256

def word (n : Nat) : Nat := n % 2 ^ 32

def rotr (n x : Nat) : Nat := word ((x >>> n) ||| (x <<< (32 - n)))

def ch (x y z : Nat) : Nat := (x &&& y) ^^^ ((x ^^^ 0xffffffff) &&& z)
def maj (x y z : Nat) : Nat := (x &&& y) ^^^ (x &&& z) ^^^ (y &&& z)
def bigSigma0 (x : Nat) : Nat := rotr 2 x ^^^ rotr 13 x ^^^ rotr 22 x
def bigSigma1 (x : Nat) : Nat := rotr 6 x ^^^ rotr 11 x ^^^ rotr 25 x
def smallSigma0 (x : Nat) : Nat := rotr 7 x ^^^ rotr 18 x ^^^ (x >>> 3)
def smallSigma1 (x : Nat) : Nat := rotr 17 x ^^^ rotr 19 x ^^^ (x >>> 10)

def constants : List Nat :=
  [0x428a2f98, 0x71374491, 0xb5c0fbcf, 0xe9b5dba5, 0x3956c25b, 0x59f111f1, 0x923f82a4, 0xab1c5ed5,
  0xd807aa98, 0x12835b01, 0x243185be, 0x550c7dc3, 0x72be5d74, 0x80deb1fe, 0x9bdc06a7, 0xc19bf174,
  0xe49b69c1, 0xefbe4786, 0x0fc19dc6, 0x240ca1cc, 0x2de92c6f, 0x4a7484aa, 0x5cb0a9dc, 0x76f988da,
  0x983e5152, 0xa831c66d, 0xb00327c8, 0xbf597fc7, 0xc6e00bf3, 0xd5a79147, 0x06ca6351, 0x14292967,
  0x27b70a85, 0x2e1b2138, 0x4d2c6dfc, 0x53380d13, 0x650a7354, 0x766a0abb, 0x81c2c92e, 0x92722c85,
  0xa2bfe8a1, 0xa81a664b, 0xc24b8b70, 0xc76c51a3, 0xd192e819, 0xd6990624, 0xf40e3585, 0x106aa070,
  0x19a4c116, 0x1e376c08, 0x2748774c, 0x34b0bcb5, 0x391c0cb3, 0x4ed8aa4a, 0x5b9cca4f, 0x682e6ff3,
  0x748f82ee, 0x78a5636f, 0x84c87814, 0x8cc70208, 0x90befffa, 0xa4506ceb, 0xbef9a3f7, 0xc67178f2]

structure Working where
  a : Nat
  b : Nat
  c : Nat
  d : Nat
  e : Nat
  f : Nat
  g : Nat
  h : Nat
  deriving DecidableEq

def initial : Working :=
  ⟨0x6a09e667, 0xbb67ae85, 0x3c6ef372, 0xa54ff53a, 0x510e527f, 0x9b05688c, 0x1f83d9ab, 0x5be0cd19⟩

/-- The message schedule from its last words, the latest first. -/
def extend : Nat → List Nat → List Nat
  | 0, w => w
  | n + 1, w => extend n
      (word (smallSigma1 (w.getD 1 0) + w.getD 6 0 + smallSigma0 (w.getD 14 0) + w.getD 15 0) :: w)

def schedule (block : List Nat) : List Nat := (extend 48 block.reverse).reverse

def round (s : Working) (k w : Nat) : Working :=
  let t1 := s.h + bigSigma1 s.e + ch s.e s.f s.g + k + w
  let t2 := bigSigma0 s.a + maj s.a s.b s.c
  ⟨word (t1 + t2), s.a, s.b, s.c, word (s.d + t1), s.e, s.f, s.g⟩

def rounds : List Nat → List Nat → Working → Working
  | k :: ks, w :: ws, s => rounds ks ws (round s k w)
  | _, _, s => s

def compress (s : Working) (block : List Nat) : Working :=
  let r := rounds constants (schedule block) s
  ⟨word (s.a + r.a), word (s.b + r.b), word (s.c + r.c), word (s.d + r.d),
    word (s.e + r.e), word (s.f + r.f), word (s.g + r.g), word (s.h + r.h)⟩

def toWords : List UInt8 → List Nat
  | b0 :: b1 :: b2 :: b3 :: bytes => leValue [b3, b2, b1, b0] :: toWords bytes
  | _ => []

def ofWord (n : Nat) : List UInt8 := (leBytes 4 n).reverse

def padding (message : List UInt8) : List UInt8 :=
  message ++ 0x80 :: (List.replicate ((119 - message.length % 64) % 64) 0 ++ (leBytes 8 (8 * message.length)).reverse)

def blocks : Nat → List Nat → Working → Working
  | 0, _, s => s
  | n + 1, words, s => blocks n (words.drop 16) (compress s (words.take 16))

def output (s : Working) : List UInt8 :=
  ofWord s.a ++ ofWord s.b ++ ofWord s.c ++ ofWord s.d ++ ofWord s.e ++ ofWord s.f ++ ofWord s.g ++ ofWord s.h

end FullNode.Sha256

namespace FullNode

def sha256 (message : List UInt8) : List UInt8 :=
  let padded := Sha256.padding message
  Sha256.output (Sha256.blocks (padded.length / 64) (Sha256.toWords padded) Sha256.initial)

theorem sha256_length (message : List UInt8) : (sha256 message).length = 32 := by
  simp [sha256, Sha256.output, Sha256.ofWord]

end FullNode

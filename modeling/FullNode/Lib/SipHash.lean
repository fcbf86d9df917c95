import FullNode.Lib.Codec

/-!
# SipHash-2-4

The keyed hash over byte strings and over the four words of a 256-bit value. `absorb` takes one word.
-/

namespace FullNode.SipHash

abbrev Word := BitVec 64

structure Working where
  v0 : Word
  v1 : Word
  v2 : Word
  v3 : Word
  deriving DecidableEq

/-- `SIPROUND`. -/
def round (s : Working) : Working :=
  let v0 := s.v0 + s.v1
  let v1 := s.v1.rotateLeft 13 ^^^ v0
  let v0 := v0.rotateLeft 32
  let v2 := s.v2 + s.v3
  let v3 := s.v3.rotateLeft 16 ^^^ v2
  let v0 := v0 + v3
  let v3 := v3.rotateLeft 21 ^^^ v0
  let v2 := v2 + v1
  let v1 := v1.rotateLeft 17 ^^^ v2
  let v2 := v2.rotateLeft 32
  ⟨v0, v1, v2, v3⟩

def initial (k0 k1 : Word) : Working :=
  ⟨0x736f6d6570736575 ^^^ k0, 0x646f72616e646f6d ^^^ k1, 0x6c7967656e657261 ^^^ k0, 0x7465646279746573 ^^^ k1⟩

def absorb (s : Working) (d : Word) : Working :=
  let s := round (round { s with v3 := s.v3 ^^^ d })
  { s with v0 := s.v0 ^^^ d }

def output (s : Working) : Word :=
  let s := round (round (round (round { s with v2 := s.v2 ^^^ 0xff })))
  s.v0 ^^^ s.v1 ^^^ s.v2 ^^^ s.v3

def words : Nat → List UInt8 → List Word × List UInt8
  | 0, bytes => ([], bytes)
  | n + 1, bytes =>
    let (ws, tail) := words n (bytes.drop 8)
    (BitVec.ofNat 64 (leValue (bytes.take 8)) :: ws, tail)

end FullNode.SipHash

namespace FullNode

open SipHash

/-- One `Write` and `Finalize`, with the rest in the last word. -/
def sipHash (k0 k1 : Word) (bytes : List UInt8) : Word :=
  let (ws, tail) := words (bytes.length / 8) bytes
  output (absorb (ws.foldl absorb (initial k0 k1))
    (BitVec.ofNat 64 (leValue tail) ||| BitVec.ofNat 64 bytes.length <<< 56))

def sipHashUint256 (k0 k1 : Word) (val : BitVec 256) : Word :=
  output (absorb ([0, 1, 2, 3].foldl (fun s i => absorb s ((val >>> (64 * i)).setWidth 64)) (initial k0 k1)) (4 <<< 59))

-- the reference vector of 15 bytes
example : sipHash 0x0706050403020100 0x0f0e0d0c0b0a0908 ((List.range 15).map UInt8.ofNat) =
    0xa129ca6149be45e5 := by decide

end FullNode

import FullNode.Basic
import Mathlib.Data.List.GetD

/-!
# Numbers modulo 2^3072 - 1103717

`Num3072`: limbs as wide as a machine word, the lowest first, with the carries of the source. There are two builds,
with and without 128-bit integers.
-/

namespace FullNode.Num3072

/-- Whether the compiler has `__int128`. -/
inductive Build where
  | int128
  | int64
  deriving DecidableEq

namespace Build

def limbSize : Build → Nat
  | .int128 => 64
  | .int64 => 32

def limbs : Build → Nat
  | .int128 => 48
  | .int64 => 96

def signedLimbSize : Build → Nat
  | .int128 => 62
  | .int64 => 30

def signedLimbs : Build → Nat
  | .int128 => 50
  | .int64 => 103

def base (b : Build) : Nat := 2 ^ b.limbSize

end Build

def MAX_PRIME_DIFF : Nat := 1103717

def modulus : Nat := 2 ^ 3072 - MAX_PRIME_DIFF

variable (b : Build)

/-! ## Three limbs -/

/-- The limbs `[c0, c1, c2]` of an accumulator. -/
structure Acc where
  c0 : Nat := 0
  c1 : Nat := 0
  c2 : Nat := 0
  deriving DecidableEq

def extract3 (c : Acc) : Nat × Acc := (c.c0, ⟨c.c1, c.c2, 0⟩)

/-- `[c0, c1] = x * y`. -/
def mul (x y : Nat) : Acc :=
  let t := x * y % b.base ^ 2
  ⟨t % b.base, t / b.base, 0⟩

/-- `[c0, c1, c2] += n * [d0, d1, d2]`, where `c2` is 0. -/
def mulnadd3 (c d : Acc) (n : Nat) : Acc :=
  let t := (d.c0 * n + c.c0) % b.base ^ 2
  let t' := (t / b.base + (d.c1 * n + c.c1)) % b.base ^ 2
  ⟨t % b.base, t' % b.base, (t' / b.base + d.c2 * n) % b.base⟩

/-- `[c0, c1] *= n`. -/
def muln2 (c : Acc) (n : Nat) : Acc :=
  let t := c.c0 * n % b.base ^ 2
  let t' := (t / b.base + c.c1 * n) % b.base ^ 2
  ⟨t % b.base, t' % b.base, c.c2⟩

/-- `[c0, c1, c2] += x * y`. -/
def muladd3 (c : Acc) (x y : Nat) : Acc :=
  let t := x * y % b.base ^ 2
  let tl := t % b.base
  let c0 := (c.c0 + tl) % b.base
  let th := (t / b.base + if c0 < tl then 1 else 0) % b.base
  let c1 := (c.c1 + th) % b.base
  ⟨c0, c1, (c.c2 + if c1 < th then 1 else 0) % b.base⟩

/-- Adds a limb to `[c0, c1]`, and takes the lowest limb out. -/
def addnextract2 (c : Acc) (a : Nat) : Nat × Acc :=
  let c0 := (c.c0 + a) % b.base
  if c0 < a then
    let c1 := (c.c1 + 1) % b.base
    (c0, ⟨c1, if c1 = 0 then 1 else 0, c.c2⟩)
  else (c0, ⟨c.c1, 0, c.c2⟩)

/-! ## Reduction -/

def isOverflow (limbs : List Nat) : Bool :=
  if limbs.headD 0 ≤ b.base - 1 - MAX_PRIME_DIFF then false else limbs.tail.all fun limb => limb = b.base - 1

/-- Adds `[c0, c1]` to the limbs. -/
def addLimbs : Acc → List Nat → List Nat × Acc
  | c, [] => ([], c)
  | c, limb :: limbs =>
    let (n, c) := addnextract2 b c limb
    let (rest, c) := addLimbs c limbs
    (n :: rest, c)

def fullReduce (limbs : List Nat) : List Nat := (addLimbs b { c0 := MAX_PRIME_DIFF } limbs).1

/-! ## `Multiply` -/

/-- The products `x[i] * y[s - i]`, from `i` on. -/
def muladdLoop (x y : List Nat) (s : Nat) : Nat → Nat → Acc → Acc
  | 0, _, c => c
  | count + 1, i, c => muladdLoop x y s count (i + 1) (muladd3 b c (x.getD i 0) (y.getD (s - i) 0))

/-- Column `j`: what is above the limbs, times the difference. -/
def multiplyColumn (x y : List Nat) (j : Nat) (c : Acc) : Acc :=
  let d := mul b (x.getD (1 + j) 0) (y.getD (b.limbs + j - (1 + j)) 0)
  let d := muladdLoop b x y (b.limbs + j) (b.limbs - (2 + j)) (2 + j) d
  let c := mulnadd3 b c d MAX_PRIME_DIFF
  muladdLoop b x y j (j + 1) 0 c

def multiplyColumns (x y : List Nat) : Nat → Nat → Acc → List Nat × Acc
  | 0, _, c => ([], c)
  | count + 1, j, c =>
    let (n, c) := extract3 (multiplyColumn b x y j c)
    let (rest, c) := multiplyColumns x y count (j + 1) c
    (n :: rest, c)

def multiply (x y : List Nat) : Checked (List Nat) := do
  let (low, c) := multiplyColumns b x y (b.limbs - 1) 0 {}
  check (c.c2 = 0)
  let (n, c) := extract3 (muladdLoop b x y (b.limbs - 1) b.limbs 0 c)
  let c := muln2 b c MAX_PRIME_DIFF
  let (limbs, c) := addLimbs b c (low ++ [n])
  check (c.c1 = 0)
  check (c.c0 = 0 || c.c0 = 1)
  let limbs := if isOverflow b limbs then fullReduce b limbs else limbs
  return if c.c0 ≠ 0 then fullReduce b limbs else limbs

/-- `SetToOne`. -/
def one : List Nat := 1 :: List.replicate (b.limbs - 1) 0

/-! ## Signed limbs

A number in limbs of `signedLimbSize` bits that may be negative. The limbs above `len` are never read
again, so the lists of `f` and `g` end there. -/

def signedLimb (x : Int) : Checked Int :=
  if -2 ^ (b.limbSize - 1) ≤ x ∧ x < 2 ^ (b.limbSize - 1) then .ok x else .error .overflow

def signedDouble (x : Int) : Checked Int :=
  if -2 ^ (2 * b.limbSize - 1) ≤ x ∧ x < 2 ^ (2 * b.limbSize - 1) then .ok x else .error .overflow

/-- A value in an `int`. -/
def signedInt (x : Int) : Checked Int := if -2 ^ 31 ≤ x ∧ x < 2 ^ 31 then .ok x else .error .overflow

/-- `2^signedLimbSize`, one more than `MAX_SIGNED_LIMB`. -/
def Build.signedBase (b : Build) : Nat := 2 ^ b.signedLimbSize

def FINAL_LIMB_MODULUS_BITS : Nat := 3072 % b.signedLimbSize

/-- The limbs that `bits` bits in `c` hold, and what is left. -/
def emitLimbs : Nat → Nat → Nat → List Int × Nat × Nat
  | 0, c, bits => ([], c, bits)
  | fuel + 1, c, bits =>
    if bits ≥ b.signedLimbSize then
      let (rest, c', bits') := emitLimbs fuel (c / b.signedBase) (bits - b.signedLimbSize)
      (((c % b.signedBase : Nat) : Int) :: rest, c', bits')
    else ([], c, bits)

def fromNum3072Loop : List Nat → Nat → Nat → List Int × Nat
  | [], c, _ => ([], c)
  | limb :: limbs, c, bits =>
    let (out, c, bits) := emitLimbs b 3 ((c + limb <<< bits) % b.base ^ 2) (bits + b.limbSize)
    let (rest, c) := fromNum3072Loop limbs c bits
    (out ++ rest, c)

def fromNum3072 (limbs : List Nat) : Checked (List Int) := do
  let (out, c) := fromNum3072Loop b limbs 0 0
  check (out.length = b.signedLimbs - 1)
  let top ← signedLimb b c
  check (c / b.signedBase = 0)
  return out ++ [top]

/-- `double_limb_t(limb) << bits`, added to what is left. -/
def toNum3072Loop : List Int → Nat → Nat → List Nat × Nat
  | [], c, _ => ([], c)
  | limb :: limbs, c, bits =>
    let c := (c + (limb % (b.base : Int) ^ 2).toNat <<< bits) % b.base ^ 2
    let bits := bits + b.signedLimbSize
    if bits ≥ b.limbSize then
      let (rest, c') := toNum3072Loop limbs (c / b.base) (bits - b.limbSize)
      (c % b.base :: rest, c')
    else toNum3072Loop limbs c bits

def toNum3072 (limbs : List Int) : Checked (List Nat) := do
  let (out, c) := toNum3072Loop b limbs 0 0
  check (out.length = b.limbs)
  check (c = 0)
  return out

/-! ## Division steps -/

structure SignedMatrix where
  u : Int
  v : Int
  q : Int
  r : Int

/-- `NEGINV256[i]` is -1 / (2 i + 1) modulo 256. -/
def NEGINV256 : List Nat :=
  [0xFF, 0x55, 0x33, 0x49, 0xC7, 0x5D, 0x3B, 0x11, 0x0F, 0xE5, 0xC3, 0x59,
    0xD7, 0xED, 0xCB, 0x21, 0x1F, 0x75, 0x53, 0x69, 0xE7, 0x7D, 0x5B, 0x31,
    0x2F, 0x05, 0xE3, 0x79, 0xF7, 0x0D, 0xEB, 0x41, 0x3F, 0x95, 0x73, 0x89,
    0x07, 0x9D, 0x7B, 0x51, 0x4F, 0x25, 0x03, 0x99, 0x17, 0x2D, 0x0B, 0x61,
    0x5F, 0xB5, 0x93, 0xA9, 0x27, 0xBD, 0x9B, 0x71, 0x6F, 0x45, 0x23, 0xB9,
    0x37, 0x4D, 0x2B, 0x81, 0x7F, 0xD5, 0xB3, 0xC9, 0x47, 0xDD, 0xBB, 0x91,
    0x8F, 0x65, 0x43, 0xD9, 0x57, 0x6D, 0x4B, 0xA1, 0x9F, 0xF5, 0xD3, 0xE9,
    0x67, 0xFD, 0xDB, 0xB1, 0xAF, 0x85, 0x63, 0xF9, 0x77, 0x8D, 0x6B, 0xC1,
    0xBF, 0x15, 0xF3, 0x09, 0x87, 0x1D, 0xFB, 0xD1, 0xCF, 0xA5, 0x83, 0x19,
    0x97, 0xAD, 0x8B, 0xE1, 0xDF, 0x35, 0x13, 0x29, 0xA7, 0x3D, 0x1B, 0xF1, 0xEF, 0xC5, 0xA3, 0x39, 0xB7,
      0xCD, 0xAB, 0x01]

/-- A value as a `limb_t`. -/
def limb (x : Int) : Int := x % b.base

/-- The variables; all but `i` and `eta` are limbs. -/
structure DivState where
  i : Nat
  eta : Int
  f : Int
  g : Int
  u : Int := 1
  v : Int := 0
  q : Int := 0
  r : Int := 1

/-- `countr_zero`, where bit `i` is set. -/
def countrZero (g : Int) : Nat → Nat
  | 0 => 0
  | i + 1 => if g % 2 ≠ 0 then 0 else countrZero (g / 2) i + 1

/-- All the zeros of `g` at once. -/
def skipZeros (s : DivState) : DivState :=
  let zeros := countrZero s.g s.i
  { s with
    g := s.g / 2 ^ zeros
    u := limb b (s.u * 2 ^ zeros)
    v := limb b (s.v * 2 ^ zeros)
    eta := s.eta - zeros
    i := s.i - zeros }

/-- A negative `eta` replaces `f`, `g` by `g`, `-f`. -/
def swapNegative (s : DivState) : DivState :=
  if s.eta < 0 then
    { s with
      eta := -s.eta
      f := s.g, g := limb b (-s.f)
      u := s.q, q := limb b (-s.u)
      v := s.r, r := limb b (-s.v) }
  else s

/-- Adds a multiple of `f` to `g` that cancels its lowest bits. -/
def cancelBits (s : DivState) : DivState :=
  let limit := min (s.eta + 1) s.i
  -- the mask has the lowest bits set, and 8 of them at most
  let m : Int := 2 ^ (min limit 8).toNat
  let w := s.g * NEGINV256.getD (s.f / 2 % 128).toNat 0 % m
  { s with
    g := limb b (s.g + s.f * w)
    q := limb b (s.q + s.u * w)
    r := limb b (s.r + s.v * w) }

def divLoop : Nat → DivState → Checked DivState
  | 0, _ => .error .endless
  | fuel + 1, s => do
    let s := skipZeros b s
    let _ ← signedLimb b s.eta
    if s.i = 0 then return s
    let s := swapNegative b s
    let _ ← signedLimb b s.eta
    let _ ← signedInt (s.eta + 1)
    divLoop fuel (cancelBits b s)

/-- `(signed_limb_t)x`. -/
def toSigned (x : Int) : Int := x.bmod b.base

def computeDivstepMatrix (eta f g : Int) : Checked (Int × SignedMatrix) := do
  let s ← divLoop b (b.signedLimbSize + 1) { i := b.signedLimbSize, eta, f := limb b f, g := limb b g }
  return (s.eta, ⟨toSigned b s.u, toSigned b s.v, toSigned b s.q, toSigned b s.r⟩)

/-- The limbs of a sum of terms, the lowest first, and the carry. -/
def carryLimbs : Int → List Int → Checked (List Int × Int)
  | c, [] => .ok ([], c)
  | c, term :: terms => do
    let sum ← signedDouble b (c + term)
    let (rest, c) ← carryLimbs (sum / b.signedBase) terms
    return (sum % b.signedBase :: rest, c)

/-- Drops the lowest limb, which is zero, for the carry on top. -/
def shiftLimbs (terms : List Int) : Checked (List Int) := do
  let (out, c) ← carryLimbs b 0 terms
  check (out.headD 0 = 0)
  return out.tail ++ [toSigned b c]

/-- The terms `u * x[i] + v * y[i]`. -/
def products (u v : Int) (x y : List Int) : Checked (List Int) := (x.zip y).mapM fun (xi, yi) => do
  let first ← signedDouble b (u * xi)
  let second ← signedDouble b (v * yi)
  signedDouble b (first + second)

def updateFG (f g : List Int) (t : SignedMatrix) : Checked (List Int × List Int) := do
  let cf ← products b t.u t.v f g
  let cg ← products b t.q t.r f g
  let f ← shiftLimbs b cf
  let g ← shiftLimbs b cg
  return (f, g)

/-- The modular inverse of the modulus modulo `2^signedLimbSize`. -/
def MODULUS_INVERSE : Int := limb b 0x70a1421da087d93

def isNegative (limbs : List Int) : Bool := limbs.getLastD 0 < 0

/-- The multiple of the modulus that makes a row end in zeros. -/
def modulusMultiple (u v : Int) (d e : List Int) (low : Int) : Checked Int := do
  let md ← signedLimb b ((if isNegative d then u else 0) + if isNegative e then v else 0)
  signedLimb b (md - (MODULUS_INVERSE b * low + md) % b.signedBase)

/-- A row of `t * [d, e] + modulus * [md, me]`, shifted by a limb. -/
def updateRow (u v : Int) (d e : List Int) : Checked (List Int) := do
  let terms ← products b u v d e
  let md ← modulusMultiple b u v d e (terms.headD 0)
  let low ← signedDouble b (MAX_PRIME_DIFF * md)
  let first ← signedDouble b (terms.headD 0 - low)
  let (out, c) ← carryLimbs b 0 (first :: terms.tail.dropLast)
  let c ← signedDouble b (c + terms.getLastD 0)
  let high ← signedDouble b (md * 2 ^ FINAL_LIMB_MODULUS_BITS b)
  let c ← signedDouble b (c + high)
  check (out.headD 0 = 0)
  return out.tail ++ [c % b.signedBase, toSigned b (c / b.signedBase)]

def updateDE (d e : List Int) (t : SignedMatrix) : Checked (List Int × List Int) := do
  let d' ← updateRow b t.u t.v d e
  let e' ← updateRow b t.q t.r d e
  return (d', e')

/-! ## `GetInverse` -/

def addModulus (limbs : List Int) : Checked (List Int) :=
  if isNegative limbs then do
    let first ← signedLimb b (limbs.headD 0 - MAX_PRIME_DIFF)
    let last ← signedLimb b (limbs.getLastD 0 + 2 ^ FINAL_LIMB_MODULUS_BITS b)
    return first :: (limbs.tail.dropLast ++ [last])
  else .ok limbs

def performCarry : Int → List Int → Checked (List Int)
  | _, [] => .ok []
  | c, [top] => do
    let top ← signedLimb b (top + c)
    return [top]
  | c, limb :: limbs => do
    let sum ← signedLimb b (limb + c)
    let rest ← performCarry (sum / b.signedBase) limbs
    return sum % b.signedBase :: rest

def normalize (limbs : List Int) (negate : Bool) : Checked (List Int) := do
  let limbs ← addModulus b limbs
  let limbs ← if negate then limbs.mapM fun limb => signedLimb b (-limb) else .ok limbs
  let limbs ← performCarry b 0 limbs
  let limbs ← addModulus b limbs
  performCarry b 0 limbs

structure InverseState where
  eta : Int
  d : List Int
  e : List Int
  f : List Int
  g : List Int

def signedZero : List Int := List.replicate b.signedLimbs 0
def signedOne : List Int := 1 :: List.replicate (b.signedLimbs - 1) 0

/-- The modulus: the highest limb, and a small negative lowest one. -/
def signedModulus : List Int :=
  -MAX_PRIME_DIFF :: (List.replicate (b.signedLimbs - 2) 0 ++ [2 ^ FINAL_LIMB_MODULUS_BITS b])

/-- Drops the highest limb when it is only a sign. -/
def dropTop (limbs : List Int) : List Int :=
  let rest := limbs.dropLast
  rest.dropLast ++ [rest.getLastD 0 + limbs.getLastD 0 * b.signedBase]

def isSign (limb : Int) : Bool := limb = 0 || limb = -1

def shrink (f g : List Int) : List Int × List Int :=
  if 2 ≤ f.length ∧ isSign (f.getLastD 0) ∧ isSign (g.getLastD 0) then (dropTop b f, dropTop b g) else (f, g)

def inverseLoop : Nat → InverseState → Checked InverseState
  | 0, _ => .error .endless
  | fuel + 1, s => do
    let (eta, t) ← computeDivstepMatrix b s.eta (s.f.headD 0) (s.g.headD 0)
    let (f, g) ← updateFG b s.f s.g t
    let (d, e) ← updateDE b s.d s.e t
    if g.all (· = 0) then return ⟨eta, d, e, f, g⟩
    else
      let (f, g) := shrink b f g
      inverseLoop fuel ⟨eta, d, e, f, g⟩

def inverseRounds : Nat := 2 ^ 6200

def getInverse (limbs : List Nat) : Checked (List Nat) := do
  let g ← fromNum3072 b limbs
  let s ← inverseLoop b inverseRounds ⟨-1, signedZero b, signedOne b, signedModulus b, g⟩
  let low := s.f.headD 0 % b.signedBase
  check (low = 1 || low = b.signedBase - 1)
  let d ← normalize b s.d (s.f.getLastD 0 < 0)
  toNum3072 b d

def divide (x a : List Nat) : Checked (List Nat) := do
  let x := if isOverflow b x then fullReduce b x else x
  let inv ← getInverse b (if isOverflow b a then fullReduce b a else a)
  let x ← multiply b x inv
  return if isOverflow b x then fullReduce b x else x

end FullNode.Num3072

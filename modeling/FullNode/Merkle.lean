import FullNode.Basic
import FullNode.Lib.MerkleTree

/-!
# Merkle roots and paths

The two algorithms of `consensus/merkle.cpp`. `MerkleComputation` reads the leaves once, with a binary counter of
subtrees. The hash of a pair is a parameter.
-/

namespace FullNode.Merkle

open MerkleTree

variable (hash : Uint256 → Uint256 → Uint256)

/-! ## `ComputeMerkleRoot` -/

/-- Equal hashes in a pair, before the last of an odd level. -/
def adjacentEqual : List Uint256 → Bool
  | left :: right :: hashes => left == right || adjacentEqual hashes
  | _ => false

def rootLoop : Nat → List Uint256 → Bool → Uint256 × Bool
  | 0, hashes, mutation => (hashes.headD 0, mutation)
  | rounds + 1, hashes, mutation =>
    if hashes.length > 1 then rootLoop rounds (level hash hashes) (mutation || adjacentEqual hashes)
    else (hashes.headD 0, mutation)

/-- The root, and whether the list is `mutated`. -/
def computeMerkleRoot (hashes : List Uint256) : Uint256 × Bool := rootLoop hash hashes.length hashes false

/-! ## `MerkleComputation` -/

/-- `!(count & (uint32_t{1} << level))`. -/
def bitClear (count level : Nat) : Checked Bool := if level < 32 then .ok (!count.testBit level) else .error .badShift

structure Climb where
  level : Nat
  h : Uint256
  matchh : Bool
  path : List Uint256
  mutated : Bool

/-- One step up: `h` is joined with the subtree at its left. -/
def stepUp (fPath fMutated : Bool) (inner : Nat → Uint256) (matchlevel : Option Nat) (c : Climb) : Climb where
  level := c.level + 1
  h := hash (inner c.level) c.h
  matchh := c.matchh || fPath && matchlevel = some c.level
  path :=
    if fPath then
      if c.matchh then c.path ++ [inner c.level]
      else if matchlevel = some c.level then c.path ++ [c.h]
      else c.path
    else c.path
  mutated := c.mutated || fMutated && inner c.level == c.h

/-- Up, as long as the bits of `count` are clear. -/
def climb (fPath fMutated : Bool) (count : Nat) (inner : Nat → Uint256) (matchlevel : Option Nat) :
    Nat → Climb → Checked Climb
  | 0, _ => .error .endless
  | fuel + 1, c => do
    if ← bitClear count c.level then
      climb fPath fMutated count inner matchlevel fuel (stepUp hash fPath fMutated inner matchlevel c)
    else return c

structure Stream where
  /-- The leaves read, as an `uint32_t`. -/
  count : Nat := 0
  inner : Nat → Uint256 := fun _ => 0
  /-- `none` is -1. -/
  matchlevel : Option Nat := none
  path : List Uint256 := []
  mutated : Bool := false

def levels : Nat := 33

def addLeaf (fPath : Bool) (leafPos : Nat) (s : Stream) (leaf : Uint256) : Checked Stream := do
  let count := (s.count + 1) % 2 ^ 32
  let c ← climb hash fPath true count s.inner s.matchlevel levels
    { level := 0, h := leaf, matchh := s.count == leafPos, path := s.path, mutated := s.mutated }
  return {
    count
    inner := Function.update s.inner c.level c.h
    matchlevel := if c.matchh then some c.level else s.matchlevel
    path := c.path
    mutated := c.mutated }

def lowestLevel (count : Nat) : Nat → Nat → Checked Nat
  | 0, _ => .error .endless
  | fuel + 1, level => do
    if ← bitClear count level then lowestLevel count fuel (level + 1) else return level

def sweep (fPath : Bool) (inner : Nat → Uint256) (matchlevel : Option Nat) : Nat → Nat → Climb → Checked Climb
  | 0, _, _ => .error .endless
  | fuel + 1, count, c =>
    if count = 2 ^ c.level then .ok c
    else do
      let count := (count + 2 ^ c.level) % 2 ^ 32
      let c ← climb hash fPath false count inner matchlevel levels
        { c with
          level := c.level + 1, h := hash c.h c.h, path := if fPath && c.matchh then c.path ++ [c.h] else c.path }
      sweep fPath inner matchlevel fuel count c

structure MerkleResult where
  root : Uint256
  mutated : Bool
  path : List Uint256

def merkleComputation (fPath : Bool) (leaves : List Uint256) (leafPos : Nat) : Checked MerkleResult :=
  if leaves = [] then .ok ⟨0, false, []⟩
  else do
    let s ← leaves.foldlM (addLeaf hash fPath leafPos) {}
    let level ← lowestLevel s.count levels 0
    let c ← sweep hash fPath s.inner s.matchlevel levels s.count
      { level, h := s.inner level, matchh := s.matchlevel = some level, path := s.path, mutated := s.mutated }
    return ⟨c.h, c.mutated, c.path⟩

def computeMerklePath (leaves : List Uint256) (position : Nat) : Checked (List Uint256) := do
  let result ← merkleComputation hash true leaves position
  return result.path

/-- What a path makes of a leaf, with the bits of its position. -/
def foldPath : List Uint256 → Uint256 → Nat → Uint256
  | [], h, _ => h
  | sibling :: path, h, position =>
    foldPath path (if position % 2 = 1 then hash sibling h else hash h sibling) (position / 2)

end FullNode.Merkle

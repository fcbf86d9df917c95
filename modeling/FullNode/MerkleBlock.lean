import FullNode.Merkle
import FullNode.Transaction

/-!
# Partial merkle trees

`CPartialMerkleTree`: a tree over the transactions of a block that keeps what leads to the matched ones.
-/

namespace FullNode.Merkle

def MIN_TRANSACTION_WEIGHT : Nat := WITNESS_SCALE_FACTOR * 60

/-! ## Bits as bytes -/

def bitsToBytes (bits : List Bool) : List UInt8 :=
  (List.range bits.length).foldl
    (fun ret p => ret.modify (p / 8) fun byte => .ofNat (byte.toNat ||| (bits.getD p false).toNat <<< (p % 8)))
    (List.replicate ((bits.length + 7) / 8) 0)

def bytesToBits (bytes : List UInt8) : List Bool :=
  (List.range (bytes.length * 8)).map fun p => (bytes.getD (p / 8) 0).toNat &&& 1 <<< (p % 8) != 0

/-! ## The tree -/

structure CPartialMerkleTree where
  nTransactions : Nat
  vBits : List Bool
  vHash : List Uint256
  fBad : Bool

/-- In `unsigned int`. -/
def calcTreeWidth (nTransactions height : Nat) : Nat := ((nTransactions + 1 <<< height - 1) % 2 ^ 32) >>> height

def heightLoop (nTransactions : Nat) : Nat → Nat → Nat
  | 0, nHeight => nHeight
  | fuel + 1, nHeight => if calcTreeWidth nTransactions nHeight >
    1 then heightLoop nTransactions fuel (nHeight + 1) else nHeight

def calcHeight (nTransactions : Nat) : Nat := heightLoop nTransactions 32 0

variable (hash : Uint256 → Uint256 → Uint256)

def readAt {α : Type} (v : List α) (pos : Nat) : Checked α :=
  match v[pos]? with
  | some a => .ok a
  | none => .error .badIterator

def calcHash (nTransactions : Nat) (vTxid : List Uint256) : Nat → Nat → Checked Uint256
  | 0, pos => do
    check (vTxid.length ≠ 0)
    readAt vTxid pos
  | height + 1, pos => do
    check (vTxid.length ≠ 0)
    let left ← calcHash nTransactions vTxid height (pos * 2)
    let right ←
      if pos * 2 + 1 < calcTreeWidth nTransactions height then calcHash nTransactions vTxid height (pos * 2 + 1)
        else .ok left
    return hash left right

/-- Whether one of the next `count` transactions is matched. -/
def parentOfMatch (nTransactions : Nat) (vMatch : List Bool) : Nat → Nat → Checked Bool
  | 0, _ => .ok false
  | count + 1, p =>
    if p < nTransactions then do
      let fMatch ← readAt vMatch p
      let rest ← parentOfMatch nTransactions vMatch count (p + 1)
      return fMatch || rest
    else .ok false

def traverseAndBuild (vTxid : List Uint256) (vMatch : List Bool) : Nat → Nat → CPartialMerkleTree →
    Checked CPartialMerkleTree
  | 0, pos, tree => do
    let fParentOfMatch ← parentOfMatch tree.nTransactions vMatch 1 pos
    let h ← calcHash hash tree.nTransactions vTxid 0 pos
    return { tree with vBits := tree.vBits ++ [fParentOfMatch], vHash := tree.vHash ++ [h] }
  | height + 1, pos, tree => do
    let fParentOfMatch ← parentOfMatch tree.nTransactions vMatch (2 ^ (height + 1)) (pos <<< (height + 1))
    let tree := { tree with vBits := tree.vBits ++ [fParentOfMatch] }
    if !fParentOfMatch then do
      let h ← calcHash hash tree.nTransactions vTxid (height + 1) pos
      return { tree with vHash := tree.vHash ++ [h] }
    else do
      let tree ← traverseAndBuild vTxid vMatch height (pos * 2) tree
      if pos * 2 + 1 < calcTreeWidth tree.nTransactions height then
        traverseAndBuild vTxid vMatch height (pos * 2 + 1) tree
      else return tree

def CPartialMerkleTree.new (vTxid : List Uint256) (vMatch : List Bool) : Checked CPartialMerkleTree :=
  let nTransactions := vTxid.length % 2 ^ 32
  traverseAndBuild hash vTxid vMatch (calcHeight nTransactions) 0 ⟨nTransactions, [], [], false⟩

/-! ## Extraction -/

structure Extract where
  nBitsUsed : Nat := 0
  nHashUsed : Nat := 0
  vMatch : List Uint256 := []
  vnIndex : List Nat
  fBad : Bool
  /-- The pairs hashed so far. -/
  joined : List (Uint256 × Uint256) := []

def traverseAndExtract (tree : CPartialMerkleTree) : Nat → Nat → Extract → Uint256 × Extract
  | 0, pos, s =>
    match tree.vBits[s.nBitsUsed]? with
    | none => (0, { s with fBad := true })
    | some fParentOfMatch =>
      let s := { s with nBitsUsed := s.nBitsUsed + 1 }
      match tree.vHash[s.nHashUsed]? with
      | none => (0, { s with fBad := true })
      | some h =>
        let s := { s with nHashUsed := s.nHashUsed + 1 }
        if fParentOfMatch then (h, { s with vMatch := s.vMatch ++ [h], vnIndex := s.vnIndex ++ [pos] }) else (h, s)
  | height + 1, pos, s =>
    match tree.vBits[s.nBitsUsed]? with
    | none => (0, { s with fBad := true })
    | some fParentOfMatch =>
      let s := { s with nBitsUsed := s.nBitsUsed + 1 }
      if !fParentOfMatch then
        match tree.vHash[s.nHashUsed]? with
        | none => (0, { s with fBad := true })
        | some h => (h, { s with nHashUsed := s.nHashUsed + 1 })
      else
        let (left, s) := traverseAndExtract tree height (pos * 2) s
        if pos * 2 + 1 < calcTreeWidth tree.nTransactions height then
          let (right, s) := traverseAndExtract tree height (pos * 2 + 1) s
          (hash left right, { s with fBad := s.fBad || right == left, joined := s.joined ++ [(left, right)] })
        else (hash left left, { s with joined := s.joined ++ [(left, left)] })

structure Extracted where
  root : Uint256
  vMatch : List Uint256
  vnIndex : List Nat
  joined : List (Uint256 × Uint256)

/-- `vMatch` is cleared, `vnIndex` is not. Null says it is bad. -/
def extractMatches (tree : CPartialMerkleTree) (vnIndex : List Nat) : Extracted :=
  if tree.nTransactions = 0 then ⟨0, [], vnIndex, []⟩
  else if tree.nTransactions > MAX_BLOCK_WEIGHT / MIN_TRANSACTION_WEIGHT then ⟨0, [], vnIndex, []⟩
  else if tree.vHash.length > tree.nTransactions then ⟨0, [], vnIndex, []⟩
  else if tree.vBits.length < tree.vHash.length then ⟨0, [], vnIndex, []⟩
  else
    let (hashMerkleRoot, s) :=
      traverseAndExtract hash tree (calcHeight tree.nTransactions) 0 { vnIndex, fBad := tree.fBad }
    if s.fBad then ⟨0, s.vMatch, s.vnIndex, s.joined⟩
    else if (s.nBitsUsed + 7) / 8 ≠ (tree.vBits.length + 7) / 8 then ⟨0, s.vMatch, s.vnIndex, s.joined⟩
    else if s.nHashUsed ≠ tree.vHash.length then ⟨0, s.vMatch, s.vnIndex, s.joined⟩
    else ⟨hashMerkleRoot, s.vMatch, s.vnIndex, s.joined⟩

end FullNode.Merkle

import FullNode.Chain
import FullNode.Wire
import FullNode.Lib.Sha256

/-!
# Blocks of the pool

A string of hex digits is the byte string it spells. A hash of the node's interface is spelled with its bytes
reversed.
-/

namespace FullNode.Pool

open Wire (Stream readBits writeBits)

def sha256d (data : List UInt8) : List UInt8 := sha256 (sha256 data)

/-! ## The node -/

def readBlockHeader : Stream CBlockHeader := do
  let nVersion ← readBits 32
  let hashPrevBlock ← readBits 256
  let hashMerkleRoot ← readBits 256
  let nTime ← readBits 32
  let nBits ← readBits 32
  let nNonce ← readBits 32
  return { nVersion, hashPrevBlock, hashMerkleRoot, nTime, nBits, nNonce }

def ofBytes (bytes : List UInt8) : Uint256 := BitVec.ofNat 256 (leValue bytes)

/-- `SHA256D64` of one pair. -/
def hashPair (left right : Uint256) : Uint256 := ofBytes (sha256d (writeBits left ++ writeBits right))

def merkleLevel : List Uint256 → List Uint256
  | [] => []
  | [last] => [hashPair last last]
  | left :: right :: hashes => hashPair left right :: merkleLevel hashes

def merkleLoop : Nat → List Uint256 → Uint256
  | 0, hashes => hashes.headD 0
  | rounds + 1, hashes => if hashes.length > 1 then merkleLoop rounds (merkleLevel hashes) else hashes.headD 0

def computeMerkleRoot (hashes : List Uint256) : Uint256 := merkleLoop hashes.length hashes

/-! ## Templates -/

structure TemplateTx where
  txid : Uint256
  data : List UInt8

/-- What the pool reads of `getblocktemplate`. -/
structure Template where
  version : Uint32
  previousblockhash : Uint256
  transactions : List TemplateTx
  coinbasevalue : Uint64
  target : Uint256
  bits : Uint32
  height : Nat
  curtime : Uint32

/-- `GetHex`, and `%08x` of a word. -/
def hexOf {w : Nat} (value : BitVec w) : List UInt8 := (writeBits value).reverse

/-! ## The coinbase -/

def serializeHeight (height : Nat) : List UInt8 :=
  if height = 0 then [1, 0]
  else if height ≤ 0x7f then 1 :: leBytes 1 height
  else if height ≤ 0x7fff then 2 :: leBytes 2 height
  else if height ≤ 0x7fffff then 3 :: leBytes 3 height
  else 4 :: leBytes 4 height

def ALPHABET : List Char := "123456789ABCDEFGHJKLMNPQRSTUVWXYZabcdefghijkmnopqrstuvwxyz".toList

/-- The loop of `decode_address`, which raises off the alphabet. -/
def base58Value : List Char → Nat → Option Nat
  | [], n => some n
  | char :: chars, n => do
    let digit ← ALPHABET.idxOf? char
    base58Value chars (n * 58 + digit)

def decodeAddress (address : String) : Option (List UInt8) := do
  let n ← base58Value address.toList 0
  guard (n < 256 ^ 25)
  let data := (leBytes 25 n).reverse
  let payload := data.take 21
  guard (data.drop 21 = (sha256d payload).take 4)
  return payload.drop 1

def createP2pkhOutput (amountSatoshis : Uint64) (address : String) : Option (List UInt8) := do
  let pubkeyHash ← decodeAddress address
  let script := [0x76, 0xa9, 0x14] ++ pubkeyHash ++ [0x88, 0xac]
  return writeBits amountSatoshis ++ leBytes 1 script.length ++ script

/-! ## Jobs -/

structure Job where
  template : Template
  prevhashStratum : List UInt8
  cb1 : List UInt8
  cb2 : List UInt8
  merkleBranches : List (List UInt8)
  versionHex : List UInt8
  nbits : List UInt8
  target : Uint256

structure Miner where
  extranonce1 : List UInt8
  minerWallet : Option String := none
  jobs : List (String × Job) := []
  jobCounter : Nat := 0

def words : List UInt8 → List (List UInt8)
  | b0 :: b1 :: b2 :: b3 :: bytes => [b0, b1, b2, b3] :: words bytes
  | [] => []
  | bytes => [bytes]

def coinbaseEnd (poolAddress : String) (minerWallet : Option String) (reward : Uint64) : Option (List UInt8) := do
  let coinbaseAddress := minerWallet.getD poolAddress
  let outputs ← if coinbaseAddress ≠ "" then createP2pkhOutput reward coinbaseAddress
    else some (writeBits reward ++ [0x01, 0x51])
  return [0xff, 0xff, 0xff, 0xff] ++ [0x01] ++ outputs ++ [0, 0, 0, 0]

def makeJob (poolAddress : String) (minerWallet : Option String) (template : Template) : Option Job := do
  let heightScript := serializeHeight template.height
  let scriptsigLen := heightScript.length + 4 + 4
  let cb2 ← coinbaseEnd poolAddress minerWallet template.coinbasevalue
  return {
    template
    prevhashStratum := (words (hexOf template.previousblockhash)).reverse.flatten
    cb1 := [2, 0, 0, 0] ++ [1] ++ List.replicate 32 0 ++ [0xff, 0xff, 0xff, 0xff] ++ leBytes 1 scriptsigLen ++
      heightScript
    cb2
    merkleBranches := template.transactions.map fun tx => hexOf tx.txid
    versionHex := writeBits template.version
    nbits := hexOf template.bits
    target := template.target }

def jobIdOf (sessionId : String) (jobCounter : Nat) : String :=
  sessionId ++ String.ofList ((Nat.toDigits 16 jobCounter).leftpad 4 '0')

/-- `send_job`. When it raises, the counter has moved. -/
def sendJob (poolAddress sessionId : String) (miner : Miner) (template : Template) : Miner :=
  let jobCounter := miner.jobCounter + 1
  match makeJob poolAddress miner.minerWallet template with
  | none => { miner with jobCounter }
  | some job =>
    let jobs := if miner.jobs.length > 10 then miner.jobs.drop 1 else miner.jobs
    { miner with jobs := jobs ++ [(jobIdOf sessionId jobCounter, job)], jobCounter }

def findJob (miner : Miner) (jobId : String) : Option Job := miner.jobs.lookup jobId

/-! ## Submissions -/

def swapEndianWords (data : List UInt8) : List UInt8 := (words data).flatMap List.reverse

def merkleRoot (coinbaseHash : List UInt8) (branches : List (List UInt8)) : List UInt8 :=
  branches.foldl (fun current branch => sha256d (current ++ branch)) coinbaseHash

structure Submission where
  extranonce2 : Uint32
  ntime : Uint32
  nonce : Uint32

def coinbase (miner : Miner) (job : Job) (submission : Submission) : List UInt8 :=
  job.cb1 ++ miner.extranonce1 ++ hexOf submission.extranonce2 ++ job.cb2

def blockHeader (miner : Miner) (job : Job) (submission : Submission) : List UInt8 :=
  let mr := merkleRoot (sha256d (coinbase miner job submission)) job.merkleBranches
  job.versionHex.reverse ++ (swapEndianWords job.prevhashStratum ++ (mr ++
    ((hexOf submission.ntime).reverse ++ (job.nbits.reverse ++ (hexOf submission.nonce).reverse))))

def txCount (n : Nat) : List UInt8 :=
  if n < 0xfd then leBytes 1 n
  else if n ≤ 0xffff then 0xfd :: leBytes 2 n
  else if n ≤ 0xffffffff then 0xfe :: leBytes 4 n
  else []

def blockBody (miner : Miner) (job : Job) (submission : Submission) : List UInt8 :=
  txCount (1 + job.template.transactions.length) ++ coinbase miner job submission ++
    job.template.transactions.flatMap TemplateTx.data

/-- The block sent. `lowDifficulty` compares with `POOL_SHARE_DIFF`. -/
def handleSubmit (lowDifficulty : Nat → Bool) (miner : Miner) (jobId : String)
    (submission : Submission) : Option (List UInt8) := do
  let job ← findJob miner jobId
  let header := blockHeader miner job submission
  let hashInt := leValue (sha256d header)
  if lowDifficulty hashInt then none
  else if hashInt < job.target.toNat then some (header ++ blockBody miner job submission)
  else none

end FullNode.Pool

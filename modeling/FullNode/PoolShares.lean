import FullNode.Lib.Hex
import FullNode.PoolCommitments
import FullNode.PoolSessions

/-! # Shares -/

namespace FullNode.Pool

open List Option Hex
open Wire (writeBits writeVector writeCompactSize writeTxIn writeTxOut writeByteVector writeOutPoint
  CMutableTransaction unserializeTransaction serializeTransaction)

/-! ## Hex of Python -/

abbrev Json := WorkerName

def isSpace (c : Char) : Bool := 9 ≤ c.toNat && c.toNat ≤ 13 || c.toNat == 32

/-- `bytes.fromhex`. White space may stand between the bytes. -/
def fromHex : List Char → Option (List UInt8)
  | [] => some []
  | [c] => if isSpace c then some [] else none
  | c :: d :: rest =>
    if isSpace c then fromHex (d :: rest)
    else do
      let high ← Hex.digitValue c
      let low ← Hex.digitValue d
      let bytes ← fromHex rest
      return UInt8.ofNat (16 * high + low) :: bytes

/-! ## The handler -/

/-- `f"{extranonce_counter:08x}"`, with eight digits below 2^32. -/
def extranonce1Hex (extranonceCounter : Nat) : List Char := (Nat.toDigits 16 extranonceCounter).leftpad 8 '0'

structure Share where
  coinbase : List UInt8
  header : List UInt8
  deriving DecidableEq

/-- How a call ends. An exception is printed, nothing sent. -/
inductive Answer where
  | raised
  | error (code : Nat) (message : String)
  | accepted (share : Share)
  deriving DecidableEq

/-- Refused, or taken, maybe with the next template. -/
inductive NodeReply where
  | rejected
  | taken (template : Option Template)

def buildShare (extranonceCounter : Nat) (job : Job) (extranonce2 ntimeHex nonceHex : List Char) : Option Share := do
  let coinbase ← fromHex (Hex.encode job.cb1 ++ extranonce1Hex extranonceCounter ++ extranonce2 ++ Hex.encode job.cb2)
  let mr := merkleRoot (sha256d coinbase) job.merkleBranches
  let ntimeBytes ← fromHex ntimeHex
  let nonceBytes ← fromHex nonceHex
  return {
    coinbase
    header := job.versionHex.reverse ++ (swapEndianWords job.prevhashStratum ++ (mr ++
      (ntimeBytes.reverse ++ (job.nbits.reverse ++ nonceBytes.reverse)))) }

/-- The part of `handle_submit` before the statistics. -/
def readShare (extranonceCounter : Nat) (miner : Miner) : List Json → Except Answer (Job × Share)
  | _ :: jobId :: extranonce2 :: ntimeHex :: nonceHex :: _ =>
    match jobId with
    | .str jobId =>
      match findJob miner jobId with
      | none => .error (.error 21 "Job not found")
      | some job =>
        match extranonce2, ntimeHex, nonceHex with
        | .str extranonce2, .str ntimeHex, .str nonceHex =>
          match buildShare extranonceCounter job extranonce2.toList ntimeHex.toList nonceHex.toList with
          | none => .error .raised
          | some share => .ok (job, share)
        | _, _, _ => .error .raised
    | _ => .error .raised
  | _ => .error (.error 20 "Invalid params")

/-- The part behind the statistics. A block taken makes a new job. -/
def judgeShare (lowDifficulty : Nat → Bool) (poolAddress sessionId : String) (node : NodeReply)
    (miner : Miner) (job : Job) (share : Share) : Answer × Miner :=
  let hashInt := leValue (sha256d share.header)
  if lowDifficulty hashInt then (.error 23 "Low difficulty share", miner)
  else if hashInt < job.target.toNat then
    match node with
    | .rejected => (.accepted share, miner)
    | .taken none => (.accepted share, miner)
    | .taken (some template) =>
      (if (makeJob poolAddress miner.minerWallet template).isSome then .accepted share else .raised,
        sendJob poolAddress sessionId miner template)
  else (.accepted share, miner)

def handleSubmitParams (lowDifficulty : Nat → Bool) (poolAddress sessionId : String) (node : NodeReply)
    (extranonceCounter : Nat) (miner : Miner) (params : List Json) : Answer × Miner :=
  match readShare extranonceCounter miner params with
  | .error answer => (answer, miner)
  | .ok (job, share) => judgeShare lowDifficulty poolAddress sessionId node miner job share

/-! ## Well-formed shares -/

def payoutScript (poolAddress : String) (minerWallet : Option String) : Option (List UInt8) :=
  let coinbaseAddress := minerWallet.getD poolAddress
  if coinbaseAddress ≠ "" then (decodeAddress coinbaseAddress).map fun pubkeyHash =>
    [0x76, 0xa9, 0x14] ++ pubkeyHash ++ [0x88, 0xac]
  else some [0x51]

/-- The byte of `cb1` in front of the height. -/
def declaredLength (job : Job) : Nat := (job.cb1.getD 41 0).toNat

/-- The coinbase is one transaction as declared, and the header has its size. -/
structure WellFormed (poolAddress : String) (job : Job) (share : Share) : Prop where
  coinbase : ∃ minerWallet tx txin script,
    makeJob poolAddress minerWallet job.template = some job ∧ payoutScript poolAddress minerWallet = some script ∧
    (unserializeTransaction true).run share.coinbase = .ok (tx, []) ∧ tx.vin = [txin] ∧
      txin.scriptSig.length = declaredLength job ∧
    tx.vout = [{ nValue := job.template.coinbasevalue, scriptPubKey := script }]
  header : share.header.length = 80

def spelled (text : List Char) : Option Nat := (fromHex text).map List.length

/-- The extranonces are eight bytes, as are time and nonce. -/
def Fits (extranonceCounter : Nat) : List Json → Prop
  | _ :: _ :: .str extranonce2 :: .str ntimeHex :: .str nonceHex :: _ =>
    spelled (extranonce1Hex extranonceCounter ++ extranonce2.toList) = some 8 ∧
      ∃ i j, spelled ntimeHex.toList = some i ∧ spelled nonceHex.toList = some j ∧ i + j = 8
  | _ => False

def namedJob (miner : Miner) : List Json → Option Job
  | _ :: .str jobId :: _ => findJob miner jobId
  | _ => none

/-! ## Texts -/

theorem digitChar_not_space (n : Nat) (h : n < 16) : isSpace (Nat.digitChar n) = false := by
  interval_cases n <;> rfl

theorem fromHex_encode_append (bytes : List UInt8) (text : List Char) :
    fromHex (encode bytes ++ text) = (fromHex text).map (bytes ++ ·) := by
  induction bytes with
  | nil => cases h : fromHex text <;> simp [encode, h]
  | cons b bytes ih =>
    have hb := b.toNat_lt
    rw [encode_cons, cons_append, cons_append, fromHex, digitChar_not_space _ (by omega),
      digitValue_digitChar (by omega), digitValue_digitChar (by omega), ih]
    cases fromHex text with
    | none => rfl
    | some rest =>
      simp only [Bool.false_eq_true, if_false, bind_eq_bind, bind_some, map_some, ofNat_halves]
      rfl

theorem fromHex_encode (bytes : List UInt8) : fromHex (encode bytes) = some bytes := by
  have h := fromHex_encode_append bytes []
  rwa [append_nil, fromHex, map_some, append_nil] at h

theorem fromHex_odd {c : Char} (hc : isSpace c = false) (bytes : List UInt8) : fromHex (c :: encode bytes) = none := by
  induction bytes generalizing c with
  | nil => simp [encode, fromHex, hc]
  | cons b bytes ih =>
    rw [encode_cons, fromHex, hc, ih (digitChar_not_space _ (by omega))]
    cases digitValue c with
    | none => rfl
    | some high => cases digitValue (Nat.digitChar (b.toNat / 16)) <;> rfl

theorem fromHex_append_encode (text : List Char) (bytes : List UInt8) :
    fromHex (text ++ encode bytes) = (fromHex text).map (· ++ bytes) := by
  induction text using fromHex.induct with
  | case1 => exact fromHex_encode bytes
  | case2 c hspace =>
    rw [fromHex, if_pos hspace]
    cases bytes with
    | nil => simp [encode, fromHex, hspace]
    | cons b bytes =>
      have hencode := fromHex_encode (b :: bytes)
      rw [encode_cons] at hencode ⊢
      rw [singleton_append, fromHex, if_pos hspace, hencode]
      rfl
  | case3 c hspace =>
    rw [fromHex, if_neg hspace]
    exact fromHex_odd (by simpa using hspace) bytes
  | case4 c d rest hspace ih =>
    rw [fromHex, if_pos hspace, ← ih, cons_append, cons_append, fromHex, if_pos hspace]
  | case5 c d rest hspace ih =>
    rw [fromHex, if_neg hspace, cons_append, cons_append, fromHex, if_neg hspace, ih]
    cases digitValue c with
    | none => rfl
    | some high =>
      cases digitValue d with
      | none => rfl
      | some low => cases fromHex rest <;> rfl

/-! ## The parts of a share -/

variable {counter : Nat} {job : Job} {share : Share} {miner : Miner} {params : List Json} {poolAddress : String}
  {minerWallet : Option String} {script heightScript extranonces : List UInt8} {template : Template}
  {tx : CMutableTransaction} {txin : Wire.CTxIn} {txout : Wire.CTxOut}

theorem buildShare_eq_some {extranonce2 ntimeHex nonceHex : List Char}
    (h : buildShare counter job extranonce2 ntimeHex nonceHex = some share) :
    ∃ extranonces ntimeBytes nonceBytes, fromHex (extranonce1Hex counter ++ extranonce2) = some extranonces ∧
      fromHex ntimeHex = some ntimeBytes ∧ fromHex nonceHex = some nonceBytes ∧
        share.coinbase = job.cb1 ++ (extranonces ++ job.cb2) ∧
      share.header = job.versionHex.reverse ++ (swapEndianWords job.prevhashStratum ++
        (merkleRoot (sha256d share.coinbase) job.merkleBranches ++
          (ntimeBytes.reverse ++ (job.nbits.reverse ++ nonceBytes.reverse)))) := by
  obtain ⟨coinbase, hcoinbase, h⟩ := bind_eq_some_iff.mp h
  obtain ⟨ntimeBytes, hntime, h⟩ := bind_eq_some_iff.mp h
  obtain ⟨nonceBytes, hnonce, h⟩ := bind_eq_some_iff.mp h
  cases h
  rw [append_assoc, append_assoc, fromHex_encode_append, ← append_assoc, fromHex_append_encode,
    Option.map_map] at hcoinbase
  obtain ⟨extranonces, hextranonces, rfl⟩ := map_eq_some_iff.mp hcoinbase
  exact ⟨extranonces, ntimeBytes, nonceBytes, hextranonces, hntime, hnonce, rfl, rfl⟩

theorem readShare_ok (h : readShare counter miner params = .ok (job, share)) :
    ∃ worker jobId extranonce2 ntimeHex nonceHex rest,
    params = worker :: .str jobId :: .str extranonce2 :: .str ntimeHex :: .str nonceHex :: rest ∧
      findJob miner jobId = some job ∧
    buildShare counter job extranonce2.toList ntimeHex.toList nonceHex.toList = some share := by
  unfold readShare at h
  split at h
  · next worker jobId extranonce2 ntimeHex nonceHex rest =>
    split at h
    · next jobId =>
      split at h
      · cases h
      · next hjob =>
        split at h
        · next extranonce2 ntimeHex nonceHex =>
          split at h
          · cases h
          · next hshare =>
            cases h
            exact ⟨worker, jobId, extranonce2, ntimeHex, nonceHex, rest, rfl, hjob, hshare⟩
        · cases h
    · cases h
  · cases h

theorem readShare_error {answer : Answer}
    (h : readShare counter miner params = .error answer) (share : Share) : answer ≠ .accepted share := by
  rintro rfl
  unfold readShare at h
  split at h
  · split at h
    · split at h
      · cases h
      · split at h
        · split at h <;> cases h
        · cases h
    · cases h
  · cases h

theorem judgeShare_accepted {lowDifficulty : Nat → Bool} {sessionId : String} {node : NodeReply} {share' : Share}
    (h : (judgeShare lowDifficulty poolAddress sessionId node miner job share).1 = .accepted share') :
    share' = share := by
  unfold judgeShare at h
  simp only at h
  split at h
  · cases h
  · split at h
    · split at h
      · exact (Answer.accepted.inj h).symm
      · exact (Answer.accepted.inj h).symm
      · simp only at h
        split at h
        · exact (Answer.accepted.inj h).symm
        · cases h
    · exact (Answer.accepted.inj h).symm

/-! ## The coinbase -/

theorem decodeAddress_length {address : String} {pubkeyHash : List UInt8}
    (h : decodeAddress address = some pubkeyHash) : pubkeyHash.length = 20 := by
  obtain ⟨_, -, h⟩ := bind_eq_some_iff.mp h
  obtain ⟨-, -, h⟩ := bind_eq_some_iff.mp h
  obtain ⟨-, -, h⟩ := bind_eq_some_iff.mp h
  obtain rfl := some.inj h
  rw [length_drop, length_take, length_reverse, leBytes_length]
  rfl

theorem payoutScript_length (h : payoutScript poolAddress minerWallet = some script) : script.length ≤ 25 := by
  unfold payoutScript at h
  simp only at h
  split at h
  · obtain ⟨_, hhash, rfl⟩ := map_eq_some_iff.mp h
    simp [decodeAddress_length hhash]
  · obtain rfl := some.inj h
    decide

def coinbaseStart (heightScript : List UInt8) : List UInt8 :=
  [2, 0, 0, 0] ++ [1] ++ List.replicate 32 0 ++ [0xff, 0xff, 0xff, 0xff] ++
    leBytes 1 (heightScript.length + 4 + 4) ++ heightScript

def coinbaseTail (reward : Uint64) (script : List UInt8) : List UInt8 :=
  [0xff, 0xff, 0xff, 0xff] ++ [0x01] ++ (writeBits reward ++ leBytes 1 script.length ++ script) ++ [0, 0, 0, 0]

theorem coinbaseEnd_eq (poolAddress : String) (minerWallet : Option String) (reward : Uint64) :
    coinbaseEnd poolAddress minerWallet reward = (payoutScript poolAddress minerWallet).map (coinbaseTail reward) := by
  unfold coinbaseEnd payoutScript createP2pkhOutput
  simp only
  split
  · cases decodeAddress (minerWallet.getD poolAddress) <;> rfl
  · rfl

theorem makeJob_some (h : makeJob poolAddress minerWallet template = some job) :
    ∃ script, payoutScript poolAddress minerWallet = some script ∧
      job.cb1 = coinbaseStart (serializeHeight template.height) ∧
        job.cb2 = coinbaseTail template.coinbasevalue script := by
  obtain ⟨cb2, hcb2, hmake⟩ := bind_eq_some_iff.mp h
  obtain rfl := some.inj hmake
  rw [coinbaseEnd_eq] at hcb2
  obtain ⟨script, hscript, rfl⟩ := map_eq_some_iff.mp hcb2
  exact ⟨script, hscript, rfl, rfl⟩

theorem makeJob_header (h : makeJob poolAddress minerWallet template = some job) {root : List UInt8}
    (hroot : root.length = 32) (ntimeBytes nonceBytes : List UInt8) :
      (job.versionHex.reverse ++ (swapEndianWords job.prevhashStratum ++
        (root ++ (ntimeBytes.reverse ++ (job.nbits.reverse ++ nonceBytes.reverse))))).length =
          72 + (ntimeBytes.length + nonceBytes.length) := by
  obtain ⟨_, -, hmake⟩ := bind_eq_some_iff.mp h
  obtain rfl := some.inj hmake
  have hprev : (swapEndianWords (words (hexOf template.previousblockhash)).reverse.flatten).length = 32 := by
    rw [swapEndianWords_words (n := 8) (hexOf_length _), length_reverse, hexOf_length]
  have hbits : (hexOf template.bits).length = 4 := by
    unfold hexOf
    rw [length_reverse, writeBits_length]
  simp only [length_append, length_reverse, hprev, hroot, hbits, writeBits_length]
  omega

theorem serializeHeight_length (height : Nat) : (serializeHeight height).length ≤ 5 := by
  unfold serializeHeight
  split
  · decide
  · split
    · simp [leBytes_length]
    · split
      · simp [leBytes_length]
      · split
        · simp [leBytes_length]
        · simp [leBytes_length]

/-! ## The transaction -/

def coinbaseTx (scriptSig : List UInt8) (reward : Uint64) (script : List UInt8) : CMutableTransaction where
  vin := [{ prevout := ⟨0, 0xffffffff⟩, scriptSig, nSequence := 0xffffffff, scriptWitness := [] }]
  vout := [{ nValue := reward, scriptPubKey := script }]
  version := 2
  nLockTime := 0

theorem writeCompactSize_small {n : Nat} (h : n < 253) : writeCompactSize n = leBytes 1 n := by
  unfold Wire.writeCompactSize
  rw [if_pos h]

theorem writeByteVector_small {bytes : List UInt8} (h : bytes.length < 253) :
    writeByteVector bytes = leBytes 1 bytes.length ++ bytes := by
  unfold Wire.writeByteVector
  rw [writeCompactSize_small h]

theorem coinbase_spells (reward : Uint64) (hheight : heightScript.length ≤ 5)
    (hscript : script.length ≤ 25) (h8 : extranonces.length = 8) :
    coinbaseStart heightScript ++ (extranonces ++ coinbaseTail reward script) =
      serializeTransaction true (coinbaseTx (heightScript ++ extranonces) reward script) := by
  have hsig : (heightScript ++ extranonces).length < 253 := by
    rw [length_append]
    omega
  rw [Wire.serializeTransaction_of_not_hasWitness rfl]
  unfold coinbaseTx Wire.writeVector Wire.writeTxIn Wire.writeTxOut
  simp only [flatMap_singleton, length_singleton]
  rw [writeByteVector_small hsig, writeByteVector_small (by omega), writeCompactSize_small (by decide),
    length_append, h8]
  unfold coinbaseStart coinbaseTail Wire.writeOutPoint
  simp only [append_assoc]
  rfl

theorem coinbaseTx_small (reward : Uint64) (hheight : heightScript.length ≤ 5)
    (hscript : script.length ≤ 25) (h8 : extranonces.length = 8) :
    Wire.Small (coinbaseTx (heightScript ++ extranonces) reward script) := by
  unfold coinbaseTx
  constructor <;> simp [Wire.MAX_SIZE, Wire.SmallWitness] <;> omega

theorem serializeTransaction_length (hwitness : tx.hasWitness = false)
    (hvin : tx.vin = [txin]) (hvout : tx.vout = [txout]) (hsig : txin.scriptSig.length < 253)
    (hscript : txout.scriptPubKey.length < 253) :
    (serializeTransaction true tx).length = 60 + (txin.scriptSig.length + txout.scriptPubKey.length) := by
  rw [Wire.serializeTransaction_of_not_hasWitness hwitness, hvin, hvout]
  unfold Wire.writeVector Wire.writeTxIn Wire.writeTxOut Wire.writeOutPoint
  simp only [flatMap_singleton, length_singleton]
  rw [writeByteVector_small hsig, writeByteVector_small hscript, writeCompactSize_small (by decide)]
  simp only [length_append, writeBits_length, leBytes_length]
  omega

theorem extranonces_length {reward : Uint64} (hheight : heightScript.length ≤ 5) (hscript : script.length ≤ 25)
    (hread : (unserializeTransaction true).run (coinbaseStart heightScript ++
      (extranonces ++ coinbaseTail reward script)) = .ok (tx, []))
    (hvin : tx.vin = [txin]) (hsig : txin.scriptSig.length = heightScript.length + 8)
    (hvout : tx.vout = [txout]) (hout : txout.scriptPubKey = script) : extranonces.length = 8 := by
  have hbytes := Wire.ser_unser hread
  rw [append_nil] at hbytes
  cases hwitness : tx.hasWitness with
  | true =>
    -- The count of the inputs is one, and the flag of the witnesses is behind a count of zero.
    rw [Wire.serializeTransaction_of_hasWitness hwitness] at hbytes
    have hcount := congrArg (·[4]?) hbytes
    have hversion : (writeBits tx.version).length = 4 := writeBits_length _
    simp only [getElem?_append_right (le_of_eq hversion), hversion] at hcount
    exact absurd (some.inj hcount) (by decide)
  | false =>
    have hlength := congrArg length hbytes
    rw [serializeTransaction_length hwitness hvin hvout (by omega) (by rw [hout]; omega), hout, hsig] at hlength
    unfold coinbaseStart coinbaseTail at hlength
    simp only [length_append, length_cons, length_nil, length_replicate, leBytes_length, writeBits_length] at hlength
    omega

/-! ## Accepted submissions -/

theorem wellFormed_iff {extranonce2 ntimeHex nonceHex : String}
    (hmade : makeJob poolAddress minerWallet job.template = some job)
    (hshare : buildShare counter job extranonce2.toList ntimeHex.toList nonceHex.toList = some share)
    (worker jobId : Json) (rest : List Json) : WellFormed poolAddress job share ↔
      Fits counter (worker :: jobId :: .str extranonce2 :: .str ntimeHex :: .str nonceHex :: rest) := by
  obtain ⟨extranonces, ntimeBytes, nonceBytes, hextranonces, hntime, hnonce, hcoinbase, hheader⟩ :=
      buildShare_eq_some hshare
  obtain ⟨script, hscript, hstart, htail⟩ := makeJob_some hmade
  have hheight := serializeHeight_length job.template.height
  have hshort := payoutScript_length hscript
  have hdeclared : declaredLength job = (serializeHeight job.template.height).length + 8 := by
    have hbyte : declaredLength job = ((serializeHeight job.template.height).length + 4 + 4) % 256 % 256 := by
      unfold declaredLength
      rw [hstart]
      rfl
    omega
  have hsize : share.header.length = 72 + (ntimeBytes.length + nonceBytes.length) := by
    rw [hheader]
    exact makeJob_header hmade (merkleRoot_length (sha256d_length _) _) _ _
  unfold Fits spelled
  simp only [hextranonces, hntime, hnonce, map_some, some.injEq]
  constructor
  · rintro ⟨⟨_, _, _, script', hmade', hscript', hread, hvin, hsig, hvout⟩, _⟩
    obtain ⟨script'', hscript'', -, htail'⟩ := makeJob_some hmade'
    obtain rfl : script' = script'' := some.inj (hscript'.symm.trans hscript'')
    rw [hcoinbase, hstart, htail'] at hread
    exact ⟨extranonces_length hheight (payoutScript_length hscript') hread hvin (hsig.trans hdeclared) hvout rfl,
      ntimeBytes.length, nonceBytes.length, rfl, rfl, by omega⟩
  · rintro ⟨h8, _, _, rfl, rfl, _⟩
    refine ⟨⟨minerWallet, coinbaseTx (serializeHeight job.template.height ++ extranonces)
      job.template.coinbasevalue script, _, script, hmade, hscript, ?_, rfl, ?_, rfl⟩, by omega⟩
    · rw [hcoinbase, hstart, htail, coinbase_spells _ hheight hshort h8, ← append_nil (serializeTransaction _ _)]
      exact Wire.unser_ser_of_not_hasWitness (coinbaseTx_small _ hheight hshort h8) rfl (cons_ne_nil _ _) []
    · rw [length_append, h8, hdeclared]

/-- Well-formed exactly when the texts fill the gaps. -/
theorem accepted_wellFormed_iff {lowDifficulty : Nat → Bool} {poolAddress sessionId : String} {node : NodeReply}
    {counter : Nat} {miner : Miner} {params : List Json} {share : Share}
    (hminer : Reachable poolAddress sessionId miner)
    (haccepted : (handleSubmitParams lowDifficulty poolAddress sessionId node counter miner params).1 =
      .accepted share) :
    ∃ job, namedJob miner params = some job ∧ (WellFormed poolAddress job share ↔ Fits counter params) := by
  unfold handleSubmitParams at haccepted
  cases hread : readShare counter miner params with
  | error answer =>
    rw [hread] at haccepted
    exact absurd haccepted (readShare_error hread share)
  | ok read =>
    obtain ⟨job, _⟩ := read
    rw [hread] at haccepted
    obtain rfl := judgeShare_accepted haccepted
    obtain ⟨worker, jobId, _, _, _, rest, rfl, hjob, hshare⟩ := readShare_ok hread
    obtain ⟨_, _, hjobs, -⟩ := lookup_eq_some_iff.mp hjob
    obtain ⟨_, hmade⟩ := hminer.jobs (jobId, job) (by rw [hjobs]; simp)
    exact ⟨job, hjob, wellFormed_iff hmade hshare worker (.str jobId) rest⟩

/-! ## Two submissions -/

def belowThousandth (hashInt : Nat) : Bool := 1000 * (0xffff * 2 ^ 208) < hashInt

def smallShare (extranonce2 nonceHex : String) : List Json :=
  [.str "rig", .str "00000001", .str extranonce2, .str "6553f100", .str nonceHex]

/-- The answer to the first session for a share of its first job. -/
def smallAnswer (extranonce2 nonceHex : String) : Answer :=
  (handleSubmitParams belowThousandth "" "0000" .rejected 1 (smallMiner (smallTemplate 0x20000020 []))
    (smallShare extranonce2 nonceHex)).1

theorem smallAnswer_accepted {extranonce2 nonceHex : String}
    (h : ∃ share, buildShare 1 (smallJob (smallTemplate 0x20000020 [])) extranonce2.toList "6553f100".toList
      nonceHex.toList = some share ∧ belowThousandth (leValue (sha256d share.header)) = false) :
    ∃ share, buildShare 1 (smallJob (smallTemplate 0x20000020 [])) extranonce2.toList "6553f100".toList
      nonceHex.toList = some share ∧ smallAnswer extranonce2 nonceHex = .accepted share := by
  obtain ⟨share, hshare, hdifficulty⟩ := h
  refine ⟨share, hshare, ?_⟩
  unfold smallAnswer handleSubmitParams readShare smallShare
  simp only [smallMiner_job, hshare]
  unfold judgeShare
  simp only [hdifficulty, Bool.false_eq_true, if_false]
  split
  · rfl
  · rfl

/-- With the four bytes asked for the share is well-formed. -/
theorem smallAnswer_wellFormed : ∃ share, smallAnswer "00000000" "003bc228" = .accepted share ∧
    WellFormed "" (smallJob (smallTemplate 0x20000020 [])) share := by
  have hshare : (buildShare 1 (smallJob (smallTemplate 0x20000020 [])) "00000000".toList "6553f100".toList
      "003bc228".toList).any
      (fun share => !belowThousandth (leValue (sha256d share.header))) = true := by decide +kernel
  obtain ⟨share, hsome, hdifficulty⟩ := (any_eq_true _ _).mp hshare
  obtain ⟨share, -, haccepted⟩ := smallAnswer_accepted ⟨share, hsome, by simpa using hdifficulty⟩
  obtain ⟨_, hjob, hiff⟩ := accepted_wellFormed_iff (smallMiner_reachable _) haccepted
  have hnamed : namedJob (smallMiner (smallTemplate 0x20000020 [])) (smallShare "00000000" "003bc228") =
      some (smallJob (smallTemplate 0x20000020 [])) := smallMiner_job _
  obtain rfl := some.inj (hnamed.symm.trans hjob)
  exact ⟨share, haccepted, hiff.mpr ⟨by decide, 4, 4, by decide, by decide, rfl⟩⟩

/-- With an empty extranonce the coinbase is no such transaction. -/
theorem smallAnswer_not_wellFormed : ∃ share, smallAnswer "" "004c193e" = .accepted share ∧
    ¬ WellFormed "" (smallJob (smallTemplate 0x20000020 [])) share := by
  have hshare : (buildShare 1 (smallJob (smallTemplate 0x20000020 [])) "".toList "6553f100".toList
      "004c193e".toList).any
      (fun share => !belowThousandth (leValue (sha256d share.header))) = true := by decide +kernel
  obtain ⟨share, hsome, hdifficulty⟩ := (any_eq_true _ _).mp hshare
  obtain ⟨share, hsome, haccepted⟩ := smallAnswer_accepted ⟨share, hsome, by simpa using hdifficulty⟩
  refine ⟨share, haccepted, ?_⟩
  rw [wellFormed_iff (smallJob_made _) hsome .null .null []]
  rintro ⟨h8, -⟩
  exact absurd h8 (by decide)

end FullNode.Pool

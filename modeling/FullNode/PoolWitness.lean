import FullNode.PoolShares

/-! # Witnesses in blocks of the pool -/

namespace FullNode.Pool

open List
open Wire (Stream MAX_SIZE CMutableTransaction readCompactSize readVector serializeTransaction
  unserializeTransaction writeBits writeCompactSize writeCompactSize_canonical)

/-! ## The node -/

/-- `SERIALIZE_METHODS` of `CBlock`. -/
def readBlock : Stream (CBlockHeader × List CMutableTransaction) := do
  let header ← readBlockHeader
  let vtx ← readVector (unserializeTransaction true)
  return (header, vtx)

def MINIMUM_WITNESS_COMMITMENT : Nat := 38

/-- The test of `GetWitnessCommitmentIndex` on one output. -/
def isCommitment (txout : Wire.CTxOut) : Bool :=
  decide (MINIMUM_WITNESS_COMMITMENT ≤ txout.scriptPubKey.length) &&
    [0x6a, 0x24, 0xaa, 0x21, 0xa9, 0xed].isPrefixOf txout.scriptPubKey

def getWitnessCommitmentIndex : List CMutableTransaction → Option Nat
  | [] => none
  | gentx :: _ =>
    gentx.vout.zipIdx.foldl (fun commitpos entry => if isCommitment entry.1 then some entry.2 else commitpos) none

def getWitnessHash (tx : CMutableTransaction) : Uint256 := ofBytes (sha256d (serializeTransaction true tx))

def blockWitnessMerkleRoot (vtx : List CMutableTransaction) : Uint256 :=
  computeMerkleRoot (0 :: (vtx.drop 1).map getWitnessHash)

def updateUncommittedBlockStructures (segwitActive : Bool) (vtx : List CMutableTransaction) :
    Checked (List CMutableTransaction) :=
  match vtx with
  | [] => .ok []
  | gentx :: rest =>
    if (getWitnessCommitmentIndex vtx).isSome && segwitActive && !gentx.hasWitness then
      match gentx.vin with
      | [] => .error .badIterator
      | txin :: vin => .ok ({ gentx with vin := { txin with scriptWitness := [List.replicate 32 0] } :: vin } :: rest)
    else .ok vtx

/-- The reject reason of a block not checked before. -/
def checkWitnessMalleation (vtx : List CMutableTransaction) (expectWitnessCommitment : Bool) :
    Checked (Option String) :=
  match if expectWitnessCommitment then getWitnessCommitmentIndex vtx else none with
  | some commitpos =>
    match vtx with
    | [] => .error .assertion
    | gentx :: _ =>
      match gentx.vin with
      | [] => .error .assertion
      | txin :: _ =>
        match txin.scriptWitness with
        | [reserved] =>
          if reserved.length ≠ 32 then .ok (some "bad-witness-nonce-size")
          else if sha256d (writeBits (blockWitnessMerkleRoot vtx) ++ reserved) ≠
              (((gentx.vout[commitpos]?.map Wire.CTxOut.scriptPubKey).getD []).drop 6).take 32 then
            .ok (some "bad-witness-merkle-match")
          else .ok none
        | _ => .ok (some "bad-witness-nonce-size")
  | none => .ok (if vtx.any CMutableTransaction.hasWitness then some "unexpected-witness" else none)

def submitBlockWitness (segwitActive : Bool) (block : List UInt8) : Checked (Option String) :=
  match readBlock.run block with
  | .error _ => .ok (some "Block decode failed")
  | .ok ((_, vtx), _) => do
    let vtx ← updateUncommittedBlockStructures segwitActive vtx
    checkWitnessMalleation vtx true

/-- The transactions come whole, no more than fit a block. -/
structure FullData (template : Template) (txs : List CMutableTransaction) : Prop where
  data : template.transactions.map TemplateTx.data = txs.map (serializeTransaction true)
  count : txs.length < MAX_SIZE
  inputs : ∀ tx ∈ txs, tx.vin ≠ []
  small : ∀ tx ∈ txs, Wire.Small tx

/-! ## The block -/

theorem txCount_eq {n : Nat} (h : n ≤ MAX_SIZE) : txCount n = writeCompactSize n := by
  unfold MAX_SIZE at h
  unfold txCount Wire.writeCompactSize
  split
  · rfl
  · split
    · rfl
    · rw [if_pos (by omega), if_pos (by omega)]
      rfl

variable {txs : List CMutableTransaction} {poolAddress : String} {minerWallet : Option String}
  {miner : Miner} {job : Job} {submission : Submission} {gentx : CMutableTransaction}

theorem readTransactions (hinputs : ∀ tx ∈ txs, tx.vin ≠ []) (hsmall : ∀ tx ∈ txs, Wire.Small tx) (rest : List UInt8) :
    ((unserializeTransaction true).replicate txs.length).run (txs.flatMap (serializeTransaction true) ++ rest) =
      .ok (txs, rest) := by
  induction txs with
  | nil => rfl
  | cons tx txs ih =>
    have htx := Wire.transaction_format_canonical.1 tx (txs.flatMap (serializeTransaction true) ++ rest)
      (hinputs tx mem_cons_self) (hsmall tx mem_cons_self)
    rw [flatMap_cons, append_assoc, length_cons, Reader.replicate, Reader.run_bind_of_ok htx,
      Reader.run_bind_of_ok (ih (fun tx h => hinputs tx (mem_cons_of_mem _ h))
        (fun tx h => hsmall tx (mem_cons_of_mem _ h)))]
    rfl

section

variable (hmade : makeJob poolAddress minerWallet job.template = some job)
include hmade

theorem blockBody_eq
    (h4 : miner.extranonce1.length = 4) (hdata : FullData job.template txs) (submission : Submission) :
    ∃ gentx, gentx.vin ≠ [] ∧ Wire.Small gentx ∧ gentx.hasWitness = false ∧
      (∀ txout ∈ gentx.vout, isCommitment txout = false) ∧
      blockBody miner job submission =
        writeCompactSize (gentx :: txs).length ++ (gentx :: txs).flatMap (serializeTransaction true) := by
  obtain ⟨script, hscript, hstart, htail⟩ := makeJob_some hmade
  have hheight := serializeHeight_length job.template.height
  have hshort := payoutScript_length hscript
  have h8 : (miner.extranonce1 ++ hexOf submission.extranonce2).length = 8 := by
    unfold hexOf
    rw [length_append, h4, length_reverse, writeBits_length]
  refine ⟨coinbaseTx (serializeHeight job.template.height ++ (miner.extranonce1 ++ hexOf submission.extranonce2))
    job.template.coinbasevalue script, cons_ne_nil _ _, coinbaseTx_small _ hheight hshort h8, rfl, ?_, ?_⟩
  · intro txout hmem
    obtain rfl := mem_singleton.mp hmem
    have hlt : ¬ MINIMUM_WITNESS_COMMITMENT ≤ script.length := by
      unfold MINIMUM_WITNESS_COMMITMENT
      omega
    unfold isCommitment
    rw [decide_eq_false hlt, Bool.false_and]
  · have hcount : job.template.transactions.length = txs.length := by simpa using congrArg length hdata.data
    have hcoinbase : coinbase miner job submission = serializeTransaction true
        (coinbaseTx (serializeHeight job.template.height ++ (miner.extranonce1 ++ hexOf submission.extranonce2))
          job.template.coinbasevalue script) := by
      rw [← coinbase_spells _ hheight hshort h8, ← hstart, ← htail]
      unfold coinbase
      simp only [append_assoc]
    unfold blockBody
    rw [hcoinbase, hcount, flatMap_def, hdata.data, length_cons, Nat.add_comm, txCount_eq hdata.count,
      flatMap_cons, flatMap_def, append_assoc]

theorem readBlock_submitted (hdata : FullData job.template txs)
    (hinputs : gentx.vin ≠ []) (hsmall : Wire.Small gentx)
    (hbody : blockBody miner job submission =
      writeCompactSize (gentx :: txs).length ++ (gentx :: txs).flatMap (serializeTransaction true)) :
    ∃ header, readBlock.run (blockHeader miner job submission ++ blockBody miner job submission) =
      .ok ((header, gentx :: txs), []) := by
  have hcount := writeCompactSize_canonical.unser_ser (a := (gentx :: txs).length) hdata.count
    ((gentx :: txs).flatMap (serializeTransaction true))
  have htxs := readTransactions (forall_mem_cons.mpr ⟨hinputs, hdata.inputs⟩)
      (forall_mem_cons.mpr ⟨hsmall, hdata.small⟩) []
  rw [append_nil] at htxs
  have hheader := readBlockHeader_blockHeader hmade miner submission (blockBody miner job submission)
  have hvtx : (readVector (unserializeTransaction true)).run (blockBody miner job submission) =
      .ok (gentx :: txs, []) := by
    rw [hbody]
    exact (Reader.run_bind_of_ok hcount).trans htxs
  exact ⟨_, (Reader.run_bind_of_ok hheader).trans ((Reader.run_bind_of_ok hvtx).trans rfl)⟩

end

/-! ## The rule -/

theorem commitmentIndex_none (h : ∀ txout ∈ gentx.vout, isCommitment txout = false)
    (txs : List CMutableTransaction) : getWitnessCommitmentIndex (gentx :: txs) = none := by
  unfold getWitnessCommitmentIndex
  refine foldlRecOn (motive := fun commitpos => commitpos = none) _ _ rfl ?_
  rintro _ rfl ⟨txout, _⟩ hmem
  rw [h txout (fst_mem_of_mem_zipIdx hmem), if_neg Bool.false_ne_true]

theorem uncommitted_reason (h : ∀ txout ∈ gentx.vout, isCommitment txout = false)
    (hgentx : gentx.hasWitness = false) (segwitActive : Bool) (txs : List CMutableTransaction) :
    (updateUncommittedBlockStructures segwitActive (gentx :: txs) >>= fun vtx => checkWitnessMalleation vtx true) =
      .ok (if txs.any CMutableTransaction.hasWitness then some "unexpected-witness" else none) := by
  have hindex := commitmentIndex_none h txs
  have hupdate : updateUncommittedBlockStructures segwitActive (gentx :: txs) = .ok (gentx :: txs) := by
    unfold updateUncommittedBlockStructures
    simp only [hindex, Option.isSome_none, Bool.false_and, Bool.false_eq_true, if_false]
  rw [hupdate]
  show checkWitnessMalleation (gentx :: txs) true = _
  unfold checkWitnessMalleation
  simp only [hindex, if_true, any_cons, hgentx, Bool.false_or]

theorem submitBlockWitness_eq (hmade : makeJob poolAddress minerWallet job.template = some job)
    (h4 : miner.extranonce1.length = 4) (hdata : FullData job.template txs) (segwitActive : Bool) :
    submitBlockWitness segwitActive (blockHeader miner job submission ++ blockBody miner job submission) =
      .ok (if txs.any CMutableTransaction.hasWitness then some "unexpected-witness" else none) := by
  obtain ⟨_, hinputs, hsmall, hgentx, houtputs, hbody⟩ := blockBody_eq hmade h4 hdata submission
  obtain ⟨_, hread⟩ := readBlock_submitted hmade hdata hinputs hsmall hbody
  unfold submitBlockWitness
  rw [hread]
  exact uncommitted_reason houtputs hgentx segwitActive txs

/-- It passes just when the template carries no witness. -/
theorem submitted_witness_iff {poolAddress sessionId jobId : String} {miner : Miner} {lowDifficulty : Nat → Bool}
    {submission : Submission} {block : List UInt8} (hminer : Reachable poolAddress sessionId miner)
    (h4 : miner.extranonce1.length = 4) (hblock : handleSubmit lowDifficulty miner jobId submission = some block) :
    ∃ job, findJob miner jobId = some job ∧ ∀ segwitActive txs, FullData job.template txs →
      (submitBlockWitness segwitActive block = .ok none ↔ ∀ tx ∈ txs, tx.hasWitness = false) := by
  obtain ⟨job, hfind, hsubmit⟩ := Option.bind_eq_some_iff.mp hblock
  obtain ⟨_, _, hjobs, -⟩ := lookup_eq_some_iff.mp hfind
  obtain ⟨_, hmade⟩ := hminer.jobs (jobId, job) (by rw [hjobs]; simp)
  refine ⟨job, hfind, fun segwitActive txs hdata => ?_⟩
  simp only at hsubmit
  split at hsubmit
  · cases hsubmit
  split at hsubmit
  · cases hsubmit
    rw [submitBlockWitness_eq hmade h4 hdata]
    cases hany : txs.any CMutableTransaction.hasWitness with
    | true =>
      obtain ⟨tx, hmem, hwitness⟩ := any_eq_true.mp hany
      refine iff_of_false (by simp) fun hnone => ?_
      rw [hnone tx hmem] at hwitness
      cases hwitness
    | false => exact iff_of_true rfl fun tx hmem => by simpa using any_eq_false.mp hany tx hmem
  · cases hsubmit

/-! ## Two templates -/

def plainTx : CMutableTransaction := ⟨[⟨⟨1, 0⟩, [0x51], 0xffffffff, []⟩], [⟨5000, [0x51]⟩], 2, 0⟩

/-- The entry of a transaction in `getblocktemplate`. -/
def templateTx (tx : CMutableTransaction) : TemplateTx :=
  ⟨ofBytes (sha256d (serializeTransaction false tx)), serializeTransaction true tx⟩

theorem plain_small : Wire.Small plainTx :=
  ⟨by decide, by decide, by decide, by decide, by unfold Wire.SmallWitness; decide⟩

theorem mixed_small : ∀ tx ∈ [plainTx, Wire.smallTx], Wire.Small tx := by
  have hsmall : Wire.Small Wire.smallTx :=
      ⟨by decide, by decide, by decide, by decide, by unfold Wire.SmallWitness; decide⟩
  intro tx hmem
  rcases mem_cons.mp hmem with rfl | hmem
  · exact plain_small
  · exact mem_singleton.mp hmem ▸ hsmall

/-- Without witnesses in its template a block passes. -/
theorem plain_passes : ∃ job block,
    findJob (smallMiner (smallTemplate 0x20000020 [templateTx plainTx])) "00000001" = some job ∧
    handleSubmit (fun _ => false) (smallMiner (smallTemplate 0x20000020 [templateTx plainTx])) "00000001"
      (smallSubmission 1) = some block ∧ submitBlockWitness true block = .ok none := by
  have hsubmit : (handleSubmit (fun _ => false) (smallMiner (smallTemplate 0x20000020 [templateTx plainTx])) "00000001"
      (smallSubmission 1)).isSome = true := by decide +kernel
  obtain ⟨block, hblock⟩ := Option.isSome_iff_exists.mp hsubmit
  obtain ⟨job, hfind, hiff⟩ := submitted_witness_iff (smallMiner_reachable _) rfl hblock
  have hjob := hfind
  rw [smallMiner_job] at hjob
  cases hjob
  have hdata : FullData (smallJob (smallTemplate 0x20000020 [templateTx plainTx])).template [plainTx] :=
    ⟨rfl, by decide, by decide, fun tx hmem => mem_singleton.mp hmem ▸ plain_small⟩
  exact ⟨_, block, hfind, hblock, (hiff true _ hdata).mpr (by decide)⟩

/-- With one witness among two transactions the block is refused. -/
theorem mixed_refused :
    ∃ job block, findJob (smallMiner (smallTemplate 0x20000020 [templateTx plainTx, templateTx Wire.smallTx]))
      "00000001" = some job ∧
      handleSubmit (fun _ => false)
        (smallMiner (smallTemplate 0x20000020 [templateTx plainTx, templateTx Wire.smallTx])) "00000001"
        (smallSubmission 2) = some block ∧ FullData job.template [plainTx, Wire.smallTx] ∧
      ¬ submitBlockWitness true block = .ok none := by
  refine ⟨smallJob (smallTemplate 0x20000020 [templateTx plainTx, templateTx Wire.smallTx]), _, smallMiner_job _,
    handleSubmit_some (smallMiner_job _) rfl (by decide +kernel), ⟨rfl, by decide, by decide, mixed_small⟩, ?_⟩
  rw [submitBlockWitness_eq (smallJob_made _) rfl ⟨rfl, by decide, by decide, mixed_small⟩ true]
  decide

end FullNode.Pool

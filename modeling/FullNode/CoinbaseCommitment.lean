import FullNode.MerkleRoot
import FullNode.PoolWitness

/-!
# The commitment to witnesses

`GenerateCoinbaseCommitment` computes the root before the coinbase gets its output and its nonce.
-/

namespace FullNode.Pool

open List Option
open Wire (CMutableTransaction serializeTransaction writeBits)

/-! ## The generator -/

def getHash (tx : CMutableTransaction) : Uint256 := ofBytes (sha256d (serializeTransaction false tx))

/-- With the flag `mutated`. -/
def blockMerkleRoot (vtx : List CMutableTransaction) : Uint256 × Bool :=
  Merkle.computeMerkleRoot hashPair (vtx.map getHash)

def isNullOutPoint (o : Wire.COutPoint) : Bool := o.hash == 0 && o.n == 0xffffffff

def isCoinBase (tx : CMutableTransaction) : Bool :=
  tx.vin.length == 1 && tx.vin.any fun txin => isNullOutPoint txin.prevout

/-- The output that commits to the witnesses, for a nonce of zeros. -/
def commitmentOutput (vtx : List CMutableTransaction) : Wire.CTxOut where
  nValue := 0
  scriptPubKey := [0x6a, 0x24, 0xaa, 0x21, 0xa9, 0xed] ++
    sha256d (writeBits (blockWitnessMerkleRoot vtx) ++ List.replicate 32 0)

/-- The transactions left in the block and the script returned. -/
def generateCoinbaseCommitment (segwitActive : Bool) (vtx : List CMutableTransaction) :
    Checked (List CMutableTransaction × List UInt8) :=
  match getWitnessCommitmentIndex vtx, vtx with
  | some _, vtx => (updateUncommittedBlockStructures segwitActive vtx).map (·, [])
  | none, [] => .error .badIterator
  | none, gentx :: rest =>
    let out := commitmentOutput (gentx :: rest)
    (updateUncommittedBlockStructures segwitActive ({ gentx with vout := gentx.vout ++ [out] } :: rest)).map
      (·, out.scriptPubKey)

/-- The transactions and the new root, with or without a commitment. -/
def regenerateCommitments (segwitActive : Bool) (vtx : List CMutableTransaction) :
    Checked (List CMutableTransaction × Uint256) :=
  match getWitnessCommitmentIndex vtx, vtx with
  | some commitpos, gentx :: rest =>
    (generateCoinbaseCommitment segwitActive ({ gentx with vout := gentx.vout.eraseIdx commitpos } :: rest)).map
      fun r => (r.1, (blockMerkleRoot r.1).1)
  | _, _ => .error .badIterator

variable {gentx : CMutableTransaction} {txs : List CMutableTransaction}

/-! ## The last output that matches -/

theorem commitmentIndex_append (gentx : CMutableTransaction) (txs : List CMutableTransaction) (vout : List Wire.CTxOut)
    (txout : Wire.CTxOut) : getWitnessCommitmentIndex ({ gentx with vout := vout ++ [txout] } :: txs) =
      if isCommitment txout then some vout.length else getWitnessCommitmentIndex ({ gentx with vout } :: txs) := by
  unfold getWitnessCommitmentIndex
  simp only [zipIdx_append, foldl_append, zipIdx_singleton, Nat.zero_add, foldl_cons, foldl_nil]

def IsLastCommitment (vout : List Wire.CTxOut) (o : Nat) : Prop :=
  (∃ txout, vout[o]? = some txout ∧ isCommitment txout = true) ∧ ∀ j, o < j → ∀ txout, vout[j]? = some txout →
    isCommitment txout = false

theorem isLastCommitment_append {vout : List Wire.CTxOut} {last : Wire.CTxOut} {o : Nat} :
    IsLastCommitment (vout ++ [last]) o ↔
    if isCommitment last then o = vout.length else IsLastCommitment vout o := by
  have hlast : (vout ++ [last])[vout.length]? = some last := by simp
  have hbefore : ∀ {j}, j < vout.length → (vout ++ [last])[j]? = vout[j]? := fun h => getElem?_append_left h
  have hlength : ∀ {j txout}, (vout ++ [last])[j]? = some txout → j < vout.length ∨ j = vout.length := by
    intro j txout h
    have hlt := (List.getElem?_eq_some_iff.mp h).1
    rw [length_append, length_singleton] at hlt
    omega
  split
  · next hmatches =>
    constructor
    · rintro ⟨⟨txout, hget, -⟩, hbehind⟩
      rcases hlength hget with hlt | heq
      · rw [hbehind _ hlt _ hlast] at hmatches
        cases hmatches
      · exact heq
    · rintro rfl
      refine ⟨⟨last, hlast, hmatches⟩, fun j hj txout hget => ?_⟩
      rcases hlength hget with hlt | heq <;> omega
  · next hother =>
    rw [Bool.not_eq_true] at hother
    constructor
    · rintro ⟨⟨txout, hget, hmatches⟩, hbehind⟩
      have hlt : o < vout.length := by
        rcases hlength hget with hlt | rfl
        · exact hlt
        · rw [hlast] at hget
          cases hget
          rw [hother] at hmatches
          cases hmatches
      refine ⟨⟨txout, hbefore hlt ▸ hget, hmatches⟩, fun j hj txout' hget' => hbehind j hj txout' ?_⟩
      rw [hbefore (List.getElem?_eq_some_iff.mp hget').1, hget']
    · rintro ⟨⟨txout, hget, hmatches⟩, hbehind⟩
      have hlt := (List.getElem?_eq_some_iff.mp hget).1
      refine ⟨⟨txout, (hbefore hlt).trans hget, hmatches⟩, fun j hj txout' hget' => ?_⟩
      rcases hlength hget' with hj' | rfl
      · exact hbehind j hj txout' (hbefore hj' ▸ hget')
      · rw [hlast] at hget'
        exact Option.some.inj hget' ▸ hother

theorem commitmentIndex_iff (gentx : CMutableTransaction) (txs : List CMutableTransaction) (o : Nat) :
    getWitnessCommitmentIndex (gentx :: txs) = some o ↔ IsLastCommitment gentx.vout o := by
  obtain ⟨vin, vout, version, nLockTime⟩ := gentx
  induction vout using reverseRecOn generalizing o with
  | nil => simp [getWitnessCommitmentIndex, IsLastCommitment]
  | append_singleton vout last ih =>
    rw [commitmentIndex_append ⟨vin, vout, version, nLockTime⟩ txs vout last, isLastCommitment_append]
    split
    · rw [some.injEq, eq_comm]
    · exact ih o

theorem commitmentIndex_isSome (gentx : CMutableTransaction) (txs : List CMutableTransaction) :
    (getWitnessCommitmentIndex (gentx :: txs)).isSome = gentx.vout.any isCommitment := by
  obtain ⟨vin, vout, version, nLockTime⟩ := gentx
  induction vout using reverseRecOn with
  | nil => rfl
  | append_singleton vout last ih =>
    rw [commitmentIndex_append ⟨vin, vout, version, nLockTime⟩ txs vout last, any_append, any_cons, any_nil]
    cases hlast : isCommitment last with
    | true => simp
    | false => simpa using ih

/-! ## The generated output -/

theorem isCommitment_commitmentOutput (vtx : List CMutableTransaction) :
    isCommitment (commitmentOutput vtx) = true := by
  have hlength : (commitmentOutput vtx).scriptPubKey.length = 38 := by
    unfold commitmentOutput
    rw [length_append, sha256d_length]
    rfl
  unfold isCommitment
  rw [hlength]
  rfl

theorem coinbase_input (hcoinbase : isCoinBase gentx = true) : ∃ txin, gentx.vin = [txin] := by
  rw [← length_eq_one_iff]
  unfold isCoinBase at hcoinbase
  rw [Bool.and_eq_true] at hcoinbase
  exact eq_of_beq hcoinbase.1

variable (segwitActive : Bool)

theorem update_committed (gentx : CMutableTransaction) (txs : List CMutableTransaction)
    (hcoinbase : isCoinBase gentx = true) (hsome : gentx.vout.any isCommitment = true) :
    ∃ vin, updateUncommittedBlockStructures segwitActive (gentx :: txs) = .ok ({ gentx with vin } :: txs) ∧
      vin = if segwitActive && !gentx.hasWitness then
        gentx.vin.map fun txin => { txin with scriptWitness := [replicate 32 0] } else gentx.vin := by
  refine ⟨_, ?_, rfl⟩
  have hindex := commitmentIndex_isSome gentx txs
  obtain ⟨txin, hvin⟩ := coinbase_input hcoinbase
  unfold updateUncommittedBlockStructures
  dsimp only
  rw [hindex, hsome, Bool.true_and, hvin]
  cases segwitActive && !gentx.hasWitness with
  | true => rfl
  | false =>
    rw [if_neg Bool.false_ne_true, if_neg Bool.false_ne_true, ← hvin]

theorem generate_uncommitted (gentx : CMutableTransaction) (txs : List CMutableTransaction)
    (hcoinbase : isCoinBase gentx = true)
    (hnone : gentx.vout.any isCommitment = false) : ∃ vin, generateCoinbaseCommitment segwitActive (gentx :: txs) = .ok
        ({ gentx with vin, vout := gentx.vout ++ [commitmentOutput (gentx :: txs)] } :: txs,
          (commitmentOutput (gentx :: txs)).scriptPubKey) ∧ vin = if segwitActive && !gentx.hasWitness then
        gentx.vin.map fun txin => { txin with scriptWitness := [replicate 32 0] } else gentx.vin := by
  have hindex := commitmentIndex_isSome gentx txs
  rw [hnone, isSome_eq_false_iff, isNone_iff_eq_none] at hindex
  have hany : (gentx.vout ++ [commitmentOutput (gentx :: txs)]).any isCommitment = true := by
    rw [any_append, any_cons, isCommitment_commitmentOutput, Bool.true_or, Bool.or_true]
  obtain ⟨vin, hupdate, hvin⟩ :=
      update_committed segwitActive { gentx with vout := gentx.vout ++ [commitmentOutput (gentx :: txs)] } txs
    hcoinbase hany
  refine ⟨vin, ?_, hvin⟩
  unfold generateCoinbaseCommitment
  rw [hindex]
  dsimp only
  rw [hupdate]
  rfl

theorem generate_committed (gentx : CMutableTransaction) (txs : List CMutableTransaction)
    (hcoinbase : isCoinBase gentx = true) (hsome : gentx.vout.any isCommitment = true) :
    ∃ vin, generateCoinbaseCommitment segwitActive (gentx :: txs) = .ok ({ gentx with vin } :: txs, []) := by
  obtain ⟨vin, hupdate, -⟩ := update_committed segwitActive gentx txs hcoinbase hsome
  have hindex := commitmentIndex_isSome gentx txs
  rw [hsome, isSome_iff_exists] at hindex
  obtain ⟨_, hindex⟩ := hindex
  refine ⟨vin, ?_⟩
  unfold generateCoinbaseCommitment
  rw [hindex]
  dsimp only
  rw [hupdate]
  rfl

theorem regenerate_committed (gentx : CMutableTransaction) (txs : List CMutableTransaction)
    (hcoinbase : isCoinBase gentx = true) (hsome : gentx.vout.any isCommitment = true) :
    ∃ gentx', regenerateCommitments segwitActive (gentx :: txs) =
      .ok (gentx' :: txs, (blockMerkleRoot (gentx' :: txs)).1) ∧
      gentx'.vout.countP isCommitment = max 1 (gentx.vout.countP isCommitment - 1) := by
  have hindex := commitmentIndex_isSome gentx txs
  rw [hsome, isSome_iff_exists] at hindex
  obtain ⟨o, hindex⟩ := hindex
  obtain ⟨⟨_, hget, hmatches⟩, -⟩ := (commitmentIndex_iff gentx txs o).mp hindex
  obtain ⟨hlt, hget⟩ := List.getElem?_eq_some_iff.mp hget
  have hcount : (gentx.vout.eraseIdx o).countP isCommitment = gentx.vout.countP isCommitment - 1 := by
    have hsplit := (getElem_cons_eraseIdx_perm hlt).countP_eq isCommitment
    rw [hget, countP_cons_of_pos hmatches] at hsplit
    omega
  unfold regenerateCommitments
  rw [hindex]
  dsimp only
  cases hany : (gentx.vout.eraseIdx o).any isCommitment with
  | true =>
    obtain ⟨vin, hgenerate⟩ :=
        generate_committed segwitActive { gentx with vout := gentx.vout.eraseIdx o } txs hcoinbase hany
    have hpos : 0 < (gentx.vout.eraseIdx o).countP isCommitment := by
      rw [countP_pos_iff]
      simpa using hany
    refine ⟨_, by rw [hgenerate]; rfl, ?_⟩
    show (gentx.vout.eraseIdx o).countP isCommitment = max 1 (gentx.vout.countP isCommitment - 1)
    omega
  | false =>
    obtain ⟨vin, hgenerate, -⟩ :=
        generate_uncommitted segwitActive { gentx with vout := gentx.vout.eraseIdx o } txs hcoinbase hany
    have hzero : (gentx.vout.eraseIdx o).countP isCommitment = 0 := by
      rw [countP_eq_zero]
      simpa using hany
    refine ⟨_, by rw [hgenerate]; rfl, ?_⟩
    rw [countP_append, countP_singleton, isCommitment_commitmentOutput, if_pos rfl]
    show (gentx.vout.eraseIdx o).countP isCommitment + 1 = max 1 (gentx.vout.countP isCommitment - 1)
    omega

/-! ## The check -/

variable {txin : Wire.CTxIn}

/-- The coinbase counts as zero, so nonce and output do not matter. -/
theorem check_committed {vin : List Wire.CTxIn} (hvin : vin = [{ txin with scriptWitness := [replicate 32 0] }]) :
    checkWitnessMalleation ({ gentx with vin, vout := gentx.vout ++ [commitmentOutput (gentx :: txs)] } ::
      txs) true = .ok none := by
  have hindex := commitmentIndex_append { gentx with vin } txs gentx.vout (commitmentOutput (gentx :: txs))
  rw [isCommitment_commitmentOutput, if_pos rfl] at hindex
  have hroot : blockWitnessMerkleRoot
      ({ gentx with vin, vout := gentx.vout ++ [commitmentOutput (gentx :: txs)] } :: txs) =
      blockWitnessMerkleRoot (gentx :: txs) := rfl
  have hlast : (gentx.vout ++ [commitmentOutput (gentx :: txs)])[gentx.vout.length]? =
      some (commitmentOutput (gentx :: txs)) := by simp
  have hscript : ((commitmentOutput (gentx :: txs)).scriptPubKey.drop 6).take 32 =
      sha256d (writeBits (blockWitnessMerkleRoot (gentx :: txs)) ++ replicate 32 0) := by
    unfold commitmentOutput
    rw [drop_append_of_le_length (by decide), drop_of_length_le (by decide), nil_append,
      take_of_length_le (sha256d_length _).le]
  unfold checkWitnessMalleation
  rw [if_pos rfl, hindex, hroot]
  dsimp only
  rw [hvin]
  dsimp only
  rw [if_neg (by rw [length_replicate]; decide), hlast, map_some, getD_some, hscript, if_neg (not_not.mpr rfl)]

theorem check_without_nonce (hvin : gentx.vin = [txin]) (hwitness : txin.scriptWitness = [])
    (hsome : gentx.vout.any isCommitment = true) :
    checkWitnessMalleation (gentx :: txs) true = .ok (some "bad-witness-nonce-size") := by
  have hindex := commitmentIndex_isSome gentx txs
  rw [hsome, isSome_iff_exists] at hindex
  obtain ⟨_, hindex⟩ := hindex
  unfold checkWitnessMalleation
  rw [if_pos rfl, hindex]
  dsimp only
  rw [hvin]
  dsimp only
  rw [hwitness]

/-- With segwit a coinbase gets an output and a nonce that pass the check, and keeps one that matches. -/
theorem generated_commitment_checked (gentx : CMutableTransaction) (txs : List CMutableTransaction)
    (hcoinbase : isCoinBase gentx = true) :
    (gentx.hasWitness = false → gentx.vout.any isCommitment = false →
      ∃ vtx script, generateCoinbaseCommitment true (gentx :: txs) = .ok (vtx, script) ∧
        checkWitnessMalleation vtx true = .ok none) ∧
    (gentx.vout.any isCommitment = true → ∀ segwitActive,
      (∃ gentx', generateCoinbaseCommitment segwitActive (gentx :: txs) = .ok (gentx' :: txs, []) ∧
        gentx'.vout = gentx.vout) ∧
      ∃ gentx' root, regenerateCommitments segwitActive (gentx :: txs) = .ok (gentx' :: txs, root) ∧
        gentx'.vout.countP isCommitment ≤ gentx.vout.countP isCommitment) ∧
    ∀ o, getWitnessCommitmentIndex (gentx :: txs) = some o ↔ IsLastCommitment gentx.vout o := by
  refine ⟨fun hwitness hnone => ?_, fun hsome segwitActive => ⟨?_, ?_⟩, commitmentIndex_iff gentx txs⟩
  · obtain ⟨vin, hgenerate, hvin⟩ := generate_uncommitted true gentx txs hcoinbase hnone
    obtain ⟨_, hone⟩ := coinbase_input hcoinbase
    rw [hwitness, Bool.not_false, Bool.and_true, if_pos rfl, hone] at hvin
    exact ⟨_, _, hgenerate, check_committed hvin⟩
  · obtain ⟨vin, hgenerate⟩ := generate_committed segwitActive gentx txs hcoinbase hsome
    exact ⟨_, hgenerate, rfl⟩
  · obtain ⟨gentx', hregenerate, _⟩ := regenerate_committed segwitActive gentx txs hcoinbase hsome
    have hpos : 0 < gentx.vout.countP isCommitment := by
      rw [countP_pos_iff]
      simpa using hsome
    exact ⟨gentx', _, hregenerate, by omega⟩

def subsidyTx : CMutableTransaction := ⟨[⟨⟨0, 0xffffffff⟩, [0x51, 0], 0xffffffff, []⟩], [⟨5000000000, [0x51]⟩], 2, 0⟩

theorem subsidy_commitment_checked :
    isCoinBase subsidyTx = true ∧ ∃ vtx script,
      generateCoinbaseCommitment true [subsidyTx, Wire.smallTx] = .ok (vtx, script) ∧
      checkWitnessMalleation vtx true = .ok none :=
  ⟨by decide, (generated_commitment_checked subsidyTx [Wire.smallTx] (by decide)).1 (by decide) (by decide)⟩

/-- Before segwit the output is added without a nonce. -/
theorem inactive_commitment_refused :
    isCoinBase subsidyTx = true ∧ subsidyTx.hasWitness = false ∧ subsidyTx.vout.any isCommitment = false ∧
      ∃ vtx script, generateCoinbaseCommitment false [subsidyTx, Wire.smallTx] = .ok (vtx, script) ∧
        checkWitnessMalleation vtx true = .ok (some "bad-witness-nonce-size") := by
  obtain ⟨vin, hgenerate, hvin⟩ := generate_uncommitted false subsidyTx [Wire.smallTx] (by decide) (by decide)
  refine ⟨by decide, by decide, by decide, _, _, hgenerate, ?_⟩
  have hone : vin = [⟨⟨0, 0xffffffff⟩, [0x51, 0], 0xffffffff, []⟩] := hvin
  refine check_without_nonce hone rfl ?_
  rw [any_append, any_cons, isCommitment_commitmentOutput, Bool.true_or, Bool.or_true]

end FullNode.Pool

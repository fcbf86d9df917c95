import FullNode.SigHash
import FullNode.SignatureCalls

/-! # The signature hash cache -/

namespace FullNode.SigHash

open Script
open Wire (CMutableTransaction writeBits writeByteVector writeOutPoint writeTxOut)

/-! ## The hash -/

structure PrecomputedTransactionData where
  bip143SegwitReady : Bool
  hashPrevouts : Uint256
  hashSequence : Uint256
  hashOutputs : Uint256

def prevoutsHash (txTo : CMutableTransaction) : Uint256 :=
  (Digest.ofWritten (txTo.vin.flatMap fun txin => writeOutPoint txin.prevout)).value

def sequencesHash (txTo : CMutableTransaction) : Uint256 :=
  (Digest.ofWritten (txTo.vin.flatMap fun txin => writeBits txin.nSequence)).value

def outputsHash (txTo : CMutableTransaction) : Uint256 := (Digest.ofWritten (txTo.vout.flatMap writeTxOut)).value

def cacheReadyOr (cache : Option PrecomputedTransactionData) (field : PrecomputedTransactionData → Uint256)
    (computed : Uint256) : Uint256 :=
  match cache with
  | some cache => if cache.bip143SegwitReady then field cache else computed
  | none => computed

section Hash

variable (scriptCode : CScript) (txTo : CMutableTransaction) (nIn : Nat) (nHashType : Uint32) (amount : BitVec 64)
  (sigversion : SigVersion) (cache : Option PrecomputedTransactionData)

/-- What is written for version 0 before the hash type. -/
def serializeWitnessV0 : List UInt8 :=
  let hashPrevouts :=
    if ¬ anyoneCanPay nHashType then cacheReadyOr cache (·.hashPrevouts) (prevoutsHash txTo) else 0
  let hashSequence :=
    if ¬ anyoneCanPay nHashType ∧ ¬ hashSingle nHashType ∧ ¬ hashNone nHashType then
      cacheReadyOr cache (·.hashSequence) (sequencesHash txTo)
    else 0
  let hashOutputs :=
    if ¬ hashSingle nHashType ∧ ¬ hashNone nHashType then cacheReadyOr cache (·.hashOutputs) (outputsHash txTo)
    else if hashSingle nHashType then
      match txTo.vout[nIn]? with
      | some txout => (Digest.ofWritten (writeTxOut txout)).value
      | none => 0
    else 0
  match txTo.vin[nIn]? with
  | none => []
  | some txin =>
    writeBits txTo.version ++ writeBits hashPrevouts ++ writeBits hashSequence ++ writeOutPoint txin.prevout ++
      writeByteVector scriptCode ++ writeBits amount ++ writeBits txin.nSequence ++ writeBits hashOutputs ++
        writeBits txTo.nLockTime

def written : List UInt8 :=
  if sigversion = .witnessV0 then serializeWitnessV0 scriptCode txTo nIn nHashType amount cache
  else serializeForSignature txTo scriptCode nIn nHashType

end Hash

/-! ## The cache -/

theorem not_single_and_none (hashType : Uint32) : ¬ (hashSingle hashType = true ∧ hashNone hashType = true) := by
  rintro ⟨hsingle, hnone⟩
  simp only [hashSingle, hashNone, beq_iff_eq] at hsingle hnone
  rw [hsingle] at hnone
  exact absurd hnone (by decide)

theorem index_lt : ∀ acp single none : Bool, ¬ (single = true ∧ none = true) →
    3 * acp.toNat + 2 * single.toNat + none.toNat < 6 := by
  decide

def cacheIndex (hashType : Uint32) : Fin 6 :=
  ⟨3 * (anyoneCanPay hashType).toNat + 2 * (hashSingle hashType).toNat + (hashNone hashType).toNat,
    index_lt _ _ _ (not_single_and_none hashType)⟩

structure SigHashCache where
  cacheEntries : Fin 6 → Option (CScript × List UInt8) := fun _ => none

def SigHashCache.load (cache : SigHashCache) (hashType : Uint32) (scriptCode : CScript) : Option (List UInt8) :=
  match cache.cacheEntries (cacheIndex hashType) with
  | none => none
  | some (code, writer) => if scriptCode = code then some writer else none

def SigHashCache.store (cache : SigHashCache) (hashType : Uint32) (scriptCode : CScript) (writer : List UInt8) :
    SigHashCache where
  cacheEntries := Function.update cache.cacheEntries (cacheIndex hashType) (some (scriptCode, writer))

/-- The hash, and the cache after it, if there is one. -/
def signatureHash (scriptCode : CScript) (txTo : CMutableTransaction) (nIn : Nat) (nHashType : Uint32)
    (amount : BitVec 64) (sigversion : SigVersion) (cache : Option PrecomputedTransactionData)
    (sighashCache : Option SigHashCache) : Checked (Digest × Option SigHashCache) := do
  check (decide (nIn < txTo.vin.length))
  if sigversion ≠ .witnessV0 ∧ singleOutOfRange txTo nIn nHashType then return (.one, sighashCache)
  match sighashCache.bind fun c => c.load nHashType scriptCode with
  | some ss => return (.ofWritten (ss ++ writeBits nHashType), sighashCache)
  | none =>
    let ss := written scriptCode txTo nIn nHashType amount sigversion cache
    return (.ofWritten (ss ++ writeBits nHashType), sighashCache.map fun c => c.store nHashType scriptCode ss)

/-! ## The checker -/

inductive MissingDataBehavior where
  | assertFail | fail
  deriving DecidableEq

def handleMissingData : MissingDataBehavior → Checked Bool
  | .assertFail => .error .assertion
  | .fail => .ok false

/-- `GenericTransactionSignatureChecker`, for any curve. -/
structure TxSignatureChecker where
  txTo : CMutableTransaction
  mdb : MissingDataBehavior
  nIn : Nat
  amount : BitVec 64
  txdata : Option PrecomputedTransactionData
  requireSighashAll : Bool
  /-- `pubkey.Verify(sighash, vchSig)`. -/
  verifyECDSASignature : Valtype → Valtype → Uint256 → Bool

/-- `CPubKey::GetLen`. -/
def pubKeyLen (header : UInt8) : Nat :=
  if header = 2 ∨ header = 3 then 33
  else if header = 4 ∨ header = 6 ∨ header = 7 then 65
  else 0

def isValidPubKey : Valtype → Bool
  | [] => false
  | header :: rest => pubKeyLen header == (header :: rest).length

structure Answer where
  success : Bool
  sighash : Option Digest
  deriving DecidableEq

namespace TxSignatureChecker

variable (t : TxSignatureChecker)

def checkECDSASignature (call : Call) (sighashCache : Option SigHashCache) : Checked (Answer × Option SigHashCache) :=
  if ¬ isValidPubKey call.vchPubKey then .ok (⟨false, none⟩, sighashCache)
  else
    match call.vchSig.getLast? with
    | none => .ok (⟨false, none⟩, sighashCache)
    | some last =>
      let nHashType := BitVec.ofNat 32 last.toNat
      if t.requireSighashAll ∧ nHashType ≠ 1 then .ok (⟨false, none⟩, sighashCache)
      else if call.sigversion = .witnessV0 ∧ t.amount.toInt < 0 then do
        let success ← handleMissingData t.mdb
        return (⟨success, none⟩, sighashCache)
      else do
        let (sighash, sighashCache) ←
          signatureHash call.scriptCode t.txTo t.nIn nHashType t.amount call.sigversion t.txdata sighashCache
        return (⟨t.verifyECDSASignature call.vchSig.dropLast call.vchPubKey sighash.value, some sighash⟩, sighashCache)

def checkCalls : List Call → Option SigHashCache → Checked (List Answer)
  | [], _ => .ok []
  | call :: calls, sighashCache => do
    let (answer, sighashCache) ← t.checkECDSASignature call sighashCache
    let answers ← checkCalls calls sighashCache
    return answer :: answers

end TxSignatureChecker

/-! ## What a slot stands for -/

theorem index_injective : ∀ acp single none acp' single' none' : Bool, ¬ (single = true ∧ none = true) →
    ¬ (single' = true ∧ none' = true) →
      3 * acp.toNat + 2 * single.toNat + none.toNat = 3 * acp'.toNat + 2 * single'.toNat + none'.toNat →
    acp = acp' ∧ single = single' ∧ none = none' := by
  decide

theorem cacheIndex_eq {a b : Uint32} (h : cacheIndex a = cacheIndex b) :
    anyoneCanPay a = anyoneCanPay b ∧ hashSingle a = hashSingle b ∧ hashNone a = hashNone b :=
  index_injective _ _ _ _ _ _ (not_single_and_none a) (not_single_and_none b) (congrArg Fin.val h)

theorem written_congr {a b : Uint32} (h : cacheIndex a = cacheIndex b) (scriptCode : CScript)
    (txTo : CMutableTransaction) (nIn : Nat) (amount : BitVec 64) (sigversion : SigVersion)
    (cache : Option PrecomputedTransactionData) :
    written scriptCode txTo nIn a amount sigversion cache = written scriptCode txTo nIn b amount sigversion cache := by
  obtain ⟨hacp, hsingle, hnone⟩ := cacheIndex_eq h
  have hinput : serializeInput txTo scriptCode nIn a = serializeInput txTo scriptCode nIn b := by
    funext i
    simp only [serializeInput, hacp, hsingle, hnone]
  have houtput : serializeOutput txTo nIn a = serializeOutput txTo nIn b := by
    funext i
    simp only [serializeOutput, hsingle]
  simp only [written, serializeWitnessV0, serializeForSignature, hacp, hsingle, hnone, hinput, houtput]

/-- Every slot holds what the checker writes for its script code. -/
def SigHashCache.Holds (t : TxSignatureChecker) (sigversion : SigVersion) (c : SigHashCache) : Prop :=
  ∀ nHashType scriptCode ss, c.cacheEntries (cacheIndex nHashType) = some (scriptCode, ss) →
    ss = written scriptCode t.txTo t.nIn nHashType t.amount sigversion t.txdata

section Transparent

variable {t : TxSignatureChecker} {sigversion : SigVersion} {c : SigHashCache}

theorem empty_holds (t : TxSignatureChecker) (sigversion : SigVersion) : SigHashCache.Holds t sigversion {} := by
  intro nHashType scriptCode ss h
  cases h

variable (hc : c.Holds t sigversion)
include hc

theorem load_holds {nHashType : Uint32} {scriptCode : CScript} {ss : List UInt8}
    (h : c.load nHashType scriptCode = some ss) :
    ss = written scriptCode t.txTo t.nIn nHashType t.amount sigversion t.txdata := by
  unfold SigHashCache.load at h
  split at h
  · cases h
  · next code writer hentry =>
    split_ifs at h with hcode
    cases h
    rw [hcode]
    exact hc nHashType code ss hentry

theorem store_holds (nHashType : Uint32) (scriptCode : CScript) :
    (c.store nHashType scriptCode (written scriptCode t.txTo t.nIn nHashType t.amount sigversion t.txdata)).Holds t
      sigversion := by
  intro other code ss hentry
  unfold SigHashCache.store at hentry
  by_cases hindex : cacheIndex other = cacheIndex nHashType
  · simp only [hindex, Function.update_self] at hentry
    cases hentry
    exact written_congr hindex.symm _ _ _ _ _ _
  · simp only [Function.update_of_ne hindex] at hentry
    exact hc other code ss hentry

theorem signatureHash_cached (scriptCode : CScript) (nHashType : Uint32) :
    (∃ e, signatureHash scriptCode t.txTo t.nIn nHashType t.amount sigversion t.txdata (some c) = .error e ∧
      signatureHash scriptCode t.txTo t.nIn nHashType t.amount sigversion t.txdata none = .error e) ∨
    ∃ digest c', signatureHash scriptCode t.txTo t.nIn nHashType t.amount sigversion t.txdata (some c) =
      .ok (digest, some c') ∧
      signatureHash scriptCode t.txTo t.nIn nHashType t.amount sigversion t.txdata none = .ok (digest, none) ∧
        c'.Holds t sigversion := by
  unfold signatureHash
  cases decide (t.nIn < t.txTo.vin.length) with
  | false => exact .inl ⟨_, rfl, rfl⟩
  | true =>
    right
    by_cases hone : sigversion ≠ .witnessV0 ∧ singleOutOfRange t.txTo t.nIn nHashType = true
    · simp only [if_pos hone]
      exact ⟨.one, c, rfl, rfl, hc⟩
    · simp only [if_neg hone, Option.bind_some, Option.bind_none]
      cases hload : c.load nHashType scriptCode with
      | some ss =>
        rw [← load_holds hc hload]
        exact ⟨_, c, rfl, rfl, hc⟩
      | none => exact ⟨_, _, rfl, rfl, store_holds hc nHashType scriptCode⟩

theorem checkECDSASignature_cached {call : Call} (hversion : call.sigversion = sigversion) :
    (∃ e, t.checkECDSASignature call (some c) = .error e ∧ t.checkECDSASignature call none = .error e) ∨
    ∃ answer c', t.checkECDSASignature call (some c) = .ok (answer, some c') ∧
      t.checkECDSASignature call none = .ok (answer, none) ∧ c'.Holds t sigversion := by
  unfold TxSignatureChecker.checkECDSASignature
  split
  · exact .inr ⟨_, c, rfl, rfl, hc⟩
  · split
    · exact .inr ⟨_, c, rfl, rfl, hc⟩
    · next last hlast =>
      simp only
      split
      · exact .inr ⟨_, c, rfl, rfl, hc⟩
      · split
        · cases handleMissingData t.mdb with
          | error e => exact .inl ⟨e, rfl, rfl⟩
          | ok success => exact .inr ⟨_, c, rfl, rfl, hc⟩
        · rw [hversion]
          rcases signatureHash_cached hc call.scriptCode (BitVec.ofNat 32 last.toNat) with ⟨e, hsome, hnone⟩ | ⟨_,
              c', hsome, hnone, hc'⟩
          · rw [hsome, hnone]
            exact .inl ⟨e, rfl, rfl⟩
          · rw [hsome, hnone]
            exact .inr ⟨_, c', rfl, rfl, hc'⟩

theorem checkCalls_cached {calls : List Call} (hversion : ∀ call ∈ calls, call.sigversion = sigversion) :
    t.checkCalls calls (some c) = t.checkCalls calls none := by
  induction calls generalizing c with
  | nil => rfl
  | cons call calls ih =>
    obtain ⟨hcall, hcalls⟩ := List.forall_mem_cons.mp hversion
    unfold TxSignatureChecker.checkCalls
    rcases checkECDSASignature_cached hc hcall with ⟨_, hsome, hnone⟩ | ⟨_, _, hsome, hnone, hc'⟩
    · rw [hsome, hnone]
    · rw [hsome, hnone]
      simp only [ok_bind]
      rw [ih hc' hcalls]

omit hc

end Transparent

/-! ## Whole runs -/

section Runs

variable {t : TxSignatureChecker} {v : Verifier} {flags : Flags} {scriptSig spk : CScript}
  {witness : Option (List Valtype)}

/-- A run takes the same hashes through the cache. -/
theorem sigHashCache_transparent (t : TxSignatureChecker) (v : Verifier) (flags : Flags) (scriptSig spk : CScript)
    (witness : Option (List Valtype)) : t.checkCalls (verifyCalls v flags scriptSig spk witness) (some {}) =
      t.checkCalls (verifyCalls v flags scriptSig spk witness) none := by
  obtain ⟨version, -, hversion⟩ := verifyCalls_version v flags scriptSig spk witness
  exact checkCalls_cached (empty_holds t version) hversion

end Runs

end FullNode.SigHash

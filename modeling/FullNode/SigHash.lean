import FullNode.InterpreterSafety
import FullNode.Transaction
import FullNode.Wire

/-! # Signature hashes -/

namespace FullNode.SigHash

open Script List Nat
open Wire (CMutableTransaction writeBits writeCompactSize writeByteVector writeOutPoint writeTxIn writeTxOut writeVector
  serializeTransaction)

abbrev CTxIn := Wire.CTxIn
abbrev CTxOut := Wire.CTxOut

/-! ## Hash types -/

def anyoneCanPay (nHashType : Uint32) : Bool := nHashType &&& 0x80 != 0

def hashSingle (nHashType : Uint32) : Bool := nHashType &&& 0x1f == 3

def hashNone (nHashType : Uint32) : Bool := nHashType &&& 0x1f == 2

/-- The constant one, or the double hash of what was written. -/
inductive Digest where
  | one
  | ofWritten (bytes : List UInt8)
  deriving DecidableEq

def Digest.value : Digest → Uint256
  | one => 1
  | ofWritten bytes => BitVec.ofNat 256 (leValue (sha256 (sha256 bytes)))

/-- `CTxOut()`, and an output after `SetNull`. -/
def nullTxOut : CTxOut := ⟨-1, []⟩

/-! ## The stream -/

/-- Where a failed `GetOp` leaves its iterator. -/
def stoppedAt : CScript → CScript
  | [] => []
  | opcode :: rest =>
    if left (opcode :: rest) < 1 then opcode :: rest
    else if opcode ≤ OP_PUSHDATA4 then
      match pushSize opcode rest with
      | none => rest
      | some (_, pc) => pc
    else rest

def countSeparators : Nat → CScript → Nat
  | 0, _ => 0
  | fuel + 1, it =>
    match getScriptOp it with
    | none => 0
    | some (opcode, _, rest) => (if opcode = OP_CODESEPARATOR then 1 else 0) + countSeparators fuel rest

/-- The second loop: from `itBegin` to a separator. -/
def writeSegments : Nat → CScript → CScript → List UInt8
  | 0, _, _ => []
  | fuel + 1, itBegin, it =>
    match getScriptOp it with
    | none => if itBegin ≠ [] then itBegin.take (itBegin.length - (stoppedAt it).length) else []
    | some (opcode, _, rest) =>
      if opcode = OP_CODESEPARATOR then itBegin.take (itBegin.length - rest.length - 1) ++ writeSegments fuel rest rest
      else writeSegments fuel itBegin rest

def serializeScriptCode (scriptCode : CScript) : List UInt8 :=
  writeCompactSize (scriptCode.length - countSeparators (scriptCode.length + 1) scriptCode) ++
    writeSegments (scriptCode.length + 1) scriptCode scriptCode

section Serializer

variable (txTo : CMutableTransaction) (scriptCode : CScript) (nIn : Nat) (nHashType : Uint32)

def serializeInput (nInput : Nat) : List UInt8 :=
  let nInput := if anyoneCanPay nHashType then nIn else nInput
  match txTo.vin[nInput]? with
  | none => []
  | some txin =>
    writeOutPoint txin.prevout ++
      ((if nInput ≠ nIn then writeByteVector [] else serializeScriptCode scriptCode) ++
        (if nInput ≠ nIn ∧ (hashSingle nHashType ∨ hashNone nHashType) then writeBits (0 : Uint32)
          else writeBits txin.nSequence))

def serializeOutput (nOutput : Nat) : List UInt8 :=
  if hashSingle nHashType ∧ nOutput ≠ nIn then writeTxOut nullTxOut
  else
    match txTo.vout[nOutput]? with
    | none => []
    | some txout => writeTxOut txout

/-- `CTransactionSignatureSerializer::Serialize`. -/
def serializeForSignature : List UInt8 :=
  let nInputs := if anyoneCanPay nHashType then 1 else txTo.vin.length
  let nOutputs := if hashNone nHashType then 0 else if hashSingle nHashType then nIn + 1 else txTo.vout.length
  writeBits txTo.version ++
    (writeCompactSize nInputs ++ (List.range nInputs).flatMap (serializeInput txTo scriptCode nIn nHashType)) ++
    (writeCompactSize nOutputs ++ (List.range nOutputs).flatMap (serializeOutput txTo nIn nHashType)) ++
    writeBits txTo.nLockTime

end Serializer

/-- `SIGHASH_SINGLE` without an output at the index of the input. -/
def singleOutOfRange (txTo : CMutableTransaction) (nIn : Nat) (nHashType : Uint32) : Bool :=
  hashSingle nHashType && decide (txTo.vout.length ≤ nIn)

def signatureHashBase (scriptCode : CScript) (txTo : CMutableTransaction) (nIn : Nat)
    (nHashType : Uint32) : Checked Digest := do
  check (decide (nIn < txTo.vin.length))
  if singleOutOfRange txTo nIn nHashType then return .one
  return .ofWritten (serializeForSignature txTo scriptCode nIn nHashType ++ writeBits nHashType)

/-! ## The copy -/

def zeroSequences (nIn : Nat) (vin : List CTxIn) : List CTxIn :=
  vin.mapIdx fun i txin => if i ≠ nIn then { txin with nSequence := 0 } else txin

def blankScripts (scriptCode : CScript) (nIn : Nat) (vin : List CTxIn) : List CTxIn :=
  (vin.map fun txin => { txin with scriptSig := [] }).modify nIn fun txin => { txin with scriptSig := scriptCode }

/-- The copy with blank outputs, if `SIGHASH_SINGLE` has one. -/
def blankOutputs (nIn : Nat) (nHashType : Uint32) (txTmp : CMutableTransaction) : Option CMutableTransaction :=
  if hashNone nHashType then some { txTmp with vout := [], vin := zeroSequences nIn txTmp.vin }
  else if hashSingle nHashType then
    if nIn ≥ txTmp.vout.length then none
    else some { txTmp with
      vout := (txTmp.vout.take (nIn + 1)).mapIdx fun i txout => if i < nIn then nullTxOut else txout
      vin := zeroSequences nIn txTmp.vin }
  else some txTmp

/-- `txTmp.vin[0] = txTmp.vin[nIn]` and a resize. -/
def keepInput (nIn : Nat) (vin : List CTxIn) : List CTxIn :=
  match vin[nIn]? with
  | none => vin
  | some txin => (vin.set 0 txin).take 1

def signatureHashOld (scriptCode : CScript) (txTo : CMutableTransaction) (nIn : Nat)
    (nHashType : Uint32) : Eval Digest :=
  if nIn ≥ txTo.vin.length then .ok .one
  else do
    let (scriptCode, _) ← findAndDelete scriptCode [OP_CODESEPARATOR]
    match blankOutputs nIn nHashType { txTo with vin := blankScripts scriptCode nIn txTo.vin } with
    | none => return .one
    | some txTmp =>
      let txTmp := if anyoneCanPay nHashType then { txTmp with vin := keepInput nIn txTmp.vin } else txTmp
      return .ofWritten (serializeTransaction false txTmp ++ writeBits nHashType)

def DecodesCompletely (script : CScript) : Prop :=
  scanOps (fun _ => (none : Option Bool)) false true (script.length + 1) script = .ok true

/-! ## Scripts without separators -/

variable {pc : CScript} {vch : Valtype} {rest : CScript}

theorem getScriptOp_separator (h : getScriptOp pc = some (OP_CODESEPARATOR, vch, rest)) :
    pc = OP_CODESEPARATOR :: rest := by
  obtain ⟨_, rfl, -⟩ := getScriptOp_head h
  rw [getScriptOp] at h
  split_ifs at h
  · next hpush => exact absurd hpush (by decide)
  · cases h
    rfl

theorem getScriptOp_take {opcode : UInt8} (hop : getScriptOp pc = some (opcode, vch, rest)) :
    pc.take (pc.length - rest.length) ++ rest = pc := by
  obtain ⟨tail, rfl, hsuffix⟩ := getScriptOp_head hop
  obtain ⟨_, ht⟩ := hsuffix.trans (suffix_cons opcode tail)
  rw [← ht]
  simp

/-- `out` is what the script writes without its `k` separators. -/
inductive Strips : CScript → CScript → Nat → Prop
  | nil : Strips [] [] 0
  | separator {pc rest out : CScript} {vch : Valtype} {k : Nat} (hop : getScriptOp pc =
      some (OP_CODESEPARATOR, vch, rest)) (hrest : Strips rest out k) : Strips pc out (k + 1)
  | op {pc rest out : CScript} {opcode : UInt8} {vch : Valtype} {k : Nat} (hop : getScriptOp pc =
    some (opcode, vch, rest))
      (hne : opcode ≠ OP_CODESEPARATOR) (hrest : Strips rest out k) :
      Strips pc (pc.take (pc.length - rest.length) ++ out) k

theorem strips_of_scan {fuel : Nat} (h : scanOps (fun _ => (none : Option Bool)) false true fuel pc = .ok true) :
    ∃ out k, Strips pc out k := by
  induction fuel generalizing pc with
  | zero => cases h
  | succ fuel ih =>
    unfold scanOps at h
    split at h
    · next hnil =>
      subst hnil
      exact ⟨[], 0, .nil⟩
    · split at h
      · cases h
      · next opcode vch rest hop =>
        obtain ⟨out, k, hrest⟩ := ih h
        by_cases hsep : opcode = OP_CODESEPARATOR
        · subst hsep
          exact ⟨out, k + 1, .separator hop hrest⟩
        · exact ⟨_, k, .op hop hsep hrest⟩

namespace Strips

variable {pc out : CScript} {k : Nat}

variable (h : Strips pc out k)
include h

theorem length : pc.length = out.length + k := by
  induction h with
  | nil => rfl
  | separator hop _ ih =>
    rw [getScriptOp_separator hop, length_cons, ih]
    omega
  | op hop _ _ ih =>
    have hlen := congrArg List.length (getScriptOp_take hop)
    rw [length_append] at hlen ⊢
    omega

theorem eq_of_none (hk : k = 0) : out = pc := by
  induction h with
  | nil => rfl
  | separator => omega
  | op hop _ _ ih => rw [ih hk, getScriptOp_take hop]

theorem countSeparators : ∀ {fuel : Nat}, pc.length < fuel → countSeparators fuel pc = k := by
  induction h with
  | nil =>
    intro fuel hfuel
    obtain ⟨fuel, rfl⟩ := exists_eq_succ_of_ne_zero (Nat.ne_of_gt (zero_lt_of_lt hfuel))
    rfl
  | separator hop _ ih =>
    intro fuel hfuel
    obtain ⟨fuel, rfl⟩ := exists_eq_succ_of_ne_zero (Nat.ne_of_gt (zero_lt_of_lt hfuel))
    have hlt := getScriptOp_length hop
    simp only [SigHash.countSeparators, hop, if_true]
    rw [ih (by omega)]
    omega
  | op hop hne _ ih =>
    intro fuel hfuel
    obtain ⟨fuel, rfl⟩ := exists_eq_succ_of_ne_zero (Nat.ne_of_gt (zero_lt_of_lt hfuel))
    have hlt := getScriptOp_length hop
    simp only [SigHash.countSeparators, hop, if_neg hne]
    rw [ih (by omega)]
    omega

/-- What was not yet written is the front of `itBegin`. -/
theorem writeSegments : ∀ {fuel : Nat} {itBegin : CScript}, pc.length < fuel → pc <:+ itBegin →
    writeSegments fuel itBegin pc = itBegin.take (itBegin.length - pc.length) ++ out := by
  induction h with
  | nil =>
    intro fuel itBegin hfuel _
    obtain ⟨fuel, rfl⟩ := exists_eq_succ_of_ne_zero (Nat.ne_of_gt (zero_lt_of_lt hfuel))
    by_cases hnil : itBegin = []
    · simp [SigHash.writeSegments, getScriptOp, hnil]
    · simp [SigHash.writeSegments, getScriptOp, hnil, stoppedAt]
  | @separator pc rest out vch k hop _ ih =>
    intro fuel itBegin hfuel _
    obtain ⟨fuel, rfl⟩ := exists_eq_succ_of_ne_zero (Nat.ne_of_gt (zero_lt_of_lt hfuel))
    have hlt := getScriptOp_length hop
    have hlen : pc.length = rest.length + 1 := by rw [getScriptOp_separator hop, length_cons]
    simp only [SigHash.writeSegments, hop, if_true]
    rw [ih (by omega) (suffix_refl _), hlen, Nat.sub_self, take_zero, nil_append, Nat.sub_sub]
  | @op pc rest out opcode vch k hop hne _ ih =>
    intro fuel itBegin hfuel hbegin
    obtain ⟨fuel, rfl⟩ := exists_eq_succ_of_ne_zero (Nat.ne_of_gt (zero_lt_of_lt hfuel))
    have hlt := getScriptOp_length hop
    have hrest : rest <:+ pc := ⟨_, getScriptOp_take hop⟩
    simp only [SigHash.writeSegments, hop, if_neg hne]
    rw [ih (by omega) (hrest.trans hbegin), ← append_assoc]
    congr 1
    obtain ⟨t, rfl⟩ := hbegin
    rw [length_append, take_append, take_append, take_of_length_le (by omega)]
    simp only [take_of_length_le (show t.length ≤ t.length + pc.length - pc.length by omega),
      show t.length + pc.length - rest.length - t.length = pc.length - rest.length by omega,
      show t.length + pc.length - pc.length - t.length = 0 by omega, take_zero, append_nil]

theorem skipCopies : ∀ {fuel n : Nat}, pc.length < fuel →
    ∃ mid j m, skipCopies [OP_CODESEPARATOR] fuel pc n = .ok (mid, n + j) ∧ Strips mid out m ∧ k = j + m ∧
      mid.length ≤ pc.length ∧ mid.head? ≠ some OP_CODESEPARATOR := by
  induction h with
  | nil =>
    intro fuel n hfuel
    obtain ⟨fuel, rfl⟩ := exists_eq_succ_of_ne_zero (Nat.ne_of_gt (zero_lt_of_lt hfuel))
    exact ⟨[], 0, 0, rfl, .nil, rfl, le_rfl, by simp⟩
  | @separator pc rest out vch k hop hrest ih =>
    intro fuel n hfuel
    obtain ⟨fuel, rfl⟩ := exists_eq_succ_of_ne_zero (Nat.ne_of_gt (zero_lt_of_lt hfuel))
    have hpc := getScriptOp_separator hop
    have hlt := getScriptOp_length hop
    obtain ⟨mid, j, m, hskip, hmid, _, _, hhead⟩ := @ih fuel (n + 1) (by omega)
    refine ⟨mid, j + 1, m, ?_, hmid, by omega, by omega, hhead⟩
    rw [hpc]
    simp only [Script.skipCopies, isPrefixOf, beq_self_eq_true, Bool.and_self, if_true, length_cons, length_nil,
      drop_succ_cons, drop_zero]
    rw [hskip]
    congr 2
    omega
  | @op pc rest out opcode vch k hop hne hrest ih =>
    intro fuel n hfuel
    obtain ⟨fuel, rfl⟩ := exists_eq_succ_of_ne_zero (Nat.ne_of_gt (zero_lt_of_lt hfuel))
    obtain ⟨tail, rfl, -⟩ := getScriptOp_head hop
    refine ⟨opcode :: tail, 0, k, ?_, .op hop hne hrest, by omega, le_rfl, by simpa using hne⟩
    simp [Script.skipCopies, isPrefixOf, Ne.symm hne]

theorem findAndDeleteLoop {fuel : Nat} : ∀ {result pc2 : CScript} {n : Nat}, pc.length < fuel →
    findAndDeleteLoop [OP_CODESEPARATOR] fuel result pc pc2 n =
      .ok (result ++ pc2.take (pc2.length - pc.length) ++ out, n + k) := by
  induction fuel generalizing pc out k with
  | zero =>
    intro result pc2 n hfuel
    omega
  | succ fuel ih =>
    intro result pc2 n hfuel
    obtain ⟨_, _, _, hskip, hmid, hk, _, hhead⟩ := @skipCopies _ _ _ h (pc.length + 1) n (lt_succ_self _)
    simp only [findAndDeleteLoop, hskip, ok_bind]
    cases hmid with
    | nil =>
      simp only [getScriptOp, append_nil, hk, add_zero]
      rfl
    | separator hop _ => exact absurd (by rw [getScriptOp_separator hop]; rfl) hhead
    | op hop hne hrest =>
      have hlt := getScriptOp_length hop
      simp only [hop]
      rw [ih hrest (by omega), hk]
      simp only [append_assoc, add_assoc]

theorem findAndDelete : findAndDelete pc [OP_CODESEPARATOR] = .ok (out, k) := by
  unfold Script.findAndDelete
  rw [if_neg (by simp), h.findAndDeleteLoop (lt_succ_self _)]
  simp only [ok_bind, Nat.sub_self, take_zero, nil_append, Nat.zero_add]
  split_ifs with hk
  · rfl
  · rw [h.eq_of_none (by omega)]
    rfl

theorem serializeScriptCode : serializeScriptCode pc = writeByteVector out := by
  have hlen := h.length
  unfold SigHash.serializeScriptCode writeByteVector
  rw [h.countSeparators (lt_succ_self _), h.writeSegments (lt_succ_self _) (suffix_refl _), Nat.sub_self,
    take_zero, nil_append, hlen, Nat.add_sub_cancel]

omit h

end Strips

/-! ## Both hashes write the same inputs and outputs -/

theorem flatMap_range {α β : Type} (l : List α) (ser : α → List β) :
    (range l.length).flatMap (fun i => l[i]?.elim [] ser) = l.flatMap ser := by
  rw [flatMap_def, flatMap_def]
  congr 1
  refine ext_getElem (by simp) fun i hi hi' => ?_
  have hlt : i < l.length := by simpa using hi'
  simp [hlt]

/-- The inputs of the copy, some with other sequences cleared. -/
def copyInputs (scriptCode : CScript) (nIn : Nat) (nHashType : Uint32) (vin : List CTxIn) : List CTxIn :=
  if hashSingle nHashType ∨ hashNone nHashType then zeroSequences nIn (blankScripts scriptCode nIn vin)
  else blankScripts scriptCode nIn vin

/-- The outputs, where `SIGHASH_SINGLE` has one to keep. -/
def copyOutputs (nIn : Nat) (nHashType : Uint32) (vout : List CTxOut) : List CTxOut :=
  if hashNone nHashType then []
  else if hashSingle nHashType then (vout.take (nIn + 1)).mapIdx fun i txout => if i < nIn then nullTxOut else txout
  else vout

section Copy

variable {txTo : CMutableTransaction} {scriptCode out : CScript} {nIn : Nat} {nHashType : Uint32}

variable (vin : List CTxIn)

theorem blankScripts_get (i : Nat) : (blankScripts out nIn vin)[i]? =
    vin[i]?.map fun txin => { txin with scriptSig := if i = nIn then out else [] } := by
  unfold blankScripts
  rw [getElem?_modify, getElem?_map]
  cases vin[i]? with
  | none => rfl
  | some txin =>
    by_cases h : nIn = i
    · simp [h]
    · simp [h, Ne.symm h]

theorem copyInputs_get (i : Nat) : (copyInputs out nIn nHashType vin)[i]? = vin[i]?.map fun txin => { txin with
      scriptSig := if i = nIn then out else []
      nSequence := if i ≠ nIn ∧ (hashSingle nHashType ∨ hashNone nHashType) then 0 else txin.nSequence } := by
  unfold copyInputs
  by_cases hz : hashSingle nHashType ∨ hashNone nHashType
  · rw [if_pos hz, zeroSequences, getElem?_mapIdx, blankScripts_get]
    cases vin[i]? with
    | none => rfl
    | some txin =>
      by_cases h : i = nIn
      · simp [h]
      · simp [h, hz]
  · rw [if_neg hz, blankScripts_get]
    simp [hz]

theorem copyInputs_length : (copyInputs out nIn nHashType vin).length = vin.length := by
  unfold copyInputs
  split <;> simp [zeroSequences, blankScripts]

theorem serializeInput_copy (hcode : serializeScriptCode scriptCode = writeByteVector out) (i : Nat) :
    serializeInput txTo scriptCode nIn nHashType i =
      (copyInputs out nIn nHashType txTo.vin)[if anyoneCanPay nHashType then nIn else i]?.elim [] writeTxIn := by
  rw [copyInputs_get]
  unfold serializeInput
  generalize (if anyoneCanPay nHashType then nIn else i) = n
  simp only
  cases txTo.vin[n]? with
  | none => rfl
  | some txin =>
    by_cases h : n = nIn
    · simp [h, hcode, writeTxIn]
    · by_cases hz : hashSingle nHashType ∨ hashNone nHashType <;> simp [h, hz, writeTxIn]

theorem serializeInputs (hcode : serializeScriptCode scriptCode = writeByteVector out) (hin : nIn < txTo.vin.length) :
    (let nInputs := if anyoneCanPay nHashType then 1 else txTo.vin.length
     writeCompactSize nInputs ++ (range nInputs).flatMap (serializeInput txTo scriptCode nIn nHashType)) =
      writeVector writeTxIn (if anyoneCanPay nHashType then keepInput nIn (copyInputs out nIn nHashType txTo.vin)
        else copyInputs out nIn nHashType txTo.vin) := by
  have hser : serializeInput txTo scriptCode nIn nHashType = _ := funext (serializeInput_copy hcode)
  simp only [hser, writeVector]
  have hlen : (copyInputs out nIn nHashType txTo.vin).length = txTo.vin.length := copyInputs_length _
  generalize copyInputs out nIn nHashType txTo.vin = vin at hlen
  by_cases hacp : anyoneCanPay nHashType
  · have htxin := getElem?_eq_getElem (l := vin) (i := nIn) (by omega)
    obtain ⟨_, _, rfl⟩ := exists_cons_of_length_pos (show 0 < vin.length by omega)
    simp [hacp, keepInput, htxin]
  · simp only [hacp, if_false, Bool.false_eq_true]
    rw [← hlen, flatMap_range]

theorem serializeOutputs (hrange : singleOutOfRange txTo nIn nHashType = false) :
    (let nOutputs := if hashNone nHashType then 0 else if hashSingle nHashType then nIn + 1 else txTo.vout.length
     writeCompactSize nOutputs ++ (range nOutputs).flatMap (serializeOutput txTo nIn nHashType)) =
      writeVector writeTxOut (copyOutputs nIn nHashType txTo.vout) := by
  unfold copyOutputs writeVector
  by_cases hnone : hashNone nHashType
  · simp [hnone]
  · by_cases hsingle : hashSingle nHashType
    · have hout : nIn < txTo.vout.length := by simpa [singleOutOfRange, hsingle] using hrange
      set vout := (txTo.vout.take (nIn + 1)).mapIdx fun i txout => if i < nIn then nullTxOut else txout with hvout
      have hlen : vout.length = nIn + 1 := by
        rw [hvout, length_mapIdx, length_take]
        omega
      have hser : ∀ i < nIn + 1, serializeOutput txTo nIn nHashType i = vout[i]?.elim [] writeTxOut := by
        intro i hi
        rw [hvout, getElem?_mapIdx, getElem?_take, if_pos hi, getElem?_eq_getElem (by omega)]
        unfold serializeOutput
        by_cases h : i = nIn
        · simp [h, hsingle, hout]
        · simp [h, hsingle, show i < nIn by omega]
      simp only [hnone, hsingle, if_false, if_true, Bool.false_eq_true]
      rw [hlen, ← flatMap_range vout, hlen]
      congr 1
      rw [flatMap_def, flatMap_def]
      congr 1
      exact map_congr_left fun i hi => hser i (mem_range.mp hi)
    · have hser : serializeOutput txTo nIn nHashType = fun i => txTo.vout[i]?.elim [] writeTxOut := by
        funext i
        unfold serializeOutput
        cases txTo.vout[i]? <;> simp [hsingle]
      simp only [hnone, hsingle, if_false, Bool.false_eq_true]
      rw [hser, flatMap_range]

theorem blankOutputs_copy (hrange : singleOutOfRange txTo nIn nHashType = false) :
    blankOutputs nIn nHashType { txTo with vin := blankScripts out nIn txTo.vin } =
      some { txTo with vin := copyInputs out nIn nHashType txTo.vin, vout := copyOutputs nIn nHashType txTo.vout } := by
  unfold blankOutputs copyInputs copyOutputs
  by_cases hnone : hashNone nHashType
  · simp [hnone]
  · by_cases hsingle : hashSingle nHashType
    · have hout : nIn < txTo.vout.length := by simpa [singleOutOfRange, hsingle] using hrange
      simp [hnone, hsingle, show ¬ nIn ≥ txTo.vout.length by omega]
    · simp [hnone, hsingle]

theorem blankOutputs_none (hrange : singleOutOfRange txTo nIn nHashType = true) :
    blankOutputs nIn nHashType { txTo with vin := blankScripts out nIn txTo.vin } = none := by
  obtain ⟨hsingle, hout⟩ := Bool.and_eq_true_iff.mp hrange
  have hnone : hashNone nHashType = false := by
    simp only [hashSingle, hashNone, beq_iff_eq, beq_eq_false_iff_ne] at hsingle ⊢
    rw [hsingle]
    decide
  unfold blankOutputs
  simp [hnone, hsingle, of_decide_eq_true hout]

end Copy

/-! ## Both hashes are the same -/

/-- The stream and the copy give one digest. -/
theorem signatureHashBase_eq_old {scriptCode : CScript} {txTo : CMutableTransaction} {nIn : Nat} (nHashType : Uint32)
    (hdecodes : DecodesCompletely scriptCode) (hin : nIn < txTo.vin.length) :
    ∃ digest, signatureHashBase scriptCode txTo nIn nHashType = .ok digest ∧
      signatureHashOld scriptCode txTo nIn nHashType = .ok digest ∧
      (digest = .one ↔ singleOutOfRange txTo nIn nHashType = true) := by
  obtain ⟨_, _, hstrips⟩ := strips_of_scan hdecodes
  unfold signatureHashBase signatureHashOld
  rw [if_neg (not_le.mpr hin), hstrips.findAndDelete, decide_eq_true hin]
  simp only [check_true, ok_bind]
  cases hrange : singleOutOfRange txTo nIn nHashType with
  | true =>
    rw [blankOutputs_none hrange]
    exact ⟨.one, rfl, rfl, by simp⟩
  | false =>
    rw [blankOutputs_copy hrange]
    refine ⟨_, rfl, ?_, by simp⟩
    simp only [serializeForSignature]
    rw [serializeInputs hstrips.serializeScriptCode hin, serializeOutputs hrange]
    by_cases hacp : anyoneCanPay nHashType <;> simp [hacp, serializeTransaction] <;> rfl

/-- `1 OP_CODESEPARATOR 1` at the second input, which has no output. -/
theorem signatureHashBase_eq_old_single :
    let txTo : CMutableTransaction := ⟨[⟨⟨7, 0⟩, [], 5, []⟩, ⟨⟨7, 1⟩, [], 6, []⟩], [⟨3, [0x51]⟩], 2, 0⟩
    DecodesCompletely [0x51, 0xab, 0x51] ∧ ∃ digest, signatureHashBase [0x51, 0xab, 0x51] txTo 1 3 = .ok digest ∧
      signatureHashOld [0x51, 0xab, 0x51] txTo 1 3 = .ok digest ∧ (digest = .one ↔ singleOutOfRange txTo 1 3 = true) :=
  ⟨by unfold DecodesCompletely; decide, signatureHashBase_eq_old 3 (by unfold DecodesCompletely; decide) (by decide)⟩

end FullNode.SigHash

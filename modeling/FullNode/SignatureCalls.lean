import FullNode.Unspendable

/-!
# The signature checks of one input

`VerifyScript` asks its checker about signatures as the scripts run.
-/

namespace FullNode.Script

open List

/-! ## Calls -/

/-- The arguments of `CheckECDSASignature`. -/
structure Call where
  vchSig : Valtype
  vchPubKey : Valtype
  scriptCode : CScript
  sigversion : SigVersion
  deriving DecidableEq

def callsAfter {α : Type} (x : Eval α) (calls : α → List Call) : List Call :=
  match x with
  | .ok a => calls a
  | .error _ => []

section Calls

variable (v : Verifier) (flags : Flags) (sv : SigVersion)

def checksigCalls (vchSig vchPubKey : Valtype) (code : CScript) : List Call :=
  if sv ≠ .base ∧ sv ≠ .witnessV0 then []
  else
    callsAfter (dropSignature flags sv vchSig code) fun code =>
    callsAfter (checkSignatureEncoding v flags vchSig) fun _ =>
    callsAfter (checkPubKeyEncoding flags sv vchPubKey) fun _ =>
      [⟨vchSig, vchPubKey, code, sv⟩]

def opCheckSigCalls (s : EvalState) : List Call :=
  callsAfter (failIf (s.stack.length < 2) .invalidStackOperation) fun _ =>
  callsAfter (stackTop s.stack 2) fun vchSig =>
  callsAfter (stackTop s.stack 1) fun vchPubKey =>
    checksigCalls v flags sv vchSig vchPubKey s.pbegincodehash

def matchCalls (code : CScript) (stack : List Valtype) : Nat → Nat → Nat → Nat → Nat → List Call
  | 0, _, _, _, _ => []
  | fuel + 1, isig, ikey, nSigs, nKeys =>
    if nSigs = 0 then []
    else
      callsAfter (stackTop stack isig) fun vchSig =>
      callsAfter (stackTop stack ikey) fun vchPubKey =>
      callsAfter (checkSignatureEncoding v flags vchSig) fun _ =>
      callsAfter (checkPubKeyEncoding flags sv vchPubKey) fun _ =>
        let fOk := v.checker.checkECDSASignature vchSig vchPubKey code sv
        let isig := if fOk then isig + 1 else isig
        let nSigs := if fOk then nSigs - 1 else nSigs
        ⟨vchSig, vchPubKey, code, sv⟩ ::
          if nSigs > nKeys - 1 then []
          else matchCalls code stack fuel isig (ikey + 1) nSigs (nKeys - 1)

def opCheckMultiSigCalls (s : EvalState) : List Call :=
  callsAfter (failIf (sv = .tapscript) .tapscriptCheckMultiSig) fun _ =>
  callsAfter (failIf (s.stack.length < 1) .invalidStackOperation) fun _ =>
  callsAfter (stackTop s.stack 1) fun vchKeys =>
  callsAfter (scriptNum vchKeys (requireMinimal flags) nDefaultMaxNumSize) fun keys =>
  callsAfter (failIf (getint keys < 0 ∨ getint keys > MAX_PUBKEYS_PER_MULTISIG) .pubkeyCount) fun _ =>
  let nKeys := (getint keys).toNat
  callsAfter (failIf (s.nOpCount + nKeys > MAX_OPS_PER_SCRIPT) .opCount) fun _ =>
  let i := 2 + nKeys
  callsAfter (failIf (s.stack.length < i) .invalidStackOperation) fun _ =>
  callsAfter (stackTop s.stack i) fun vchSigs =>
  callsAfter (scriptNum vchSigs (requireMinimal flags) nDefaultMaxNumSize) fun sigs =>
  callsAfter (failIf (getint sigs < 0 ∨ getint sigs > nKeys) .sigCount) fun _ =>
  let nSigs := (getint sigs).toNat
  callsAfter (failIf (s.stack.length < i + 1 + nSigs) .invalidStackOperation) fun _ =>
  callsAfter (dropSignatures flags sv s.stack nSigs (i + 1) s.pbegincodehash) fun code =>
    matchCalls v flags sv code s.stack (nKeys + 1) (i + 1) 2 nSigs nKeys

def execOpCalls (s : EvalState) : Opcode → List Call
  | .checkSig _ => opCheckSigCalls v flags sv s
  | .checkMultiSig _ => opCheckMultiSigCalls v flags sv s
  | _ => []

def runOpCalls (opcode : UInt8) (s : EvalState) : List Call :=
  let fExec := s.vfExec.allTrue
  if fExec ∧ opcode ≤ OP_PUSHDATA4 then []
  else if fExec ∨ OP_IF ≤ opcode ∧ opcode ≤ OP_ENDIF then execOpCalls v flags sv s (label opcode)
  else []

def stepCalls (s : EvalState) : List Call :=
  match getScriptOp s.pc with
  | none => []
  | some (opcode, vchPushValue, pc) =>
    callsAfter (failIf (vchPushValue.length > MAX_SCRIPT_ELEMENT_SIZE) .pushSize) fun _ =>
    let nOpCount := countOp sv opcode s.nOpCount
    callsAfter (failIf (sv.limited ∧ opcode > OP_16 ∧ nOpCount > MAX_OPS_PER_SCRIPT) .opCount) fun _ =>
    callsAfter (failIf (opcode ∈ disabledOpcodes) .disabledOpcode) fun _ =>
    callsAfter (failIf (opcode = OP_CODESEPARATOR ∧ sv = .base ∧ .constScriptcode ∈ flags) .opCodeSeparator) fun _ =>
      runOpCalls v flags sv opcode { s with pc, nOpCount }

def loopCalls : Nat → EvalState → List Call
  | 0, _ => []
  | fuel + 1, s =>
    if s.pc = [] then []
    else stepCalls v flags sv s ++ callsAfter (evalStep v flags sv s) (loopCalls fuel)

def scriptCalls (stack : List Valtype) (script : CScript) (data : ScriptExecutionData) : List Call :=
  if sv = .taproot then []
  else
    callsAfter (failIf (sv.limited ∧ script.length > MAX_SCRIPT_SIZE) .scriptSize) fun _ =>
      loopCalls v flags sv script.length (.start script stack data)

def witnessScriptCalls (stackSpan : List Valtype) (execScript : CScript) (data : ScriptExecutionData) : List Call :=
  callsAfter (preExecute flags sv stackSpan.reverse execScript) fun success =>
    if success then []
    else
      callsAfter (failIf (stackSpan.reverse.any fun elem => elem.length > MAX_SCRIPT_ELEMENT_SIZE) .pushSize) fun _ =>
        scriptCalls v flags sv stackSpan.reverse execScript data

end Calls

section Input

variable (v : Verifier) (flags : Flags)

def witnessV0Calls (witness : List Valtype) (program : Valtype) : List Call :=
  if program.length = 32 then
    match witness.getLast? with
    | none => []
    | some scriptBytes =>
      callsAfter (failIf (sha256 scriptBytes ≠ program) .witnessProgramMismatch) fun _ =>
        witnessScriptCalls v flags .witnessV0 witness.dropLast scriptBytes {}
  else if program.length = 20 then
    callsAfter (failIf (witness.length ≠ 2) .witnessProgramMismatch) fun _ =>
      let execScript := [OP_DUP, OP_HASH160] ++ pushData program ++ [OP_EQUALVERIFY, OP_CHECKSIG]
      witnessScriptCalls v flags .witnessV0 witness execScript {}
  else []

def witnessProgramCalls (witness : List Valtype) (witversion : Nat) (program : Valtype) : List Call :=
  if witversion = 0 then witnessV0Calls v flags witness program else []

def programCalls (witness : List Valtype) (script : CScript) (malleated : Bool) (e : ScriptError) : List Call :=
  if .witness ∈ flags then
    match isWitnessProgram script with
    | none => []
    | some (version, program) => callsAfter (failIf malleated e) fun _ =>
      witnessProgramCalls v flags witness version program
  else []

def redeemScriptCalls (witness : List Valtype) (scriptSig : CScript) (copy : List Valtype) : List Call :=
  callsAfter (isPushOnly scriptSig) fun pushOnly =>
  callsAfter (failIf (¬ pushOnly) .sigPushOnly) fun _ =>
  match copy with
  | [] => []
  | pubKey2 :: rest =>
    scriptCalls v flags .base rest pubKey2 {} ++
    callsAfter (evalScript v flags .base rest pubKey2 {}) fun (stack, _) =>
    callsAfter (requireTrue stack) fun _ =>
      programCalls v flags witness pubKey2 (scriptSig ≠ pushData pubKey2) .witnessMalleatedP2SH

def scriptHashCalls (witness : List Valtype) (scriptSig spk : CScript) (copy : List Valtype) : List Call :=
  if .p2sh ∈ flags ∧ isPayToScriptHash spk then redeemScriptCalls v flags witness scriptSig copy else []

/-- The calls of a run of `VerifyScript`. -/
def verifyCalls (scriptSig spk : CScript) (witness : Option (List Valtype)) : List Call :=
  let witness := witness.getD []
  callsAfter (checkPushOnly flags scriptSig) fun _ =>
  scriptCalls v flags .base [] scriptSig {} ++
  callsAfter (evalScript v flags .base [] scriptSig {}) fun (copy, _) =>
  scriptCalls v flags .base copy spk {} ++
  callsAfter (evalScript v flags .base copy spk {}) fun (stack, _) =>
  callsAfter (requireTrue stack) fun _ =>
  programCalls v flags witness spk (scriptSig.length ≠ 0) .witnessMalleated ++
  callsAfter (checkProgram v flags witness spk (scriptSig.length ≠ 0) .witnessMalleated false stack) fun _ =>
    scriptHashCalls v flags witness scriptSig spk copy

end Input

/-! ## What holds of all calls -/

section Runs

variable {α : Type} {v : Verifier} {flags : Flags} {sv : SigVersion} {s : EvalState}
  {P : Call → Prop}

variable {calls : α → List Call} {fuel : Nat} {stack witness : List Valtype} {script rest : CScript}
  {data : ScriptExecutionData} {opcode : UInt8} {vch : Valtype} {malleated : Bool} {call : Call}
  {x : Eval α}

theorem mem_callsAfter : call ∈ callsAfter x calls ↔ ∃ a, x = .ok a ∧ call ∈ calls a := by
  cases x with
  | ok a | error h => simp [callsAfter]

theorem forall_callsAfter (h : ∀ a, x = .ok a → ∀ call ∈ calls a, P call) : ∀ call ∈ callsAfter x calls, P call := by
  intro call hcall
  obtain ⟨a, hx, hcall⟩ := mem_callsAfter.mp hcall
  exact h a hx call hcall

variable (h : ∀ s op, ∀ call ∈ execOpCalls v flags sv s op, P call) {scriptSig spk : CScript}
  {pc : CScript}
include h

theorem stepCalls_forall :
    ∀ call ∈ stepCalls v flags sv s, P call := by
  unfold stepCalls
  split
  · exact forall_mem_nil _
  · refine forall_callsAfter fun _ _ => ?_
    iterate 3 refine forall_callsAfter fun _ _ => ?_
    unfold runOpCalls
    simp only
    split_ifs
    · exact forall_mem_nil _
    · exact h _ _
    · exact forall_mem_nil _

theorem loopCalls_forall :
    ∀ call ∈ loopCalls v flags sv fuel s, P call := by
  induction fuel generalizing s with
  | zero => exact forall_mem_nil _
  | succ fuel ih =>
    unfold loopCalls
    split
    · exact forall_mem_nil _
    · exact forall_mem_append.mpr ⟨stepCalls_forall h, forall_callsAfter fun s' _ => ih⟩

theorem scriptCalls_forall :
    ∀ call ∈ scriptCalls v flags sv stack script data, P call := by
  unfold scriptCalls
  split
  · exact forall_mem_nil _
  · exact forall_callsAfter fun _ _ => loopCalls_forall h

theorem witnessScriptCalls_forall {stackSpan : List Valtype} {execScript : CScript} :
    ∀ call ∈ witnessScriptCalls v flags sv stackSpan execScript data, P call := by
  refine forall_callsAfter fun success _ => ?_
  split
  · exact forall_mem_nil _
  · exact forall_callsAfter fun _ _ => scriptCalls_forall h

omit h

theorem checksigCalls_version (vchSig vchPubKey : Valtype) (code : CScript) :
    ∀ call ∈ checksigCalls v flags sv vchSig vchPubKey code,
      call.sigversion = sv ∧ (sv = .base ∨ sv = .witnessV0) := by
  unfold checksigCalls
  split
  · exact forall_mem_nil _
  · next hversion =>
    iterate 3 refine forall_callsAfter fun _ _ => ?_
    intro call hcall
    rw [mem_singleton.mp hcall]
    exact ⟨rfl, by simpa [imp_iff_not_or, or_comm] using hversion⟩

theorem matchCalls_version {code : CScript} {isig ikey nSigs nKeys : Nat} :
    ∀ call ∈ matchCalls v flags sv code stack fuel isig ikey nSigs nKeys, call.sigversion = sv := by
  induction fuel generalizing isig ikey nSigs nKeys with
  | zero => exact forall_mem_nil _
  | succ fuel ih =>
    unfold matchCalls
    split
    · exact forall_mem_nil _
    · refine forall_callsAfter fun _ _ => ?_
      iterate 3 refine forall_callsAfter fun _ _ => ?_
      refine forall_mem_cons.mpr ⟨rfl, fun call hcall => ?_⟩
      exact ih call (mem_ite_nil_left.mp hcall).2

theorem opCheckMultiSigCalls_version : ∀ call ∈ opCheckMultiSigCalls v flags sv s,
    call.sigversion = sv ∧ sv ≠ .tapscript := by
  refine forall_callsAfter fun _ hversion => ?_
  have hne : sv ≠ .tapscript := by
    rintro rfl
    cases hversion
  iterate 11 refine forall_callsAfter fun _ _ => ?_
  exact fun call hcall => ⟨matchCalls_version call hcall, hne⟩

theorem execOpCalls_version (s : EvalState) (op : Opcode) : ∀ call ∈ execOpCalls v flags sv s op,
    call.sigversion = sv ∧ sv ≠ .tapscript := by
  cases op with
  | checkSig verify =>
    iterate 3 refine forall_callsAfter fun _ _ => ?_
    intro call hcall
    obtain ⟨hcall, hversion⟩ := checksigCalls_version _ _ _ call hcall
    refine ⟨hcall, ?_⟩
    rintro rfl
    simp at hversion
  | checkMultiSig verify => exact opCheckMultiSigCalls_version
  | _ => exact forall_mem_nil _

theorem scriptCalls_version : ∀ call ∈ scriptCalls v flags sv stack script data, call.sigversion = sv :=
  scriptCalls_forall fun s op call hcall => (execOpCalls_version s op call hcall).1

/-! ## Scripts that do not ask -/

def asks (opcode : UInt8) : Bool :=
  match label opcode with
  | .checkSig _ | .checkMultiSig _ => true
  | _ => false

theorem asks_eq (h : asks opcode = true) : 0xac ≤ opcode := by
  have hall : ∀ entry ∈ labels, (∀ verify, entry.2 ≠ .checkSig verify ∧ entry.2 ≠ .checkMultiSig verify) ∨
      0xac ≤ entry.1 := by decide
  unfold asks label at h
  cases hlookup : labels.lookup opcode with
  | none =>
    rw [hlookup] at h
    cases h
  | some op =>
    rw [hlookup] at h
    obtain ⟨_, _, hlabels, -⟩ := lookup_eq_some_iff.mp hlookup
    refine (hall (opcode, op) (by rw [hlabels]; simp)).resolve_left fun hne => ?_
    cases op with
    | checkSig verify => exact (hne verify).1 rfl
    | checkMultiSig verify => exact (hne verify).2 rfl
    | _ => cases h

theorem stepCalls_silent (hop : getScriptOp s.pc = some (opcode, vch, rest))
    (h : asks opcode = false) : ∀ call ∈ stepCalls v flags sv s, False := by
  have hexec : ∀ s, execOpCalls v flags sv s (label opcode) = [] := by
    intro s
    unfold asks at h
    cases hlabel : label opcode with
    | checkSig verify | checkMultiSig verify =>
      rw [hlabel] at h
      cases h
    | _ => rfl
  unfold stepCalls
  rw [hop]
  iterate 4 refine forall_callsAfter fun _ _ => ?_
  unfold runOpCalls
  simp [hexec]

theorem execOp_pc (fExec : Bool) (op : Opcode) : Returns (fun s' => s'.pc = s.pc) (execOp v flags sv fExec s op) := by
  cases hcond : op.conditional with
  | false => exact (execOp_framed v flags sv fExec hcond).mono fun s' hs' => hs'.1
  | true =>
    cases op with
    | cond negated =>
      change Returns _ (opIf flags sv negated fExec s)
      unfold opIf
      split
      · refine returns_bind fun _ => ?_
        refine returns_bind fun _ => ?_
        refine returns_bind fun _ => ?_
        exact returns_bind fun _ => rfl
      · exact rfl
    | else_ | endIf => exact returns_bind fun _ => returns_bind fun _ => rfl
    | _ => cases hcond

theorem evalStep_pc (hop : getScriptOp s.pc = some (opcode, vch, rest)) :
    Returns (fun s' => s'.pc = rest) (evalStep v flags sv s) := by
  unfold evalStep
  rw [hop]
  iterate 4 refine returns_bind fun _ => ?_
  have hrun : Returns (fun s' : EvalState => s'.pc = rest)
      (runOp v flags sv opcode vch { s with pc := rest, nOpCount := countOp sv opcode s.nOpCount }) := by
    unfold runOp
    simp only
    split
    · exact (pushValue_framed flags opcode vch).mono fun s' hs' => hs'.1
    · split
      · exact execOp_pc _ _
      · exact rfl
  exact hrun.bind fun s' hs' => returns_bind fun _ => hs'

theorem loopCalls_silent {fuel' : Nat}
    (h : scanOps (fun opcode => if asks opcode then some false else none) false true fuel' s.pc = .ok true) :
    ∀ call ∈ loopCalls v flags sv fuel s, False := by
  induction fuel generalizing s fuel' with
  | zero => exact forall_mem_nil _
  | succ fuel ih =>
    cases fuel' with
    | zero => cases h
    | succ fuel' =>
      unfold scanOps at h
      unfold loopCalls
      split
      · exact forall_mem_nil _
      · next hne =>
        rw [if_neg hne] at h
        cases hop : getScriptOp s.pc with
        | none =>
          rw [hop] at h
          cases h
        | some read =>
          obtain ⟨opcode, _, _⟩ := read
          rw [hop] at h
          cases hasks : asks opcode with
          | true =>
            simp only [hasks, if_true] at h
            cases h
          | false =>
            simp only [hasks, if_false, Bool.false_eq_true] at h
            refine forall_mem_append.mpr ⟨stepCalls_silent hop hasks, forall_callsAfter fun s' hs' => ?_⟩
            have hpc := @evalStep_pc v flags sv s _ _ _ hop
            rw [hs'] at hpc
            exact ih (hpc.symm ▸ h)

theorem scriptCalls_silent
    (h : scanOps (fun opcode => if asks opcode then some false else none) false true fuel script = .ok true) :
    ∀ call ∈ scriptCalls v flags sv stack script data, False := by
  unfold scriptCalls
  split
  · exact forall_mem_nil _
  · exact forall_callsAfter fun _ _ => loopCalls_silent h

theorem scanOps_silent
    (h : scanOps (fun opcode => if opcode > OP_16 then some false else none) false true fuel pc = .ok true) :
    scanOps (fun opcode => if asks opcode then some false else none) false true fuel pc = .ok true := by
  induction fuel generalizing pc with
  | zero => cases h
  | succ fuel ih =>
    unfold scanOps at h ⊢
    split
    · rfl
    · next hne =>
      rw [if_neg hne] at h
      cases hop : getScriptOp pc with
      | none =>
        rw [hop] at h
        cases h
      | some read =>
        obtain ⟨opcode, _, _⟩ := read
        rw [hop] at h
        by_cases hpush : opcode > OP_16
        · simp only [hpush, if_true] at h
          cases h
        · have hasks : asks opcode = false := by
            refine Bool.eq_false_iff.mpr fun hasks => hpush ?_
            exact UInt8.lt_of_lt_of_le (by decide) (asks_eq hasks)
          simp only [hpush, if_false] at h
          simp only [hasks, if_false, Bool.false_eq_true]
          exact ih h

theorem pushOnly_silent (h : isPushOnly script = .ok true) : ∀ call ∈ scriptCalls v flags sv stack script data, False :=
  scriptCalls_silent (scanOps_silent h)

/-! ## The two forms of a script that sends for another -/

theorem scanOps_step {stop : UInt8 → Option α} {bad done : α}
    (hop : getScriptOp pc = some (opcode, vch, rest)) (hstop : stop opcode = none) :
    scanOps stop bad done (fuel + 1) pc = scanOps stop bad done fuel rest := by
  have hne : pc ≠ [] := by
    rintro rfl
    cases hop
  rw [scanOps, if_neg hne, hop]
  simp only [hstop]

theorem witnessProgram_silent (h : (isWitnessProgram script).isSome = true) :
    ∀ call ∈ scriptCalls v flags sv stack script data, False := by
  have hscan : scanOps (fun opcode => if opcode > OP_16 then some false else none) false true 3 script = .ok true := by
    have hlen : ¬ (script.length < 4 ∨ script.length > 42) := by
      intro hlen
      rw [isWitnessProgram, if_pos hlen] at h
      cases h
    rw [isWitnessProgram, if_neg hlen] at h
    obtain ⟨version, size, program, rfl⟩ : ∃ version size program, script = version :: size :: program := by
      match script, hlen with
      | version :: size :: program, _ => exact ⟨version, size, program, rfl⟩
      | [_], hlen | [], hlen => simp at hlen
    simp only [byteAt, getD_cons_zero, getD_cons_succ] at h
    have hversion : ¬ (version ≠ OP_0 ∧ (version < OP_1 ∨ version > OP_16)) := by
      intro hversion
      rw [if_pos hversion] at h
      cases h
    have hsize : size.toNat + 2 = (version :: size :: program).length := by
      by_contra hsize
      rw [if_neg hversion, if_neg hsize] at h
      cases h
    simp only [length_cons] at hsize hlen
    have hfirst : ∃ vch, getScriptOp (version :: size :: program) = some (version, vch, size :: program) := by
      by_cases hzero : version = OP_0
      · subst hzero
        exact ⟨_, getScriptOp_push (by simp only [length_cons]; omega) (by decide) (Nat.zero_le _)⟩
      · refine ⟨_, getScriptOp_op (by simp only [length_cons]; omega) ?_⟩
        exact UInt8.lt_of_lt_of_le (by decide) (UInt8.not_lt.mp fun hlt => hversion ⟨hzero, .inl hlt⟩)
    have hsecond : getScriptOp (size :: program) = some (size, program.take size.toNat, program.drop size.toNat) := by
      refine getScriptOp_push (by omega) ?_ (by omega)
      rw [UInt8.lt_iff_toNat_lt]
      change size.toNat < 76
      omega
    obtain ⟨vch, hfirst⟩ := hfirst
    have hversionPush : ¬ version > OP_16 := by
      intro hgt
      refine hversion ⟨?_, .inr hgt⟩
      rintro rfl
      exact absurd hgt (by decide)
    have hsizePush : ¬ size > OP_16 := by
      rw [gt_iff_lt, UInt8.lt_iff_toNat_lt]
      change ¬ 96 < size.toNat
      omega
    have hrest : program.drop size.toNat = [] := drop_eq_nil_of_le (by omega)
    rw [scanOps_step hfirst (if_neg hversionPush), scanOps_step hsecond (if_neg hsizePush), hrest]
    rfl
  exact scriptCalls_silent (scanOps_silent hscan)

theorem scriptHash_silent (h : isPayToScriptHash script = true) :
    ∀ call ∈ scriptCalls v flags sv stack script data, False := by
  have hscan : scanOps (fun opcode => if asks opcode then some false else none) false true 4 script = .ok true := by
    obtain ⟨first, size, hash, rfl⟩ : ∃ first size hash, script = first :: size :: hash := by
      match script, h with
      | first :: size :: hash, _ => exact ⟨first, size, hash, rfl⟩
      | [_], h | [], h => exact absurd h (by simp [isPayToScriptHash])
    simp only [isPayToScriptHash, byteAt, getD_cons_zero, getD_cons_succ, length_cons, Bool.and_eq_true,
      beq_iff_eq] at h
    obtain ⟨⟨⟨_, rfl⟩, rfl⟩, hlast⟩ := h
    have hfirst : getScriptOp (OP_HASH160 :: 0x14 :: hash) = some (OP_HASH160, [], 0x14 :: hash) :=
      getScriptOp_op (by simp only [length_cons]; omega) (by decide)
    have hsize : (0x14 : UInt8).toNat = 20 := rfl
    have hrest : hash.drop 20 = [OP_EQUAL] := by
      refine ext_getElem (by simp only [length_drop, length_singleton]; omega) fun i hi hi' => ?_
      have hzero : i = 0 := by simpa using hi'
      subst hzero
      rw [getElem_drop]
      simpa [getD_eq_getElem?_getD, show 20 < hash.length by omega] using hlast
    have hsecond : getScriptOp (0x14 :: hash) = some (0x14, hash.take 20, [OP_EQUAL]) := by
      rw [getScriptOp_push (by omega) (by decide) (by omega), hsize, hrest]
    have hthird : getScriptOp [OP_EQUAL] = some (OP_EQUAL, [], []) := getScriptOp_op (by decide) (by decide)
    rw [scanOps_step hfirst (by decide), scanOps_step hsecond (by decide), scanOps_step hthird (by decide)]
    rfl
  exact scriptCalls_silent hscan

theorem not_witnessProgram_of_scriptHash (h : isPayToScriptHash script = true) : isWitnessProgram script = none := by
  unfold isPayToScriptHash at h
  simp only [Bool.and_eq_true, beq_iff_eq] at h
  unfold isWitnessProgram
  rw [h.1.1.2]
  split_ifs with _ hversion
  · rfl
  · rfl
  · exact absurd ⟨by decide, .inr (by decide)⟩ hversion
  · rfl

/-! ## One version -/

theorem programCalls_version {e : ScriptError} :
    ∀ call ∈ programCalls v flags witness script malleated e, call.sigversion = .witnessV0 := by
  have hscript : ∀ stackSpan execScript data, ∀ call ∈ witnessScriptCalls v flags .witnessV0 stackSpan execScript data,
      call.sigversion = .witnessV0 :=
        fun _ _ _ => witnessScriptCalls_forall fun s op call hcall => (execOpCalls_version s op call hcall).1
  unfold programCalls witnessProgramCalls witnessV0Calls
  split
  · split
    · exact forall_mem_nil _
    · refine forall_callsAfter fun _ _ => ?_
      split
      · split
        · split
          · exact forall_mem_nil _
          · exact forall_callsAfter fun _ _ => hscript _ _ _
        · split
          · exact forall_callsAfter fun _ _ => hscript _ _ _
          · exact forall_mem_nil _
      · exact forall_mem_nil _
  · exact forall_mem_nil _

theorem programCalls_none (malleated : Bool) (e : ScriptError)
    (h : isWitnessProgram script = none) : programCalls v flags witness script malleated e = [] := by
  unfold programCalls
  rw [h]
  exact ite_self _

theorem programCalls_malleated (e : ScriptError) (h : malleated = true) :
    programCalls v flags witness script malleated e = [] := by
  unfold programCalls
  rw [h]
  split
  · split <;> rfl
  · rfl

theorem redeemCalls_version (witness rest : List Valtype) (pubKey2 : CScript) (malleated : Bool) (e : ScriptError) :
    ∃ version, (version = .base ∨ version = .witnessV0) ∧
      (∀ call ∈ scriptCalls v flags .base rest pubKey2 {}, call.sigversion = version) ∧
      ∀ call ∈ programCalls v flags witness pubKey2 malleated e, call.sigversion = version := by
  cases hprogram : isWitnessProgram pubKey2 with
  | none =>
    refine ⟨.base, .inl rfl, scriptCalls_version, ?_⟩
    rw [programCalls_none _ _ hprogram]
    exact forall_mem_nil _
  | some program =>
    refine ⟨.witnessV0, .inr rfl, fun call hcall => ?_, programCalls_version⟩
    exact (witnessProgram_silent (by rw [hprogram]; rfl) call hcall).elim

theorem scriptHashCalls_version (witness : List Valtype) (scriptSig spk : CScript) (copy : List Valtype) :
    ∃ version, (version = .base ∨ version = .witnessV0) ∧
      ∀ call ∈ scriptHashCalls v flags witness scriptSig spk copy, call.sigversion = version := by
  cases copy with
  | nil =>
    refine ⟨.base, .inl rfl, fun call hcall => ?_⟩
    unfold scriptHashCalls at hcall
    split at hcall
    · obtain ⟨_, -, hcall⟩ := mem_callsAfter.mp hcall
      obtain ⟨_, -, hcall⟩ := mem_callsAfter.mp hcall
      exact absurd hcall not_mem_nil
    · exact absurd hcall not_mem_nil
  | cons pubKey2 rest =>
    obtain ⟨version, hversion, hscript, hprogram⟩ :=
      @redeemCalls_version v flags witness rest pubKey2 (scriptSig ≠ pushData pubKey2) .witnessMalleatedP2SH
    refine ⟨version, hversion, ?_⟩
    unfold scriptHashCalls
    split
    · refine forall_callsAfter fun _ _ => ?_
      refine forall_callsAfter fun _ _ => ?_
      refine forall_mem_append.mpr ⟨hscript, ?_⟩
      refine forall_callsAfter fun _ _ => ?_
      exact forall_callsAfter fun _ _ => hprogram
    · exact forall_mem_nil _

theorem scriptHashCalls_pushOnly {copy : List Valtype}
    (h : call ∈ scriptHashCalls v flags witness scriptSig spk copy) :
    isPayToScriptHash spk = true ∧ isPushOnly scriptSig = .ok true := by
  unfold scriptHashCalls at h
  split at h
  · next hp2sh =>
    obtain ⟨pushOnly, hpush, h⟩ := mem_callsAfter.mp h
    obtain ⟨_, hfail, -⟩ := mem_callsAfter.mp h
    cases pushOnly with
    | true => exact ⟨hp2sh.2, hpush⟩
    | false => cases hfail
  · exact absurd h not_mem_nil

theorem verifyCalls_forall {witness : Option (List Valtype)}
    (hsig : ∀ call ∈ scriptCalls v flags .base [] scriptSig {}, P call)
    (hkey : ∀ copy, ∀ call ∈ scriptCalls v flags .base copy spk {}, P call)
    (hprogram : ∀ call ∈ programCalls v flags (witness.getD []) spk (scriptSig.length ≠ 0) .witnessMalleated, P call)
    (hhash : ∀ copy data, evalScript v flags .base [] scriptSig {} = .ok (copy, data) →
      ∀ call ∈ scriptHashCalls v flags (witness.getD []) scriptSig spk copy, P call) :
    ∀ call ∈ verifyCalls v flags scriptSig spk witness, P call := by
  refine forall_callsAfter fun _ _ => ?_
  refine forall_mem_append.mpr ⟨hsig, ?_⟩
  refine forall_callsAfter fun first hfirst => ?_
  refine forall_mem_append.mpr ⟨hkey first.1, ?_⟩
  refine forall_callsAfter fun _ _ => ?_
  refine forall_callsAfter fun _ _ => ?_
  refine forall_mem_append.mpr ⟨hprogram, ?_⟩
  exact forall_callsAfter fun _ _ => hhash first.1 first.2 hfirst

theorem verifyCalls_version (v : Verifier) (flags : Flags) (scriptSig spk : CScript) (witness : Option (List Valtype)) :
    ∃ version, (version = .base ∨ version = .witnessV0) ∧
      ∀ call ∈ verifyCalls v flags scriptSig spk witness, call.sigversion = version := by
  cases hprogram : isWitnessProgram spk with
  | some program =>
    have hkey : ∀ copy, ∀ call ∈ scriptCalls v flags .base copy spk {}, False := fun _ =>
      witnessProgram_silent (by rw [hprogram]; rfl)
    have hhash : ∀ copy, ∀ call ∈ scriptHashCalls v flags (witness.getD []) scriptSig spk copy, False := by
      intro copy call hcall
      rw [not_witnessProgram_of_scriptHash (scriptHashCalls_pushOnly hcall).1] at hprogram
      cases hprogram
    cases scriptSig with
    | nil =>
      refine ⟨.witnessV0, .inr rfl,
        verifyCalls_forall ?_ (fun _ call hcall => (hkey _ call hcall).elim) programCalls_version
        fun _ _ _ call hcall => (hhash _ call hcall).elim⟩
      exact fun call hcall => (pushOnly_silent (by rfl) call hcall).elim
    | cons b bytes =>
      -- a script in front of a native program ends the run
      refine ⟨.base, .inl rfl, verifyCalls_forall scriptCalls_version (fun _ call hcall => (hkey _ call hcall).elim) ?_
        fun _ _ _ call hcall => (hhash _ call hcall).elim⟩
      rw [programCalls_malleated _ (by simp)]
      exact forall_mem_nil _
  | none =>
    have hnone : ∀ version, ∀ call ∈
        programCalls v flags (witness.getD []) spk (scriptSig.length ≠ 0) .witnessMalleated,
        call.sigversion = version := by
      rw [programCalls_none _ _ hprogram]
      exact fun _ call hcall => absurd hcall not_mem_nil
    by_cases hp2sh : isPayToScriptHash spk = true ∧ isPushOnly scriptSig = .ok true
    · obtain ⟨hp2sh, hpush⟩ := hp2sh
      cases hfirst : evalScript v flags .base [] scriptSig {} with
      | error h =>
        refine ⟨.base, .inl rfl, verifyCalls_forall scriptCalls_version (fun _ => scriptCalls_version) (hnone _) ?_⟩
        intro copy data hstack
        rw [hfirst] at hstack
        cases hstack
      | ok first =>
        obtain ⟨version, hversion, hcalls⟩ :=
          @scriptHashCalls_version v flags (witness.getD []) scriptSig spk first.1
        refine ⟨version, hversion, verifyCalls_forall (fun call hcall => (pushOnly_silent hpush call hcall).elim)
          (fun _ call hcall => (scriptHash_silent hp2sh call hcall).elim) (hnone _) ?_⟩
        intro copy data hstack
        rw [hfirst] at hstack
        cases hstack
        exact hcalls
    · refine ⟨.base, .inl rfl, verifyCalls_forall scriptCalls_version (fun _ => scriptCalls_version) (hnone _) ?_⟩
      exact fun _ _ _ call hcall => absurd (scriptHashCalls_pushOnly hcall) hp2sh

end Runs

/-! ## A run looks at its checker at its calls only -/

section Agreement

variable {α β : Type} {v : Verifier} {flags : Flags} {sv : SigVersion} {s : EvalState}
  {answer : Valtype → Valtype → CScript → SigVersion → Bool} {calls : List Call} {more : α → List Call}

/-- The verifier with other answers to `CheckECDSASignature`. -/
def Verifier.answering (v : Verifier) (answer : Valtype → Valtype → CScript → SigVersion → Bool) : Verifier :=
  { v with checker := { v.checker with checkECDSASignature := answer } }

variable (v answer)

def Agreed (calls : List Call) : Prop :=
  ∀ call ∈ calls, answer call.vchSig call.vchPubKey call.scriptCode call.sigversion =
    v.checker.checkECDSASignature call.vchSig call.vchPubKey call.scriptCode call.sigversion

/-- The two results are the same where the answers to the calls are. -/
def Same (calls : List Call) (x' x : Eval α) : Prop := Agreed v answer calls → x' = x

variable {v answer} {stack : List Valtype} {scriptSig spk : CScript} {data : ScriptExecutionData}
  {witness : List Valtype} {k' k : α → Eval β} {script : CScript} {x' x : Eval α}

theorem Same.apply (h : Same v answer calls x' x) (f : Eval α → Eval β) :
    Same v answer calls (f x') (f x) :=
  fun hagreed => by rw [h hagreed]

theorem same_after {x : Eval α} (h : ∀ a, x = .ok a → Same v answer (more a) (k' a) (k a)) :
    Same v answer (callsAfter x more) (x >>= k') (x >>= k) := by
  intro hagreed
  cases hx : x with
  | error e => rfl
  | ok a =>
    rw [hx] at hagreed
    exact h a hx hagreed

theorem same_then (hx : Same v answer calls x' x)
    (h : ∀ a, x = .ok a → Same v answer (more a) (k' a) (k a)) :
    Same v answer (calls ++ callsAfter x more) (x' >>= k') (x >>= k) := by
  intro hagreed
  obtain ⟨hfirst, hrest⟩ := forall_mem_append.mp hagreed
  rw [hx hfirst]
  exact same_after h hrest

theorem evalChecksigPreTapscript_same (vchSig vchPubKey : Valtype) (code : CScript) :
    Same v answer (checksigCalls v flags sv vchSig vchPubKey code)
      (evalChecksigPreTapscript (v.answering answer) flags sv vchSig vchPubKey code)
      (evalChecksigPreTapscript v flags sv vchSig vchPubKey code) := by
  unfold checksigCalls evalChecksigPreTapscript
  split
  · exact fun _ => rfl
  · refine same_after fun code _ => ?_
    iterate 2 refine same_after fun _ _ => ?_
    intro hagreed
    have hanswer : (v.answering answer).checker.checkECDSASignature vchSig vchPubKey code sv =
        v.checker.checkECDSASignature vchSig vchPubKey code sv := hagreed _ mem_cons_self
    simp only [hanswer]

theorem opCheckSig_same (verify : Bool) : Same v answer (opCheckSigCalls v flags sv s)
    (opCheckSig (v.answering answer) flags sv verify s) (opCheckSig v flags sv verify s) := by
  refine same_after fun _ _ => ?_
  refine same_after fun vchSig _ => ?_
  refine same_after fun vchPubKey _ => ?_
  have hcheck : Same v answer (checksigCalls v flags sv vchSig vchPubKey s.pbegincodehash)
      (evalChecksig (v.answering answer) flags sv vchSig vchPubKey s.pbegincodehash s.execdata)
      (evalChecksig v flags sv vchSig vchPubKey s.pbegincodehash s.execdata) := by
    cases sv with
    | base | witnessV0 => exact (evalChecksigPreTapscript_same vchSig vchPubKey s.pbegincodehash).apply (· >>= _)
    | taproot | tapscript => exact fun _ => rfl
  exact hcheck.apply (· >>= _)

theorem matchSignatures_same {code : CScript} {fuel isig ikey nSigs nKeys : Nat} :
    Same v answer (matchCalls v flags sv code stack fuel isig ikey nSigs nKeys)
      (matchSignatures (v.answering answer) flags sv code stack fuel isig ikey nSigs nKeys)
      (matchSignatures v flags sv code stack fuel isig ikey nSigs nKeys) := by
  induction fuel generalizing isig ikey nSigs nKeys with
  | zero => exact fun _ => rfl
  | succ fuel ih =>
    unfold matchCalls matchSignatures
    split
    · exact fun _ => rfl
    · refine same_after fun vchSig _ => ?_
      refine same_after fun vchPubKey _ => ?_
      iterate 2 refine same_after fun _ _ => ?_
      intro hagreed
      obtain ⟨hanswer, hrest⟩ := forall_mem_cons.mp hagreed
      have hanswer : (v.answering answer).checker.checkECDSASignature vchSig vchPubKey code sv =
          v.checker.checkECDSASignature vchSig vchPubKey code sv := hanswer
      simp only [hanswer]
      by_cases hmore : (if v.checker.checkECDSASignature vchSig vchPubKey code sv then nSigs - 1
          else nSigs) > nKeys - 1
      · rw [if_pos hmore, if_pos hmore]
      · rw [if_neg hmore] at hrest
        rw [if_neg hmore, if_neg hmore]
        exact ih hrest

theorem opCheckMultiSig_same (verify : Bool) : Same v answer (opCheckMultiSigCalls v flags sv s)
    (opCheckMultiSig (v.answering answer) flags sv verify s) (opCheckMultiSig v flags sv verify s) := by
  iterate 12 refine same_after fun _ _ => ?_
  exact matchSignatures_same.apply (· >>= _)

theorem execOp_same (fExec : Bool) (op : Opcode) : Same v answer (execOpCalls v flags sv s op)
    (execOp (v.answering answer) flags sv fExec s op) (execOp v flags sv fExec s op) := by
  cases op with
  | checkSig verify => exact opCheckSig_same verify
  | checkMultiSig verify => exact opCheckMultiSig_same verify
  | checkSigAdd =>
    intro _
    change opCheckSigAdd _ flags sv s = opCheckSigAdd _ flags sv s
    unfold opCheckSigAdd
    cases hlimited : sv.limited with
    | true => rfl
    | false =>
      have hcheck : ∀ sig pubkey, evalChecksig (v.answering answer) flags sv sig pubkey s.pbegincodehash s.execdata =
          evalChecksig v flags sv sig pubkey s.pbegincodehash s.execdata := by
        intro sig pubkey
        cases sv with
        | base | witnessV0 => cases hlimited
        | taproot | tapscript => rfl
      simp only [hcheck]
  | _ => exact fun _ => rfl

theorem evalStep_same : Same v answer (stepCalls v flags sv s)
    (evalStep (v.answering answer) flags sv s) (evalStep v flags sv s) := by
  unfold stepCalls evalStep
  cases getScriptOp s.pc with
  | none => exact fun _ => rfl
  | some read =>
    iterate 4 refine same_after fun _ _ => ?_
    refine Same.apply ?_ (· >>= _)
    unfold runOpCalls runOp
    simp only
    split_ifs
    · exact fun _ => rfl
    · exact execOp_same _ _
    · exact fun _ => rfl

theorem evalLoop_same {fuel : Nat} : Same v answer (loopCalls v flags sv fuel s)
    (evalLoop (v.answering answer) flags sv fuel s) (evalLoop v flags sv fuel s) := by
  induction fuel generalizing s with
  | zero => exact fun _ => rfl
  | succ fuel ih =>
    unfold loopCalls evalLoop
    split
    · exact fun _ => rfl
    · exact same_then evalStep_same fun s' _ => ih

theorem evalScript_same :
    Same v answer (scriptCalls v flags sv stack script data)
      (evalScript (v.answering answer) flags sv stack script data)
      (evalScript v flags sv stack script data) := by
  unfold scriptCalls evalScript
  split
  · exact fun _ => rfl
  · refine same_after fun _ _ => ?_
    exact evalLoop_same.apply fun x => catchAll x >>= _

theorem executeWitnessScript_same {stackSpan : List Valtype} {execScript : CScript} :
    Same v answer (witnessScriptCalls v flags sv stackSpan execScript data)
      (executeWitnessScript (v.answering answer) flags sv stackSpan execScript data)
      (executeWitnessScript v flags sv stackSpan execScript data) := by
  refine same_after fun success _ => ?_
  split
  · exact fun _ => rfl
  · refine same_after fun _ _ => ?_
    exact evalScript_same.apply (· >>= _)

theorem verifyTaproot_answering (witness : List Valtype) (program : Valtype) :
    verifyTaproot (v.answering answer) flags witness program = verifyTaproot v flags witness program := by
  have hscript : ∀ stack script data, executeWitnessScript (v.answering answer) flags .tapscript stack script data =
      executeWitnessScript v flags .tapscript stack script data := by
    intro stack script data
    refine executeWitnessScript_same fun call hcall => ?_
    exact absurd rfl (witnessScriptCalls_forall (fun s op call hcall => execOpCalls_version s op call hcall)
      call hcall).2
  unfold verifyTaproot verifyScriptPath
  simp only [hscript]
  rfl

theorem checkProgram_same {malleated isP2sh : Bool} {e : ScriptError}
    : Same v answer (programCalls v flags witness script malleated e)
      (checkProgram (v.answering answer) flags witness script malleated e isP2sh stack)
      (checkProgram v flags witness script malleated e isP2sh stack) := by
  unfold programCalls checkProgram
  split
  · cases isWitnessProgram script with
    | none => exact fun _ => rfl
    | some program =>
      refine same_after fun _ _ => ?_
      refine Same.apply ?_ (· >>= _)
      unfold witnessProgramCalls verifyWitnessProgram
      split
      · unfold witnessV0Calls verifyWitnessV0
        split
        · cases witness.getLast? with
          | none => exact fun _ => rfl
          | some scriptBytes => exact same_after fun _ _ => executeWitnessScript_same
        · split
          · exact same_after fun _ _ => executeWitnessScript_same
          · exact fun _ => rfl
      · rw [verifyTaproot_answering]
        exact fun _ => rfl
  · exact fun _ => rfl

theorem checkScriptHash_same {copy stack : List Valtype}
    {hadWitness : Bool} : Same v answer (scriptHashCalls v flags witness scriptSig spk copy)
      (checkScriptHash (v.answering answer) flags witness scriptSig spk copy stack hadWitness)
      (checkScriptHash v flags witness scriptSig spk copy stack hadWitness) := by
  unfold scriptHashCalls checkScriptHash
  split
  · refine Same.apply ?_ (· >>= _)
    iterate 2 refine same_after fun _ _ => ?_
    cases copy with
    | nil => exact fun _ => rfl
    | cons pubKey2 rest =>
      refine same_then evalScript_same fun _ _ => ?_
      exact same_after fun _ _ => checkProgram_same
  · exact fun _ => rfl

/-- A run does not depend on what the checker answers outside its calls. -/
theorem verifyScript_answering {witness : Option (List Valtype)}
    (h : Agreed v answer (verifyCalls v flags scriptSig spk witness)) :
    verifyScript (v.answering answer) flags scriptSig spk witness =
      verifyScript v flags scriptSig spk witness := by
  refine (?_ : Same v answer _ _ _) h
  refine same_after fun _ _ => ?_
  refine same_then evalScript_same fun _ _ => ?_
  refine same_then evalScript_same fun _ _ => ?_
  refine same_after fun _ _ => ?_
  refine same_then checkProgram_same fun _ _ => ?_
  exact checkScriptHash_same.apply (· >>= _)

end Agreement

end FullNode.Script

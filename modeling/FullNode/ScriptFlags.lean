import FullNode.InterpreterSafety
import FullNode.VerifyScript

/-! # Script flags are soft forks -/

namespace FullNode.Script

/-! ## Checks -/

theorem failIf_relaxes {c c' : Prop} [Decidable c] [Decidable c'] {e : ScriptError} (h : c → c') :
    Relaxes (failIf c e) (failIf c' e) := by
  unfold failIf
  split
  · next hc =>
    rw [if_pos (h hc)]
    exact .error _
  · exact .skip

theorem scriptNum_relaxes {vch : Valtype} {m m' : Bool} {k : Nat} (h : m = true → m' = true) :
    Relaxes (scriptNum vch m k) (scriptNum vch m' k) := by
  unfold scriptNum
  split
  · exact .error _
  · split
    · next hc =>
      rw [if_pos ⟨h hc.1, hc.2⟩]
      exact .error _
    · intro n hn
      split at hn
      · cases hn
      · exact hn

theorem catchAll_ok {α : Type} {x : Eval α} {a : α} : catchAll x = .ok a ↔ x = .ok a := by
  unfold catchAll
  split <;> simp_all

theorem catchAll_relaxes {α : Type} {x y : Eval α} (h : Relaxes x y) : Relaxes (catchAll x) (catchAll y) := by
  intro a ha
  rw [catchAll_ok] at ha ⊢
  exact h a ha

section Flags

variable {F F' : Flags} (hF : F ⊆ F')
include hF

theorem requireMinimal_mono (h : requireMinimal F = true) : requireMinimal F' = true := by
  unfold requireMinimal at h ⊢
  exact decide_eq_true (hF (of_decide_eq_true h))

theorem scriptNum_flags {vch : Valtype} {k : Nat} :
    Relaxes (scriptNum vch (requireMinimal F) k) (scriptNum vch (requireMinimal F') k) :=
  scriptNum_relaxes (requireMinimal_mono hF)

/-! ## Signatures -/

variable (v : Verifier)

variable (vchSig : Valtype) (witness stack : List Valtype) (script : CScript) (data : ScriptExecutionData)

theorem checkLowDER_relaxes : Relaxes (checkLowDER v F vchSig) (checkLowDER v F' vchSig) :=
  .gate (fun h => hF h) (.refl _)

theorem checkSignatureEncoding_relaxes :
    Relaxes (checkSignatureEncoding v F vchSig) (checkSignatureEncoding v F' vchSig) := by
  unfold checkSignatureEncoding
  refine .ite (fun _ => .refl _) fun _ => ?_
  refine .bind (failIf_relaxes ?_) fun _ => ?_
  · rintro ⟨hany, hbad⟩
    exact ⟨hany.imp (fun h => hF h) (Or.imp (fun h => hF h) fun h => hF h), hbad⟩
  · refine .bind (checkLowDER_relaxes hF v vchSig) fun _ => ?_
    exact failIf_relaxes fun h => ⟨hF h.1, h.2⟩

variable (sv : SigVersion)

theorem checkPubKeyEncoding_relaxes (vchPubKey : Valtype) :
    Relaxes (checkPubKeyEncoding F sv vchPubKey) (checkPubKeyEncoding F' sv vchPubKey) := by
  unfold checkPubKeyEncoding
  refine .bind (failIf_relaxes fun h => ⟨hF h.1, h.2⟩) fun _ => ?_
  exact failIf_relaxes fun h => ⟨hF h.1, h.2⟩

theorem dropSignature_relaxes (code : CScript) :
    Relaxes (dropSignature F sv vchSig code) (dropSignature F' sv vchSig code) := by
  unfold dropSignature
  refine .ite (fun _ => ?_) fun _ => .refl _
  refine .bind_right fun r => ?_
  exact .bind (failIf_relaxes fun h => ⟨h.1, hF h.2⟩) fun _ => .refl _

theorem evalChecksigPreTapscript_relaxes (vchPubKey : Valtype) (code : CScript) :
    Relaxes (evalChecksigPreTapscript v F sv vchSig vchPubKey code)
      (evalChecksigPreTapscript v F' sv vchSig vchPubKey code) := by
  unfold evalChecksigPreTapscript
  refine .ite (fun _ => .refl _) fun _ => ?_
  refine .bind (dropSignature_relaxes hF _ _ _) fun code => ?_
  refine .bind (checkSignatureEncoding_relaxes hF _ _) fun _ => ?_
  refine .bind (checkPubKeyEncoding_relaxes hF _ _) fun _ => ?_
  exact .bind (failIf_relaxes fun h => ⟨h.1, hF h.2.1, h.2.2⟩) fun _ => .refl _

theorem checkTapscriptKey_relaxes (success : Bool) (sig pubkey : Valtype) :
    Relaxes (checkTapscriptKey v F sv data success sig pubkey)
    (checkTapscriptKey v F' sv data success sig pubkey) := by
  unfold checkTapscriptKey
  refine .ite (fun _ => .refl _) fun _ => ?_
  exact .ite (fun _ => .refl _) fun _ => failIf_relaxes fun h => hF h

theorem evalChecksig_relaxes (sig pubkey : Valtype) (code : CScript)
    (data : ScriptExecutionData) : Relaxes (evalChecksig v F sv sig pubkey code data)
      (evalChecksig v F' sv sig pubkey code data) := by
  unfold evalChecksig
  split
  · exact .bind (evalChecksigPreTapscript_relaxes hF _ _ _ _ _) fun _ => .refl _
  · exact .bind (evalChecksigPreTapscript_relaxes hF _ _ _ _ _) fun _ => .refl _
  · unfold evalChecksigTapscript
    refine .ite (fun _ => .refl _) fun _ => ?_
    refine .bind_right fun out => ?_
    exact .bind (checkTapscriptKey_relaxes hF _ _ _ _ _ _) fun _ => .refl _
  · exact .refl _

theorem opCheckSig_relaxes (verify : Bool) (s : EvalState) :
    Relaxes (opCheckSig v F sv verify s) (opCheckSig v F' sv verify s) := by
  unfold opCheckSig
  refine .bind_right fun _ => .bind_right fun vchSig => .bind_right fun vchPubKey => ?_
  exact .bind (evalChecksig_relaxes hF _ _ _ _ _ _) fun _ => .refl _

theorem opCheckSigAdd_relaxes (s : EvalState) :
    Relaxes (opCheckSigAdd v F sv s) (opCheckSigAdd v F' sv s) := by
  unfold opCheckSigAdd
  refine .bind_right fun _ => .bind_right fun _ => .bind_right fun sig => .bind_right fun vchNum => ?_
  refine .bind (scriptNum_flags hF) fun num => .bind_right fun pubkey => ?_
  exact .bind (evalChecksig_relaxes hF _ _ _ _ _ _) fun _ => .refl _

theorem dropSignatures_relaxes (n isig : Nat) (code : CScript) :
    Relaxes (dropSignatures F sv stack n isig code)
      (dropSignatures F' sv stack n isig code) := by
  induction n generalizing isig code with
  | zero => exact .refl _
  | succ n ih =>
    unfold dropSignatures
    refine .bind_right fun vchSig => ?_
    exact .bind (dropSignature_relaxes hF _ _ _) fun code => ih _ code

theorem matchSignatures_relaxes (code : CScript) (stack : List Valtype)
    (fuel isig ikey nSigs nKeys : Nat) : Relaxes (matchSignatures v F sv code stack fuel isig ikey nSigs nKeys)
      (matchSignatures v F' sv code stack fuel isig ikey nSigs nKeys) := by
  induction fuel generalizing isig ikey nSigs nKeys with
  | zero => exact .refl _
  | succ fuel ih =>
    unfold matchSignatures
    refine .ite (fun _ => .refl _) fun _ => ?_
    refine .bind_right fun vchSig => .bind_right fun vchPubKey => ?_
    refine .bind (checkSignatureEncoding_relaxes hF _ _) fun _ => ?_
    refine .bind (checkPubKeyEncoding_relaxes hF _ _) fun _ => ?_
    exact .ite (fun _ => .refl _) fun _ => ih _ _ _ _

theorem checkNullFail_relaxes (fSuccess : Bool) (ikey2 : Nat) (stack : List Valtype) :
    Relaxes (checkNullFail F fSuccess ikey2 stack) (checkNullFail F' fSuccess ikey2 stack) :=
  .gate (fun h => ⟨h.1, hF h.2.1, h.2.2⟩) (.refl _)

theorem removeArguments_relaxes (fSuccess : Bool) (i ikey2 : Nat) (stack : List Valtype) :
    Relaxes (removeArguments F fSuccess i ikey2 stack) (removeArguments F' fSuccess i ikey2 stack) := by
  induction i generalizing ikey2 stack with
  | zero => exact .refl _
  | succ i ih =>
    unfold removeArguments
    refine .bind (checkNullFail_relaxes hF _ _ _) fun _ => ?_
    exact .bind_right fun rest => ih _ rest

theorem checkNullDummy_relaxes : Relaxes (checkNullDummy F stack) (checkNullDummy F' stack) :=
  .gate (fun h => hF h) (.refl _)

theorem opCheckMultiSig_relaxes (verify : Bool) (s : EvalState) :
    Relaxes (opCheckMultiSig v F sv verify s) (opCheckMultiSig v F' sv verify s) := by
  unfold opCheckMultiSig
  refine .bind_right fun _ => .bind_right fun _ => .bind_right fun vchKeys => ?_
  refine .bind (scriptNum_flags hF) fun keys => ?_
  refine .bind_right fun _ => .bind_right fun _ => .bind_right fun _ => .bind_right fun vchSigs => ?_
  refine .bind (scriptNum_flags hF) fun sigs => ?_
  refine .bind_right fun _ => .bind_right fun _ => ?_
  refine .bind (dropSignatures_relaxes hF _ _ _ _ _) fun code => ?_
  refine .bind (matchSignatures_relaxes hF _ _ _ _ _ _ _ _ _) fun fSuccess => ?_
  refine .bind (removeArguments_relaxes hF _ _ _ _) fun stack => .bind_right fun _ => ?_
  exact .bind (checkNullDummy_relaxes hF _) fun _ => .refl _

/-! ## The other opcodes that read a flag -/

theorem opCheckLockTimeVerify_relaxes :
    Relaxes (opCheckLockTimeVerify v F stack) (opCheckLockTimeVerify v F' stack) := by
  unfold opCheckLockTimeVerify
  refine .gate (fun h => hF h) ?_
  refine .bind_right fun _ => .bind_right fun vch => ?_
  exact .bind (scriptNum_flags hF) fun _ => .refl _

theorem opCheckSequenceVerify_relaxes :
    Relaxes (opCheckSequenceVerify v F stack) (opCheckSequenceVerify v F' stack) := by
  unfold opCheckSequenceVerify
  refine .gate (fun h => hF h) ?_
  refine .bind_right fun _ => .bind_right fun vch => ?_
  exact .bind (scriptNum_flags hF) fun _ => .refl _

theorem opIf_relaxes (negated fExec : Bool) (s : EvalState) :
    Relaxes (opIf F sv negated fExec s) (opIf F' sv negated fExec s) := by
  unfold opIf checkMinimalIf
  refine .ite (fun _ => ?_) fun _ => .refl _
  refine .bind_right fun _ => .bind_right fun vch => .bind ?_ fun _ => .refl _
  exact .bind_right fun _ => failIf_relaxes fun h => ⟨h.1, hF h.2.1, h.2.2⟩

theorem opPick_relaxes (roll : Bool) (stack : List Valtype) : Relaxes (opPick F roll stack) (opPick F' roll stack) := by
  unfold opPick
  refine .bind_right fun _ => .bind_right fun top => ?_
  exact .bind (scriptNum_flags hF) fun _ => .refl _

theorem opUnary_relaxes (op : UnaryOp) (stack : List Valtype) : Relaxes (opUnary F op stack) (opUnary F' op stack) := by
  unfold opUnary
  refine .bind_right fun _ => .bind_right fun vch => ?_
  exact .bind (scriptNum_flags hF) fun _ => .refl _

theorem opBinary_relaxes (op : BinaryOp) (stack : List Valtype) :
    Relaxes (opBinary F op stack) (opBinary F' op stack) := by
  unfold opBinary
  refine .bind_right fun _ => .bind_right fun vch1 => .bind (scriptNum_flags hF) fun n => ?_
  exact .bind_right fun vch2 => .bind (scriptNum_flags hF) fun _ => .refl _

theorem opWithin_relaxes : Relaxes (opWithin F stack) (opWithin F' stack) := by
  unfold opWithin
  refine .bind_right fun _ => .bind_right fun vch1 => .bind (scriptNum_flags hF) fun n => ?_
  refine .bind_right fun vch2 => .bind (scriptNum_flags hF) fun m => ?_
  exact .bind_right fun vch3 => .bind (scriptNum_flags hF) fun _ => .refl _

theorem execOp_relaxes (fExec : Bool) (s : EvalState) (op : Opcode) :
    Relaxes (execOp v F sv fExec s op) (execOp v F' sv fExec s op) := by
  cases op with
  | checkLockTimeVerify => exact .bind (opCheckLockTimeVerify_relaxes hF v _) fun _ => .refl _
  | checkSequenceVerify => exact .bind (opCheckSequenceVerify_relaxes hF v _) fun _ => .refl _
  | upgradableNop => exact .bind (failIf_relaxes fun h => hF h) fun _ => .refl _
  | cond negated => exact opIf_relaxes hF _ _ _ _
  | pick roll => exact .bind (opPick_relaxes hF _ _) fun _ => .refl _
  | unary op => exact .bind (opUnary_relaxes hF _ _) fun _ => .refl _
  | binary op => exact .bind (opBinary_relaxes hF _ _) fun _ => .refl _
  | within => exact .bind (opWithin_relaxes hF _) fun _ => .refl _
  | checkSig verify => exact opCheckSig_relaxes hF v _ _ _
  | checkSigAdd => exact opCheckSigAdd_relaxes hF v _ _
  | checkMultiSig verify => exact opCheckMultiSig_relaxes hF v _ _ _
  | _ => exact .refl _

/-! ## The loop -/

theorem pushValue_relaxes (opcode : UInt8) (vch : Valtype) (s : EvalState) :
    Relaxes (pushValue F opcode vch s) (pushValue F' opcode vch s) := by
  unfold pushValue
  split
  · next hminimal =>
    rw [if_pos (requireMinimal_mono hF hminimal)]
    exact .refl _
  · intro out hout
    split at hout
    · obtain ⟨_, _, hout⟩ := bind_ok.mp hout
      obtain ⟨_, _, hout⟩ := bind_ok.mp hout
      exact hout
    · exact hout

theorem runOp_relaxes (opcode : UInt8) (vch : Valtype) (s : EvalState) :
    Relaxes (runOp v F sv opcode vch s) (runOp v F' sv opcode vch s) := by
  unfold runOp
  refine .ite (fun _ => pushValue_relaxes hF _ _ _) fun _ => ?_
  exact .ite (fun _ => execOp_relaxes hF _ _ _ _ _) fun _ => .refl _

theorem evalStep_relaxes (s : EvalState) :
    Relaxes (evalStep v F sv s) (evalStep v F' sv s) := by
  unfold evalStep
  split
  · exact .refl _
  · refine .bind_right fun _ => .bind_right fun _ => .bind_right fun _ => ?_
    refine .bind (failIf_relaxes fun h => ⟨h.1, h.2.1, hF h.2.2⟩) fun _ => ?_
    exact .bind (runOp_relaxes hF _ _ _ _ _) fun _ => .refl _

theorem evalLoop_relaxes (fuel : Nat) (s : EvalState) :
    Relaxes (evalLoop v F sv fuel s) (evalLoop v F' sv fuel s) := by
  induction fuel generalizing s with
  | zero => exact .refl _
  | succ fuel ih =>
    unfold evalLoop
    refine .ite (fun _ => .refl _) fun _ => ?_
    exact .bind (evalStep_relaxes hF _ _ _) fun s' => ih s'

theorem evalScript_relaxes :
    Relaxes (evalScript v F sv stack script data) (evalScript v F' sv stack script data) := by
  unfold evalScript
  refine .ite (fun _ => .refl _) fun _ => ?_
  refine .bind_right fun _ => .bind ?_ fun _ => .refl _
  exact catchAll_relaxes (evalLoop_relaxes hF _ _ _ _)

/-! ## Witness programs -/

theorem preExecute_relaxes :
    Relaxes (preExecute F sv stack script) (preExecute F' sv stack script) := by
  unfold preExecute
  refine .ite (fun _ => ?_) fun _ => .refl _
  refine .bind_right fun scan => .bind_right fun _ => ?_
  exact .bind (failIf_relaxes fun h => ⟨h.1, hF h.2⟩) fun _ => .refl _

theorem executeWitnessScript_relaxes : Relaxes (executeWitnessScript v F sv stack script data)
    (executeWitnessScript v F' sv stack script data) := by
  unfold executeWitnessScript runWitnessScript
  refine .bind (preExecute_relaxes hF _ _ _) fun success => ?_
  refine .ite (fun _ => .refl _) fun _ => ?_
  exact .bind_right fun _ => .bind (evalScript_relaxes hF _ _ _ _ _) fun _ => .refl _

theorem verifyWitnessV0_relaxes (program : Valtype) :
    Relaxes (verifyWitnessV0 v F witness program) (verifyWitnessV0 v F' witness program) := by
  unfold verifyWitnessV0
  refine .ite (fun _ => ?_) fun _ => .ite (fun _ => ?_) fun _ => .refl _
  · split
    · exact .refl _
    · exact .bind_right fun _ => executeWitnessScript_relaxes hF _ _ _ _ _
  · exact .bind_right fun _ => executeWitnessScript_relaxes hF _ _ _ _ _

theorem verifyTaproot_relaxes (program : Valtype) :
    Relaxes (verifyTaproot v F witness program) (verifyTaproot v F' witness program) := by
  unfold verifyTaproot verifyScriptPath
  split
  split
  · exact .refl _
  · exact .refl _
  · refine .bind_right fun _ => .bind_right fun _ => .bind_right fun _ => ?_
    exact .ite (fun _ => executeWitnessScript_relaxes hF _ _ _ _ _) fun _ => failIf_relaxes fun h => hF h

theorem verifyWitnessProgram_relaxes (witversion : Nat) (program : Valtype) (isP2sh : Bool) :
    Relaxes (verifyWitnessProgram v F witness witversion program isP2sh)
      (verifyWitnessProgram v F' witness witversion program isP2sh) := by
  unfold verifyWitnessProgram
  refine .ite (fun _ => verifyWitnessV0_relaxes hF _ _ _) fun _ => ?_
  refine .ite (fun _ => .gate (fun h => hF h) (verifyTaproot_relaxes hF _ _ _)) fun _ => ?_
  exact .ite (fun _ => .refl _) fun _ => failIf_relaxes fun h => hF h

/-! ## Inputs -/

theorem checkPushOnly_relaxes (scriptSig : CScript) :
    Relaxes (checkPushOnly F scriptSig) (checkPushOnly F' scriptSig) :=
  .gate (fun h => hF h) (.refl _)

theorem checkProgram_relaxes (hwitness : .witness ∈ F) (v : Verifier) (witness : List Valtype) (script : CScript)
    (malleated : Bool) (e : ScriptError) (isP2sh : Bool) (stack : List Valtype) :
    Relaxes (checkProgram v F witness script malleated e isP2sh stack)
      (checkProgram v F' witness script malleated e isP2sh stack) := by
  unfold checkProgram
  rw [if_pos hwitness, if_pos (hF hwitness)]
  split
  · exact .refl _
  · refine .bind_right fun _ => ?_
    exact .bind (verifyWitnessProgram_relaxes hF _ _ _ _ _) fun _ => .refl _

theorem checkRedeemScript_relaxes (hwitness : .witness ∈ F) (v : Verifier) (witness : List Valtype)
    (scriptSig : CScript) (stackCopy : List Valtype) :
    Relaxes (checkRedeemScript v F witness scriptSig stackCopy)
      (checkRedeemScript v F' witness scriptSig stackCopy) := by
  unfold checkRedeemScript
  refine .bind_right fun pushOnly => .bind_right fun _ => ?_
  split
  · exact .refl _
  · refine .bind (evalScript_relaxes hF _ _ _ _ _) fun r => .bind_right fun _ => ?_
    exact checkProgram_relaxes hF hwitness _ _ _ _ _ _ _

theorem checkScriptHash_relaxes (hwitness : .witness ∈ F) (hp2sh : .p2sh ∈ F) (v : Verifier) (witness : List Valtype)
    (scriptSig spk : CScript) (stackCopy stack : List Valtype) (hadWitness : Bool) :
    Relaxes (checkScriptHash v F witness scriptSig spk stackCopy stack hadWitness)
      (checkScriptHash v F' witness scriptSig spk stackCopy stack hadWitness) := by
  unfold checkScriptHash
  simp only [hp2sh, hF hp2sh, true_and]
  refine .ite (fun _ => ?_) fun _ => .refl _
  exact .bind (checkRedeemScript_relaxes hF hwitness _ _ _ _) fun _ => .refl _

end Flags

/-- `CLEANSTACK` comes with `P2SH` and `WITNESS`, it with `P2SH`. -/
structure Coherent (flags : Flags) : Prop where
  cleanStack : .cleanStack ∈ flags → .p2sh ∈ flags ∧ .witness ∈ flags
  witness : .witness ∈ flags → .p2sh ∈ flags

section Inputs

variable {F F' : Flags}

theorem checkCleanStack_relaxes (hF : F ⊆ F') (hc : Coherent F) (stack : List Valtype) :
    Relaxes (checkCleanStack F stack) (checkCleanStack F' stack) := by
  unfold checkCleanStack
  split
  · next hclean =>
    have hboth := hc.cleanStack hclean
    rw [if_pos hboth, if_pos (hF hclean), if_pos ⟨hF hboth.1, hF hboth.2⟩]
    exact .refl _
  · exact .skip

theorem checkUnexpected_relaxes (hF : F ⊆ F') (hc : Coherent F) (witness : List Valtype) (hadWitness : Bool) :
    Relaxes (checkUnexpected F witness hadWitness) (checkUnexpected F' witness hadWitness) := by
  unfold checkUnexpected
  split
  · next hwitness =>
    have hp2sh := hc.witness hwitness
    rw [if_pos hp2sh, if_pos (hF hwitness), if_pos (hF hp2sh)]
    exact .refl _
  · exact .skip

theorem verifyScript_relaxes_of_witness (hF : F ⊆ F') (hc : Coherent F) (hwitness : .witness ∈ F) (v : Verifier)
    (scriptSig spk : CScript) (witness : Option (List Valtype)) :
    Relaxes (verifyScript v F scriptSig spk witness) (verifyScript v F' scriptSig spk witness) := by
  unfold verifyScript
  refine .bind (checkPushOnly_relaxes hF _) fun _ => ?_
  refine .bind (evalScript_relaxes hF _ _ _ _ _) fun copy => ?_
  refine .bind (evalScript_relaxes hF _ _ _ _ _) fun r => .bind_right fun _ => ?_
  refine .bind (checkProgram_relaxes hF hwitness _ _ _ _ _ _ _) fun program => ?_
  refine .bind (checkScriptHash_relaxes hF hwitness (hc.witness hwitness) _ _ _ _ _ _ _) fun hash => ?_
  exact .bind (checkCleanStack_relaxes hF hc _) fun _ => checkUnexpected_relaxes hF hc _ _

theorem checkProgram_of_not_witness (hwitness : .witness ∉ F) (v : Verifier) (witness : List Valtype) (script : CScript)
    (malleated : Bool) (e : ScriptError) (isP2sh : Bool) (stack : List Valtype) :
    checkProgram v F witness script malleated e isP2sh stack = .ok (stack, false) := if_neg hwitness

variable {v : Verifier} {witness stackCopy : List Valtype} {scriptSig : CScript} {r : List Valtype × Bool}

theorem checkRedeemScript_of_not_witness (hF : F ⊆ F') (hwitness : .witness ∉ F)
    (h : checkRedeemScript v F' witness scriptSig stackCopy = .ok r) :
    ∃ r', checkRedeemScript v F witness scriptSig stackCopy = .ok r' := by
  unfold checkRedeemScript at h ⊢
  obtain ⟨_, hpush, h⟩ := bind_ok.mp h
  obtain ⟨u, honly, h⟩ := bind_ok.mp h
  rw [hpush, ok_bind, honly, ok_bind]
  split at h
  · cases h
  · obtain ⟨s, heval, h⟩ := bind_ok.mp h
    obtain ⟨u, htrue, -⟩ := bind_ok.mp h
    refine ⟨(s.1, false), ?_⟩
    simp only
    rw [evalScript_relaxes hF _ _ _ _ _ s heval, ok_bind, htrue, ok_bind, checkProgram_of_not_witness hwitness]

theorem checkScriptHash_of_not_witness (hF : F ⊆ F') (hwitness : .witness ∉ F)
    {spk : CScript} {stack stack' : List Valtype} {hadWitness had : Bool}
    (h : checkScriptHash v F' witness scriptSig spk stackCopy stack' had = .ok r) :
    ∃ r', checkScriptHash v F witness scriptSig spk stackCopy stack hadWitness = .ok r' := by
  unfold checkScriptHash at h ⊢
  split
  · next hhash =>
    rw [if_pos ⟨hF hhash.1, hhash.2⟩] at h
    obtain ⟨_, hredeem, -⟩ := bind_ok.mp h
    obtain ⟨r', hr'⟩ := checkRedeemScript_of_not_witness hF hwitness hredeem
    rw [hr']
    exact ⟨_, rfl⟩
  · exact ⟨_, rfl⟩

theorem verifyScript_relaxes_of_not_witness (hF : F ⊆ F') (hc : Coherent F) (hwitness : .witness ∉ F) (v : Verifier)
    (scriptSig spk : CScript) (witness : Option (List Valtype)) :
    Relaxes (verifyScript v F scriptSig spk witness) (verifyScript v F' scriptSig spk witness) := by
  have hclean : .cleanStack ∉ F := fun h => hwitness (hc.cleanStack h).2
  unfold verifyScript
  refine .bind (checkPushOnly_relaxes hF _) fun _ => ?_
  refine .bind (evalScript_relaxes hF _ _ _ _ _) fun copy => ?_
  refine .bind (evalScript_relaxes hF _ _ _ _ _) fun r => .bind_right fun _ => ?_
  rintro ⟨⟩ h
  obtain ⟨_, -, h⟩ := bind_ok.mp h
  obtain ⟨_, hhash, -⟩ := bind_ok.mp h
  obtain ⟨_, hr'⟩ := checkScriptHash_of_not_witness hF hwitness hhash
  rw [checkProgram_of_not_witness hwitness, ok_bind]
  simp only
  rw [hr', ok_bind]
  unfold checkCleanStack checkUnexpected
  rw [if_neg hclean, if_neg hwitness, ok_bind]

/-- A spend valid under some flags is valid under part of them. -/
theorem verifyScript_softFork (v : Verifier) (scriptSig spk : CScript) (witness : Option (List Valtype))
    (hF : F ⊆ F') (hc : Coherent F)
    (h : verifyScript v F' scriptSig spk witness = .ok ()) : verifyScript v F scriptSig spk witness = .ok () := by
  by_cases hwitness : .witness ∈ F
  · exact verifyScript_relaxes_of_witness hF hc hwitness v scriptSig spk witness () h
  · exact verifyScript_relaxes_of_not_witness hF hc hwitness v scriptSig spk witness () h

end Inputs

/-- `OP_1 OP_2`, spending `OP_ADD OP_3 OP_EQUAL`. -/
theorem sum_spent_softFork :
    verifyScript baseVerifier {.p2sh, .witness, .cleanStack, .minimalData, .sigPushOnly} [0x51, 0x52] [0x93, 0x53, 0x87]
      none = .ok () ∧ verifyScript baseVerifier ∅ [0x51, 0x52] [0x93, 0x53, 0x87] none = .ok () := by
  have hstrict : verifyScript baseVerifier {.p2sh, .witness, .cleanStack, .minimalData, .sigPushOnly} [0x51, 0x52]
      [0x93, 0x53, 0x87] none = .ok () := by decide
  refine ⟨hstrict, ?_⟩
  exact verifyScript_softFork baseVerifier _ _ none (Finset.empty_subset _) ⟨by simp, by simp⟩ hstrict

end FullNode.Script

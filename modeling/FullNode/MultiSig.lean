import FullNode.Basic
import FullNode.InterpreterSafety
import FullNode.Lib.OrderedMatching

/-! # Multiple signatures -/

namespace FullNode.Script

open OrderedMatching List

/-! ## The call -/

section

variable (v : Verifier) (flags : Flags) (sv : SigVersion)

def checks (code : CScript) (vchSig vchPubKey : Valtype) : Bool :=
  v.checker.checkECDSASignature vchSig vchPubKey code sv

/-- The pairs the loop looks at are well encoded. -/
def EncodingsOk (code : CScript) : List Valtype → List Valtype → Prop
  | vchSig :: sigs, vchPubKey :: keys =>
    checkSignatureEncoding v flags vchSig = .ok () ∧ checkPubKeyEncoding flags sv vchPubKey = .ok () ∧
      if checks v sv code vchSig vchPubKey then EncodingsOk code sigs keys
      else sigs.length < keys.length → EncodingsOk code (vchSig :: sigs) keys
  | _, _ => True

/-- The stack of a call, within the limits and well encoded. -/
structure MultiSigCall (s : EvalState) (sigs keys : List Valtype) (dummy : Valtype) (rest : List Valtype) where
  vchKeys : Valtype
  vchSigs : Valtype
  scriptCode : CScript
  stack : s.stack = vchKeys :: (keys ++ vchSigs :: (sigs ++ dummy :: rest))
  notTapscript : sv ≠ .tapscript
  keysCount : scriptNum vchKeys (requireMinimal flags) nDefaultMaxNumSize = .ok keys.length
  sigsCount : scriptNum vchSigs (requireMinimal flags) nDefaultMaxNumSize = .ok sigs.length
  maxKeys : (keys.length : Int) ≤ MAX_PUBKEYS_PER_MULTISIG
  maxSigs : sigs.length ≤ keys.length
  maxOps : s.nOpCount + keys.length ≤ MAX_OPS_PER_SCRIPT
  /-- Every signature can be dropped from the script. -/
  dropped : sigs.foldlM (fun code vchSig => dropSignature flags sv vchSig code) s.pbegincodehash = .ok scriptCode
  encodings : EncodingsOk v flags sv scriptCode sigs keys
  nullDummy : .nullDummy ∈ flags → dummy = []

end

/-! ## Places on the stack -/

section

variable {v : Verifier} {flags : Flags} {sv : SigVersion} {stack pre post : List Valtype}

theorem stackTop_append (pre : List Valtype) (vch : Valtype) (post : List Valtype) :
    stackTop (pre ++ vch :: post) (pre.length + 1) = .ok vch := by
  rw [stackTop, getElem?_append_right (Nat.le_refl _), Nat.sub_self, getElem?_cons_zero]

theorem stackTop_place {i : Nat} {vch : Valtype} (h : stack = pre ++ vch :: post) (hi : i = pre.length + 1) :
    stackTop stack i = .ok vch := by
  rw [h, hi]
  exact stackTop_append pre vch post

theorem dropSignatures_eq (flags : Flags) (sv : SigVersion) {sigs : List Valtype} {isig : Nat}
    (hstack : stack = pre ++ (sigs ++ post)) (hisig : isig = pre.length + 1) (code : CScript) :
    dropSignatures flags sv stack sigs.length isig code =
      sigs.foldlM (fun code vchSig => dropSignature flags sv vchSig code) code := by
  induction sigs generalizing pre isig code with
  | nil => rfl
  | cons vchSig sigs ih =>
    have hnext : stack = (pre ++ [vchSig]) ++ (sigs ++ post) := by rw [hstack]; simp
    rw [length_cons, dropSignatures, foldlM_cons, stackTop_place hstack hisig, ok_bind]
    cases dropSignature flags sv vchSig code with
    | error e => rfl
    | ok code => exact ih hnext (by rw [hisig]; simp) code

theorem matchSignatures_eq {sigs keys preKeys postKeys : List Valtype} {fuel isig ikey : Nat} {code : CScript}
    (hfuel : keys.length < fuel) (hsigs : stack = pre ++ (sigs ++ post)) (hisig : isig = pre.length + 1)
    (hkeys : stack = preKeys ++ (keys ++ postKeys)) (hikey : ikey = preKeys.length + 1)
    (hle : sigs.length ≤ keys.length) (hencodings : EncodingsOk v flags sv code sigs keys) :
    matchSignatures v flags sv code stack fuel isig ikey sigs.length keys.length =
      .ok (greedy (checks v sv code) sigs keys) := by
  induction fuel generalizing sigs keys pre preKeys isig ikey with
  | zero => omega
  | succ fuel ih =>
    cases sigs with
    | nil => rw [length_nil, matchSignatures, if_pos rfl, greedy]
    | cons vchSig sigs =>
      cases keys with
      | nil => exact absurd hle (by simp)
      | cons vchPubKey keys =>
        obtain ⟨hsig, hkey, hlater⟩ := hencodings
        have hkeys' : stack = (preKeys ++ [vchPubKey]) ++ (keys ++ postKeys) := by rw [hkeys]; simp
        have hikey' : ikey + 1 = (preKeys ++ [vchPubKey]).length + 1 := by rw [hikey]; simp
        rw [matchSignatures, if_neg (by simp), stackTop_place hsigs hisig, stackTop_place hkeys hikey, greedy]
        simp only [ok_bind, hsig, hkey, length_cons, Nat.add_sub_cancel]
        simp only [length_cons] at hle hfuel
        unfold checks at hlater ⊢
        split
        · next hchecks =>
          have hsigs' : stack = (pre ++ [vchSig]) ++ (sigs ++ post) := by rw [hsigs]; simp
          rw [if_pos hchecks] at hlater
          rw [if_neg (by omega)]
          exact ih (by omega) hsigs' (by rw [hisig]; simp) hkeys' hikey' (by omega) hlater
        · next hchecks =>
          rw [if_neg hchecks] at hlater
          split
          · next htoo =>
            rw [greedy_of_length (by rw [length_cons]; omega)]
            rfl
          · next hfits => exact ih (by omega) hsigs hisig hkeys' hikey' (by rw [length_cons]; omega) (hlater (by omega))

theorem removeArguments_eq (flags : Flags) (ok : Bool) (args : List Valtype) (ikey2 : Nat) (rest : List Valtype) :
    removeArguments flags ok args.length ikey2 (args ++ rest) =
      if ok = false ∧ .nullFail ∈ flags ∧ ∃ vch ∈ args.drop ikey2,
        vch ≠ [] then .error (.error .sigNullFail) else .ok rest := by
  induction args generalizing ikey2 with
  | nil => simp [removeArguments]
  | cons vch args ih =>
    rw [length_cons, cons_append, removeArguments, popStack]
    cases ikey2 with
    | zero =>
      unfold checkNullFail failIf
      cases ok
      · by_cases hnull : Flag.nullFail ∈ flags
        · cases vch with
          | nil => simpa [hnull, stackTop] using ih 0
          | cons b vch =>
            simp [hnull, stackTop]
            rfl
        · simpa [hnull] using ih 0
      · simpa using ih 0
    | succ ikey2 => simpa [checkNullFail] using ih ikey2

/-! ## The result -/

theorem failIf_of_not {cond : Prop} [Decidable cond] (h : ¬ cond) (e : ScriptError) : failIf cond e = .ok () := if_neg h

variable {s : EvalState} {sigs keys rest : List Valtype} {dummy : Valtype}

/-- What the opcode does once the loop has decided. -/
def conclude (flags : Flags) (verify : Bool) (s : EvalState) (sigs keys rest : List Valtype)
    (ok : Bool) : Eval EvalState :=
  if ok = false ∧ .nullFail ∈ flags ∧ ∃ vchSig ∈ sigs, vchSig ≠ [] then .error (.error .sigNullFail)
  else do
    let stack ← verifyTop verify ok .checkMultiSigVerify (ofBool ok :: rest)
    return { s with stack, nOpCount := s.nOpCount + keys.length }

theorem getint_length {vchs : List Valtype} (h : (vchs.length : Int) ≤ MAX_PUBKEYS_PER_MULTISIG) :
    getint vchs.length = vchs.length := by
  unfold MAX_PUBKEYS_PER_MULTISIG at h
  unfold getint INT_MAX INT_MIN
  rw [if_neg (by omega), if_neg (by omega)]

theorem opCheckMultiSig_eq (c : MultiSigCall v flags sv s sigs keys dummy rest) (verify : Bool) :
    opCheckMultiSig v flags sv verify s =
      conclude flags verify s sigs keys rest (greedy (checks v sv c.scriptCode) sigs keys) := by
  have hmaxKeys := c.maxKeys
  have hmaxSigs := c.maxSigs
  have hmaxOps := c.maxOps
  have hlen : s.stack.length = keys.length + sigs.length + 3 + rest.length := by
    rw [c.stack]
    simp only [length_cons, length_append]
    omega
  -- the stack, cut at each of the places that are counted
  have hkeys : s.stack = [c.vchKeys] ++ (keys ++ c.vchSigs :: (sigs ++ dummy :: rest)) := c.stack
  have hcount : s.stack = (c.vchKeys :: keys) ++ c.vchSigs :: (sigs ++ dummy :: rest) := by rw [c.stack]; simp
  have hsigs : s.stack = (c.vchKeys :: keys ++ [c.vchSigs]) ++ (sigs ++ dummy :: rest) := by rw [c.stack]; simp
  have hargs : s.stack = (c.vchKeys :: (keys ++ c.vchSigs :: sigs)) ++ dummy :: rest := by rw [c.stack]; simp
  have hkeysTop : stackTop s.stack 1 = .ok c.vchKeys := by rw [c.stack]; rfl
  have hsigsTop : stackTop s.stack (2 + keys.length) = .ok c.vchSigs :=
    stackTop_place hcount (by rw [length_cons]; omega)
  have hisig : 2 + keys.length + 1 = (c.vchKeys :: keys ++ [c.vchSigs]).length + 1 := by
    simp only [length_append, length_cons, length_nil]
    omega
  have hdrop := (dropSignatures_eq flags sv hsigs hisig s.pbegincodehash).trans c.dropped
  have hmatch : matchSignatures v flags sv c.scriptCode s.stack (keys.length + 1)
      (2 + keys.length + 1) 2 sigs.length keys.length = .ok (greedy (checks v sv c.scriptCode) sigs keys) :=
    matchSignatures_eq (Nat.lt_succ_self keys.length) hsigs hisig hkeys rfl hmaxSigs c.encodings
  have hremove (ok : Bool) :
      removeArguments flags ok (2 + keys.length + 1 + sigs.length - 1) (keys.length + 2) s.stack =
      if ok = false ∧ .nullFail ∈ flags ∧ ∃ vch ∈ sigs,
        vch ≠ [] then .error (.error .sigNullFail) else .ok (dummy :: rest) := by
    have h := removeArguments_eq flags ok (c.vchKeys :: (keys ++ c.vchSigs :: sigs)) (keys.length + 2) (dummy :: rest)
    rw [← hargs] at h
    have hdropped : (c.vchKeys :: (keys ++ c.vchSigs :: sigs)).drop (keys.length + 2) = sigs := by
      rw [drop_succ_cons, drop_append]
      simp
    rw [hdropped] at h
    rw [← h]
    congr 1
    simp only [length_cons, length_append]
    omega
  have hdummy : checkNullDummy flags (dummy :: rest) = .ok () := by
    unfold checkNullDummy
    split
    · next hflag =>
      rw [c.nullDummy hflag]
      rfl
    · rfl
  unfold opCheckMultiSig conclude
  simp (disch := omega) only [failIf_of_not c.notTapscript, failIf_of_not, ok_bind, hkeysTop, c.keysCount,
    getint_length hmaxKeys,
    Int.toNat_natCast, hsigsTop, c.sigsCount, getint_length (Int.le_trans (Int.ofNat_le.mpr hmaxSigs) hmaxKeys),
      hdrop, hmatch, hremove]
  split
  · rfl
  · rw [ok_bind, failIf_of_not (by simp), ok_bind, hdummy, ok_bind, popStack, ok_bind]

/-- True just when the signatures match keys in order. -/
theorem checkMultiSig_true_iff (c : MultiSigCall v flags sv s sigs keys dummy rest) :
    (OrderedMatch (checks v sv c.scriptCode) sigs keys → opCheckMultiSig v flags sv false s =
        .ok { s with stack := vchTrue :: rest, nOpCount := s.nOpCount + keys.length }) ∧
    (¬ OrderedMatch (checks v sv c.scriptCode) sigs keys → opCheckMultiSig v flags sv false s =
        if .nullFail ∈ flags ∧ ∃ vchSig ∈ sigs, vchSig ≠ [] then .error (.error .sigNullFail)
        else .ok { s with stack := vchFalse :: rest, nOpCount := s.nOpCount + keys.length }) := by
  rw [opCheckMultiSig_eq, ← greedy_iff]
  unfold conclude
  constructor
  · intro hmatch
    rw [hmatch, if_neg (by simp)]
    rfl
  · intro hmatch
    rw [Bool.not_eq_true] at hmatch
    rw [hmatch]
    simp only [true_and]
    rfl

end

/-! ## Two of three -/

def equalVerifier : Verifier :=
  { baseVerifier with
    checker := { baseVerifier.checker with checkECDSASignature := fun vchSig vchPubKey _ _ => vchSig == vchPubKey } }

def twoOfThreeState : EvalState where
  pc := []
  pbegincodehash := []
  stack := [[3], [1], [2], [3], [2], [1], [3], [], [9]]
  execdata := {}

def twoOfThree : MultiSigCall equalVerifier {.nullDummy, .nullFail} .witnessV0 twoOfThreeState [[1], [3]] [[1],
    [2], [3]] [] [[9]] where
  vchKeys := [3]
  vchSigs := [2]
  scriptCode := []
  stack := rfl
  notTapscript := by decide
  keysCount := by decide
  sigsCount := by decide
  maxKeys := by decide
  maxSigs := by decide
  maxOps := by decide
  dropped := rfl
  encodings := by simp [EncodingsOk, checks, equalVerifier, checkSignatureEncoding, checkPubKeyEncoding,
    checkLowDER, failIf]
  nullDummy := fun _ => rfl

theorem twoOfThree_true : opCheckMultiSig equalVerifier {.nullDummy, .nullFail} .witnessV0 false twoOfThreeState =
    .ok { twoOfThreeState with stack := [vchTrue, [9]], nOpCount := 3 } :=
  (checkMultiSig_true_iff twoOfThree).1 (greedy_iff.mp rfl)

end FullNode.Script

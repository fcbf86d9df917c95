import FullNode.Interpreter
import FullNode.Wire

/-! # Verifying an input -/

namespace FullNode.Script

/-! ## Witness scripts -/

/-- Whether an `OP_SUCCESSx` is reached. -/
inductive SuccessScan where
  | found | none | badOpcode
  deriving DecidableEq

def scanSuccess (script : CScript) : Eval SuccessScan :=
  scanOps (fun opcode => if isOpSuccess opcode then some .found else .none) .badOpcode .none (script.length + 1) script

/-- The checks before a witness script; `true` ends with success. -/
def preExecute (flags : Flags) (sigversion : SigVersion) (stack : List Valtype) (execScript : CScript) : Eval Bool :=
  if sigversion = .tapscript then do
    let scan ← scanSuccess execScript
    failIf (scan = .badOpcode) .badOpcode
    failIf (scan = .found ∧ .discourageOpSuccess ∈ flags) .discourageOpSuccess
    failIf (scan = .none ∧ stack.length > MAX_STACK_SIZE) .stackSize
    return scan == .found
  else .ok false

def runWitnessScript (v : Verifier) (flags : Flags) (sigversion : SigVersion) (stack : List Valtype)
    (execScript : CScript) (execdata : ScriptExecutionData) : Eval Unit := do
  failIf (stack.any fun elem => elem.length > MAX_SCRIPT_ELEMENT_SIZE) .pushSize
  let (stack, _) ← evalScript v flags sigversion stack execScript execdata
  failIf (stack.length ≠ 1) .cleanStack
  failIf (¬ castToBool (stack.headD [])) .evalFalse

def executeWitnessScript (v : Verifier) (flags : Flags) (sigversion : SigVersion) (stackSpan : List Valtype)
    (execScript : CScript) (execdata : ScriptExecutionData) : Eval Unit := do
  let success ← preExecute flags sigversion stackSpan.reverse execScript
  if success then .ok () else runWitnessScript v flags sigversion stackSpan.reverse execScript execdata

/-! ## Taproot -/

def TAPROOT_LEAF_MASK : UInt8 := 0xfe
def TAPROOT_LEAF_TAPSCRIPT : UInt8 := 0xc0
def TAPROOT_CONTROL_BASE_SIZE : Nat := 33
def TAPROOT_CONTROL_NODE_SIZE : Nat := 32
def TAPROOT_CONTROL_MAX_SIZE : Nat := TAPROOT_CONTROL_BASE_SIZE + TAPROOT_CONTROL_NODE_SIZE * 128

def taggedHash (tag : List UInt8) (data : List UInt8) : Valtype := sha256 (sha256 tag ++ sha256 tag ++ data)

/-- `TapLeaf` -/
def tapleafTag : List UInt8 := [0x54, 0x61, 0x70, 0x4c, 0x65, 0x61, 0x66]
def tapbranchTag : List UInt8 := [0x54, 0x61, 0x70, 0x42, 0x72, 0x61, 0x6e, 0x63, 0x68]

def computeTapleafHash (leafVersion : UInt8) (script : Valtype) : Valtype :=
  taggedHash tapleafTag (leafVersion :: Wire.writeByteVector script)

def lexicographicalCompare : List UInt8 → List UInt8 → Bool
  | _, [] => false
  | [], _ :: _ => true
  | a :: as, b :: bs => a < b || (a == b && lexicographicalCompare as bs)

def computeTapbranchHash (a b : Valtype) : Valtype :=
  taggedHash tapbranchTag (if lexicographicalCompare a b then a ++ b else b ++ a)

def wrongControlSize (control : Valtype) : Prop :=
  control.length < TAPROOT_CONTROL_BASE_SIZE ∨ control.length > TAPROOT_CONTROL_MAX_SIZE ∨
    (control.length - TAPROOT_CONTROL_BASE_SIZE) % TAPROOT_CONTROL_NODE_SIZE ≠ 0

instance (control : Valtype) : Decidable (wrongControlSize control) := by
  unfold wrongControlSize
  infer_instance

/-- Hashes up the path, one node after the other. -/
def hashPath : Nat → Valtype → Valtype → Valtype
  | 0, _, k => k
  | pathLen + 1, nodes, k =>
    hashPath pathLen (nodes.drop TAPROOT_CONTROL_NODE_SIZE)
      (computeTapbranchHash k (nodes.take TAPROOT_CONTROL_NODE_SIZE))

def computeTaprootMerkleRoot (control tapleafHash : Valtype) : Eval Valtype :=
  if wrongControlSize control then .error (.fault .assertion)
  else .ok <| hashPath ((control.length - TAPROOT_CONTROL_BASE_SIZE) / TAPROOT_CONTROL_NODE_SIZE)
    (control.drop TAPROOT_CONTROL_BASE_SIZE) tapleafHash

def verifyTaprootCommitment (v : Verifier) (control program tapleafHash : Valtype) : Eval Bool :=
  if control.length < TAPROOT_CONTROL_BASE_SIZE ∨ program.length < 32 then .error (.fault .assertion)
  else do
    let p := (control.drop 1).take (TAPROOT_CONTROL_BASE_SIZE - 1)
    let merkleRoot ← computeTaprootMerkleRoot control tapleafHash
    return v.crypto.checkTapTweak program p merkleRoot (byteAt control 0 &&& 1 != 0)

/-! ## Witness programs -/

def verifyWitnessV0 (v : Verifier) (flags : Flags) (witness : List Valtype) (program : Valtype) : Eval Unit :=
  if program.length = 32 then
    match witness.getLast? with
    | none => .error (.error .witnessProgramWitnessEmpty)
    | some scriptBytes => do
      failIf (sha256 scriptBytes ≠ program) .witnessProgramMismatch
      executeWitnessScript v flags .witnessV0 witness.dropLast scriptBytes {}
  else if program.length = 20 then do
    failIf (witness.length ≠ 2) .witnessProgramMismatch
    let execScript := [OP_DUP, OP_HASH160] ++ pushData program ++ [OP_EQUALVERIFY, OP_CHECKSIG]
    executeWitnessScript v flags .witnessV0 witness execScript {}
  else .error (.error .witnessProgramWrongLength)

def dropAnnex (witness : List Valtype) : List Valtype × Option Valtype :=
  match witness.getLast? with
  | none => (witness, none)
  | some annex =>
    if witness.length ≥ 2 ∧ annex ≠ [] ∧ byteAt annex 0 = ANNEX_TAG then
      (witness.dropLast, some (sha256 (Wire.writeByteVector annex)))
    else (witness, none)

/-- A tapscript may spend the size of the witness and a little more. -/
def witnessWeight (witness : List Valtype) : Int :=
  (Wire.writeVector Wire.writeByteVector witness).length + VALIDATION_WEIGHT_OFFSET

def verifyScriptPath (v : Verifier) (flags : Flags) (witness stack : List Valtype) (control script program : Valtype)
    (annex : Option Valtype) : Eval Unit := do
  failIf (wrongControlSize control) .taprootWrongControlSize
  let tapleafHash := computeTapleafHash (byteAt control 0 &&& TAPROOT_LEAF_MASK) script
  let committed ← verifyTaprootCommitment v control program tapleafHash
  failIf (¬ committed) .witnessProgramMismatch
  if byteAt control 0 &&& TAPROOT_LEAF_MASK = TAPROOT_LEAF_TAPSCRIPT then
    executeWitnessScript v flags .tapscript stack script
      { tapleafHash := some tapleafHash, annex := some annex, validationWeightLeft := some (witnessWeight witness) }
  else failIf (.discourageUpgradableTaprootVersion ∈ flags) .discourageUpgradableTaprootVersion

def verifyTaproot (v : Verifier) (flags : Flags) (witness : List Valtype) (program : Valtype) : Eval Unit :=
  let (stack, annex) := dropAnnex witness
  match stack.reverse with
  | [] => .error (.error .witnessProgramWitnessEmpty)
  | [sig] => (v.checker.checkSchnorrSignature sig program .taproot { annex := some annex }).mapError .error
  | control :: script :: rest => verifyScriptPath v flags witness rest.reverse control script program annex

def verifyWitnessProgram (v : Verifier) (flags : Flags) (witness : List Valtype) (witversion : Nat) (program : Valtype)
    (isP2sh : Bool) : Eval Unit :=
  if witversion = 0 then verifyWitnessV0 v flags witness program
  else if witversion = 1 ∧ program.length = 32 ∧ ¬ isP2sh then
    if .taproot ∈ flags then verifyTaproot v flags witness program else .ok ()
  else if ¬ isP2sh ∧ isPayToAnchor witversion program then .ok ()
  else failIf (.discourageUpgradableWitnessProgram ∈ flags) .discourageUpgradableWitnessProgram

/-! ## Inputs -/

def requireTrue (stack : List Valtype) : Eval Unit := failIf (¬ castToBool (stack.headD [])) .evalFalse

/-- A known witness program is verified, on a clean stack. -/
def checkProgram (v : Verifier) (flags : Flags) (witness : List Valtype) (script : CScript) (malleated : Bool)
    (e : ScriptError) (isP2sh : Bool) (stack : List Valtype) : Eval (List Valtype × Bool) :=
  if .witness ∈ flags then
    match isWitnessProgram script with
    | none => .ok (stack, false)
    | some (version, program) => do
      failIf malleated e
      verifyWitnessProgram v flags witness version program isP2sh
      return (stack.drop (stack.length - 1), true)
  else .ok (stack, false)

def checkRedeemScript (v : Verifier) (flags : Flags) (witness : List Valtype) (scriptSig : CScript)
    (stackCopy : List Valtype) : Eval (List Valtype × Bool) := do
  let pushOnly ← isPushOnly scriptSig
  failIf (¬ pushOnly) .sigPushOnly
  match stackCopy with
  | [] => .error (.fault .assertion)
  | pubKey2 :: rest => do
    let (stack, _) ← evalScript v flags .base rest pubKey2 {}
    requireTrue stack
    checkProgram v flags witness pubKey2 (scriptSig ≠ pushData pubKey2) .witnessMalleatedP2SH true stack

def checkPushOnly (flags : Flags) (scriptSig : CScript) : Eval Unit :=
  if .sigPushOnly ∈ flags then do
    let pushOnly ← isPushOnly scriptSig
    failIf (¬ pushOnly) .sigPushOnly
  else .ok ()

def checkScriptHash (v : Verifier) (flags : Flags) (witness : List Valtype) (scriptSig scriptPubKey : CScript)
    (stackCopy stack : List Valtype) (hadWitness : Bool) : Eval (List Valtype × Bool) :=
  if .p2sh ∈ flags ∧ isPayToScriptHash scriptPubKey then do
    let (stack, had) ← checkRedeemScript v flags witness scriptSig stackCopy
    return (stack, hadWitness || had)
  else .ok (stack, hadWitness)

def checkCleanStack (flags : Flags) (stack : List Valtype) : Eval Unit :=
  if .cleanStack ∈ flags then
    if .p2sh ∈ flags ∧ .witness ∈ flags then failIf (stack.length ≠ 1) .cleanStack else .error (.fault .assertion)
  else .ok ()

def checkUnexpected (flags : Flags) (witness : List Valtype) (hadWitness : Bool) : Eval Unit :=
  if .witness ∈ flags then
    if .p2sh ∈ flags then failIf (¬ hadWitness ∧ witness ≠ []) .witnessUnexpected else .error (.fault .assertion)
  else .ok ()

/-- Success is `.ok ()`. A missing witness is an empty one. -/
def verifyScript (v : Verifier) (flags : Flags) (scriptSig scriptPubKey : CScript)
    (witness : Option (List Valtype)) : Eval Unit := do
  let witness := witness.getD []
  checkPushOnly flags scriptSig
  let (stackCopy, _) ← evalScript v flags .base [] scriptSig {}
  let (stack, _) ← evalScript v flags .base stackCopy scriptPubKey {}
  requireTrue stack
  let (stack, hadWitness) ←
    checkProgram v flags witness scriptPubKey (scriptSig.length ≠ 0) .witnessMalleated false stack
  let (stack, hadWitness) ← checkScriptHash v flags witness scriptSig scriptPubKey stackCopy stack hadWitness
  checkCleanStack flags stack
  checkUnexpected flags witness hadWitness

end FullNode.Script

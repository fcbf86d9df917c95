import FullNode.Lib.Sha256
import FullNode.Script

/-!
# The script interpreter

`evalScript` runs the opcodes of a script on a stack. The signature checks, RIPEMD-160, SHA-1 and the curve are
arbitrary functions here.
-/

namespace FullNode.Script

/-- `SCRIPT_VERIFY_…`. -/
inductive Flag where
  | p2sh | strictEnc | derSig | lowS | nullDummy | sigPushOnly | minimalData | discourageUpgradableNops
  | cleanStack | checkLockTimeVerify | checkSequenceVerify | witness | discourageUpgradableWitnessProgram
  | minimalIf | nullFail | witnessPubkeyType | constScriptcode | taproot | discourageUpgradableTaprootVersion
  | discourageOpSuccess | discourageUpgradablePubkeyType
  deriving DecidableEq

abbrev Flags := Finset Flag

inductive SigVersion where
  | base | witnessV0 | taproot | tapscript
  deriving DecidableEq

def SigVersion.limited (sigversion : SigVersion) : Bool := sigversion == .base || sigversion == .witnessV0

structure ScriptExecutionData where
  tapleafHash : Option Valtype := none
  codeseparatorPos : Option (BitVec 32) := none
  /-- The hash of the annex, where there is one. -/
  annex : Option (Option Valtype) := none
  validationWeightLeft : Option Int := none
  deriving DecidableEq

structure SignatureChecker where
  checkECDSASignature : Valtype → Valtype → CScript → SigVersion → Bool
  checkSchnorrSignature : Valtype → Valtype → SigVersion → ScriptExecutionData → Except ScriptError Unit
  checkLockTime : Int → Bool
  checkSequence : Int → Bool

structure Crypto where
  ripemd160 : Valtype → Vector UInt8 20
  sha1 : Valtype → Vector UInt8 20
  /-- `CPubKey::CheckLowS`. -/
  checkLowS : Valtype → Bool
  /-- `q.CheckTapTweak(p, merkle_root, parity)`. -/
  checkTapTweak : Valtype → Valtype → Valtype → Bool → Bool

structure Verifier where
  crypto : Crypto
  checker : SignatureChecker

/-! ## Encodings -/

def isCompressedOrUncompressedPubKey (vchPubKey : Valtype) : Bool :=
  if vchPubKey.length < 33 then false
  else if byteAt vchPubKey 0 = 0x04 then vchPubKey.length == 65
  else if byteAt vchPubKey 0 = 0x02 ∨ byteAt vchPubKey 0 = 0x03 then vchPubKey.length == 33
  else false

def isCompressedPubKey (vchPubKey : Valtype) : Bool :=
  vchPubKey.length == 33 && (byteAt vchPubKey 0 == 0x02 || byteAt vchPubKey 0 == 0x03)

def isValidSignatureEncoding (sig : Valtype) : Bool :=
  if sig.length < 9 ∨ sig.length > 73 then false
  else if byteAt sig 0 ≠ 0x30 then false
  else if (byteAt sig 1).toNat ≠ sig.length - 3 then false
  else
    let lenR := (byteAt sig 3).toNat
    if 5 + lenR ≥ sig.length then false
    else
      let lenS := (byteAt sig (5 + lenR)).toNat
      if lenR + lenS + 7 ≠ sig.length then false
      else if byteAt sig 2 ≠ 0x02 then false
      else if lenR = 0 then false
      else if byteAt sig 4 &&& 0x80 ≠ 0 then false
      else if lenR > 1 ∧ byteAt sig 4 = 0 ∧ byteAt sig 5 &&& 0x80 = 0 then false
      else if byteAt sig (lenR + 4) ≠ 0x02 then false
      else if lenS = 0 then false
      else if byteAt sig (lenR + 6) &&& 0x80 ≠ 0 then false
      else if lenS > 1 ∧ byteAt sig (lenR + 6) = 0 ∧ byteAt sig (lenR + 7) &&& 0x80 = 0 then false
      else true

def isLowDERSignature (v : Verifier) (vchSig : Valtype) : Eval Unit := do
  failIf (¬ isValidSignatureEncoding vchSig) .sigDer
  failIf (¬ v.crypto.checkLowS vchSig.dropLast) .sigHighS

def isDefinedHashtypeSignature (vchSig : Valtype) : Bool :=
  match vchSig.getLast? with
  | none => false
  | some last =>
    let nHashType := last &&& 0x7f
    1 ≤ nHashType && nHashType ≤ 3

def checkLowDER (v : Verifier) (flags : Flags) (vchSig : Valtype) : Eval Unit :=
  if .lowS ∈ flags then isLowDERSignature v vchSig else .ok ()

def checkSignatureEncoding (v : Verifier) (flags : Flags) (vchSig : Valtype) : Eval Unit :=
  if vchSig = [] then .ok ()
  else do
    failIf ((.derSig ∈ flags ∨ .lowS ∈ flags ∨ .strictEnc ∈ flags) ∧ ¬ isValidSignatureEncoding vchSig) .sigDer
    checkLowDER v flags vchSig
    failIf (.strictEnc ∈ flags ∧ ¬ isDefinedHashtypeSignature vchSig) .sigHashtype

def checkPubKeyEncoding (flags : Flags) (sigversion : SigVersion) (vchPubKey : Valtype) : Eval Unit := do
  failIf (.strictEnc ∈ flags ∧ ¬ isCompressedOrUncompressedPubKey vchPubKey) .pubkeyType
  failIf (.witnessPubkeyType ∈ flags ∧ sigversion = .witnessV0 ∧ ¬ isCompressedPubKey vchPubKey) .witnessPubkeyType

/-! ## Dropping a signature from the script -/

/-- Steps over the copies of `b` at `pc`. -/
def skipCopies (b : CScript) : Nat → CScript → Nat → Eval (CScript × Nat)
  | 0, _, _ => .error (.fault .endless)
  | fuel + 1, pc, nFound =>
    if b.isPrefixOf pc then skipCopies b fuel (pc.drop b.length) (nFound + 1) else .ok (pc, nFound)

/-- The rounds of `FindAndDelete`: `pc2` is where the rest starts. -/
def findAndDeleteLoop (b : CScript) : Nat → CScript → CScript → CScript → Nat → Eval (CScript × Nat)
  | 0, _, _, _, _ => .error (.fault .endless)
  | fuel + 1, result, pc, pc2, nFound => do
    let result := result ++ pc2.take (pc2.length - pc.length)
    let (pc, nFound) ← skipCopies b (pc.length + 1) pc nFound
    match getScriptOp pc with
    | some (_, _, rest) => findAndDeleteLoop b fuel result rest pc nFound
    | none => return (result ++ pc, nFound)

/-- The script without `b` at opcode boundaries, and how many. -/
def findAndDelete (script b : CScript) : Eval (CScript × Nat) :=
  if b = [] then .ok (script, 0)
  else do
    let (result, nFound) ← findAndDeleteLoop b (script.length + 1) [] script script 0
    return (if nFound > 0 then result else script, nFound)

def dropSignature (flags : Flags) (sigversion : SigVersion) (vchSig : Valtype) (scriptCode : CScript) : Eval CScript :=
  if sigversion = .base then do
    let (scriptCode, found) ← findAndDelete scriptCode (pushData vchSig)
    failIf (found > 0 ∧ .constScriptcode ∈ flags) .sigFindAndDelete
    return scriptCode
  else .ok scriptCode

/-! ## Conditions -/

/-- The height of the stack and the place of its first false one. -/
structure ConditionStack where
  stackSize : BitVec 32 := 0
  firstFalsePos : BitVec 32 := 0xffffffff
  deriving DecidableEq

namespace ConditionStack

def NO_FALSE : BitVec 32 := 0xffffffff

def empty (c : ConditionStack) : Bool := c.stackSize == 0

def allTrue (c : ConditionStack) : Bool := c.firstFalsePos == NO_FALSE

def pushBack (c : ConditionStack) (f : Bool) : ConditionStack :=
  { stackSize := c.stackSize + 1
    firstFalsePos := if c.firstFalsePos = NO_FALSE ∧ ¬ f then c.stackSize else c.firstFalsePos }

def popBack (c : ConditionStack) : Eval ConditionStack :=
  if c.stackSize = 0 then .error (.fault .noCondition)
  else .ok {
    stackSize := c.stackSize - 1
    firstFalsePos := if c.firstFalsePos = c.stackSize - 1 then NO_FALSE else c.firstFalsePos }

def toggleTop (c : ConditionStack) : Eval ConditionStack :=
  if c.stackSize = 0 then .error (.fault .noCondition)
  else if c.firstFalsePos = NO_FALSE then .ok { c with firstFalsePos := c.stackSize - 1 }
  else if c.firstFalsePos = c.stackSize - 1 then .ok { c with firstFalsePos := NO_FALSE }
  else .ok c

end ConditionStack

/-! ## State -/

structure EvalState where
  /-- What is still to be read. -/
  pc : CScript
  /-- The script from the last code separator on. -/
  pbegincodehash : CScript
  stack : List Valtype
  altstack : List Valtype := []
  vfExec : ConditionStack := {}
  nOpCount : Nat := 0
  opcodePos : BitVec 32 := 0
  execdata : ScriptExecutionData
  deriving DecidableEq

def EvalState.onStack (s : EvalState) (f : List Valtype → Eval (List Valtype)) : Eval EvalState := do
  let stack ← f s.stack
  return { s with stack }

def vchFalse : Valtype := []
def vchTrue : Valtype := [1]
def ofBool (b : Bool) : Valtype := if b then vchTrue else vchFalse

def requireMinimal (flags : Flags) : Bool := .minimalData ∈ flags

/-- What the `…VERIFY` opcodes do to the result they have pushed. -/
def verifyTop (verify ok : Bool) (e : ScriptError) (stack : List Valtype) : Eval (List Valtype) :=
  if verify then
    if ok then popStack stack else .error (.error e)
  else .ok stack

/-! ## The signature opcodes -/

def evalChecksigPreTapscript (v : Verifier) (flags : Flags) (sigversion : SigVersion) (vchSig vchPubKey : Valtype)
    (scriptCode : CScript) : Eval Bool :=
  if sigversion ≠ .base ∧ sigversion ≠ .witnessV0 then .error (.fault .sigVersion)
  else do
    let scriptCode ← dropSignature flags sigversion vchSig scriptCode
    checkSignatureEncoding v flags vchSig
    checkPubKeyEncoding flags sigversion vchPubKey
    let fSuccess := v.checker.checkECDSASignature vchSig vchPubKey scriptCode sigversion
    failIf (¬ fSuccess ∧ .nullFail ∈ flags ∧ vchSig.length ≠ 0) .sigNullFail
    return fSuccess

def spendWeight (execdata : ScriptExecutionData) (success : Bool) : Eval ScriptExecutionData :=
  if success then
    match execdata.validationWeightLeft with
    | none => .error (.fault .weightNotSet)
    | some weight => do
      let weight := weight - VALIDATION_WEIGHT_PER_SIGOP_PASSED
      failIf (weight < 0) .tapscriptValidationWeight
      return { execdata with validationWeightLeft := some weight }
  else .ok execdata

def checkTapscriptKey (v : Verifier) (flags : Flags) (sigversion : SigVersion) (execdata : ScriptExecutionData)
    (success : Bool) (sig pubkey : Valtype) : Eval Unit :=
  if pubkey.length = 0 then .error (.error .pubkeyType)
  else if pubkey.length = 32 then
    if success then (v.checker.checkSchnorrSignature sig pubkey sigversion execdata).mapError .error else .ok ()
  else failIf (.discourageUpgradablePubkeyType ∈ flags) .discourageUpgradablePubkeyType

def evalChecksigTapscript (v : Verifier) (flags : Flags) (sigversion : SigVersion) (sig pubkey : Valtype)
    (execdata : ScriptExecutionData) : Eval (Bool × ScriptExecutionData) :=
  if sigversion ≠ .tapscript then .error (.fault .sigVersion)
  else do
    let success := sig.length != 0
    let execdata ← spendWeight execdata success
    checkTapscriptKey v flags sigversion execdata success sig pubkey
    return (success, execdata)

def evalChecksig (v : Verifier) (flags : Flags) (sigversion : SigVersion) (sig pubkey : Valtype) (scriptCode : CScript)
    (execdata : ScriptExecutionData) : Eval (Bool × ScriptExecutionData) :=
  match sigversion with
  | .base | .witnessV0 => do
    let success ← evalChecksigPreTapscript v flags sigversion sig pubkey scriptCode
    return (success, execdata)
  | .tapscript => evalChecksigTapscript v flags sigversion sig pubkey execdata
  | .taproot => .error (.fault .sigVersion)

def opCheckSig (v : Verifier) (flags : Flags) (sigversion : SigVersion) (verify : Bool)
    (s : EvalState) : Eval EvalState := do
  failIf (s.stack.length < 2) .invalidStackOperation
  let vchSig ← stackTop s.stack 2
  let vchPubKey ← stackTop s.stack 1
  let (fSuccess, execdata) ← evalChecksig v flags sigversion vchSig vchPubKey s.pbegincodehash s.execdata
  let stack ← popStack s.stack
  let stack ← popStack stack
  let stack ← verifyTop verify fSuccess .checkSigVerify (ofBool fSuccess :: stack)
  return { s with stack, execdata }

def opCheckSigAdd (v : Verifier) (flags : Flags) (sigversion : SigVersion) (s : EvalState) : Eval EvalState := do
  failIf sigversion.limited .badOpcode
  failIf (s.stack.length < 3) .invalidStackOperation
  let sig ← stackTop s.stack 3
  let vchNum ← stackTop s.stack 2
  let num ← scriptNum vchNum (requireMinimal flags) nDefaultMaxNumSize
  let pubkey ← stackTop s.stack 1
  let (success, execdata) ← evalChecksig v flags sigversion sig pubkey s.pbegincodehash s.execdata
  let stack ← popStack s.stack
  let stack ← popStack stack
  let stack ← popStack stack
  let sum ← int64 (num + if success then 1 else 0)
  return { s with stack := serialize sum :: stack, execdata }

def dropSignatures (flags : Flags) (sigversion : SigVersion) (stack : List Valtype) : Nat → Nat → CScript → Eval CScript
  | 0, _, scriptCode => .ok scriptCode
  | n + 1, isig, scriptCode => do
    let vchSig ← stackTop stack isig
    let scriptCode ← dropSignature flags sigversion vchSig scriptCode
    dropSignatures flags sigversion stack n (isig + 1) scriptCode

def matchSignatures (v : Verifier) (flags : Flags) (sigversion : SigVersion) (scriptCode : CScript)
    (stack : List Valtype) : Nat → Nat → Nat → Nat → Nat → Eval Bool
  | 0, _, _, _, _ => .error (.fault .endless)
  | fuel + 1, isig, ikey, nSigsCount, nKeysCount =>
    if nSigsCount = 0 then .ok true
    else do
      let vchSig ← stackTop stack isig
      let vchPubKey ← stackTop stack ikey
      checkSignatureEncoding v flags vchSig
      checkPubKeyEncoding flags sigversion vchPubKey
      let fOk := v.checker.checkECDSASignature vchSig vchPubKey scriptCode sigversion
      let isig := if fOk then isig + 1 else isig
      let nSigsCount := if fOk then nSigsCount - 1 else nSigsCount
      -- more signatures than keys left: too many have failed
      if nSigsCount > nKeysCount - 1 then return false
      else matchSignatures v flags sigversion scriptCode stack fuel isig (ikey + 1) nSigsCount (nKeysCount - 1)

/-- With `NULLFAIL`, a failed check removes empty values. -/
def checkNullFail (flags : Flags) (fSuccess : Bool) (ikey2 : Nat) (stack : List Valtype) : Eval Unit :=
  if ¬ fSuccess ∧ .nullFail ∈ flags ∧ ikey2 = 0 then do
    let top ← stackTop stack 1
    failIf (top.length ≠ 0) .sigNullFail
  else .ok ()

/-- Removes the arguments, the first `ikey2` of them not signatures. -/
def removeArguments (flags : Flags) (fSuccess : Bool) : Nat → Nat → List Valtype → Eval (List Valtype)
  | 0, _, stack => .ok stack
  | i + 1, ikey2, stack => do
    checkNullFail flags fSuccess ikey2 stack
    let stack ← popStack stack
    removeArguments flags fSuccess i (ikey2 - 1) stack

def checkNullDummy (flags : Flags) (stack : List Valtype) : Eval Unit :=
  if .nullDummy ∈ flags then do
    let top ← stackTop stack 1
    failIf (top.length ≠ 0) .sigNullDummy
  else .ok ()

def opCheckMultiSig (v : Verifier) (flags : Flags) (sigversion : SigVersion) (verify : Bool)
    (s : EvalState) : Eval EvalState := do
  failIf (sigversion = .tapscript) .tapscriptCheckMultiSig
  failIf (s.stack.length < 1) .invalidStackOperation
  let vchKeys ← stackTop s.stack 1
  let keys ← scriptNum vchKeys (requireMinimal flags) nDefaultMaxNumSize
  failIf (getint keys < 0 ∨ getint keys > MAX_PUBKEYS_PER_MULTISIG) .pubkeyCount
  let nKeysCount := (getint keys).toNat
  let nOpCount := s.nOpCount + nKeysCount
  failIf (nOpCount > MAX_OPS_PER_SCRIPT) .opCount
  let ikey := 2
  let i := ikey + nKeysCount
  failIf (s.stack.length < i) .invalidStackOperation
  let vchSigs ← stackTop s.stack i
  let sigs ← scriptNum vchSigs (requireMinimal flags) nDefaultMaxNumSize
  failIf (getint sigs < 0 ∨ getint sigs > nKeysCount) .sigCount
  let nSigsCount := (getint sigs).toNat
  let isig := i + 1
  let i := isig + nSigsCount
  failIf (s.stack.length < i) .invalidStackOperation
  let scriptCode ← dropSignatures flags sigversion s.stack nSigsCount isig s.pbegincodehash
  let fSuccess ← matchSignatures v flags sigversion scriptCode s.stack (nKeysCount + 1) isig ikey nSigsCount nKeysCount
  let stack ← removeArguments flags fSuccess (i - 1) (nKeysCount + 2) s.stack
  failIf (stack.length < 1) .invalidStackOperation
  checkNullDummy flags stack
  let stack ← popStack stack
  let stack ← verifyTop verify fSuccess .checkMultiSigVerify (ofBool fSuccess :: stack)
  return { s with stack, nOpCount }

/-! ## The lock time opcodes -/

def opCheckLockTimeVerify (v : Verifier) (flags : Flags) (stack : List Valtype) : Eval Unit :=
  if .checkLockTimeVerify ∈ flags then do
    failIf (stack.length < 1) .invalidStackOperation
    let vch ← stackTop stack 1
    let nLockTime ← scriptNum vch (requireMinimal flags) 5
    failIf (nLockTime < 0) .negativeLocktime
    failIf (¬ v.checker.checkLockTime nLockTime) .unsatisfiedLocktime
  else .ok ()

def sequenceDisabled (nSequence : Int) : Bool := nSequence.toNat.testBit 31

def opCheckSequenceVerify (v : Verifier) (flags : Flags) (stack : List Valtype) : Eval Unit :=
  if .checkSequenceVerify ∈ flags then do
    failIf (stack.length < 1) .invalidStackOperation
    let vch ← stackTop stack 1
    let nSequence ← scriptNum vch (requireMinimal flags) 5
    failIf (nSequence < 0) .negativeLocktime
    failIf (¬ sequenceDisabled nSequence ∧ ¬ v.checker.checkSequence nSequence) .unsatisfiedLocktime
  else .ok ()

/-! ## Control -/

def checkMinimalIf (flags : Flags) (sigversion : SigVersion) (vch : Valtype) : Eval Unit := do
  failIf (sigversion = .tapscript ∧ (vch.length > 1 ∨ vch.length = 1 ∧ byteAt vch 0 ≠ 1)) .tapscriptMinimalIf
  failIf (sigversion = .witnessV0 ∧ .minimalIf ∈ flags ∧
    (vch.length > 1 ∨ vch.length = 1 ∧ byteAt vch 0 ≠ 1)) .minimalIf

/-- `OP_IF`, and `OP_NOTIF` with `negated`. -/
def opIf (flags : Flags) (sigversion : SigVersion) (negated fExec : Bool) (s : EvalState) : Eval EvalState :=
  if fExec then do
    failIf (s.stack.length < 1) .unbalancedConditional
    let vch ← stackTop s.stack 1
    checkMinimalIf flags sigversion vch
    let stack ← popStack s.stack
    return { s with stack, vfExec := s.vfExec.pushBack (castToBool vch != negated) }
  else .ok { s with vfExec := s.vfExec.pushBack false }

def opElse (s : EvalState) : Eval EvalState := do
  failIf s.vfExec.empty .unbalancedConditional
  let vfExec ← s.vfExec.toggleTop
  return { s with vfExec }

def opEndIf (s : EvalState) : Eval EvalState := do
  failIf s.vfExec.empty .unbalancedConditional
  let vfExec ← s.vfExec.popBack
  return { s with vfExec }

def opVerify (stack : List Valtype) : Eval (List Valtype) := do
  failIf (stack.length < 1) .invalidStackOperation
  let vch ← stackTop stack 1
  if castToBool vch then popStack stack else .error (.error .verify)

/-! ## Stack ops -/

def opToAltStack (s : EvalState) : Eval EvalState := do
  failIf (s.stack.length < 1) .invalidStackOperation
  let vch ← stackTop s.stack 1
  let stack ← popStack s.stack
  return { s with stack, altstack := vch :: s.altstack }

def opFromAltStack (s : EvalState) : Eval EvalState := do
  failIf (s.altstack.length < 1) .invalidAltstackOperation
  let vch ← stackTop s.altstack 1
  let altstack ← popStack s.altstack
  return { s with stack := vch :: s.stack, altstack }

/-- `(x1 x2 -- )` -/
def op2Drop (stack : List Valtype) : Eval (List Valtype) := do
  failIf (stack.length < 2) .invalidStackOperation
  let stack ← popStack stack
  popStack stack

/-- `(x1 x2 -- x1 x2 x1 x2)` -/
def op2Dup (stack : List Valtype) : Eval (List Valtype) := do
  failIf (stack.length < 2) .invalidStackOperation
  let vch1 ← stackTop stack 2
  let vch2 ← stackTop stack 1
  return vch2 :: vch1 :: stack

/-- `(x1 x2 x3 -- x1 x2 x3 x1 x2 x3)` -/
def op3Dup (stack : List Valtype) : Eval (List Valtype) := do
  failIf (stack.length < 3) .invalidStackOperation
  let vch1 ← stackTop stack 3
  let vch2 ← stackTop stack 2
  let vch3 ← stackTop stack 1
  return vch3 :: vch2 :: vch1 :: stack

/-- `(x1 x2 x3 x4 -- x1 x2 x3 x4 x1 x2)` -/
def op2Over (stack : List Valtype) : Eval (List Valtype) := do
  failIf (stack.length < 4) .invalidStackOperation
  let vch1 ← stackTop stack 4
  let vch2 ← stackTop stack 3
  return vch2 :: vch1 :: stack

/-- `(x1 x2 x3 x4 x5 x6 -- x3 x4 x5 x6 x1 x2)` -/
def op2Rot (stack : List Valtype) : Eval (List Valtype) := do
  failIf (stack.length < 6) .invalidStackOperation
  let vch1 ← stackTop stack 6
  let vch2 ← stackTop stack 5
  let stack ← eraseTop stack 6 4
  return vch2 :: vch1 :: stack

/-- `(x1 x2 x3 x4 -- x3 x4 x1 x2)` -/
def op2Swap (stack : List Valtype) : Eval (List Valtype) := do
  failIf (stack.length < 4) .invalidStackOperation
  let stack ← swapTop stack 4 2
  swapTop stack 3 1

def opIfDup (stack : List Valtype) : Eval (List Valtype) := do
  failIf (stack.length < 1) .invalidStackOperation
  let vch ← stackTop stack 1
  return if castToBool vch then vch :: stack else stack

def opDepth (stack : List Valtype) : Eval (List Valtype) := .ok (serialize stack.length :: stack)

def opDrop (stack : List Valtype) : Eval (List Valtype) := do
  failIf (stack.length < 1) .invalidStackOperation
  popStack stack

def opDup (stack : List Valtype) : Eval (List Valtype) := do
  failIf (stack.length < 1) .invalidStackOperation
  let vch ← stackTop stack 1
  return vch :: stack

/-- `(x1 x2 -- x2)` -/
def opNip (stack : List Valtype) : Eval (List Valtype) := do
  failIf (stack.length < 2) .invalidStackOperation
  eraseTop stack 2 1

/-- `(x1 x2 -- x1 x2 x1)` -/
def opOver (stack : List Valtype) : Eval (List Valtype) := do
  failIf (stack.length < 2) .invalidStackOperation
  let vch ← stackTop stack 2
  return vch :: stack

/-- `OP_PICK`, and `OP_ROLL` with `roll`. -/
def opPick (flags : Flags) (roll : Bool) (stack : List Valtype) : Eval (List Valtype) := do
  failIf (stack.length < 2) .invalidStackOperation
  let top ← stackTop stack 1
  let num ← scriptNum top (requireMinimal flags) nDefaultMaxNumSize
  let n := getint num
  let stack ← popStack stack
  failIf (n < 0 ∨ n ≥ stack.length) .invalidStackOperation
  let vch ← stackTop stack (n.toNat + 1)
  let stack ← if roll then eraseTop stack (n.toNat + 1) n.toNat else .ok stack
  return vch :: stack

/-- `(x1 x2 x3 -- x2 x3 x1)` -/
def opRot (stack : List Valtype) : Eval (List Valtype) := do
  failIf (stack.length < 3) .invalidStackOperation
  let stack ← swapTop stack 3 2
  swapTop stack 2 1

def opSwap (stack : List Valtype) : Eval (List Valtype) := do
  failIf (stack.length < 2) .invalidStackOperation
  swapTop stack 2 1

/-- `(x1 x2 -- x2 x1 x2)` -/
def opTuck (stack : List Valtype) : Eval (List Valtype) := do
  failIf (stack.length < 2) .invalidStackOperation
  let vch ← stackTop stack 1
  insertTop stack 2 vch

def opSize (stack : List Valtype) : Eval (List Valtype) := do
  failIf (stack.length < 1) .invalidStackOperation
  let vch ← stackTop stack 1
  return serialize vch.length :: stack

def opEqual (verify : Bool) (stack : List Valtype) : Eval (List Valtype) := do
  failIf (stack.length < 2) .invalidStackOperation
  let vch1 ← stackTop stack 2
  let vch2 ← stackTop stack 1
  let fEqual := vch1 == vch2
  let stack ← popStack stack
  let stack ← popStack stack
  verifyTop verify fEqual .equalVerify (ofBool fEqual :: stack)

/-! ## Numbers -/

inductive UnaryOp where
  | add1 | sub1 | negate | abs | not | notEqual0
  deriving DecidableEq

def UnaryOp.apply (op : UnaryOp) (bn : Int) : Eval Int :=
  match op with
  | .add1 => int64 (bn + 1)
  | .sub1 => int64 (bn - 1)
  | .negate => int64 (-bn)
  | .abs => if bn < 0 then int64 (-bn) else .ok bn
  | .not => .ok (if bn = 0 then 1 else 0)
  | .notEqual0 => .ok (if bn ≠ 0 then 1 else 0)

def opUnary (flags : Flags) (op : UnaryOp) (stack : List Valtype) : Eval (List Valtype) := do
  failIf (stack.length < 1) .invalidStackOperation
  let vch ← stackTop stack 1
  let bn ← scriptNum vch (requireMinimal flags) nDefaultMaxNumSize
  let bn ← op.apply bn
  let stack ← popStack stack
  return serialize bn :: stack

inductive BinaryOp where
  | add | sub | boolAnd | boolOr | numEqual | numEqualVerify | numNotEqual | lessThan | greaterThan
  | lessThanOrEqual | greaterThanOrEqual | min | max
  deriving DecidableEq

def BinaryOp.apply (op : BinaryOp) (bn1 bn2 : Int) : Eval Int :=
  match op with
  | .add => int64 (bn1 + bn2)
  | .sub => int64 (bn1 - bn2)
  | .boolAnd => .ok (if bn1 ≠ 0 ∧ bn2 ≠ 0 then 1 else 0)
  | .boolOr => .ok (if bn1 ≠ 0 ∨ bn2 ≠ 0 then 1 else 0)
  | .numEqual | .numEqualVerify => .ok (if bn1 = bn2 then 1 else 0)
  | .numNotEqual => .ok (if bn1 ≠ bn2 then 1 else 0)
  | .lessThan => .ok (if bn1 < bn2 then 1 else 0)
  | .greaterThan => .ok (if bn1 > bn2 then 1 else 0)
  | .lessThanOrEqual => .ok (if bn1 ≤ bn2 then 1 else 0)
  | .greaterThanOrEqual => .ok (if bn1 ≥ bn2 then 1 else 0)
  | .min => .ok (if bn1 < bn2 then bn1 else bn2)
  | .max => .ok (if bn1 > bn2 then bn1 else bn2)

/-- `OP_NUMEQUALVERIFY` takes the result it has pushed off again. -/
def checkNumEqual (op : BinaryOp) (stack : List Valtype) : Eval (List Valtype) :=
  if op = .numEqualVerify then do
    let vch ← stackTop stack 1
    if castToBool vch then popStack stack else .error (.error .numEqualVerify)
  else .ok stack

def opBinary (flags : Flags) (op : BinaryOp) (stack : List Valtype) : Eval (List Valtype) := do
  failIf (stack.length < 2) .invalidStackOperation
  let vch1 ← stackTop stack 2
  let bn1 ← scriptNum vch1 (requireMinimal flags) nDefaultMaxNumSize
  let vch2 ← stackTop stack 1
  let bn2 ← scriptNum vch2 (requireMinimal flags) nDefaultMaxNumSize
  let bn ← op.apply bn1 bn2
  let stack ← popStack stack
  let stack ← popStack stack
  checkNumEqual op (serialize bn :: stack)

/-- `(x min max -- out)` -/
def opWithin (flags : Flags) (stack : List Valtype) : Eval (List Valtype) := do
  failIf (stack.length < 3) .invalidStackOperation
  let vch1 ← stackTop stack 3
  let bn1 ← scriptNum vch1 (requireMinimal flags) nDefaultMaxNumSize
  let vch2 ← stackTop stack 2
  let bn2 ← scriptNum vch2 (requireMinimal flags) nDefaultMaxNumSize
  let vch3 ← stackTop stack 1
  let bn3 ← scriptNum vch3 (requireMinimal flags) nDefaultMaxNumSize
  let stack ← popStack stack
  let stack ← popStack stack
  let stack ← popStack stack
  return ofBool (bn2 ≤ bn1 && bn1 < bn3) :: stack

/-! ## Hashes -/

inductive HashOp where
  | ripemd160 | sha1 | sha256 | hash160 | hash256
  deriving DecidableEq

def hashOf (crypto : Crypto) (vch : Valtype) : HashOp → Valtype
  | .ripemd160 => (crypto.ripemd160 vch).toList
  | .sha1 => (crypto.sha1 vch).toList
  | .sha256 => sha256 vch
  | .hash160 => (crypto.ripemd160 (sha256 vch)).toList
  | .hash256 => sha256 (sha256 vch)

def opHash (crypto : Crypto) (op : HashOp) (stack : List Valtype) : Eval (List Valtype) := do
  failIf (stack.length < 1) .invalidStackOperation
  let vch ← stackTop stack 1
  let stack ← popStack stack
  return hashOf crypto vch op :: stack

/-! ## The switch -/

inductive Opcode where
  /-- `OP_1NEGATE` and `OP_1` to `OP_16`. -/
  | number (n : Int)
  | nop | checkLockTimeVerify | checkSequenceVerify | upgradableNop
  | cond (negated : Bool)
  | else_ | endIf | verify | return_
  | toAltStack | fromAltStack | drop2 | dup2 | dup3 | over2 | rot2 | swap2 | ifDup | depth | drop | dup | nip | over
  | pick (roll : Bool)
  | rot | swap | tuck | size
  | equal (verify : Bool)
  | unary (op : UnaryOp)
  | binary (op : BinaryOp)
  | within
  | hash (op : HashOp)
  | codeSeparator
  | checkSig (verify : Bool)
  | checkSigAdd
  | checkMultiSig (verify : Bool)
  /-- Any other byte. -/
  | unknown
  deriving DecidableEq

def labels : List (UInt8 × Opcode) := [
  (0x4f, .number (-1)), (0x51, .number 1), (0x52, .number 2), (0x53, .number 3), (0x54, .number 4), (0x55, .number 5),
  (0x56, .number 6), (0x57, .number 7), (0x58, .number 8), (0x59, .number 9), (0x5a, .number 10), (0x5b, .number 11),
  (0x5c, .number 12), (0x5d, .number 13), (0x5e, .number 14), (0x5f, .number 15), (0x60, .number 16),
  (0x61, .nop), (0x63, .cond false), (0x64, .cond true), (0x67, .else_), (0x68, .endIf), (0x69, .verify),
    (0x6a, .return_),
  (0x6b, .toAltStack), (0x6c, .fromAltStack), (0x6d, .drop2), (0x6e, .dup2), (0x6f, .dup3), (0x70, .over2),
  (0x71, .rot2), (0x72, .swap2), (0x73, .ifDup), (0x74, .depth), (0x75, .drop), (0x76, .dup), (0x77, .nip),
  (0x78, .over), (0x79, .pick false), (0x7a, .pick true), (0x7b, .rot), (0x7c, .swap), (0x7d, .tuck), (0x82, .size),
  (0x87, .equal false), (0x88, .equal true),
  (0x8b, .unary .add1), (0x8c, .unary .sub1), (0x8f, .unary .negate), (0x90, .unary .abs), (0x91, .unary .not),
    (0x92, .unary .notEqual0),
  (0x93, .binary .add), (0x94, .binary .sub), (0x9a, .binary .boolAnd), (0x9b, .binary .boolOr),
  (0x9c, .binary .numEqual), (0x9d, .binary .numEqualVerify), (0x9e, .binary .numNotEqual), (0x9f, .binary .lessThan),
  (0xa0, .binary .greaterThan), (0xa1, .binary .lessThanOrEqual), (0xa2, .binary .greaterThanOrEqual),
  (0xa3, .binary .min), (0xa4, .binary .max), (0xa5, .within),
  (0xa6, .hash .ripemd160), (0xa7, .hash .sha1), (0xa8, .hash .sha256), (0xa9, .hash .hash160), (0xaa, .hash .hash256),
  (0xab, .codeSeparator), (0xac, .checkSig false), (0xad, .checkSig true), (0xae, .checkMultiSig false),
    (0xaf, .checkMultiSig true),
  (0xb0, .upgradableNop), (0xb1, .checkLockTimeVerify), (0xb2, .checkSequenceVerify), (0xb3, .upgradableNop),
  (0xb4, .upgradableNop), (0xb5, .upgradableNop), (0xb6, .upgradableNop), (0xb7, .upgradableNop),
  (0xb8, .upgradableNop), (0xb9, .upgradableNop), (0xba, .checkSigAdd)]

def label (opcode : UInt8) : Opcode := (labels.lookup opcode).getD .unknown

/-- The disabled opcodes: `OP_CAT`, `OP_SUBSTR`, `OP_LEFT`, `OP_RIGHT`, `OP_INVERT`, `OP_AND`,
`OP_OR`, `OP_XOR`, `OP_2MUL`,
`OP_2DIV`, `OP_MUL`, `OP_DIV`, `OP_MOD`, `OP_LSHIFT`, `OP_RSHIFT`. -/
def disabledOpcodes : List UInt8 :=
  [0x7e, 0x7f, 0x80, 0x81, 0x83, 0x84, 0x85, 0x86, 0x8d, 0x8e, 0x95, 0x96, 0x97, 0x98, 0x99]

def execOp (v : Verifier) (flags : Flags) (sigversion : SigVersion) (fExec : Bool) (s : EvalState) :
    Opcode → Eval EvalState
  | .number n => s.onStack fun stack => .ok (serialize n :: stack)
  | .nop => .ok s
  | .checkLockTimeVerify => do
    opCheckLockTimeVerify v flags s.stack
    return s
  | .checkSequenceVerify => do
    opCheckSequenceVerify v flags s.stack
    return s
  | .upgradableNop => do
    failIf (.discourageUpgradableNops ∈ flags) .discourageUpgradableNops
    return s
  | .cond negated => opIf flags sigversion negated fExec s
  | .else_ => opElse s
  | .endIf => opEndIf s
  | .verify => s.onStack opVerify
  | .return_ => .error (.error .opReturn)
  | .toAltStack => opToAltStack s
  | .fromAltStack => opFromAltStack s
  | .drop2 => s.onStack op2Drop
  | .dup2 => s.onStack op2Dup
  | .dup3 => s.onStack op3Dup
  | .over2 => s.onStack op2Over
  | .rot2 => s.onStack op2Rot
  | .swap2 => s.onStack op2Swap
  | .ifDup => s.onStack opIfDup
  | .depth => s.onStack opDepth
  | .drop => s.onStack opDrop
  | .dup => s.onStack opDup
  | .nip => s.onStack opNip
  | .over => s.onStack opOver
  | .pick roll => s.onStack (opPick flags roll)
  | .rot => s.onStack opRot
  | .swap => s.onStack opSwap
  | .tuck => s.onStack opTuck
  | .size => s.onStack opSize
  | .equal verify => s.onStack (opEqual verify)
  | .unary op => s.onStack (opUnary flags op)
  | .binary op => s.onStack (opBinary flags op)
  | .within => s.onStack (opWithin flags)
  | .hash op => s.onStack (opHash v.crypto op)
  | .codeSeparator =>
    .ok { s with
      pbegincodehash := s.pc
      execdata := { s.execdata with codeseparatorPos := some s.opcodePos } }
  | .checkSig verify => opCheckSig v flags sigversion verify s
  | .checkSigAdd => opCheckSigAdd v flags sigversion s
  | .checkMultiSig verify => opCheckMultiSig v flags sigversion verify s
  | .unknown => .error (.error .badOpcode)

/-! ## The loop -/

def pushValue (flags : Flags) (opcode : UInt8) (vchPushValue : Valtype) (s : EvalState) : Eval EvalState :=
  if requireMinimal flags then do
    let minimal ← checkMinimalPush vchPushValue opcode
    failIf (¬ minimal) .minimalData
    return { s with stack := vchPushValue :: s.stack }
  else .ok { s with stack := vchPushValue :: s.stack }

/-- What a round does with its opcode; the position is behind it. -/
def runOp (v : Verifier) (flags : Flags) (sigversion : SigVersion) (opcode : UInt8) (vchPushValue : Valtype)
    (s : EvalState) : Eval EvalState :=
  let fExec := s.vfExec.allTrue
  if fExec ∧ opcode ≤ OP_PUSHDATA4 then pushValue flags opcode vchPushValue s
  else if fExec ∨ OP_IF ≤ opcode ∧ opcode ≤ OP_ENDIF then execOp v flags sigversion fExec s (label opcode)
  else .ok s

/-- Operations count towards the limit of a script before tapscript. -/
def countOp (sigversion : SigVersion) (opcode : UInt8) (nOpCount : Nat) : Nat :=
  if sigversion.limited ∧ opcode > OP_16 then nOpCount + 1 else nOpCount

def evalStep (v : Verifier) (flags : Flags) (sigversion : SigVersion) (s : EvalState) : Eval EvalState :=
  match getScriptOp s.pc with
  | none => .error (.error .badOpcode)
  | some (opcode, vchPushValue, pc) => do
    failIf (vchPushValue.length > MAX_SCRIPT_ELEMENT_SIZE) .pushSize
    let nOpCount := countOp sigversion opcode s.nOpCount
    failIf (sigversion.limited ∧ opcode > OP_16 ∧ nOpCount > MAX_OPS_PER_SCRIPT) .opCount
    failIf (opcode ∈ disabledOpcodes) .disabledOpcode
    failIf (opcode = OP_CODESEPARATOR ∧ sigversion = .base ∧ .constScriptcode ∈ flags) .opCodeSeparator
    let s' ← runOp v flags sigversion opcode vchPushValue { s with pc, nOpCount }
    failIf (s'.stack.length + s'.altstack.length > MAX_STACK_SIZE) .stackSize
    return { s' with opcodePos := s'.opcodePos + 1 }

/-- Every round reads a byte, so the length is fuel enough. -/
def evalLoop (v : Verifier) (flags : Flags) (sigversion : SigVersion) : Nat → EvalState → Eval EvalState
  | 0, s => if s.pc = [] then .ok s else .error (.fault .endless)
  | fuel + 1, s =>
    if s.pc = [] then .ok s
    else do
      let s' ← evalStep v flags sigversion s
      evalLoop v flags sigversion fuel s'

/-- `catch (...)`, which catches exceptions and no assertion. -/
def catchAll {α : Type} : Eval α → Eval α
  | .error .scriptNumError => .error (.error .unknownError)
  | .error (.fault .outOfRange) => .error (.error .unknownError)
  | .error (.fault .stackEmpty) => .error (.error .unknownError)
  | x => x

def EvalState.start (script : CScript) (stack : List Valtype) (execdata : ScriptExecutionData) : EvalState where
  pc := script
  pbegincodehash := script
  stack := stack
  execdata := { execdata with codeseparatorPos := some 0xffffffff }

def evalScript (v : Verifier) (flags : Flags) (sigversion : SigVersion) (stack : List Valtype) (script : CScript)
    (execdata : ScriptExecutionData) : Eval (List Valtype × ScriptExecutionData) :=
  if sigversion = .taproot then .error (.fault .sigVersion)
  else do
    failIf (sigversion.limited ∧ script.length > MAX_SCRIPT_SIZE) .scriptSize
    let s ← catchAll (evalLoop v flags sigversion script.length (.start script stack execdata))
    failIf (¬ s.vfExec.empty) .unbalancedConditional
    return (s.stack, s.execdata)

end FullNode.Script

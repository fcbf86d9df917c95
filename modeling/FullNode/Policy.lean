import FullNode.Interpreter
import FullNode.MempoolAccept
import FullNode.Miner
import FullNode.Wire

/-!
# The policy on scripts and data

`IsStandardTx`, `AreInputsStandard` and `DatacarrierBytes`. They decide before any script is verified.
A transaction comes with its witnesses here. Dust is computed in floating point and is a function of the
options.
-/

namespace FullNode.Policy

open Mempool
open Script (Valtype Crypto SignatureChecker byteAt decodeOpN getScriptOp isPayToScriptHash isWitnessProgram isPushOnly
  checkMinimalPush scriptNum evalScript OP_0 OP_1 OP_16 OP_PUSHDATA4 OP_IF OP_ENDIF OP_DUP OP_EQUALVERIFY
    OP_HASH160 OP_CHECKSIG
  ANNEX_TAG)

/-! ## Transactions -/

structure WitnessTx where
  tx : CTransaction
  /-- The stack of each input, the top last. -/
  scriptWitness : List (List Valtype)
  length_eq : scriptWitness.length = tx.vin.length

def WitnessTx.inputs (t : WitnessTx) : List (CTxIn × List Valtype) := t.tx.vin.zip t.scriptWitness

def toWireInput (input : CTxIn × List Valtype) : Wire.CTxIn where
  prevout := ⟨input.1.prevout.hash, BitVec.ofNat 32 input.1.prevout.n⟩
  scriptSig := input.1.scriptSig
  nSequence := input.1.nSequence
  scriptWitness := input.2

def toWireOutput (txout : CTxOut) : Wire.CTxOut := ⟨BitVec.ofInt 64 txout.nValue, txout.scriptPubKey⟩

def WitnessTx.toMutable (t : WitnessTx) : Wire.CMutableTransaction where
  vin := t.inputs.map toWireInput
  vout := t.tx.vout.map toWireOutput
  version := t.tx.version
  nLockTime := t.tx.nLockTime

def bareTx (tx : CTransaction) : WitnessTx := ⟨tx, List.replicate tx.vin.length [], List.length_replicate⟩

/-- `GetSerializeSize(TX_NO_WITNESS(tx))`. -/
def nonWitnessSize (tx : CTransaction) : Nat := (Wire.serializeTransaction false (bareTx tx).toMutable).length

def getTransactionWeight (t : WitnessTx) : Nat :=
  nonWitnessSize t.tx * (WITNESS_SCALE_FACTOR - 1) + (Wire.serializeTransaction true t.toMutable).length

/-! ## Scripts -/

def OP_13 : UInt8 := 0x5d
def OP_NOTIF : UInt8 := 0x64
def OP_DROP : UInt8 := 0x75
def OP_CHECKSIGVERIFY : UInt8 := 0xad
def OP_CHECKMULTISIG : UInt8 := 0xae
def OP_CHECKMULTISIGVERIFY : UInt8 := 0xaf
def OP_INVALIDOPCODE : UInt8 := 0xff

def pushOnly (script : CScript) : Bool :=
  match isPushOnly script with
  | .ok answer => answer
  | .error _ => false

def sigOps (fAccurate : Bool) (opcode lastOpcode : UInt8) : Nat :=
  if opcode = OP_CHECKSIG ∨ opcode = OP_CHECKSIGVERIFY then 1
  else if opcode = OP_CHECKMULTISIG ∨ opcode = OP_CHECKMULTISIGVERIFY then
    if fAccurate ∧ OP_1 ≤ lastOpcode ∧ lastOpcode ≤ OP_16 then decodeOpN lastOpcode else 20
  else 0

/-- An opcode takes at least a byte, so the length bounds the loop. -/
def sigOpLoop (fAccurate : Bool) : Nat → CScript → UInt8 → Nat → Nat
  | 0, _, _, n => n
  | fuel + 1, pc, lastOpcode, n =>
    match getScriptOp pc with
    | none => n
    | some (opcode, _, rest) => sigOpLoop fAccurate fuel rest opcode (n + sigOps fAccurate opcode lastOpcode)

def getSigOpCount (fAccurate : Bool) (script : CScript) : Nat :=
  sigOpLoop fAccurate script.length script OP_INVALIDOPCODE 0

def lastPush : Nat → CScript → Valtype → Option Valtype
  | 0, _, vData => some vData
  | fuel + 1, pc, vData =>
    if pc = [] then some vData
    else
      match getScriptOp pc with
      | none => none
      | some (opcode, vData, rest) => if opcode > OP_16 then none else lastPush fuel rest vData

def spendSigOpCount (scriptPubKey scriptSig : CScript) : Nat :=
  if !isPayToScriptHash scriptPubKey then getSigOpCount true scriptPubKey
  else
    match lastPush scriptSig.length scriptSig [] with
    | none => 0
    | some subscript => getSigOpCount true subscript

def baseSignatureChecker : SignatureChecker where
  checkECDSASignature _ _ _ _ := false
  checkSchnorrSignature _ _ _ _ := .error .unknownError
  checkLockTime _ := false
  checkSequence _ := false

/-- `EvalScript` on a `scriptSig`, without flags, top first. -/
def evalScriptSig (crypto : Crypto) (scriptSig : CScript) : Option (List Valtype) :=
  match evalScript ⟨crypto, baseSignatureChecker⟩ ∅ .base [] scriptSig {} with
  | .ok (stack, _) => some stack
  | .error _ => none

/-! ## `Solver` -/

inductive TxoutType where
  | nonstandard
  | anchor
  | pubkey
  | pubkeyhash
  | scripthash
  | multisig
  | nullData
  | witnessV0Scripthash
  | witnessV0Keyhash
  | witnessV1Taproot
  | witnessUnknown
  deriving DecidableEq

def WITNESS_V0_KEYHASH_SIZE : Nat := 20
def WITNESS_V0_SCRIPTHASH_SIZE : Nat := 32
def WITNESS_V1_TAPROOT_SIZE : Nat := 32

/-- `CPubKey::ValidSize`. -/
def validSize (vch : Valtype) : Bool :=
  match vch with
  | [] => false
  | header :: _ =>
    if header = 2 ∨ header = 3 then vch.length = 33
    else if header = 4 ∨ header = 6 ∨ header = 7 then vch.length = 65
    else false

def matchPubkeyOfSize (size : Nat) (script : CScript) : Bool :=
  script.length = size + 2 && (byteAt script 0).toNat = size && byteAt script (size + 1) = OP_CHECKSIG &&
    validSize ((script.drop 1).take size)

def matchPayToPubkey (script : CScript) : Bool := matchPubkeyOfSize 65 script || matchPubkeyOfSize 33 script

def matchPayToPubkeyHash (script : CScript) : Bool :=
  script.length = 25 && byteAt script 0 = OP_DUP && byteAt script 1 = OP_HASH160 && byteAt script 2 = 20 &&
    byteAt script 23 = OP_EQUALVERIFY && byteAt script 24 = OP_CHECKSIG

def getScriptNumber (opcode : UInt8) (data : Valtype) (min max : Int) : Option Int := do
  let count ←
    if OP_1 ≤ opcode ∧ opcode ≤ OP_16 then some (decodeOpN opcode : Int)
    else if OP_0 < opcode ∧ opcode ≤ OP_PUSHDATA4 then
      match checkMinimalPush data opcode, scriptNum data true Script.nDefaultMaxNumSize with
      | .ok true, .ok value => some (Script.getint value)
      | _, _ => none
    else none
  if count < min ∨ count > max then none else some count

/-- The keys, and the opcode that ends them with what follows it. -/
def readKeys : Nat → CScript → List Valtype → List Valtype × Option (UInt8 × Valtype × CScript)
  | 0, _, pubkeys => (pubkeys, none)
  | fuel + 1, it, pubkeys =>
    match getScriptOp it with
    | none => (pubkeys, none)
    | some (opcode, data, rest) =>
      if validSize data then readKeys fuel rest (pubkeys ++ [data]) else (pubkeys, some (opcode, data, rest))

def matchMultisig (script : CScript) : Option (Int × Int) := do
  if script.getLast? ≠ some OP_CHECKMULTISIG then none
  else
    let (opcode, data, it) ← getScriptOp script
    let requiredSigs ← getScriptNumber opcode data 1 Script.MAX_PUBKEYS_PER_MULTISIG
    let (pubkeys, ended) := readKeys script.length it []
    let (opcode, data, it) ← ended
    let numKeys ← getScriptNumber opcode data requiredSigs Script.MAX_PUBKEYS_PER_MULTISIG
    if pubkeys.length ≠ numKeys then none
    else if it.length = 1 then some (requiredSigs, numKeys)
    else none

def isPayToAnchorScript (script : CScript) : Bool := script = [OP_1, 0x02, 0x4e, 0x73]

def solver (scriptPubKey : CScript) : TxoutType :=
  if isPayToScriptHash scriptPubKey then .scripthash
  else
    match isWitnessProgram scriptPubKey with
    | some (version, program) =>
      if version = 0 ∧ program.length = WITNESS_V0_KEYHASH_SIZE then .witnessV0Keyhash
      else if version = 0 ∧ program.length = WITNESS_V0_SCRIPTHASH_SIZE then .witnessV0Scripthash
      else if version = 1 ∧ program.length = WITNESS_V1_TAPROOT_SIZE then .witnessV1Taproot
      else if isPayToAnchorScript scriptPubKey then .anchor
      else if version ≠ 0 then .witnessUnknown
      else .nonstandard
    | none =>
      if scriptPubKey.head? = some opReturn ∧ pushOnly scriptPubKey.tail then .nullData
      else if matchPayToPubkey scriptPubKey then .pubkey
      else if matchPayToPubkeyHash scriptPubKey then .pubkeyhash
      else if (matchMultisig scriptPubKey).isSome then .multisig
      else .nonstandard

/-! ## Data in scripts -/

def isOLGA (script : CScript) (remainingOutputs : Nat) : Nat :=
  if ¬ (script.length = 34 ∧ byteAt script 0 = OP_0 ∧ byteAt script 1 = 0x20) then 0
  else
    let payloadSize := (byteAt script 2).toNat * 256 + (byteAt script 3).toNat
    let outputs := (payloadSize + 1) / WITNESS_V0_SCRIPTHASH_SIZE + 1
    if remainingOutputs < outputs then 0
    -- "stamp" in either case
    else if [4, 5, 6, 7, 8].map (fun i => byteAt script i ||| 0x20) ≠ [0x73, 0x74, 0x61, 0x6d, 0x70] then 0
    else if byteAt script 9 ≠ 0x3a then 0
    else outputs * (WITNESS_V0_SCRIPTHASH_SIZE + 1 + 8)

structure DataScan where
  counted : Nat := 0
  lastOpcode : UInt8 := OP_INVALIDOPCODE
  insideNoop : Nat := 0
  insideConditional : Nat := 0
  dataBegan : Nat := 0

def dataDecided (size : Nat) (opcode : UInt8) (s : DataScan) : Option (Nat × Nat) :=
  if opcode = OP_ENDIF ∧ s.insideConditional = 0 then some (0, size)
  else if opcode = opReturn ∧ s.insideConditional = 0 then some (size, 0)
  else none

def nested (opcode : UInt8) (depth : Nat) : Nat :=
  if opcode = OP_IF ∨ opcode = OP_NOTIF then depth + 1 else if opcode = OP_ENDIF then depth - 1 else depth

/-- `opcodeIt` is where the opcode is, and `it` behind it. -/
def dataStep (opcodeIt it : Nat) (opcode : UInt8) (s : DataScan) : DataScan :=
  let lastOpcode := s.lastOpcode
  let s := { s with insideConditional := nested opcode s.insideConditional, lastOpcode := opcode }
  if s.insideNoop ≠ 0 then
    { s with
      insideNoop := nested opcode s.insideNoop
      counted := if opcode = OP_ENDIF ∧ s.insideNoop = 1 then s.counted + (it - s.dataBegan + 1) else s.counted }
  else if opcode = OP_IF ∧ lastOpcode = OP_0 then { s with insideNoop := 1, dataBegan := opcodeIt }
  else if opcode ≤ OP_PUSHDATA4 then { s with dataBegan := opcodeIt }
  else if opcode = OP_DROP ∧ lastOpcode ≤ OP_PUSHDATA4 then { s with counted := s.counted + (it - s.dataBegan) }
  else s

def dataLoop (size : Nat) : Nat → CScript → DataScan → Nat × Nat
  | 0, _, s => (0, s.counted)
  | fuel + 1, pc, s =>
    if pc = [] then (0, s.counted)
    else
      match getScriptOp pc with
      | none => (0, size)
      | some (opcode, _, rest) =>
        match dataDecided size opcode s with
        | some counts => counts
        | none => dataLoop size fuel rest (dataStep (size - pc.length) (size - rest.length) opcode s)

def scriptDatacarrierBytes (script : CScript) (remainingOutputs : Nat) : Nat × Nat :=
  let olgaBytes := isOLGA script remainingOutputs
  if olgaBytes ≠ 0 then (0, olgaBytes) else dataLoop script.length script.length script {}

variable (crypto : Crypto)

/-- The script that the input runs, and the weight of a byte of it. -/
def getScriptForTransactionInput (prevScript : CScript) (input : CTxIn × List Valtype) : CScript × Nat :=
  let p2sh := isPayToScriptHash prevScript
  let redeem := if p2sh then (evalScriptSig crypto input.1.scriptSig).bind List.head? else some prevScript
  match redeem with
  | none => ([], 0)
  | some prevScript =>
    match isWitnessProgram prevScript with
    | none => (if p2sh then prevScript else input.1.scriptSig, WITNESS_SCALE_FACTOR)
    | some (version, program) =>
      let stack := input.2
      if version = 0 ∧ program.length = WITNESS_V0_SCRIPTHASH_SIZE then
        match stack.getLast? with
        | none => ([], 0)
        | some script => (script, 1)
      else if version = 1 ∧ program.length = WITNESS_V1_TAPROOT_SIZE ∧ !p2sh then
        let stack := if stack.length ≥ 2 ∧ (stack.getLastD []).head? = some ANNEX_TAG then stack.dropLast else stack
        if stack.length ≥ 2 then (stack.dropLast.getLastD [], 1) else ([], 0)
      else ([], 0)

def addCounts (a b : Nat × Nat) : Nat × Nat := (a.1 + b.1, a.2 + b.2)

/-- What the outputs carry. Each knows how many follow it. -/
def outputBytes : List CTxOut → Nat × Nat
  | [] => (0, 0)
  | txout :: vout => addCounts (scriptDatacarrierBytes txout.scriptPubKey (vout.length + 1)) (outputBytes vout)

def prevOutput (coins : COutPoint → Option Coin) (txin : CTxIn) : CTxOut := ((coins txin.prevout).getD Coin.empty).out

def datacarrierBytes (coins : COutPoint → Option Coin) (t : WitnessTx) : Nat × Nat :=
  let inputBytes := t.inputs.map fun input =>
    scriptDatacarrierBytes (getScriptForTransactionInput crypto (prevOutput coins input.1).scriptPubKey input).1 0
  inputBytes.foldr addCounts (outputBytes t.tx.vout)

/-! ## Standard transactions -/

structure StandardOptions where
  maxtxlegacysigops : Nat
  /-- `g_script_size_policy_limit`. -/
  scriptSizePolicyLimit : Nat
  rejectParasites : Bool
  rejectTokens : Bool
  acceptunknownwitness : Bool
  permitBarePubkey : Bool
  permitBareMultisig : Bool
  permitbareanchor : Bool
  permitbaredatacarrier : Bool
  permitephemeralAnchor : Bool
  permitephemeralSend : Bool
  permitephemeralDust : Bool
  /-- `dust_relay_feerate.GetFee`. -/
  dustRelayFee : Nat → Int

variable (std : StandardOptions) (opts : Options) (args : ATMPArgs)

structure Check where
  applies : Bool
  reason : String
  /-- `MaybeReject`. -/
  ignorable : Bool := true

def firstReason (reasonPrefix : String) (checks : List Check) : Option String :=
  let refuses c := c.applies && !(c.ignorable && reasonPrefix ++ c.reason ∈ args.ignoreRejects)
  (checks.find? refuses).map fun c => reasonPrefix ++ c.reason

def getDustThreshold (txout : CTxOut) : Int :=
  if isUnspendable txout.scriptPubKey then 0
  else
    let nSize := (Wire.writeTxOut (toWireOutput txout)).length
    let spent := if (isWitnessProgram txout.scriptPubKey).isSome then 32 + 4 + 1 + 107 / WITNESS_SCALE_FACTOR +
        4 else 32 + 4 + 1 + 107 + 4
    std.dustRelayFee (nSize + spent)

def isDust (txout : CTxOut) : Bool := txout.nValue < getDustThreshold std txout

def isStandard (scriptPubKey : CScript) : Bool :=
  match solver scriptPubKey with
  | .nonstandard => false
  | .multisig => (matchMultisig scriptPubKey).any fun (m, n) => !(n < 1 || n > 3) && !(m < 1 || m > n)
  | .nullData => opts.maxDatacarrierBytes.any fun most => scriptPubKey.length ≤ most
  | _ => true

def TX_MAX_STANDARD_VERSION : Uint32 := 3
def MAX_STANDARD_TX_WEIGHT : Nat := 400000
def MAX_STANDARD_SCRIPTSIG_SIZE : Nat := 1650
def MAX_DUST_OUTPUTS_PER_TX : Nat := 1
def MAX_P2SH_SIGOPS : Nat := 15

def inputChecks (txin : CTxIn) : List Check :=
  [⟨txin.scriptSig.length > min MAX_STANDARD_SCRIPTSIG_SIZE std.scriptSizePolicyLimit, "scriptsig-size", true⟩,
    ⟨!pushOnly txin.scriptSig, "scriptsig-not-pushonly", true⟩]

def outputChecks (txout : CTxOut) (remainingOutputs : Nat) : List Check :=
  let whichType := solver txout.scriptPubKey
  let dust := isDust std txout
  [⟨txout.scriptPubKey.length > std.scriptSizePolicyLimit, "scriptpubkey-size", true⟩,
    ⟨!isStandard opts txout.scriptPubKey, "scriptpubkey", true⟩,
    ⟨whichType = .witnessUnknown && !std.acceptunknownwitness, "scriptpubkey-unknown-witnessversion", true⟩,
    ⟨whichType = .anchor && !std.permitephemeralAnchor, "anchor", true⟩,
    ⟨dust && whichType ≠ .anchor && !std.permitephemeralSend, "dust-nonanchor", true⟩,
    ⟨dust && txout.nValue ≠ 0 && !std.permitephemeralDust, "dust-nonzero", true⟩] ++
  match whichType with
  | .nullData =>
    [⟨txout.scriptPubKey.length > 2 && byteAt txout.scriptPubKey 1 = OP_13 && std.rejectTokens, "tokens-runes", true⟩]
  | .pubkey => [⟨!std.permitBarePubkey, "bare-pubkey", true⟩]
  | .multisig => [⟨!std.permitBareMultisig, "bare-multisig", true⟩]
  | .witnessV0Scripthash => [⟨std.rejectTokens && isOLGA txout.scriptPubKey remainingOutputs ≠ 0, "tokens-olga", true⟩]
  | _ => []

def allOutputChecks : List CTxOut → List Check
  | [] => []
  | txout :: vout => allOutputChecks vout ++ outputChecks std opts txout (vout.length + 1)

def countChecks (vout : List CTxOut) : List Check :=
  let dust := vout.countP (isDust std)
  let data := vout.countP fun txout => solver txout.scriptPubKey = .nullData
  let monetary := vout.countP fun txout => !isDust std txout && solver txout.scriptPubKey ≠ .nullData
  [⟨dust > MAX_DUST_OUTPUTS_PER_TX, "dust", true⟩, ⟨data > 1, "multi-op-return", true⟩,
    ⟨monetary = 0 && data ≠ 0 && !std.permitbaredatacarrier, "bare-datacarrier", true⟩,
    ⟨monetary = 0 && data = 0 && !std.permitbareanchor, "bare-anchor", true⟩]

def isStandardTx (t : WitnessTx) : Option String :=
  firstReason args "" <| [⟨t.tx.version > TX_MAX_STANDARD_VERSION || t.tx.version < 1, "version", true⟩,
      ⟨getTransactionWeight t > MAX_STANDARD_TX_WEIGHT, "tx-size", true⟩,
      ⟨t.tx.nLockTime = 21 && std.rejectParasites, "parasite-cat21", true⟩] ++
    t.tx.vin.flatMap (inputChecks std) ++ allOutputChecks std opts t.tx.vout ++ countChecks std t.tx.vout

/-! ## Standard inputs -/

variable (coins : COutPoint → Option Coin)

/-- `CheckSigopsBIP54`, from what was counted so far. -/
def checkSigopsBIP54 : List CTxIn → Nat → Bool
  | [], _ => true
  | txin :: vin, sigops =>
    let sigops := sigops + getSigOpCount true txin.scriptSig + spendSigOpCount (prevOutput coins txin).scriptPubKey
        txin.scriptSig
    if sigops > std.maxtxlegacysigops then false else checkSigopsBIP54 vin sigops

def redeemChecks (scriptSig : CScript) : List Check :=
  if !pushOnly scriptSig then []
  else
    match evalScriptSig crypto scriptSig with
    | none => [⟨true, "scriptsig-failure", false⟩]
    | some [] => [⟨true, "scriptcheck-missing", false⟩]
    | some (subscript :: _) =>
      [⟨subscript.length > std.scriptSizePolicyLimit, "scriptcheck-size", true⟩,
        ⟨getSigOpCount true subscript > MAX_P2SH_SIGOPS, "scriptcheck-sigops", true⟩]

def spendChecks (txin : CTxIn) : List Check :=
  let scriptPubKey := (prevOutput coins txin).scriptPubKey
  ⟨scriptPubKey.length > std.scriptSizePolicyLimit, "script-size", true⟩ ::
  match solver scriptPubKey with
  | .nonstandard => [⟨true, "script-unknown", true⟩]
  | .witnessUnknown => [⟨true, "witness-unknown", true⟩]
  | .scripthash => redeemChecks crypto std txin.scriptSig
  | _ => []

/-- The prefix of the reasons is `bad-txns-input-`. -/
def areInputsStandard (tx : CTransaction) : Option String :=
  if tx.isCoinBase then none
  else firstReason args "bad-txns-input-" <|
    ⟨!checkSigopsBIP54 std coins tx.vin 0, "sigops-toomany-overall", true⟩ ::
      tx.vin.flatMap (spendChecks crypto std coins)

end FullNode.Policy

import FullNode.Lib.Codec
import FullNode.Lib.Outcome

/-!
# Scripts and script numbers

A script is a byte string that is read one opcode at a time. A stack element is a byte string
too; as a number it is little-endian with a sign bit.
-/

namespace FullNode.Script

abbrev CScript := List UInt8
abbrev Valtype := List UInt8

def MAX_SCRIPT_ELEMENT_SIZE : Nat := 520
def MAX_OPS_PER_SCRIPT : Nat := 201
def MAX_PUBKEYS_PER_MULTISIG : Int := 20
def MAX_SCRIPT_SIZE : Nat := 10000
def MAX_STACK_SIZE : Nat := 1000
def ANNEX_TAG : UInt8 := 0x50
def VALIDATION_WEIGHT_PER_SIGOP_PASSED : Int := 50
def VALIDATION_WEIGHT_OFFSET : Int := 50

/-- `SCRIPT_ERR_…`, the errors that the interpreter sets. -/
inductive ScriptError where
  | unknownError | evalFalse | opReturn
  | scriptSize | pushSize | opCount | stackSize | sigCount | pubkeyCount
  | verify | equalVerify | checkMultiSigVerify | checkSigVerify | numEqualVerify
  | badOpcode | disabledOpcode | invalidStackOperation | invalidAltstackOperation | unbalancedConditional
  | negativeLocktime | unsatisfiedLocktime
  | sigHashtype | sigDer | minimalData | sigPushOnly | sigHighS | sigNullDummy | pubkeyType | cleanStack
  | minimalIf | sigNullFail
  | discourageUpgradableNops | discourageUpgradableWitnessProgram | discourageUpgradableTaprootVersion
  | discourageOpSuccess | discourageUpgradablePubkeyType
  | witnessProgramWrongLength | witnessProgramWitnessEmpty | witnessProgramMismatch | witnessMalleated
  | witnessMalleatedP2SH | witnessUnexpected | witnessPubkeyType
  | schnorrSigSize | schnorrSigHashtype | schnorrSig | taprootWrongControlSize | tapscriptValidationWeight
  | tapscriptCheckMultiSig | tapscriptMinimalIf
  | opCodeSeparator | sigFindAndDelete
  deriving DecidableEq

inductive ScriptFault where
  /-- `std::out_of_range`, thrown by `vector::at`. -/
  | outOfRange
  /-- `std::runtime_error("popstack(): stack empty")`. -/
  | stackEmpty
  /-- An erase or insert position outside the vector. -/
  | badPosition
  /-- An overflow assertion of `CScriptNum`, or of its 64 bits. -/
  | numOverflow
  /-- `assert(m_stack_size > 0)` of the condition stack. -/
  | noCondition
  /-- `assert(0 <= opcode && opcode <= OP_PUSHDATA4)`. -/
  | notAPush
  /-- An assertion on the signature version. -/
  | sigVersion
  /-- `assert(execdata.m_validation_weight_left_init)`. -/
  | weightNotSet
  /-- An assertion of `VerifyScript` or of the Taproot commitment. -/
  | assertion
  /-- A loop does not end. -/
  | endless
  deriving DecidableEq

inductive Halt where
  /-- `return set_error(serror, e)`. -/
  | error (e : ScriptError)
  /-- A `scriptnum_error` was thrown. -/
  | scriptNumError
  | fault (f : ScriptFault)
  deriving DecidableEq

abbrev Eval (α : Type) := Except Halt α

/-- `if (cond) return set_error(serror, e);` -/
def failIf (cond : Prop) [Decidable cond] (e : ScriptError) : Eval Unit :=
  if cond then .error (.error e) else .ok ()

/-! ## Opcodes -/

def OP_0 : UInt8 := 0x00
def OP_PUSHDATA1 : UInt8 := 0x4c
def OP_PUSHDATA2 : UInt8 := 0x4d
def OP_PUSHDATA4 : UInt8 := 0x4e
def OP_1 : UInt8 := 0x51
def OP_16 : UInt8 := 0x60
def OP_IF : UInt8 := 0x63
def OP_ENDIF : UInt8 := 0x68
def OP_DUP : UInt8 := 0x76
def OP_EQUAL : UInt8 := 0x87
def OP_EQUALVERIFY : UInt8 := 0x88
def OP_HASH160 : UInt8 := 0xa9
def OP_CODESEPARATOR : UInt8 := 0xab
def OP_CHECKSIG : UInt8 := 0xac

/-- The value of `end - pc`, which `prevector` keeps in 32 bits. -/
def left (pc : CScript) : Int := Int.bmod pc.length (2 ^ 32)

/-- The number after a `OP_PUSHDATA…` opcode, in `k` bytes. -/
def readSize (k : Nat) (pc : CScript) : Option (Nat × CScript) :=
  if left pc < k then none else some (leValue (pc.take k), pc.drop k)

def pushSize (opcode : UInt8) (pc : CScript) : Option (Nat × CScript) :=
  if opcode < OP_PUSHDATA1 then some (opcode.toNat, pc)
  else if opcode = OP_PUSHDATA1 then readSize 1 pc
  else if opcode = OP_PUSHDATA2 then readSize 2 pc
  else readSize 4 pc

/-- The opcode in front, its operand, and what follows. -/
def getScriptOp : CScript → Option (UInt8 × Valtype × CScript)
  | [] => none
  | opcode :: rest =>
    if left (opcode :: rest) < 1 then none
    else if opcode ≤ OP_PUSHDATA4 then do
      let (nSize, pc) ← pushSize opcode rest
      if left pc < 0 ∨ left pc < nSize then none
      else some (opcode, pc.take nSize, pc.drop nSize)
    else some (opcode, [], rest)

def checkMinimalPush (data : Valtype) (opcode : UInt8) : Eval Bool :=
  if OP_PUSHDATA4 < opcode then .error (.fault .notAPush)
  else .ok <| match data with
    | [] => opcode == OP_0
    | [b] => if (1 ≤ b ∧ b ≤ 16) ∨ b = 0x81 then false else opcode == 1
    | _ =>
      if data.length ≤ 75 then opcode.toNat == data.length
      else if data.length ≤ 255 then opcode == OP_PUSHDATA1
      else if data.length ≤ 65535 then opcode == OP_PUSHDATA2
      else true

def pushData (data : Valtype) : CScript :=
  let size := data.length % 2 ^ 32
  let announced :=
    if size < OP_PUSHDATA1.toNat then [UInt8.ofNat size]
    else if size ≤ 0xff then OP_PUSHDATA1 :: leBytes 1 size
    else if size ≤ 0xffff then OP_PUSHDATA2 :: leBytes 2 size
    else OP_PUSHDATA4 :: leBytes 4 size
  announced ++ data

def isOpSuccess (opcode : UInt8) : Bool :=
  opcode == 80 || opcode == 98 || (126 ≤ opcode && opcode ≤ 129) || (131 ≤ opcode && opcode ≤ 134) ||
    (137 ≤ opcode && opcode ≤ 138) || (141 ≤ opcode && opcode ≤ 142) || (149 ≤ opcode && opcode ≤ 153) ||
    (187 ≤ opcode && opcode ≤ 254)

def byteAt (v : List UInt8) (i : Nat) : UInt8 := v.getD i 0

theorem and_0x80 (b : UInt8) : b &&& 0x80 ≠ 0 ↔ 128 ≤ b.toNat := by
  have hall : ∀ n < 256, UInt8.ofNat n &&& 0x80 ≠ 0 ↔ 128 ≤ (UInt8.ofNat n).toNat := by decide +kernel
  have hb := hall b.toNat b.toNat_lt
  rwa [UInt8.ofNat_toNat] at hb

theorem byteAt_append_left {v : Valtype} {k : Nat} (h : k < v.length) (back : Valtype) :
    byteAt (v ++ back) k = byteAt v k := by
  simp only [byteAt, List.getD_eq_getElem?_getD, List.getElem?_append_left h]

theorem byteAt_append_right (front v : Valtype) (k : Nat) : byteAt (front ++ v) (front.length + k) = byteAt v k := by
  simp only [byteAt, List.getD_eq_getElem?_getD, List.getElem?_append_right (Nat.le_add_right _ _),
    Nat.add_sub_cancel_left]

theorem and_0x80_eq_zero (b : UInt8) : b &&& 0x80 = 0 ↔ b.toNat < 0x80 := by
  rw [← not_le, ← and_0x80, not_not]

def isPayToScriptHash (script : CScript) : Bool :=
  script.length == 23 && byteAt script 0 == OP_HASH160 && byteAt script 1 == 0x14 && byteAt script 22 == OP_EQUAL

def isPayToAnchor (version : Nat) (program : Valtype) : Bool :=
  version == 1 && program.length == 2 && byteAt program 0 == 0x4e && byteAt program 1 == 0x73

def decodeOpN (opcode : UInt8) : Nat := if opcode = OP_0 then 0 else opcode.toNat - (OP_1.toNat - 1)

def isWitnessProgram (script : CScript) : Option (Nat × Valtype) :=
  if script.length < 4 ∨ script.length > 42 then none
  else if byteAt script 0 ≠ OP_0 ∧ (byteAt script 0 < OP_1 ∨ byteAt script 0 > OP_16) then none
  else if (byteAt script 1).toNat + 2 = script.length then some (decodeOpN (byteAt script 0), script.drop 2)
  else none

/-- Reads opcodes from `pc` on until `stop` decides. -/
def scanOps {α : Type} (stop : UInt8 → Option α) (bad done : α) : Nat → CScript → Eval α
  | 0, _ => .error (.fault .endless)
  | fuel + 1, pc =>
    if pc = [] then .ok done
    else match getScriptOp pc with
      | none => .ok bad
      | some (opcode, _, rest) =>
        match stop opcode with
        | some a => .ok a
        | none => scanOps stop bad done fuel rest

def isPushOnly (script : CScript) : Eval Bool :=
  scanOps (fun opcode => if opcode > OP_16 then some false else none) false true (script.length + 1) script

/-! ## Script numbers -/

def INT64_MIN : Int := -2 ^ 63
def INT64_MAX : Int := 2 ^ 63 - 1
def INT_MIN : Int := -2 ^ 31
def INT_MAX : Int := 2 ^ 31 - 1

def setVch (vch : Valtype) : Int :=
  match vch.getLast? with
  | none => 0
  | some top =>
    -- the bytes do not overlap, so adding them is or-ing them
    if 0x80 ≤ top.toNat then -((leValue vch - 0x80 * 256 ^ (vch.length - 1) : Nat) : Int) else leValue vch

/-- `CScriptNum(vch, fRequireMinimal, nMaxNumSize)`. -/
def scriptNum (vch : Valtype) (fRequireMinimal : Bool) (nMaxNumSize : Nat) : Eval Int :=
  if vch.length > nMaxNumSize then .error .scriptNumError
  else if fRequireMinimal ∧ vch.length > 0 ∧ byteAt vch (vch.length - 1) &&& 0x7f = 0 ∧
      (vch.length ≤ 1 ∨ byteAt vch (vch.length - 2) &&& 0x80 = 0) then .error .scriptNumError
  else .ok (setVch vch)

def nDefaultMaxNumSize : Nat := 4

/-- The bytes of `absvalue`, lowest first, none for zero. -/
def absBytes : Nat → Nat → Valtype
  | 0, _ => []
  | fuel + 1, absvalue => if absvalue = 0 then [] else UInt8.ofNat (absvalue % 256) :: absBytes fuel (absvalue / 256)

/-- `CScriptNum::serialize`, also `getvch`. -/
def serialize (value : Int) : Valtype :=
  if value = 0 then []
  else
    let result := absBytes 8 value.natAbs
    let top := byteAt result (result.length - 1)
    if top &&& 0x80 ≠ 0 then result ++ [if value < 0 then 0x80 else 0]
    else if value < 0 then result.dropLast ++ [top ||| 0x80]
    else result

def getint (value : Int) : Int :=
  if value > INT_MAX then INT_MAX else if value < INT_MIN then INT_MIN else value

/-- A 64-bit result, as the assertions of `+=` and `-=` want. -/
def int64 (value : Int) : Eval Int :=
  if INT64_MIN ≤ value ∧ value ≤ INT64_MAX then .ok value else .error (.fault .numOverflow)

def castToBool (vch : Valtype) : Bool :=
  match vch with
  | [] => false
  | [b] => b != 0 && b != 0x80
  | b :: rest => b != 0 || castToBool rest

/-! ## Stacks

The top is the head of the list. -/

/-- `stacktop(-i)`. -/
def stackTop (stack : List Valtype) : Nat → Eval Valtype
  | 0 => .error (.fault .outOfRange)
  | i + 1 =>
    match stack[i]? with
    | none => .error (.fault .outOfRange)
    | some vch => .ok vch

def popStack : List Valtype → Eval (List Valtype)
  | [] => .error (.fault .stackEmpty)
  | _ :: rest => .ok rest

/-- `swap(stacktop(-i), stacktop(-j))`. -/
def swapTop (stack : List Valtype) (i j : Nat) : Eval (List Valtype) := do
  let a ← stackTop stack i
  let b ← stackTop stack j
  return (stack.set (i - 1) b).set (j - 1) a

/-- `stack.erase(stack.end() - i, stack.end() - j)`. -/
def eraseTop (stack : List Valtype) (i j : Nat) : Eval (List Valtype) :=
  if j ≤ i ∧ i ≤ stack.length then .ok (stack.take j ++ stack.drop i) else .error (.fault .badPosition)

/-- `stack.insert(stack.end() - i, vch)`. -/
def insertTop (stack : List Valtype) (i : Nat) (vch : Valtype) : Eval (List Valtype) :=
  if i ≤ stack.length then .ok (stack.take i ++ vch :: stack.drop i) else .error (.fault .badPosition)

end FullNode.Script

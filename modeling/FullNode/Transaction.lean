import FullNode.Basic
import Mathlib.Algebra.BigOperators.Group.List.Basic
import Mathlib.Tactic.Ring
import Mathlib.Tactic.Linarith

/-!
# Amounts and transactions

The transaction types and `CheckTransaction`. The hash of a transaction is a field, as
in the source, and nothing here assumes that it is collision free.
-/

namespace FullNode

open List

/-! ## Amounts -/

def COIN : Int := 100000000
def MAX_MONEY : Int := 21000000 * COIN

def moneyRange (nValue : Int) : Bool := nValue ≥ 0 && nValue ≤ MAX_MONEY

theorem moneyRange_iff (nValue : Int) : moneyRange nValue = true ↔ 0 ≤ nValue ∧ nValue ≤ MAX_MONEY := by
  simp [moneyRange]

/-! ## Transactions -/

structure COutPoint where
  hash : Uint256
  n : Nat
  deriving DecidableEq

def COutPoint.nullIndex : Nat := 0xffffffff
def COutPoint.isNull (o : COutPoint) : Bool := o.hash == 0 && o.n == nullIndex

abbrev CScript := List UInt8

def opReturn : UInt8 := 0x6a
def maxScriptSize : Nat := 10000

def isUnspendable (script : CScript) : Bool :=
  script.head? == some opReturn || script.length > maxScriptSize

structure CTxIn where
  prevout : COutPoint
  scriptSig : CScript
  nSequence : Uint32
  deriving DecidableEq

structure CTxOut where
  nValue : Int
  scriptPubKey : CScript
  deriving DecidableEq

def CTxOut.null : CTxOut := ⟨-1, []⟩
def CTxOut.isNull (o : CTxOut) : Bool := o.nValue == -1

structure CTransaction where
  vin : List CTxIn
  vout : List CTxOut
  version : Uint32
  nLockTime : Uint32
  hash : Uint256
  deriving DecidableEq

namespace CTransaction

def isCoinBase (tx : CTransaction) : Bool :=
  match tx.vin with
  | [txin] => txin.prevout.isNull
  | _ => false

def valueOutFrom (nValueOut : Int) : List CTxOut → Checked Int
  | [] => .ok nValueOut
  | txOut :: vout =>
    if !moneyRange txOut.nValue || !moneyRange (nValueOut + txOut.nValue) then
      .error (.runtimeError "GetValueOut: value out of range")
    else valueOutFrom (nValueOut + txOut.nValue) vout

def getValueOut (tx : CTransaction) : Checked Int := do
  let nValueOut ← valueOutFrom 0 tx.vout
  check (moneyRange nValueOut)
  return nValueOut

def valueOut (tx : CTransaction) : Int := (tx.vout.map CTxOut.nValue).sum

def outpoint (tx : CTransaction) (n : Nat) : COutPoint := ⟨tx.hash, n⟩

end CTransaction

/-! ## `CheckTransaction` -/

inductive TxValidationResult where
  | consensus
  | inputsNotStandard
  | notStandard
  | missingInputs
  | prematureSpend
  | witnessMutated
  | conflict
  | mempoolPolicy
  | reconsiderable
  deriving DecidableEq

structure TxInvalid where
  result : TxValidationResult
  reason : String
  deriving DecidableEq

def WITNESS_SCALE_FACTOR : Nat := 4
def MAX_BLOCK_WEIGHT : Nat := 4000000

def checkOutputs (nValueOut : Int) : List CTxOut → Except TxInvalid Unit
  | [] => .ok ()
  | txout :: vout =>
    if txout.nValue < 0 then .error ⟨.consensus, "bad-txns-vout-negative"⟩
    else if txout.nValue > MAX_MONEY then .error ⟨.consensus, "bad-txns-vout-toolarge"⟩
    else if !moneyRange (nValueOut + txout.nValue) then
      .error ⟨.consensus, "bad-txns-txouttotal-toolarge"⟩
    else checkOutputs (nValueOut + txout.nValue) vout

def checkDuplicateInputs (vInOutPoints : List COutPoint) : List CTxIn → Except TxInvalid Unit
  | [] => .ok ()
  | txin :: vin =>
    if txin.prevout ∈ vInOutPoints then .error ⟨.consensus, "bad-txns-inputs-duplicate"⟩
    else checkDuplicateInputs (txin.prevout :: vInOutPoints) vin

/-- `serializeSize` is the size of a transaction without its witness. -/
def checkTransaction (serializeSize : CTransaction → Nat) (tx : CTransaction) : Except TxInvalid Unit := do
  if tx.vin.isEmpty then throw ⟨.consensus, "bad-txns-vin-empty"⟩
  if tx.vout.isEmpty then throw ⟨.consensus, "bad-txns-vout-empty"⟩
  if serializeSize tx * WITNESS_SCALE_FACTOR > MAX_BLOCK_WEIGHT then
    throw ⟨.consensus, "bad-txns-oversize"⟩
  checkOutputs 0 tx.vout
  checkDuplicateInputs [] tx.vin
  if tx.isCoinBase then
    let size := (tx.vin.headD ⟨⟨0, 0⟩, [], 0⟩).scriptSig.length
    if size < 2 || size > 100 then throw ⟨.consensus, "bad-cb-length"⟩
  else if tx.vin.any (·.prevout.isNull) then throw ⟨.consensus, "bad-txns-prevout-null"⟩

/-! ## What they accept -/

variable {vout : List CTxOut} {tx : CTransaction}

theorem valueOutFrom_ok {n r : Int} (h : CTransaction.valueOutFrom n vout = .ok r) :
    r = n + (vout.map CTxOut.nValue).sum ∧ ∀ o ∈ vout, moneyRange o.nValue = true := by
  induction vout generalizing n with
  | nil =>
    cases h
    simp
  | cons o vout ih =>
    rw [CTransaction.valueOutFrom] at h
    split at h
    · cases h
    · next hrange =>
      simp only [Bool.or_eq_true, Bool.not_eq_true', not_or, Bool.not_eq_false] at hrange
      obtain ⟨hr, hall⟩ := ih h
      refine ⟨?_, ?_⟩
      · rw [hr, map_cons, sum_cons]
        ring
      · intro p hp
        rcases mem_cons.mp hp with rfl | hp
        · exact hrange.1
        · exact hall p hp

theorem CTransaction.getValueOut_ok {r : Int} (h : tx.getValueOut = .ok r) :
    r = tx.valueOut ∧ ∀ o ∈ tx.vout, moneyRange o.nValue = true := by
  unfold getValueOut at h
  cases hv : valueOutFrom 0 tx.vout with
  | error f => simp [hv, bind, Except.bind] at h
  | ok n =>
    obtain ⟨hn, hall⟩ := valueOutFrom_ok hv
    simp only [hv, bind, Except.bind, check] at h
    split at h
    · cases h
    · cases h
      exact ⟨by rw [hn, zero_add]; rfl, hall⟩

theorem checkDuplicateInputs_ok {seen : List COutPoint} {vin : List CTxIn}
    (h : checkDuplicateInputs seen vin = .ok ()) : (vin.map CTxIn.prevout).Nodup ∧ ∀ i ∈ vin, i.prevout ∉ seen := by
  induction vin generalizing seen with
  | nil => simp
  | cons i vin ih =>
    rw [checkDuplicateInputs] at h
    split at h
    · cases h
    · next hnew =>
      obtain ⟨hnodup, hseen⟩ := ih h
      refine ⟨?_, ?_⟩
      · rw [map_cons, nodup_cons]
        refine ⟨?_, hnodup⟩
        intro hmem
        obtain ⟨j, hj, heq⟩ := mem_map.mp hmem
        exact hseen j hj (by rw [heq]; exact mem_cons_self)
      · intro j hj
        rcases mem_cons.mp hj with rfl | hj
        · exact hnew
        · exact fun hmem => hseen j hj (mem_cons_of_mem _ hmem)

theorem checkOutputs_ok {n : Int} (h : checkOutputs n vout = .ok ()) : ∀ o ∈ vout, 0 ≤ o.nValue := by
  induction vout generalizing n with
  | nil => simp
  | cons o vout ih =>
    rw [checkOutputs] at h
    split_ifs at h with hneg hlarge htotal
    intro p hp
    rcases mem_cons.mp hp with rfl | hp
    · omega
    · exact ih h p hp

theorem checkTransaction_ok {size : CTransaction → Nat} (h : checkTransaction size tx = .ok ()) :
    (tx.vin.map CTxIn.prevout).Nodup ∧ ∀ o ∈ tx.vout, 0 ≤ o.nValue := by
  unfold checkTransaction at h
  simp only [bind, Except.bind, throw, throwThe, MonadExceptOf.throw] at h
  split_ifs at h
  all_goals
    cases houts : checkOutputs 0 tx.vout with
    | error e => simp [houts] at h
    | ok _ =>
      cases hdup : checkDuplicateInputs [] tx.vin with
      | error e => simp [houts, hdup] at h
      | ok _ => exact ⟨(checkDuplicateInputs_ok hdup).1, checkOutputs_ok houts⟩

end FullNode

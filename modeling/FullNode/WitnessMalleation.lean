import FullNode.Policy
import FullNode.Replacement
import FullNode.Validation

/-! # What a witness can change -/

namespace FullNode.Policy

open Mempool
open Script (Crypto)

/-! ## The facts that `PreChecks` reads -/

/-- The chain, the coins of `m_view`, and the later checks. -/
structure ChainView where
  crypto : Crypto
  coins : COutPoint → Option Coin
  blockHeightCurrent : Int
  medianTimePast : Int
  haveOutputInCache : CTransaction → Bool
  bestBlockIsTip : Bool
  checkSequenceLocksAtTip : CTransaction → Bool
  /-- `GetWitnessHash`. -/
  witnessHash : WitnessTx → Uint256
  isWitnessStandard : WitnessTx → Option String
  sigOpsCost : WitnessTx → Int
  accurateSigOpsCost : WitnessTx → Int
  coinAgeReached : CTransaction → Bool
  calculateExtraTxWeight : WitnessTx → Int

variable (chain : ChainView)

/-- The loop of `CheckTxInputs`, on coins that are there. -/
def sumCoins (nValueIn : Int) : List CTxIn → Except TxInvalid Int
  | [] => .ok nValueIn
  | txin :: vin =>
    let coin := (chain.coins txin.prevout).getD Coin.empty
    if coin.fCoinBase && chain.blockHeightCurrent + 1 - coin.nHeight < COINBASE_MATURITY then .error prematureSpend
    else if !moneyRange coin.out.nValue || !moneyRange (nValueIn + coin.out.nValue) then .error inputValuesOutOfRange
    else sumCoins (nValueIn + coin.out.nValue) vin

/-- `CheckTransaction` has bounded the outputs. -/
def checkCoinValues (tx : CTransaction) : Except TxInvalid Int := do
  let nValueIn ← sumCoins chain 0 tx.vin
  if nValueIn < tx.valueOut then throw ⟨.consensus, "bad-txns-in-belowout"⟩
  if !moneyRange (nValueIn - tx.valueOut) then throw ⟨.consensus, "bad-txns-fee-outofrange"⟩
  return nValueIn - tx.valueOut

variable (std : StandardOptions) (pool : CTxMemPool) (opts : Options) (args : ATMPArgs)

def preCheckEphemeralTx (tx : CTransaction) (baseFee modFee : Int) : Option TxInvalid :=
  if (baseFee ≠ 0 ∨ modFee ≠ 0) ∧ tx.vout.any (isDust std) then some ⟨.notStandard, "dust"⟩ else none

def txFacts (t : WitnessTx) : TxFacts where
  witnessHash := chain.witnessHash t
  nonWitnessSize := nonWitnessSize t.tx
  nTxWeight := getTransactionWeight t
  isStandardTx := isStandardTx std opts args t
  checkFinalTxAtTip := Miner.isFinalTx t.tx (chain.blockHeightCurrent + 1) chain.medianTimePast
  coins := chain.coins
  haveOutputInCache := chain.haveOutputInCache t.tx
  bestBlockIsTip := chain.bestBlockIsTip
  checkSequenceLocksAtTip := chain.checkSequenceLocksAtTip t.tx
  blockHeightCurrent := chain.blockHeightCurrent
  checkTxInputs := checkCoinValues chain t.tx
  areInputsStandard := areInputsStandard chain.crypto std args chain.coins t.tx
  datacarrierBytes := datacarrierBytes chain.crypto chain.coins t
  isWitnessStandard := if t.toMutable.hasWitness then chain.isWitnessStandard t else none
  sigOpsCost := chain.sigOpsCost t
  accurateSigOpsCost := chain.accurateSigOpsCost t
  coinAgeReached := chain.coinAgeReached t.tx
  extraWeight := chain.calculateExtraTxWeight t
  preCheckEphemeralTx :=
    let fee := (checkCoinValues chain t.tx).toOption.getD 0
    let delta := pool.applyDeltas t.tx.hash 0
    preCheckEphemeralTx std t.tx fee (if delta ≠ 0 then saturatingAdd fee delta else fee)

/-- `PreChecks` on a transaction with its witnesses. -/
def preChecksOn (t : WitnessTx) : Except Refusal Workspace :=
  preChecks pool opts args (txFacts chain std pool opts args t) t.tx

/-! ## The verdict -/

/-- It fails with `TX_INPUTS_NOT_STANDARD`. -/
def InputsRefused {α : Type} (x : Except Refusal α) : Prop :=
  ∃ reason, x = .error (.invalid ⟨.inputsNotStandard, reason⟩)

section Verdict

variable {α β : Type} {chain : ChainView} {std : StandardOptions} {pool : CTxMemPool} {opts : Options} {args : ATMPArgs}
  {facts : TxFacts} {tx : CTransaction} {t t' : WitnessTx}

variable {crypto : Crypto} {coins : COutPoint → Option Coin} {x : Except Refusal α} {f : α → Except Refusal β}
  {result : TxValidationResult} {i : TxInvalid} {vin : List CTxIn} {reason : Option String}

theorem inputsRefused_bind (hx : ¬ InputsRefused x) : InputsRefused (x >>= f) ↔
    ∃ a, x = .ok a ∧ InputsRefused (f a) := by
  cases x with
  | ok a => simp
  | error r =>
    refine ⟨fun ⟨reason, h⟩ => (hx ⟨reason, congrArg _ (Except.error.inj h)⟩).elim, ?_⟩
    rintro ⟨a, ⟨⟩, -⟩

theorem not_refused_bind (hx : ¬ InputsRefused x) (hf : ∀ a, ¬ InputsRefused (f a)) : ¬ InputsRefused (x >>= f) := by
  rw [inputsRefused_bind hx]
  rintro ⟨a, -, h⟩
  exact hf a h

theorem not_refused_ok (a : α) : ¬ InputsRefused (.ok a) := by rintro ⟨_, ⟨⟩⟩

theorem not_refused_fault (f : Fault) : ¬ InputsRefused (.error (.fault f) : Except Refusal α) := by rintro ⟨_, ⟨⟩⟩

theorem not_refused_invalid (h : result ≠ .inputsNotStandard) (reason : String) :
    ¬ InputsRefused (invalid result reason : Except Refusal α) := by
  rintro ⟨_, hinvalid⟩
  unfold invalid at hinvalid
  simp only [Except.error.injEq, Refusal.invalid.injEq, TxInvalid.mk.injEq] at hinvalid
  exact h hinvalid.1

instance (x : Except Refusal α) : Decidable (InputsRefused x) :=
  match x with
  | .ok a => isFalse (not_refused_ok a)
  | .error (.fault f) => isFalse (not_refused_fault f)
  | .error (.invalid ⟨result, reason⟩) =>
    if h : result = .inputsNotStandard then isTrue ⟨reason, h ▸ rfl⟩ else isFalse (not_refused_invalid h reason)

section

variable (h : result ≠ .inputsNotStandard)
include h

theorem not_refused_rejectIf (cond : Bool) (reason : String) :
    ¬ InputsRefused (rejectIf cond result reason) := by
  unfold rejectIf
  split
  · exact not_refused_invalid h reason
  · exact not_refused_ok ()

theorem not_refused_maybeRejectIf (cond : Bool) (reason : String) :
    ¬ InputsRefused (maybeRejectIf args cond result reason) := not_refused_rejectIf h _ reason

theorem not_refused_rejectFor (reason : Option String) : ¬ InputsRefused (rejectFor reason result) := by
  cases reason with
  | none => exact not_refused_ok ()
  | some reason => exact not_refused_invalid h reason

end

theorem not_refused_liftFault (x : Checked α) : ¬ InputsRefused (liftFault x) := by
  cases x with
  | ok a => exact not_refused_ok a
  | error f => exact not_refused_fault f

theorem not_refused_liftInvalid {x : Except TxInvalid α} (h : ∀ i, x = .error i → i.result ≠ .inputsNotStandard) :
    ¬ InputsRefused (liftInvalid x) := by
  cases x with
  | ok a => exact not_refused_ok a
  | error i => exact not_refused_invalid (h i rfl) i.reason

/-! ## The checks before -/

theorem checkOutputs_consensus {n : Int} {vout : List CTxOut} (h : checkOutputs n vout = .error i) :
    i.result = .consensus := by
  fun_induction checkOutputs n vout with
  | case1 => cases h
  | case2 | case3 | case4 => cases h; rfl
  | case5 n txout vout _ _ _ ih => exact ih h

theorem checkDuplicateInputs_consensus {seen : List COutPoint}
    (h : checkDuplicateInputs seen vin = .error i) : i.result = .consensus := by
  fun_induction checkDuplicateInputs seen vin with
  | case1 => cases h
  | case2 => cases h; rfl
  | case3 seen txin vin _ ih => exact ih h

theorem checkTransaction_consensus {size : CTransaction → Nat} (h : checkTransaction size tx = .error i) :
    i.result = .consensus := by
  unfold checkTransaction at h
  simp only [bind, Except.bind, throw, throwThe, MonadExceptOf.throw] at h
  split at h
  · cases h; rfl
  · split at h
    · cases h; rfl
    · split at h
      · cases h; rfl
      · split at h
        · next houts => cases h; exact checkOutputs_consensus houts
        · split at h
          · next hdup => cases h; exact checkDuplicateInputs_consensus hdup
          · split_ifs at h <;> first | (cases h; rfl) | cases h

theorem sumCoins_result {n : Int} (h : sumCoins chain n vin = .error i) : i.result ≠ .inputsNotStandard := by
  fun_induction sumCoins chain n vin with
  | case1 => cases h
  | case2 => cases h; simp [prematureSpend]
  | case3 => cases h; simp [inputValuesOutOfRange]
  | case4 n txin vin coin _ _ ih => exact ih h

theorem checkCoinValues_result (h : checkCoinValues chain tx = .error i) : i.result ≠ .inputsNotStandard := by
  unfold checkCoinValues at h
  simp only [bind, Except.bind, throw, throwThe, MonadExceptOf.throw] at h
  split at h
  · next hsum => cases h; exact sumCoins_result hsum
  · split_ifs at h <;> cases h <;> simp

theorem collectConflicts_not_refused (vin : List CTxIn) (conflicts : AssocMap Uint256 Bool) :
    ¬ InputsRefused (collectConflicts pool opts args vin conflicts) := by
  fun_induction collectConflicts pool opts args vin conflicts with
  | case1 => exact not_refused_ok _
  | case2 txin vin conflicts _ ih => exact ih
  | case3 => exact not_refused_invalid (by decide) _
  | case4 txin vin conflicts _ _ _ _ ih => exact ih
  | case5 => exact not_refused_fault _
  | case6 => exact not_refused_invalid (by decide) _
  | case7 txin vin conflicts _ _ _ _ _ _ _ ih => exact ih

theorem collectCreated_not_refused (vout : List CTxOut) (conflicts : AssocMap Uint256 Bool)
    (mapSPK : AssocMap Uint160 SpkState) :
    ¬ InputsRefused (collectCreated pool opts args vout conflicts mapSPK) := by
  induction vout generalizing conflicts mapSPK with
  | nil => exact not_refused_ok _
  | cons txout vout ih => exact not_refused_bind (not_refused_maybeRejectIf (by decide) _ _) fun _ => ih _ _

theorem collectSpent_not_refused (coins : COutPoint → Option Coin) (vin : List CTxIn)
    (conflicts : AssocMap Uint256 Bool) (mapSPK : AssocMap Uint160 SpkState) :
    ¬ InputsRefused (collectSpent pool opts args coins vin conflicts mapSPK) := by
  induction vin generalizing conflicts mapSPK with
  | nil => exact not_refused_ok _
  | cons txin vin ih => exact not_refused_bind (not_refused_maybeRejectIf (by decide) _ _) fun _ => ih _ _

/-- `PreChecks` up to the policy on inputs. -/
def checkBefore (pool : CTxMemPool) (opts : Options) (args : ATMPArgs) (facts : TxFacts) (tx : CTransaction) :
    Except Refusal (AssocMap Uint256 Bool × AssocMap Uint160 SpkState × Int) := do
  checkAlone pool opts args facts tx
  let conflicts ← collectConflicts pool opts args tx.vin ∅
  let (conflicts, mapSPK) ← collectCreatedIf pool opts args tx conflicts
  let fee ← checkCoins opts args facts tx
  let (conflicts, mapSPK) ← collectSpentIf pool opts args facts tx conflicts mapSPK
  return (conflicts, mapSPK, fee)

/-- `PreChecks` after it. -/
def checkAfter (pool : CTxMemPool) (opts : Options) (args : ATMPArgs) (facts : TxFacts) (tx : CTransaction)
    (found : AssocMap Uint256 Bool × AssocMap Uint160 SpkState × Int) : Except Refusal Workspace := do
  let (conflicts, mapSPK, fee) := found
  let entry := stageAddition pool opts args facts tx fee mapSPK
  checkFees opts args facts entry
  let itersConflicting := pool.getIterSet (conflictsAsASet conflicts)
  let limits ← maybeRbfLimits pool opts args conflicts itersConflicting
  let ancestors ← findAncestors pool opts args entry limits
  let (conflicts, itersConflicting, siblingEviction) ← checkTruc pool opts args entry ancestors conflicts
      itersConflicting
  checkDisjoint args ancestors conflicts
  return { conflictsInclPolicy := conflicts, itersConflicting, ancestors, entry, siblingEviction }

theorem preChecks_eq : preChecks pool opts args facts tx = (do
    let found ← checkBefore pool opts args facts tx
    checkInputPolicy opts args facts
    checkAfter pool opts args facts tx found) := by
  unfold preChecks checkBefore checkAfter
  simp only [bind_assoc, pure_bind]

structure Genuine (facts : TxFacts) : Prop where
  checkTxInputs : ∀ i, facts.checkTxInputs = .error i → i.result ≠ .inputsNotStandard
  preCheckEphemeralTx : ∀ i, facts.preCheckEphemeralTx = some i → i.result ≠ .inputsNotStandard

theorem preCheckEphemeralTx_result {baseFee modFee : Int}
    (h : preCheckEphemeralTx std tx baseFee modFee = some i) : i.result ≠ .inputsNotStandard := by
  unfold preCheckEphemeralTx at h
  split at h
  · cases h
    simp
  · cases h

theorem txFacts_genuine (t : WitnessTx) : Genuine (txFacts chain std pool opts args t) where
  checkTxInputs _ h := checkCoinValues_result h
  preCheckEphemeralTx _ h := preCheckEphemeralTx_result h

theorem checkBefore_not_refused (hfacts : Genuine facts) : ¬ InputsRefused (checkBefore pool opts args facts tx) := by
  refine not_refused_bind ?_ fun _ => ?_
  · unfold checkAlone
    refine not_refused_bind (not_refused_liftInvalid fun i h => by simp [checkTransaction_consensus h]) fun _ => ?_
    refine not_refused_bind (not_refused_rejectIf (by decide) _ _) fun _ => ?_
    refine not_refused_bind (not_refused_rejectIf (by decide) _ _) fun _ => ?_
    refine not_refused_bind (not_refused_rejectFor (by decide) _) fun _ => ?_
    refine not_refused_bind (not_refused_maybeRejectIf (by decide) _ _) fun _ => ?_
    refine not_refused_bind (not_refused_maybeRejectIf (by decide) _ _) fun _ => ?_
    exact not_refused_bind (not_refused_rejectIf (by decide) _ _) fun _ => not_refused_rejectIf (by decide) _ _
  · refine not_refused_bind (collectConflicts_not_refused _ _) fun conflicts => ?_
    refine not_refused_bind ?_ fun found => ?_
    · unfold collectCreatedIf
      split
      · exact not_refused_ok _
      · exact collectCreated_not_refused _ _ _
    · refine not_refused_bind ?_ fun fee => ?_
      · unfold checkCoins
        refine not_refused_bind ?_ fun _ => ?_
        · unfold missingInputs
          split
          · exact not_refused_ok _
          · split
            all_goals exact not_refused_invalid (by decide) _
        · refine not_refused_bind (not_refused_liftFault _) fun _ => ?_
          refine not_refused_bind (not_refused_rejectIf (by decide) _ _) fun _ => ?_
          refine not_refused_bind (not_refused_liftInvalid hfacts.checkTxInputs) fun _ => ?_
          exact not_refused_bind (not_refused_maybeRejectIf (by decide) _ _) fun _ => not_refused_ok _
      · refine not_refused_bind ?_ fun _ => not_refused_ok _
        unfold collectSpentIf
        split
        · exact not_refused_ok _
        · exact collectSpent_not_refused _ _ _ _

/-! ## The checks after -/

theorem checkFees_not_refused (hfacts : Genuine facts) (entry : CTxMemPoolEntry) :
    ¬ InputsRefused (checkFees opts args facts entry) := by
  refine not_refused_bind ?_ fun _ => ?_
  · unfold preCheckEphemeral
    split
    · next i hi =>
      split
      · exact not_refused_invalid (hfacts.preCheckEphemeralTx i hi) i.reason
      · exact not_refused_ok _
    · exact not_refused_ok _
  · refine not_refused_bind (not_refused_maybeRejectIf (by decide) _ _) fun _ => ?_
    refine not_refused_bind (not_refused_rejectIf (by decide) _ _) fun _ => ?_
    split
    · exact not_refused_ok _
    · exact not_refused_bind (not_refused_rejectIf (by decide) _ _) fun _ => not_refused_rejectIf (by decide) _ _

theorem findAncestors_not_refused (entry : CTxMemPoolEntry) (limits : Limits) :
    ¬ InputsRefused (findAncestors pool opts args entry limits) := by
  unfold findAncestors
  simp only
  split
  · exact not_refused_ok _
  · exact not_refused_fault _
  · split
    · exact not_refused_invalid (by decide) _
    · split
      · exact not_refused_invalid (by decide) _
      · unfold ancestorsWithin
        split
        · exact not_refused_ok _
        · exact not_refused_invalid (by decide) _
        · exact not_refused_fault _

theorem checkTruc_not_refused (entry : CTxMemPoolEntry) (ancestors : List Uint256) (conflicts : AssocMap Uint256 Bool)
    (itersConflicting : List Uint256) :
    ¬ InputsRefused (checkTruc pool opts args entry ancestors conflicts itersConflicting) := by
  unfold checkTruc
  split
  · split
    · exact not_refused_ok _
    · split
      · split
        · exact not_refused_fault _
        · exact not_refused_ok _
      · exact not_refused_invalid (by decide) _
  · exact not_refused_ok _

theorem checkAfter_not_refused (hfacts : Genuine facts)
    (found : AssocMap Uint256 Bool × AssocMap Uint160 SpkState × Int) :
    ¬ InputsRefused (checkAfter pool opts args facts tx found) := by
  refine not_refused_bind (checkFees_not_refused hfacts _) fun _ => ?_
  refine not_refused_bind ?_ fun limits => ?_
  · unfold maybeRbfLimits
    split
    · split
      · exact not_refused_ok _
      · exact not_refused_fault _
    · exact not_refused_ok _
  · refine not_refused_bind (findAncestors_not_refused _ _) fun ancestors => ?_
    refine not_refused_bind (checkTruc_not_refused _ _ _ _) fun found => ?_
    refine not_refused_bind ?_ fun _ => not_refused_ok _
    unfold checkDisjoint
    split
    · exact not_refused_invalid (by decide) _
    · exact not_refused_maybeRejectIf (by decide) _ _

/-! ## The policy on inputs and data -/

def DataRefused (opts : Options) (args : ATMPArgs) (bytes : Nat × Nat) : Prop :=
  (¬ opts.acceptNonStdDatacarrier ∧ "txn-datacarrier-nonstandard" ∉ args.ignoreRejects ∧ 0 < bytes.2) ∨
    (opts.datacarrierFullcount ∧ "txn-datacarrier-exceeded" ∉ args.ignoreRejects ∧
      opts.maxDatacarrierBytes.getD 0 < bytes.1 + bytes.2)

theorem inputsRefused_rejectIf_bind {cond : Bool} {reason : String} :
    InputsRefused (rejectIf cond .inputsNotStandard reason >>= fun _ => x) ↔ cond = true ∨ InputsRefused x := by
  cases cond with
  | true => exact ⟨fun _ => .inl rfl, fun _ => ⟨reason, rfl⟩⟩
  | false =>
    rw [show (rejectIf false .inputsNotStandard reason >>= fun _ => x) = x from rfl]
    simp

theorem inputsRefused_rejectFor_bind :
    InputsRefused (rejectFor reason .inputsNotStandard >>= fun _ => x) ↔ reason ≠ none ∨ InputsRefused x := by
  cases reason with
  | some reason => exact ⟨fun _ => .inl (by simp), fun _ => ⟨reason, rfl⟩⟩
  | none =>
    rw [show (rejectFor none .inputsNotStandard >>= fun _ => x) = x from rfl]
    simp

theorem checkInputPolicy_refused : InputsRefused (checkInputPolicy opts args facts) ↔
    (opts.requireStandard ∧ facts.areInputsStandard ≠ none) ∨ DataRefused opts args facts.datacarrierBytes := by
  have hrest : ¬ InputsRefused (do
      rejectFor (if opts.requireStandard then facts.isWitnessStandard else none) .witnessMutated
      maybeRejectIf args (!facts.coinAgeReached) .prematureSpend "bad-txns-input-immature-coinblocks") :=
    not_refused_bind (not_refused_rejectFor (by decide) _) fun _ => not_refused_maybeRejectIf (by decide) _ _
  unfold checkInputPolicy DataRefused
  rw [inputsRefused_rejectFor_bind, inputsRefused_rejectIf_bind, inputsRefused_rejectIf_bind]
  simp only [hrest, or_false]
  refine or_congr (by split <;> simp_all) (or_congr ?_ ?_)
  · cases opts.acceptNonStdDatacarrier <;> simp [and_comm]
  · cases opts.datacarrierFullcount <;> simp

theorem preChecks_refused (hfacts : Genuine facts) : InputsRefused (preChecks pool opts args facts tx) ↔
    (∃ found, checkBefore pool opts args facts tx = .ok found) ∧
      ((opts.requireStandard ∧ facts.areInputsStandard ≠ none) ∨ DataRefused opts args facts.datacarrierBytes) := by
  rw [preChecks_eq, inputsRefused_bind (checkBefore_not_refused hfacts), ← checkInputPolicy_refused]
  have hpolicy : ∀ found, InputsRefused (do
      checkInputPolicy opts args facts
      checkAfter pool opts args facts tx found) ↔ InputsRefused (checkInputPolicy opts args facts) := by
    intro found
    cases h : checkInputPolicy opts args facts with
    | ok a => simp only [ok_bind, checkAfter_not_refused hfacts, not_refused_ok]
    | error e => exact ⟨fun ⟨reason, hr⟩ => ⟨reason, congrArg _ (Except.error.inj hr)⟩,
        fun ⟨reason, hr⟩ => ⟨reason, congrArg _ (Except.error.inj hr)⟩⟩
  simp only [hpolicy]
  exact ⟨fun ⟨found, hfound, h⟩ => ⟨⟨found, hfound⟩, h⟩, fun ⟨⟨found, hfound⟩, h⟩ => ⟨found, hfound, h⟩⟩

/-! ## What the checks before read of the witness -/

theorem rejectFor_ok {u : Unit} : rejectFor reason result = .ok u ↔ reason = none := by
  cases reason with
  | none => simp [rejectFor]
  | some reason => simp [rejectFor, invalid]

theorem firstReason_eq_none {reasonPrefix : String} {checks : List Check} :
    firstReason args reasonPrefix checks = none ↔
    ∀ c ∈ checks, c.applies = true → c.ignorable = true ∧ reasonPrefix ++ c.reason ∈ args.ignoreRejects := by
  simp [firstReason]

def WeightFits (opts : Options) (args : ATMPArgs) (t : WitnessTx) : Prop :=
  opts.requireStandard = true → getTransactionWeight t > MAX_STANDARD_TX_WEIGHT → "tx-size" ∈ args.ignoreRejects

theorem isStandardTx_twin (h : t'.tx = t.tx) (hstd : isStandardTx std opts args t' = none) :
    isStandardTx std opts args t = none ↔
    (getTransactionWeight t > MAX_STANDARD_TX_WEIGHT → "tx-size" ∈ args.ignoreRejects) := by
  unfold isStandardTx at hstd ⊢
  rw [firstReason_eq_none] at hstd ⊢
  rw [h] at hstd
  simp only [List.cons_append, List.nil_append, List.forall_mem_cons] at hstd ⊢
  obtain ⟨hversion, -, hrest⟩ := hstd
  constructor
  · intro hall hweight
    exact (hall.2.1 (decide_eq_true hweight)).2
  · intro hweight
    exact ⟨hversion, fun hlarge => ⟨trivial, hweight (of_decide_eq_true hlarge)⟩, hrest⟩

/-- The wtxid is new, and the weight is standard if asked. -/
def Fits (chain : ChainView) (pool : CTxMemPool) (opts : Options) (args : ATMPArgs) (t : WitnessTx) : Prop :=
  WeightFits opts args t ∧ pool.existsWtxid (chain.witnessHash t) = false

theorem checkAlone_ok : checkAlone pool opts args facts tx = .ok () ↔
    liftInvalid (checkTransaction (fun _ => facts.nonWitnessSize) tx) = .ok () ∧ tx.isCoinBase = false ∧
    ¬ (tx.version = TRUC_VERSION ∧ opts.trucPolicy = .reject) ∧
      (opts.requireStandard = true → facts.isStandardTx = none) ∧
    maybeRejectIf args (facts.nonWitnessSize < MIN_STANDARD_TX_NONWITNESS_SIZE) .notStandard "tx-size-small" = .ok () ∧
    maybeRejectIf args (!facts.checkFinalTxAtTip) .prematureSpend "non-final" = .ok () ∧
    pool.existsWtxid facts.witnessHash = false ∧ pool.existsTxid tx.hash = false := by
  unfold checkAlone
  simp only [bind_ok, rejectFor_ok, rejectIf_ok, Unique.exists_iff, PUnit.default_eq_unit, decide_eq_false_iff_not,
    ite_eq_right_iff]

theorem checkAlone_twin (h : t'.tx = t.tx)
    (halone : checkAlone pool opts args (txFacts chain std pool opts args t') t'.tx = .ok ()) :
    checkAlone pool opts args (txFacts chain std pool opts args t) t.tx = .ok () ↔ Fits chain pool opts args t := by
  obtain ⟨htx, hcoinbase, htruc, hstd, hsmall, hfinal, -, htxid⟩ := checkAlone_ok.mp halone
  have htwin (hrequire : opts.requireStandard = true) := isStandardTx_twin h (hstd hrequire)
  rw [checkAlone_ok]
  simp only [txFacts] at htx hsmall hfinal ⊢
  simp only [h] at htx hcoinbase htruc hsmall hfinal htxid
  constructor
  · rintro ⟨-, -, -, hstd', -, -, hwtxid, -⟩
    exact ⟨fun hrequire => (htwin hrequire).mp (hstd' hrequire), hwtxid⟩
  · rintro ⟨hweight, hwtxid⟩
    exact ⟨htx, hcoinbase, htruc, fun hrequire => (htwin hrequire).mpr (hweight hrequire), hsmall, hfinal,
      hwtxid, htxid⟩

/-- `PreChecks` comes to the policy on inputs. -/
def ReachesInputPolicy (chain : ChainView) (std : StandardOptions) (pool : CTxMemPool) (opts : Options)
    (args : ATMPArgs) (t : WitnessTx) :
    Prop := ∃ found, checkBefore pool opts args (txFacts chain std pool opts args t) t.tx = .ok found

theorem reachesInputPolicy_twin (h : t'.tx = t.tx) (hreaches : ReachesInputPolicy chain std pool opts args t') :
    ReachesInputPolicy chain std pool opts args t ↔ Fits chain pool opts args t := by
  obtain ⟨found, hfound⟩ := hreaches
  obtain ⟨_, halone, hrest⟩ := bind_ok.mp hfound
  rw [← checkAlone_twin h halone]
  constructor
  · rintro ⟨_, hfound'⟩
    obtain ⟨_, halone', -⟩ := bind_ok.mp hfound'
    exact halone'
  · intro halone'
    refine ⟨found, bind_ok.mpr ⟨(), halone', ?_⟩⟩
    -- what follows reads the transaction and its coins only
    obtain ⟨tx, _, _⟩ := t
    obtain ⟨tx', _, _⟩ := t'
    obtain rfl : tx' = tx := h
    exact hrest

def PolicyRefuses (chain : ChainView) (std : StandardOptions) (opts : Options) (args : ATMPArgs)
    (t : WitnessTx) : Prop :=
  (opts.requireStandard ∧ areInputsStandard chain.crypto std args chain.coins t.tx ≠ none) ∨
    DataRefused opts args (datacarrierBytes chain.crypto chain.coins t)

theorem preChecksOn_refused (t : WitnessTx) : InputsRefused (preChecksOn chain std pool opts args t) ↔
    ReachesInputPolicy chain std pool opts args t ∧ PolicyRefuses chain std opts args t :=
      preChecks_refused (txFacts_genuine t)

/-! ## What carries a verdict over -/

/-- The checks before that no witness changes. -/
structure BodyPasses (crypto : Crypto) (coins : COutPoint → Option Coin) (tx : CTransaction) : Prop where
  wellFormed : checkTransaction (fun _ => nonWitnessSize tx) tx = .ok ()
  notCoinBase : tx.isCoinBase = false
  present : ∀ txin ∈ tx.vin, (coins txin.prevout).isSome
  values : ∃ chain : ChainView, chain.crypto = crypto ∧ chain.coins = coins ∧ ∃ fee, checkCoinValues chain tx = .ok fee

/-- What `t` reveals counts as data if that of `t'` does, and is no less in all. -/
def RevealsEnough (crypto : Crypto) (coins : COutPoint → Option Coin) (t t' : WitnessTx) : Prop :=
  let bytes := datacarrierBytes crypto coins t
  let bytes' := datacarrierBytes crypto coins t'
  (0 < bytes'.2 → 0 < bytes.2) ∧ bytes'.1 + bytes'.2 ≤ bytes.1 + bytes.2

instance (crypto : Crypto) (coins : COutPoint → Option Coin) (t t' : WitnessTx) :
    Decidable (RevealsEnough crypto coins t t') := by
  unfold RevealsEnough
  infer_instance

theorem liftInvalid_ok {x : Except TxInvalid α} {a : α} : liftInvalid x = .ok a ↔ x = .ok a := by
  cases x <;> simp [liftInvalid]

theorem missingInputs_ok {u : Unit} :
    missingInputs facts tx = .ok u ↔ ∀ txin ∈ tx.vin, (facts.coins txin.prevout).isSome := by
  unfold missingInputs
  split
  · next hall => simpa using hall
  · next hall =>
    have hnot : ¬ ∀ txin ∈ tx.vin, (facts.coins txin.prevout).isSome := by simpa using hall
    refine ⟨fun h => ?_, fun h => absurd h hnot⟩
    split at h <;> cases h

theorem ReachesInputPolicy.bodyPasses (h : ReachesInputPolicy chain std pool opts args t) :
    BodyPasses chain.crypto chain.coins t.tx := by
  obtain ⟨_, hfound⟩ := h
  obtain ⟨_, halone, hrest⟩ := bind_ok.mp hfound
  obtain ⟨hwellFormed, hcoinbase, -⟩ := checkAlone_ok.mp halone
  obtain ⟨_, -, hrest⟩ := bind_ok.mp hrest
  obtain ⟨_, -, hrest⟩ := bind_ok.mp hrest
  obtain ⟨fee, hcoins, -⟩ := bind_ok.mp hrest
  obtain ⟨_, hpresent, hcoins⟩ := bind_ok.mp hcoins
  obtain ⟨_, -, hcoins⟩ := bind_ok.mp hcoins
  obtain ⟨_, -, hcoins⟩ := bind_ok.mp hcoins
  obtain ⟨fee, hvalues, -⟩ := bind_ok.mp hcoins
  exact ⟨liftInvalid_ok.mp hwellFormed, hcoinbase, missingInputs_ok.mp hpresent,
    chain, rfl, rfl, fee, liftInvalid_ok.mp hvalues⟩

theorem PolicyRefuses.carries (h : t'.tx = t.tx) (henough : RevealsEnough chain.crypto chain.coins t t')
    (hrefuses : PolicyRefuses chain std opts args t') : PolicyRefuses chain std opts args t := by
  rcases hrefuses with hinputs | ⟨hopt, hargs, hdata⟩ | ⟨hopt, hargs, hdata⟩
  · exact .inl (h ▸ hinputs)
  · exact .inr (.inl ⟨hopt, hargs, henough.1 hdata⟩)
  · exact .inr (.inr ⟨hopt, hargs, hdata.trans_le henough.2⟩)

/-! ## Options under which only data is refused -/

def defaultStandard : StandardOptions where
  maxtxlegacysigops := 2500
  scriptSizePolicyLimit := 1650
  rejectParasites := true
  rejectTokens := false
  acceptunknownwitness := true
  permitBarePubkey := false
  permitBareMultisig := false
  permitbareanchor := true
  permitbaredatacarrier := false
  permitephemeralAnchor := true
  permitephemeralSend := false
  permitephemeralDust := false
  dustRelayFee n := 3 * n

/-- Data that is not in an output is refused. -/
def dataOptions (limit : Option Nat) : Options where
  requireStandard := false
  rbfPolicy := .always
  trucPolicy := .accept
  limits := ⟨some 25, some 101000, some 25, some 101000⟩
  minRelayFee := id
  minFee _ := 0
  incrementalRelayFee := id
  minrelaymaturity := 0
  acceptNonStdDatacarrier := limit.isSome
  datacarrierFullcount := limit.isSome
  maxDatacarrierBytes := limit
  bytesPerSigOp := 20
  bytesPerSigOpStrict := 20
  spkReuseMode := .allow
  scriptHashkey _ := 0

def dataArgs : ATMPArgs := ⟨0, ["tx-size-small", "non-final"], true, true, false, true⟩

theorem collectConflicts_empty (vin : List CTxIn) (conflicts : AssocMap Uint256 Bool) :
    collectConflicts {} opts args vin conflicts = .ok conflicts := by
  induction vin with
  | nil => rfl
  | cons txin vin ih =>
    rw [collectConflicts, show ({} : CTxMemPool).getConflictTx txin.prevout = none from rfl]
    exact ih

/-- `chain` at its tip, with no lock on an input. -/
def ChainView.unlocked (chain : ChainView) : ChainView :=
  { chain with bestBlockIsTip := true, checkSequenceLocksAtTip := fun _ => true }

theorem checkCoinValues_unlocked : checkCoinValues chain.unlocked tx = checkCoinValues chain tx := by
  have hsum (n : Int) (vin : List CTxIn) : sumCoins chain.unlocked n vin = sumCoins chain n vin := by
    induction vin generalizing n with
    | nil => rfl
    | cons txin vin ih =>
      simp only [sumCoins, ih]
      rfl
  unfold checkCoinValues
  rw [hsum]

theorem reaches_under_dataOptions (limit : Option Nat) (std : StandardOptions)
    (hbody : BodyPasses crypto coins t.tx) :
    ∃ chain : ChainView, chain.crypto = crypto ∧ chain.coins = coins ∧
      ∀ t' : WitnessTx, t'.tx = t.tx → ReachesInputPolicy chain std {} (dataOptions limit) dataArgs t' := by
  obtain ⟨hwellFormed, hcoinbase, hpresent, view, rfl, rfl, fee, hfee⟩ := hbody
  refine ⟨view.unlocked, rfl, rfl, ?_⟩
  intro t' h
  rw [← h] at hwellFormed hcoinbase hpresent hfee
  rw [← checkCoinValues_unlocked] at hfee
  have hcoins : checkCoins (dataOptions limit) dataArgs
      (txFacts view.unlocked std {} (dataOptions limit) dataArgs t') t'.tx = .ok fee := by
    refine bind_ok.mpr ⟨(), missingInputs_ok.mpr hpresent, ?_⟩
    refine bind_ok.mpr ⟨(), rfl, bind_ok.mpr ⟨(), rfl, bind_ok.mpr ⟨fee, liftInvalid_ok.mpr hfee, ?_⟩⟩⟩
    exact bind_ok.mpr ⟨(), by simp [immature, dataOptions, maybeRejectIf, rejectIf], rfl⟩
  refine ⟨(∅, ∅, fee), ?_⟩
  refine bind_ok.mpr ⟨(), checkAlone_ok.mpr ?_, ?_⟩
  · exact ⟨liftInvalid_ok.mpr hwellFormed, hcoinbase, by simp [dataOptions], by simp [dataOptions],
      by simp [maybeRejectIf, rejectIf, dataArgs], by simp [maybeRejectIf, rejectIf, dataArgs], rfl, rfl⟩
  · refine bind_ok.mpr ⟨∅, collectConflicts_empty t'.tx.vin ∅, ?_⟩
    refine bind_ok.mpr ⟨(∅, ∅), rfl, ?_⟩
    exact bind_ok.mpr ⟨fee, hcoins, rfl⟩

end Verdict

def openProgram : CScript := [0x00, 0x20] ++ sha256 [0x51]

def openView : ChainView where
  crypto := ⟨fun _ => Vector.replicate 20 0, fun _ => Vector.replicate 20 0, fun _ => true, fun _ _ _ _ => true⟩
  coins o := if o = ⟨1, 0⟩ then some ⟨⟨100000, openProgram⟩, false, 500⟩ else none
  blockHeightCurrent := 1000
  medianTimePast := 1700000000
  haveOutputInCache _ := false
  bestBlockIsTip := true
  checkSequenceLocksAtTip _ := true
  witnessHash t := 2 + t.scriptWitness.flatten.flatten.length
  isWitnessStandard _ := none
  sigOpsCost _ := 0
  accurateSigOpsCost _ := 0
  coinAgeReached _ := true
  calculateExtraTxWeight _ := 0

def defaultOptions : Options where
  __ := dataOptions (some 83)
  requireStandard := true
  acceptNonStdDatacarrier := false

def openSpend : CTransaction := ⟨[⟨⟨1, 0⟩, [], 0xfffffffd⟩], [⟨90000, [0x00, 0x14] ++ List.replicate 20 7⟩], 2, 0, 30⟩

def honestSpend : WitnessTx := ⟨openSpend, [[[0x51]]], rfl⟩

def malleatedSpend : WitnessTx := ⟨openSpend, [[[0x00, 0x63, 0x01, 0x41, 0x68, 0x51]]], rfl⟩

def remalleatedSpend : WitnessTx := ⟨openSpend, [[[0x00, 0x63, 0x01, 0x42, 0x68, 0x51]]], rfl⟩

end FullNode.Policy

import FullNode.MempoolAccept
import FullNode.MempoolCheck

/-!
# Replacement

What is staged for removal when a transaction replaces others. The staged set is everything below a conflict.
-/

namespace FullNode.Mempool

open OrderedIndex List CTxMemPool AList
open Relation

variable {pool : CTxMemPool} {opts : Options} {args : ATMPArgs} {facts : TxFacts} {tx : CTransaction} {ws : Workspace}
  {a k x : Uint256}

/-! ## Checks that only refuse -/

variable {result : TxValidationResult} {reason : String} {u : Unit} {vin : List CTxIn} {entry : CTxMemPoolEntry}
  {limits : Limits} {ancestors iters : List Uint256} {E : Uint256 → Uint256 → Prop} {cond : Bool}

@[simp] theorem rejectIf_ok : rejectIf cond result reason = .ok u ↔ cond = false := by
  cases cond <;> simp [rejectIf, invalid]

@[simp] theorem maybeRejectIf_ok :
    maybeRejectIf args cond result reason = .ok u ↔ (cond = true → reason ∈ args.ignoreRejects) := by
  unfold maybeRejectIf
  rw [rejectIf_ok]
  cases cond <;> simp

@[simp] theorem liftFault_ok {α : Type} {r : Checked α} {b : α} : liftFault r = .ok b ↔ r = .ok b := by
  cases r <;> simp [liftFault]

/-! ## Who is a conflict -/

/-- `a` spends an outpoint that the transaction spends too. -/
def SharesInput (pool : CTxMemPool) (tx : CTransaction) (a : Uint256) : Prop :=
  ∃ txin ∈ tx.vin, pool.getConflictTx txin.prevout = some a

/-- The pool remembers `a` for a script of an output. -/
def CreatesScript (pool : CTxMemPool) (opts : Options) (vout : List CTxOut) (a : Uint256) : Prop :=
  ∃ txout ∈ vout, ∃ used, pool.mapUsedSPK.lookup (opts.scriptHashkey txout.scriptPubKey) = some used ∧
    (used.1 = some a ∨ used.2 = some a)

/-- The pool remembers `a` as a spender of a script that is spent. -/
def SpendsScript (pool : CTxMemPool) (opts : Options) (facts : TxFacts) (vin : List CTxIn) (a : Uint256) : Prop :=
  ∃ txin ∈ vin, ∃ used, pool.mapUsedSPK.lookup
    (opts.scriptHashkey ((facts.coins txin.prevout).getD Coin.empty).out.scriptPubKey) = some used ∧ used.2 = some a

/-- Reuse is looked for, and `a` shares a script with it. -/
def ReusesScript (pool : CTxMemPool) (opts : Options) (args : ATMPArgs) (facts : TxFacts) (tx : CTransaction)
    (a : Uint256) : Prop :=
  reuseMode opts args ≠ .allow ∧ (CreatesScript pool opts tx.vout a ∨ SpendsScript pool opts facts tx.vin a)

def feelessEntry (opts : Options) (args : ATMPArgs) (facts : TxFacts) (tx : CTransaction) : CTxMemPoolEntry :=
  CTxMemPoolEntry.new tx facts.witnessHash 0 facts.nTxWeight args.acceptTime facts.sigOpsCost facts.extraWeight
    opts.bytesPerSigOp

/-- `SingleTRUCChecks` names `a` as the sibling to evict. -/
def TrucSibling (pool : CTxMemPool) (opts : Options) (args : ATMPArgs) (facts : TxFacts) (tx : CTransaction)
    (a : Uint256) : Prop :=
  opts.trucPolicy = .enforce ∧ "truc" ∉ args.ignoreRejects ∧ args.allowSiblingEviction = true ∧
    ∃ ancestors directConflicts reason,
      pool.calculateMemPoolAncestors (feelessEntry opts args facts tx) Limits.noLimits = .ok ancestors ∧
      (∀ b, b ∈ directConflicts ↔ SharesInput pool tx b ∨ ReusesScript pool opts args facts tx b) ∧
      singleTRUCChecks pool tx args.ignoreRejects ancestors directConflicts
        (feelessEntry opts args facts tx).getTxSize = some (reason, some a)

def PolicyConflict (pool : CTxMemPool) (opts : Options) (args : ATMPArgs) (facts : TxFacts) (tx : CTransaction)
    (a : Uint256) : Prop :=
  ReusesScript pool opts args facts tx a ∨ TrucSibling pool opts args facts tx a

/-! ## The map of conflicts -/

/-- `S` as consensus conflicts, the rest of `P` as policy ones. -/
structure Recorded (conflicts : AssocMap Uint256 Bool) (S P : Uint256 → Prop) : Prop where
  mem : ∀ a, a ∈ conflicts ↔ S a ∨ P a
  consensus : ∀ a, conflicts.lookup a = some true ↔ S a

variable {conflicts conflicts' : AssocMap Uint256 Bool} {S P : Uint256 → Prop}
  {mapSPK mapSPK' : AssocMap Uint160 SpkState} {fee : Int}

theorem Recorded.congr {S' P' : Uint256 → Prop} (h : Recorded conflicts S P) (hS : ∀ a, S a ↔ S' a)
    (hP : ∀ a, P a ↔ P' a) : Recorded conflicts S' P' where
  mem := by
    intro a
    rw [h.mem, hS, hP]
  consensus := by
    intro a
    rw [h.consensus, hS]

theorem Recorded.emplace_true (h : Recorded conflicts S fun _ => False) (hk : k ∉ conflicts) :
    Recorded (emplace conflicts k true) (fun a => S a ∨ a = k) fun _ => False := by
  unfold emplace
  rw [if_neg hk]
  constructor
  · intro a
    rw [mem_insert, h.mem, or_false, or_false]
    exact or_comm
  · intro a
    by_cases hak : a = k
    · subst hak
      simp
    · rw [lookup_insert_ne hak, h.consensus]
      simp [hak]

theorem Recorded.emplace_false (h : Recorded conflicts S P) :
    Recorded (emplace conflicts k false) S fun a => P a ∨ a = k := by
  unfold emplace
  split
  · next hk =>
    constructor
    · intro a
      rw [h.mem]
      constructor
      · rintro (ha | ha)
        · exact .inl ha
        · exact .inr (.inl ha)
      · rintro (ha | ha | rfl)
        · exact .inl ha
        · exact .inr ha
        · exact (h.mem a).mp hk
    · exact h.consensus
  · next hk =>
    constructor
    · intro a
      rw [mem_insert, h.mem, or_comm, or_assoc]
    · intro a
      by_cases hak : a = k
      · subst hak
        have hS : ¬S a := fun ha => hk ((h.mem a).mpr (.inl ha))
        simp [hS]
      · rw [lookup_insert_ne hak, h.consensus]

theorem Recorded.emplaceUsed (h : Recorded conflicts S P) (used : Option Uint256) :
    Recorded (emplaceUsed conflicts used) S fun a => P a ∨ used = some a := by
  cases used with
  | none => exact h.congr (fun _ => Iff.rfl) fun a => by simp
  | some txid => exact h.emplace_false.congr (fun _ => Iff.rfl) fun a => by simp [eq_comm]

theorem collectConflicts_spec (h : collectConflicts pool opts args vin conflicts = .ok conflicts')
    (hrec : Recorded conflicts S fun _ => False) :
    Recorded conflicts' (fun a => S a ∨ ∃ txin ∈ vin, pool.getConflictTx txin.prevout = some a) fun _ => False := by
  induction vin generalizing conflicts S with
  | nil =>
    cases h
    exact hrec.congr (fun a => by simp) fun _ => Iff.rfl
  | cons txin vin ih =>
    unfold collectConflicts at h
    cases hconflict : pool.getConflictTx txin.prevout with
    | none =>
      simp only [hconflict] at h
      exact (ih h hrec).congr (fun a => by simp [hconflict]) fun _ => Iff.rfl
    | some txid =>
      simp only [hconflict] at h
      split at h
      · cases h
      · split at h
        · next hmem =>
          have hS : S txid := by simpa using (hrec.mem txid).mp hmem
          refine (ih h hrec).congr (fun a => ?_) fun _ => Iff.rfl
          simp only [mem_cons, exists_eq_or_imp, hconflict, Option.some.injEq]
          constructor
          · rintro (ha | ha)
            · exact .inl ha
            · exact .inr (.inr ha)
          · rintro (ha | rfl | ha)
            · exact .inl ha
            · exact .inl hS
            · exact .inr ha
        · next hmem =>
          split at h
          · cases h
          · split at h
            · cases h
            · refine (ih h (hrec.emplace_true hmem)).congr (fun a => ?_) fun _ => Iff.rfl
              simp only [mem_cons, exists_eq_or_imp, hconflict, Option.some.injEq, or_assoc, @eq_comm _ txid a]

theorem collectCreated_spec {vout : List CTxOut}
    (h : collectCreated pool opts args vout conflicts mapSPK = .ok (conflicts', mapSPK'))
    (hrec : Recorded conflicts S P) :
    Recorded conflicts' S fun a => P a ∨ CreatesScript pool opts vout a := by
  induction vout generalizing conflicts mapSPK P with
  | nil =>
    cases h
    exact hrec.congr (fun _ => Iff.rfl) fun a => by simp [CreatesScript]
  | cons txout vout ih =>
    unfold collectCreated at h
    obtain ⟨_, -, h⟩ := bind_ok.mp h
    refine (ih h ((hrec.emplaceUsed _).emplaceUsed _)).congr (fun _ => Iff.rfl) fun a => ?_
    unfold CreatesScript
    cases hused : pool.mapUsedSPK.lookup (opts.scriptHashkey txout.scriptPubKey) with
    | none => simp [hused]
    | some used =>
      obtain ⟨_, _⟩ := used
      simp [hused, or_assoc]

theorem collectSpent_spec (h : collectSpent pool opts args facts.coins vin conflicts mapSPK = .ok (conflicts', mapSPK'))
    (hrec : Recorded conflicts S P) : Recorded conflicts' S fun a => P a ∨ SpendsScript pool opts facts vin a := by
  induction vin generalizing conflicts mapSPK P with
  | nil =>
    cases h
    exact hrec.congr (fun _ => Iff.rfl) fun a => by simp [SpendsScript]
  | cons txin vin ih =>
    unfold collectSpent at h
    obtain ⟨_, -, h⟩ := bind_ok.mp h
    refine (ih h (hrec.emplaceUsed _)).congr (fun _ => Iff.rfl) fun a => ?_
    unfold SpendsScript
    cases hused : pool.mapUsedSPK.lookup
        (opts.scriptHashkey ((facts.coins txin.prevout).getD Coin.empty).out.scriptPubKey) with
    | none => simp [hused]
    | some used =>
      obtain ⟨_, _⟩ := used
      simp [hused, or_assoc]

/-! ## The sets of `PreChecks` -/

theorem mem_conflictsAsASet : a ∈ conflictsAsASet conflicts ↔ a ∈ conflicts := by
  unfold conflictsAsASet
  rw [AList.mem_keys]
  induction conflicts.keys with
  | nil => rfl
  | cons b keys ih => rw [foldr_cons, mem_insertNew, ih, mem_cons]

theorem mem_getIterSet {hashes : List Uint256} : k ∈ pool.getIterSet hashes ↔ k ∈ hashes ∧ k ∈ pool.keys := by
  unfold getIterSet
  rw [mem_filterMap]
  constructor
  · rintro ⟨_, hh, hk⟩
    obtain ⟨rfl, hkey⟩ := getIter_eq_some.mp hk
    exact ⟨hh, hkey⟩
  · rintro ⟨hk, hkey⟩
    exact ⟨k, hk, getIter_eq_some.mpr ⟨rfl, hkey⟩⟩

theorem ancestorsWithin_ok (h : ancestorsWithin pool entry limits = .ok ancestors) :
    pool.calculateMemPoolAncestors entry limits = .ok ancestors := by
  unfold ancestorsWithin at h
  split at h
  · next hwalk =>
    cases h
    exact hwalk
  · cases h
  · cases h

theorem findAncestors_ok (h : findAncestors pool opts args entry limits = .ok ancestors) :
    pool.calculateMemPoolAncestors entry Limits.noLimits = .ok ancestors := by
  unfold findAncestors at h
  simp only at h
  split at h
  · next hwalk =>
    cases h
    exact calculateMemPoolAncestors_noLimits hwalk
  · cases h
  · split at h
    · cases h
    · split at h
      · cases h
      · exact calculateMemPoolAncestors_noLimits (ancestorsWithin_ok h)

theorem stageAddition_tx : (stageAddition pool opts args facts tx fee mapSPK).tx = tx := by
  unfold stageAddition
  simp only
  split <;> rfl

theorem stageAddition_size :
    (stageAddition pool opts args facts tx fee mapSPK).getTxSize = (feelessEntry opts args facts tx).getTxSize := by
  unfold stageAddition
  simp only
  split <;> rfl

theorem calculateMemPoolAncestors_congr {e e' : CTxMemPoolEntry} (htx : e.tx = e'.tx)
    (hsize : e.getTxSize = e'.getTxSize) :
    pool.calculateMemPoolAncestors e limits = pool.calculateMemPoolAncestors e' limits := by
  unfold calculateMemPoolAncestors
  rw [htx, hsize]

theorem singleTRUCChecks_congr {ignoreRejects : List String} {direct direct' : List Uint256} {vsize : Int}
    (h : ∀ b, b ∈ direct ↔ b ∈ direct') : singleTRUCChecks pool tx ignoreRejects ancestors direct vsize =
      singleTRUCChecks pool tx ignoreRejects ancestors direct' vsize := by
  have hmem : (fun c => decide (c ∈ direct)) = fun c => decide (c ∈ direct') := by
    funext c
    exact decide_eq_decide.mpr (h c)
  unfold singleTRUCChecks trucParent
  rw [hmem]

theorem entriesAndTxidsDisjoint_some {v r : Bool} (h : entriesAndTxidsDisjoint conflicts ancestors v = some r) :
    (∀ a ∈ ancestors, conflicts.lookup a ≠ some true) ∧
      (v = true ∨ (∃ a ∈ ancestors, conflicts.lookup a = some false) → r = true) := by
  induction ancestors generalizing v with
  | nil =>
    cases h
    simp
  | cons b ancestors ih =>
    unfold entriesAndTxidsDisjoint at h
    cases hb : conflicts.lookup b with
    | none =>
      simp only [hb] at h
      simpa [hb] using ih h
    | some flag =>
      cases flag with
      | false =>
        simp only [hb] at h
        simpa [hb] using ih h
      | true =>
        simp only [hb] at h
        cases h

theorem checkDisjoint_ok (h : checkDisjoint args ancestors conflicts = .ok u) :
    (∀ a ∈ ancestors, conflicts.lookup a ≠ some true) ∧
      ((∃ a ∈ ancestors, conflicts.lookup a = some false) → "txn-spk-reused-chained" ∈ args.ignoreRejects) := by
  unfold checkDisjoint at h
  split at h
  · cases h
  · next r hr =>
    obtain ⟨hfree, hpolicy⟩ := entriesAndTxidsDisjoint_some hr
    rw [maybeRejectIf_ok] at h
    exact ⟨hfree, fun hex => h (hpolicy (.inr hex))⟩

theorem checkTruc_spec {iters' : List Uint256} {sibling : Bool}
    (h : checkTruc pool opts args entry ancestors conflicts iters = .ok (conflicts', iters', sibling))
    (htx : entry.tx = tx) (hsize : entry.getTxSize = (feelessEntry opts args facts tx).getTxSize)
    (hancestors : pool.calculateMemPoolAncestors (feelessEntry opts args facts tx) Limits.noLimits = .ok ancestors)
    (hrec : Recorded conflicts (SharesInput pool tx) (ReusesScript pool opts args facts tx))
    (hiters : ∀ k, k ∈ iters ↔ k ∈ conflicts ∧ k ∈ pool.keys) :
    Recorded conflicts' (SharesInput pool tx) (PolicyConflict pool opts args facts tx) ∧
      ∀ k, k ∈ iters' ↔ k ∈ conflicts' ∧ k ∈ pool.keys := by
  -- what the sibling of the specification is read from is what the code reads
  have hread : ∀ {a}, TrucSibling pool opts args facts tx a → ∃ reason,
      singleTRUCChecks pool entry.tx args.ignoreRejects ancestors (conflictsAsASet conflicts) entry.getTxSize =
        some (reason, some a) := by
    rintro a ⟨-, -, -, _, _, reason, hancestors', hdirect, hchecks⟩
    rw [hancestors] at hancestors'
    cases hancestors'
    refine ⟨reason, ?_⟩
    rw [htx, hsize, ← hchecks]
    apply singleTRUCChecks_congr
    intro b
    rw [mem_conflictsAsASet, hrec.mem, hdirect]
  have hnone : (∀ a, ¬TrucSibling pool opts args facts tx a) →
      Recorded conflicts (SharesInput pool tx) (PolicyConflict pool opts args facts tx) := by
    intro hno
    exact hrec.congr (fun _ => Iff.rfl) fun a => by simp [PolicyConflict, hno a]
  unfold checkTruc at h
  split at h
  · next hpolicy =>
    cases hchecks : singleTRUCChecks pool entry.tx args.ignoreRejects ancestors (conflictsAsASet conflicts)
        entry.getTxSize with
    | none =>
      simp only [hchecks] at h
      cases h
      refine ⟨hnone fun a ha => ?_, hiters⟩
      obtain ⟨reason, hsome⟩ := hread ha
      rw [hchecks] at hsome
      cases hsome
    | some found =>
      obtain ⟨reason, found⟩ := found
      simp only [hchecks] at h
      split at h
      · next s hallow =>
        split at h
        · cases h
        · next it hit =>
          obtain ⟨rfl, hkey⟩ := getIter_eq_some.mp hit
          cases h
          have hsibling : ∀ a, TrucSibling pool opts args facts tx a ↔ a = it := by
            intro a
            constructor
            · intro ha
              obtain ⟨_, hsome⟩ := hread ha
              rw [hchecks] at hsome
              cases hsome
              rfl
            · rintro rfl
              refine ⟨hpolicy.1, hpolicy.2, hallow, ancestors, conflictsAsASet conflicts, reason, hancestors, ?_, ?_⟩
              · intro b
                rw [mem_conflictsAsASet, hrec.mem]
              · rw [← hsize, ← htx]
                exact hchecks
          refine ⟨hrec.emplace_false.congr (fun _ => Iff.rfl) fun a => by rw [PolicyConflict, hsibling], ?_⟩
          intro k
          have hmem : ∀ k, k ∈ emplace conflicts it false ↔ k = it ∨ k ∈ conflicts := by
            intro k
            rw [hrec.emplace_false.mem, hrec.mem]
            tauto
          rw [mem_insertNew, hiters, hmem]
          constructor
          · rintro (rfl | ⟨hk, hkey⟩)
            · exact ⟨.inl rfl, hkey⟩
            · exact ⟨.inr hk, hkey⟩
          · rintro ⟨rfl | hk, hkey⟩
            · exact .inl rfl
            · exact .inr ⟨hk, hkey⟩
      · cases h
  · next hpolicy =>
    cases h
    exact ⟨hnone fun a ha => hpolicy ⟨ha.1, ha.2.1⟩, hiters⟩

/-! ## What `PreChecks` establishes -/

structure Prechecked (pool : CTxMemPool) (opts : Options) (args : ATMPArgs) (facts : TxFacts) (tx : CTransaction)
    (ws : Workspace) : Prop where
  entryTx : ws.entry.tx = tx
  ancestors : pool.calculateMemPoolAncestors ws.entry Limits.noLimits = .ok ws.ancestors
  recorded : Recorded ws.conflictsInclPolicy (SharesInput pool tx) (PolicyConflict pool opts args facts tx)
  iters : ∀ k, k ∈ ws.itersConflicting ↔ k ∈ ws.conflictsInclPolicy ∧ k ∈ pool.keys
  disjoint : ∀ a ∈ ws.ancestors, ws.conflictsInclPolicy.lookup a ≠ some true
  chained : (∃ a ∈ ws.ancestors, ws.conflictsInclPolicy.lookup a = some false) →
      "txn-spk-reused-chained" ∈ args.ignoreRejects

theorem collectCreatedIf_spec (h : collectCreatedIf pool opts args tx conflicts = .ok (conflicts', mapSPK'))
    (hrec : Recorded conflicts S P) :
    Recorded conflicts' S fun a => P a ∨ reuseMode opts args ≠ .allow ∧ CreatesScript pool opts tx.vout a := by
  unfold collectCreatedIf at h
  split at h
  · next hmode =>
    cases h
    exact hrec.congr (fun _ => Iff.rfl) fun a => by simp [hmode]
  · next hmode => exact (collectCreated_spec h hrec).congr (fun _ => Iff.rfl) fun a => by simp [hmode]

theorem collectSpentIf_spec
    (h : collectSpentIf pool opts args facts tx conflicts mapSPK = .ok (conflicts', mapSPK'))
    (hrec : Recorded conflicts S P) :
    Recorded conflicts' S fun a => P a ∨ reuseMode opts args ≠ .allow ∧ SpendsScript pool opts facts tx.vin a := by
  unfold collectSpentIf at h
  split at h
  · next hmode =>
    cases h
    exact hrec.congr (fun _ => Iff.rfl) fun a => by simp [hmode]
  · next hmode => exact (collectSpent_spec h hrec).congr (fun _ => Iff.rfl) fun a => by simp [hmode]

theorem preChecks_spec (h : preChecks pool opts args facts tx = .ok ws) : Prechecked pool opts args facts tx ws := by
  unfold preChecks at h
  obtain ⟨_, -, h⟩ := bind_ok.mp h
  obtain ⟨_, hinputs, h⟩ := bind_ok.mp h
  obtain ⟨⟨_, _⟩, hcreated, h⟩ := bind_ok.mp h
  obtain ⟨fee, -, h⟩ := bind_ok.mp h
  obtain ⟨⟨conflicts3, mapSPK3⟩, hspent, h⟩ := bind_ok.mp h
  obtain ⟨_, -, h⟩ := bind_ok.mp h
  obtain ⟨_, -, h⟩ := bind_ok.mp h
  obtain ⟨_, -, h⟩ := bind_ok.mp h
  obtain ⟨ancestors, hfound, h⟩ := bind_ok.mp h
  obtain ⟨⟨_, _, _⟩, htruc, h⟩ := bind_ok.mp h
  obtain ⟨_, hdisjoint, h⟩ := bind_ok.mp h
  cases h
  have hempty : Recorded ∅ (fun _ => False) fun _ => False := ⟨fun a => by simp, fun a => by simp⟩
  have hrec := collectSpentIf_spec hspent (collectCreatedIf_spec hcreated (collectConflicts_spec hinputs hempty))
  have hrec : Recorded conflicts3 (SharesInput pool tx) (ReusesScript pool opts args facts tx) := by
    refine hrec.congr (fun a => by simp [SharesInput]) fun a => ?_
    unfold ReusesScript
    tauto
  have hfound := findAncestors_ok hfound
  have hentry : (stageAddition pool opts args facts tx fee mapSPK3).tx = (feelessEntry opts args facts tx).tx :=
    stageAddition_tx
  have hancestors : pool.calculateMemPoolAncestors (feelessEntry opts args facts tx) Limits.noLimits =
      .ok ancestors := by
    rw [← calculateMemPoolAncestors_congr hentry stageAddition_size]
    exact hfound
  obtain ⟨hrecorded, hiters⟩ := checkTruc_spec htruc stageAddition_tx stageAddition_size hancestors hrec (by
    intro k
    rw [mem_getIterSet, mem_conflictsAsASet])
  obtain ⟨hfree, hchained⟩ := checkDisjoint_ok hdisjoint
  exact ⟨stageAddition_tx, hfound, hrecorded, hiters, hfree, hchained⟩

/-! ## What `ReplacementChecks` stages -/

def modifiedFeeOf (pool : CTxMemPool) (k : Uint256) : Int := (pool.find k).elim 0 CTxMemPoolEntry.modifiedFee

theorem conflictingFees_spec {fees r : Int} (h : conflictingFees pool iters fees = .ok r) :
    r = fees + (iters.map (modifiedFeeOf pool)).sum := by
  induction iters generalizing fees with
  | nil =>
    cases h
    simp
  | cons k iters ih =>
    unfold conflictingFees at h
    cases hfind : pool.find k with
    | none =>
      rw [hfind] at h
      cases h
    | some it =>
      simp only [hfind] at h
      obtain ⟨_, hfees, h⟩ := bind_ok.mp h
      unfold int64 at hfees
      split at hfees
      · cases hfees
        rw [ih h, map_cons, sum_cons, modifiedFeeOf, hfind]
        simp only [Option.elim_some]
        omega
      · cases hfees

theorem paysForRBF_true {original replacement vsize : Int} (h : paysForRBF opts original replacement vsize = .ok true) :
    original + opts.incrementalRelayFee vsize ≤ replacement := by
  unfold paysForRBF at h
  split at h
  · cases h
  · obtain ⟨_, hadditional, h⟩ := bind_ok.mp h
    unfold int64 at hadditional
    split at hadditional
    · cases hadditional
      have hle : ¬replacement - original < opts.incrementalRelayFee vsize := by
        simpa [pure, Except.pure] using h
      omega
    · cases hadditional

theorem checkFeeRule_ok {rule : Checked Bool} (h : checkFeeRule args ws rule = .ok u)
    (hignore : "insufficient fee" ∉ args.ignoreRejects) : rule = .ok true := by
  unfold checkFeeRule at h
  rw [if_neg hignore] at h
  obtain ⟨pays, hrule, h⟩ := bind_ok.mp h
  rw [liftFault_ok] at hrule
  rw [rejectIf_ok] at h
  cases pays with
  | true => exact hrule
  | false => cases h

/-- All below a conflict is staged and, unless skipped, paid for. -/
theorem replacementChecks_spec (hlinked : pool.Linked E) {staged : List Uint256}
    (h : replacementChecks pool opts args ws = .ok staged) :
      (∀ x, x ∈ staged ↔ ∃ k ∈ ws.itersConflicting, ReflTransGen E x k) ∧ ("insufficient fee" ∉ args.ignoreRejects →
        ∑ k ∈ staged.toFinset, modifiedFeeOf pool k + opts.incrementalRelayFee ws.vsize ≤ ws.modifiedFees) := by
  unfold replacementChecks at h
  iterate 3 obtain ⟨_, -, h⟩ := bind_ok.mp h
  obtain ⟨_, hall, h⟩ := bind_ok.mp h
  obtain ⟨_, -, h⟩ := bind_ok.mp h
  obtain ⟨_, hfees, h⟩ := bind_ok.mp h
  obtain ⟨_, hpays, h⟩ := bind_ok.mp h
  cases h
  rw [liftFault_ok] at hall hfees
  constructor
  · intro x
    rw [hlinked.calculateAllDescendants_spec (by simp) hall]
    simp
  · intro hignore
    have hle := paysForRBF_true (checkFeeRule_ok hpays hignore)
    rw [conflictingFees_spec hfees] at hle
    have hsum : ∑ k ∈ staged.toFinset, modifiedFeeOf pool k = (staged.map (modifiedFeeOf pool)).sum :=
      sum_toFinset _ (calculateAllDescendants_nodup hall nodup_nil)
    omega

/-! ## Safety of the staged set -/

/-- No child is left behind, no conflict stays, no ancestor goes, and what goes is paid for. -/
structure SafelyStaged (pool : CTxMemPool) (opts : Options) (args : ATMPArgs) (tx : CTransaction) (ws : Workspace)
    (staged : List Uint256) : Prop where
  closed : ∀ a ∈ staged, ∀ d, ReflTransGen pool.Spends d a → d ∈ staged
  conflicts : ∀ k e, pool.find k = some e → (∃ o ∈ tx.prevouts, o ∈ e.tx.prevouts) → k ∈ staged
  ancestors : ∀ a ∈ staged, ¬pool.AncestorOf tx a
  pays : args.ignoreRejects = [] → ws.conflictsInclPolicy.keys ≠ [] →
    ∑ k ∈ staged.toFinset, modifiedFeeOf pool k + opts.incrementalRelayFee ws.vsize ≤ ws.modifiedFees

variable {staged : List Uint256}

/-- What is staged is everything below the conflicts. -/
theorem mem_staged_iff (hlinked : pool.Linked E)
    (hpre : Prechecked pool opts args facts tx ws) (h : stageReplacement pool opts args ws = .ok staged) :
    x ∈ staged ↔ ∃ k ∈ ws.conflictsInclPolicy, k ∈ pool.keys ∧ ReflTransGen E x k := by
  unfold stageReplacement at h
  split at h
  · next hempty =>
    cases h
    rw [List.isEmpty_iff] at hempty
    simp [AList.mem_keys, hempty]
  · rw [(replacementChecks_spec hlinked h).1 x]
    constructor
    · rintro ⟨k, hk, hx⟩
      obtain ⟨hconflict, hkey⟩ := (hpre.iters k).mp hk
      exact ⟨k, hconflict, hkey, hx⟩
    · rintro ⟨k, hconflict, hkey, hx⟩
      exact ⟨k, (hpre.iters k).mpr ⟨hconflict, hkey⟩, hx⟩

/-- A staged ancestor lies below a policy conflict whose refusal is ignored. -/
theorem staged_safe_iff (hexact : pool.Exact) (hpre : preChecks pool opts args facts tx = .ok ws)
    (hstage : stageReplacement pool opts args ws = .ok staged) : SafelyStaged pool opts args tx ws staged ↔
      ("txn-spk-reused-chained" ∈ args.ignoreRejects → ∀ a, pool.AncestorOf tx a →
        ¬PolicyConflict pool opts args facts tx a) := by
  have hpre := preChecks_spec hpre
  have hstaged : ∀ x, x ∈ staged ↔ ∃ k ∈ ws.conflictsInclPolicy, k ∈ pool.keys ∧ ReflTransGen pool.Spends x k :=
    fun x => mem_staged_iff hexact.linked hpre hstage
  have hancestors : ∀ a, a ∈ ws.ancestors ↔ pool.AncestorOf tx a := by
    intro a
    rw [hexact.linked.calculateMemPoolAncestors_spec hpre.ancestors, hpre.entryTx]
    rfl
  constructor
  · rintro hsafe - a ha hpolicy
    -- an ancestor that is a conflict is staged itself
    obtain ⟨p, hp, hkey, hreach⟩ := ha
    have hmem : a ∈ staged := by
      rw [hstaged]
      exact ⟨a, (hpre.recorded.mem a).mpr (.inr hpolicy), hexact.linked.reaches_mem hreach hkey, .refl⟩
    exact hsafe.ancestors a hmem ⟨p, hp, hkey, hreach⟩
  · intro hcond
    refine ⟨?_, ?_, ?_, ?_⟩
    · intro a ha d hd
      obtain ⟨k, hk, hkey, hreach⟩ := (hstaged a).mp ha
      exact (hstaged d).mpr ⟨k, hk, hkey, hd.trans hreach⟩
    · rintro k e hfind ⟨_, ho, hspent⟩
      obtain ⟨txin, htxin, rfl⟩ := mem_map.mp ho
      have hshares : SharesInput pool tx k := ⟨txin, htxin, hexact.indexed.nextTx.mpr ⟨e, hfind, hspent⟩⟩
      exact (hstaged k).mpr ⟨k, (hpre.recorded.mem k).mpr (.inl hshares), mem_keys_of_find hfind, .refl⟩
    · rintro a ha ⟨p, hp, hkey, hreach⟩
      obtain ⟨c, hc, -, hbelow⟩ := (hstaged a).mp ha
      have hancestor : pool.AncestorOf tx c := ⟨p, hp, hkey, hreach.trans hbelow⟩
      have hin := (hancestors c).mpr hancestor
      obtain ⟨flag, hflag⟩ := Option.isSome_iff_exists.mp (lookup_isSome.mpr hc)
      cases flag with
      | true => exact hpre.disjoint c hin hflag
      | false =>
        have hpolicy : PolicyConflict pool opts args facts tx c := by
          rcases (hpre.recorded.mem c).mp hc with hshares | hpolicy
          · rw [(hpre.recorded.consensus c).mpr hshares] at hflag
            cases hflag
          · exact hpolicy
        exact hcond (hpre.chained ⟨c, hin, hflag⟩) c hancestor hpolicy
    · intro hignore hconflicts
      unfold stageReplacement at hstage
      rw [if_neg (by simpa using hconflicts)] at hstage
      exact (replacementChecks_spec hexact.linked hstage).2 (by simp [hignore])

/-! ### A replaced ancestor -/

/-- A parent with two outputs, and a child of the first. -/
def familyParent : CTxMemPoolEntry :=
  { CTxMemPoolEntry.new ⟨[⟨⟨1, 0⟩, [], 0xfffffffd⟩], [⟨9000, [0x51]⟩, ⟨9000, [0x52]⟩], 2, 0,
    10⟩ 10 1000 400 0 0 0 20 with
    children := [20]
    countWithDescendants := 2
    sizeWithDescendants := 200
    modFeesWithDescendants := 2000 }

def familyChild : CTxMemPoolEntry :=
  { CTxMemPoolEntry.new ⟨[⟨⟨10, 0⟩, [], 0xfffffffd⟩], [⟨8000, [0x53]⟩], 2, 0, 20⟩ 20 1000 400 0 0 0 20 with
    parents := [10]
    countWithAncestors := 2
    sizeWithAncestors := 200
    modFeesWithAncestors := 2000
    sigOpCostWithAncestors := 0 }

def familyScript (script : CScript) : Uint160 :=
  script.foldl (fun hash byte => hash <<< 8 ||| BitVec.ofNat 160 byte.toNat) 1

/-- The first output of the parent is created and spent in the pool. -/
def familyPool : CTxMemPool where
  mapTx := (AList.singleton 10 familyParent).insert 20 familyChild
  mapNextTx := (AList.singleton ⟨1, 0⟩ 10).insert ⟨10, 0⟩ 20
  mapUsedSPK := (((AList.singleton (familyScript [0x51]) (some 10, some 20)).insert (familyScript [0x52]) (some 10,
    none)).insert (familyScript [0x53]) (some 20, none))
  totalTxSize := 200
  totalFee := 2000

def familyOptions : Options where
  requireStandard := true
  rbfPolicy := .always
  trucPolicy := .accept
  limits := ⟨some 25, some 101000, some 25, some 101000⟩
  minRelayFee := id
  minFee := fun _ => 0
  incrementalRelayFee := id
  minrelaymaturity := 0
  acceptNonStdDatacarrier := true
  datacarrierFullcount := false
  maxDatacarrierBytes := some 42
  bytesPerSigOp := 20
  bytesPerSigOpStrict := 20
  spkReuseMode := .reject
  scriptHashkey := familyScript

def familyArgs (ignoreRejects : List String) : ATMPArgs := ⟨0, ignoreRejects, true, true, false, true⟩

def familyFacts (spent : COutPoint) (out : CTxOut) : TxFacts where
  witnessHash := 30
  nonWitnessSize := 100
  nTxWeight := 400
  isStandardTx := none
  checkFinalTxAtTip := true
  coins := fun o => if o = spent then some ⟨out, false, 0x7fffffff⟩ else none
  haveOutputInCache := false
  bestBlockIsTip := true
  checkSequenceLocksAtTip := true
  blockHeightCurrent := 1000
  checkTxInputs := .ok 5000
  areInputsStandard := none
  datacarrierBytes := (0, 0)
  isWitnessStandard := none
  sigOpsCost := 0
  accurateSigOpsCost := 0
  coinAgeReached := true
  extraWeight := 0
  preCheckEphemeralTx := none

theorem familyPool_exact : familyPool.Exact := exact_of_isExact (by decide)

/-- The child's input is spent again: it goes, its parent stays. -/
theorem child_replaced_safely :
    ∃ ws, preChecks familyPool familyOptions (familyArgs []) (familyFacts ⟨10, 0⟩ ⟨9000, [0x51]⟩)
    ⟨[⟨⟨10, 0⟩, [], 0xfffffffd⟩], [⟨4000, [0x54]⟩], 2, 0, 30⟩ = .ok ws ∧
    stageReplacement familyPool familyOptions (familyArgs []) ws = .ok [20] ∧
    SafelyStaged familyPool familyOptions (familyArgs []) ⟨[⟨⟨10, 0⟩, [], 0xfffffffd⟩], [⟨4000, [0x54]⟩], 2, 0,
      30⟩ ws [20] := by
  have hrun : (preChecks familyPool familyOptions (familyArgs []) (familyFacts ⟨10, 0⟩ ⟨9000, [0x51]⟩)
      ⟨[⟨⟨10, 0⟩, [], 0xfffffffd⟩], [⟨4000, [0x54]⟩], 2, 0, 30⟩ >>= stageReplacement familyPool familyOptions
        (familyArgs [])) =
      .ok [20] := by
    decide
  obtain ⟨ws, hpre, hstage⟩ := bind_ok.mp hrun
  exact ⟨ws, hpre, hstage, (staged_safe_iff familyPool_exact hpre hstage).mpr fun hignored => by cases hignored⟩

/-- A child that pays to its parent's family stages its parent. -/
theorem parent_replaced_by_child : familyPool.Exact ∧ ∃ ws staged,
    preChecks familyPool familyOptions (familyArgs ["txn-spk-reused-chained"]) (familyFacts ⟨10, 1⟩ ⟨9000, [0x52]⟩)
      ⟨[⟨⟨10, 1⟩, [], 0xfffffffd⟩], [⟨4000, [0x51]⟩], 2, 0, 30⟩ = .ok ws ∧
    stageReplacement familyPool familyOptions (familyArgs ["txn-spk-reused-chained"]) ws = .ok staged ∧
    ¬SafelyStaged familyPool familyOptions (familyArgs ["txn-spk-reused-chained"])
      ⟨[⟨⟨10, 1⟩, [], 0xfffffffd⟩], [⟨4000, [0x51]⟩], 2, 0, 30⟩ ws staged := by
  have hrun : (preChecks familyPool familyOptions (familyArgs ["txn-spk-reused-chained"])
      (familyFacts ⟨10, 1⟩ ⟨9000, [0x52]⟩) ⟨[⟨⟨10, 1⟩, [], 0xfffffffd⟩], [⟨4000, [0x51]⟩], 2, 0, 30⟩ >>=
        stageReplacement familyPool familyOptions (familyArgs ["txn-spk-reused-chained"])) = .ok [10, 20] := by
    decide
  obtain ⟨ws, hpre, hstage⟩ := bind_ok.mp hrun
  refine ⟨familyPool_exact, ws, [10, 20], hpre, hstage, fun hsafe => ?_⟩
  apply hsafe.ancestors 10 (by simp)
  exact ⟨10, by decide, by decide, .refl⟩

end FullNode.Mempool

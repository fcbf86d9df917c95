import FullNode.SignatureCalls
import Mathlib.Algebra.Order.BigOperators.Group.List

/-! # Counting data bytes -/

namespace FullNode.Script

open List

/-! ## Sizes on the stack -/

section Sizes

variable {b : Nat} {s : EvalState} {sigversion : SigVersion}

theorem returns_of_ensures {α : Type} {bad : Halt → Prop} {post : α → Prop} {x : Eval α} (h : Ensures bad post x) :
    Returns post x := by
  cases x with
  | ok a => exact h
  | error e => trivial

variable (hb : 32 ≤ b) (v : Verifier) (flags : Flags)
include hb v flags

theorem evalStep_within (hstack : Within b s.stack) (haltstack : Within b s.altstack)
    (hpc : s.pc.length ≤ b) : Returns (fun s' => Within b s'.stack ∧ Within b s'.altstack ∧ s'.pc.length ≤ b)
      (evalStep v flags sigversion s) := by
  unfold evalStep
  split
  · trivial
  · next opcode vch rest hop =>
    have hlt := getScriptOp_length hop
    have hvch := (getScriptOp_operand hop).trans hpc
    iterate 4 refine returns_bind fun _ => ?_
    have hread : KeptWithin b rest s.execdata.validationWeightLeft.isSome
        { s with pc := rest, nOpCount := countOp sigversion opcode s.nOpCount } := ⟨hstack, haltstack, rfl, rfl⟩
    refine (returns_of_ensures (runOp_safe hb v flags hvch hread)).bind fun s' hs' => ?_
    refine returns_bind fun _ => ?_
    refine ⟨hs'.stack, hs'.altstack, ?_⟩
    change s'.pc.length ≤ b
    rw [hs'.pc]
    omega

theorem evalLoop_within {fuel : Nat} (hstack : Within b s.stack)
    (haltstack : Within b s.altstack) (hpc : s.pc.length ≤ b) :
    Returns (fun s' => Within b s'.stack) (evalLoop v flags sigversion fuel s) := by
  induction fuel generalizing s with
  | zero =>
    unfold evalLoop
    split
    · exact hstack
    · trivial
  | succ fuel ih =>
    unfold evalLoop
    split
    · exact hstack
    · exact (evalStep_within hb v flags hstack haltstack hpc).bind fun s' hs' => ih hs'.1 hs'.2.1 hs'.2.2

theorem evalScript_within {script : CScript} (hscript : script.length ≤ b)
    (execdata : ScriptExecutionData) :
    Returns (fun r => Within b r.1) (evalScript v flags sigversion [] script execdata) := by
  have hempty : Within b [] := fun vch hvch => absurd hvch not_mem_nil
  unfold evalScript
  split
  · trivial
  · refine returns_bind fun _ => ?_
    have hloop : Returns (fun s' => Within b s'.stack)
        (evalLoop v flags sigversion script.length (.start script [] execdata)) :=
      evalLoop_within hb v flags hempty hempty hscript
    refine (Policy.returns_catchAll hloop).bind fun s' hs' => ?_
    exact returns_bind fun _ => hs'

omit hb v flags

end Sizes

theorem getScriptOp_zero {pc rest : CScript} {vch : Valtype} (h : getScriptOp pc = some (OP_0, vch, rest)) :
    pc = OP_0 :: rest := by
  obtain ⟨_, rfl, -⟩ := getScriptOp_head h
  simp only [getScriptOp] at h
  split_ifs at h with hleft hpush
  · obtain ⟨⟨_, _⟩, hmid, h⟩ := Option.bind_eq_some_iff.mp h
    cases hmid
    simp only at h
    split_ifs at h
    cases h
    rfl
  · exact absurd (by decide) hpush

end FullNode.Script

namespace FullNode.Policy

open Script List

/-! ## One script -/

/-- What was counted ends before the position, a push that may count and an open envelope. -/
structure ScanAt (p : Nat) (s : DataScan) : Prop where
  counted : s.counted ≤ p
  noop : s.insideNoop ≠ 0 → s.counted < s.dataBegan ∧ s.dataBegan ≤ p
  pushed : s.insideNoop = 0 → s.lastOpcode ≤ OP_PUSHDATA4 →
    s.counted ≤ s.dataBegan ∧ s.dataBegan ≤ p ∧ (s.lastOpcode = OP_0 → s.dataBegan + 1 = p)

variable {opcode : UInt8} {s : DataScan} {size remainingOutputs : Nat} {script : CScript} {vout : List CTxOut}
  {fuel : Nat}

theorem dataStep_scanAt {p p' : Nat} (hs : ScanAt p s) (hlt : p < p')
    (hzero : opcode = OP_0 → p' = p + 1) : ScanAt p' (dataStep p p' opcode s) := by
  have hcounted := hs.counted
  unfold dataStep
  simp only
  split
  · next hnoop =>
    obtain ⟨hbefore, hbegan⟩ := hs.noop hnoop
    by_cases hclose : opcode = OP_ENDIF ∧ s.insideNoop = 1
    · -- the envelope is closed
      obtain ⟨rfl, hone⟩ := hclose
      have hnested : nested OP_ENDIF s.insideNoop = 0 := by rw [hone]; rfl
      rw [if_pos ⟨rfl, hone⟩, hnested]
      refine ⟨?_, fun h => absurd rfl h, fun _ h => absurd (show OP_ENDIF ≤ OP_PUSHDATA4 from h) (by decide)⟩
      change s.counted + (p' - s.dataBegan + 1) ≤ p'
      omega
    · have hopen : nested opcode s.insideNoop ≠ 0 := by
        have hmore : opcode = OP_ENDIF → s.insideNoop ≠ 1 := fun hend hone => hclose ⟨hend, hone⟩
        unfold nested
        split_ifs with _ hend
        · omega
        · have hne := hmore hend
          omega
        · exact hnoop
      rw [if_neg hclose]
      refine ⟨?_, fun _ => ⟨hbefore, ?_⟩, fun h => absurd h hopen⟩
      · change s.counted ≤ p'
        omega
      · change s.dataBegan ≤ p'
        omega
  · next hnoop =>
    have hnoop : s.insideNoop = 0 := not_not.mp hnoop
    split
    · next hif =>
      -- the envelope takes the `OP_FALSE` in front of it
      obtain ⟨rfl, hlast⟩ := hif
      obtain ⟨hbefore, hbegan, hfalse⟩ := hs.pushed hnoop (hlast ▸ by decide)
      have hfalse := hfalse hlast
      refine ⟨?_, fun _ => ⟨?_, ?_⟩, fun h => absurd (show 1 = 0 from h) (by decide)⟩
      · change s.counted ≤ p'
        omega
      · change s.counted < p
        omega
      · change p ≤ p'
        omega
    · split
      · refine ⟨?_, fun h => absurd hnoop h, fun _ _ => ⟨hcounted, ?_, fun h => (hzero h).symm⟩⟩
        · change s.counted ≤ p'
          omega
        · change p ≤ p'
          omega
      · next hpush =>
        split
        · next hdrop =>
          obtain ⟨rfl, hlast⟩ := hdrop
          obtain ⟨hbefore, hbegan, -⟩ := hs.pushed hnoop hlast
          refine ⟨?_, fun h => absurd hnoop h, fun _ h => absurd (show OP_DROP ≤ OP_PUSHDATA4 from h) (by decide)⟩
          change s.counted + (p' - s.dataBegan) ≤ p'
          omega
        · refine ⟨?_, fun h => absurd hnoop h, fun _ h => absurd h hpush⟩
          change s.counted ≤ p'
          omega

def total (counts : Nat × Nat) : Nat := counts.1 + counts.2

theorem dataDecided_total {counts : Nat × Nat} (h : dataDecided size opcode s = some counts) : total counts = size := by
  unfold dataDecided at h
  unfold total
  split_ifs at h
  · cases h
    exact Nat.zero_add size
  · cases h
    exact Nat.add_zero size

theorem dataLoop_total {pc : CScript} (hpc : pc.length ≤ size)
    (hs : ScanAt (size - pc.length) s) : total (dataLoop size fuel pc s) ≤ size := by
  have hdone : total (0, s.counted) ≤ size := by
    have hcounted := hs.counted
    unfold total
    omega
  induction fuel generalizing pc s with
  | zero => exact hdone
  | succ fuel ih =>
    unfold dataLoop
    split
    · exact hdone
    · split
      · exact (Nat.zero_add size).le
      · next opcode vch rest hop =>
        have hlt := getScriptOp_length hop
        split
        · next counts hdecided => exact (dataDecided_total hdecided).le
        · have hzero : opcode = OP_0 → size - rest.length = size - pc.length + 1 := by
            rintro rfl
            have hlen := congrArg length (getScriptOp_zero hop)
            rw [length_cons] at hlen
            omega
          have hnext := dataStep_scanAt hs (show size - pc.length < size - rest.length by omega) hzero
          refine ih (by omega) hnext ?_
          have hcounted := hnext.counted
          unfold total
          omega

theorem scriptDatacarrierBytes_total (h : isOLGA script remainingOutputs = 0) :
    total (scriptDatacarrierBytes script remainingOutputs) ≤ script.length := by
  unfold scriptDatacarrierBytes
  simp only [h]
  refine dataLoop_total le_rfl ⟨Nat.zero_le _, fun h => absurd rfl h, fun _ h => absurd h (by decide)⟩

theorem isOLGA_none (script : CScript) : isOLGA script 0 = 0 := by
  unfold isOLGA
  simp only
  rw [if_pos (Nat.succ_pos _)]
  exact ite_self 0

/-! ## The outputs -/

def isPayToWitnessScriptHash (script : CScript) : Bool :=
  script.length == 34 && byteAt script 0 == OP_0 && byteAt script 1 == 0x20

theorem dataLoop_step {pc rest : CScript} {vch : Valtype}
    (hop : getScriptOp pc = some (opcode, vch, rest)) (hdecided : dataDecided size opcode s = none) :
    dataLoop size (fuel + 1) pc s =
      dataLoop size fuel rest (dataStep (size - pc.length) (size - rest.length) opcode s) := by
  have hne : pc ≠ [] := by
    rintro rfl
    cases hop
  rw [dataLoop, if_neg hne, hop]
  simp only [hdecided]

theorem scriptDatacarrierBytes_scriptHash (hscript : isPayToWitnessScriptHash script = true)
    (h : isOLGA script remainingOutputs = 0) : total (scriptDatacarrierBytes script remainingOutputs) = 0 := by
  unfold isPayToWitnessScriptHash at hscript
  simp only [Bool.and_eq_true, beq_iff_eq] at hscript
  obtain ⟨⟨hlen, hversion⟩, hsize⟩ := hscript
  obtain ⟨version, size, program, rfl⟩ : ∃ version size program, script = version :: size :: program := by
    match script, hlen with
    | version :: size :: program, _ => exact ⟨version, size, program, rfl⟩
  simp only [byteAt, getD_cons_zero, getD_cons_succ, length_cons] at hversion hsize hlen
  subst hversion hsize
  have hlength : (0x20 : UInt8).toNat = 32 := rfl
  have hrest : program.drop 32 = [] := drop_eq_nil_of_le (by omega)
  have hfirst : getScriptOp (OP_0 :: 0x20 :: program) = some (OP_0, [], 0x20 :: program) :=
    getScriptOp_push (by simp only [length_cons]; omega) (by decide) (Nat.zero_le _)
  have hsecond : getScriptOp (0x20 :: program) = some (0x20, program.take 32, []) := by
    rw [getScriptOp_push (by omega) (by decide) (by omega), hlength, hrest]
  have hloop : dataLoop (program.length + 2) (program.length + 2) (OP_0 :: 0x20 :: program) {} = (0, 0) := by
    rw [dataLoop_step hfirst rfl, dataLoop_step hsecond rfl]
    cases program.length <;> rfl
  unfold scriptDatacarrierBytes
  simp only [h, ne_eq, not_true, if_false, length_cons]
  rw [hloop]
  rfl

theorem isOLGA_form (h : isOLGA script remainingOutputs ≠ 0) : isPayToWitnessScriptHash script = true ∧
    ∃ outputs, 0 < outputs ∧ outputs ≤ remainingOutputs ∧ isOLGA script remainingOutputs = outputs * 41 := by
  unfold isOLGA at h ⊢
  by_cases hform : script.length = 34 ∧ byteAt script 0 = OP_0 ∧ byteAt script 1 = 0x20
  · rw [if_neg (not_not.mpr hform)] at h ⊢
    simp only at h ⊢
    split_ifs at h ⊢ with hfew
    · exact absurd rfl h
    · exact absurd rfl h
    · exact absurd rfl h
    · refine ⟨by simp [isPayToWitnessScriptHash, hform], _, Nat.succ_pos _, not_lt.mp hfew, rfl⟩
  · rw [if_pos hform] at h
    exact absurd rfl h

/-- Headers claim outputs to witness script hashes, and no headers. -/
def ClaimsMet (vout : List CTxOut) : Prop :=
  ∀ i j header claimed, vout[i]? = some header → vout[j]? = some claimed → i < j →
    j < i + isOLGA header.scriptPubKey (vout.length - i) / 41 →
    isPayToWitnessScriptHash claimed.scriptPubKey = true ∧ isOLGA claimed.scriptPubKey (vout.length - j) = 0

theorem ClaimsMet.tail {txout : CTxOut} (h : ClaimsMet (txout :: vout)) : ClaimsMet vout := by
  intro i j header claimed hi hj hlt hclaim
  have hlen : ∀ k, (txout :: vout).length - (k + 1) = vout.length - k :=
      fun k => by rw [length_cons, Nat.add_sub_add_right]
  have hmet := h (i + 1) (j + 1) header claimed hi hj (by omega)
  rw [hlen, hlen] at hmet
  exact hmet (by omega)

def outputSize (txout : CTxOut) : Nat := (Wire.writeTxOut (toWireOutput txout)).length

theorem writeCompactSize_pos (n : Nat) : 0 < (Wire.writeCompactSize n).length := by
  unfold Wire.writeCompactSize
  split_ifs <;> simp [leBytes_length]

theorem outputSize_le (txout : CTxOut) : txout.scriptPubKey.length + 9 ≤ outputSize txout := by
  have hpos := writeCompactSize_pos txout.scriptPubKey.length
  unfold outputSize toWireOutput Wire.writeTxOut Wire.writeByteVector Wire.writeBits
  simp only [length_append, leBytes_length]
  omega

/-- The first `n` outputs were claimed, with 41 bytes of each left. -/
theorem outputBytes_total {n : Nat} (hn : n ≤ vout.length) (hmet : ClaimsMet vout)
    (hclaimed : ∀ j < n, ∀ claimed, vout[j]? = some claimed →
      isPayToWitnessScriptHash claimed.scriptPubKey = true ∧ isOLGA claimed.scriptPubKey (vout.length - j) = 0) :
    total (outputBytes vout) + 41 * n ≤ (vout.map outputSize).sum := by
  induction vout generalizing n with
  | nil =>
    have hzero : n = 0 := Nat.le_zero.mp hn
    subst hzero
    exact le_rfl
  | cons txout vout ih =>
    have hsize := outputSize_le txout
    have hsplit : total (outputBytes (txout :: vout)) =
        total (scriptDatacarrierBytes txout.scriptPubKey (vout.length + 1)) + total (outputBytes vout) := by
      simp only [total, outputBytes, addCounts]
      omega
    rw [hsplit, map_cons, sum_cons]
    have hlen : ∀ k, (txout :: vout).length - (k + 1) = vout.length - k :=
        fun k => by rw [length_cons, Nat.add_sub_add_right]
    cases n with
    | succ n =>
      obtain ⟨hscript, holga⟩ := hclaimed 0 (Nat.succ_pos n) txout rfl
      have hnone := scriptDatacarrierBytes_scriptHash hscript holga
      have hlength : txout.scriptPubKey.length = 34 := by
        unfold isPayToWitnessScriptHash at hscript
        simp only [Bool.and_eq_true, beq_iff_eq] at hscript
        exact hscript.1.1
      have hrest := ih (Nat.le_of_succ_le_succ hn) hmet.tail fun j hj claimed hget => by
        have hafter := hclaimed (j + 1) (by omega) claimed hget
        rwa [hlen] at hafter
      have hnone : total (scriptDatacarrierBytes txout.scriptPubKey (vout.length + 1)) = 0 := hnone
      omega
    | zero =>
      by_cases holga : isOLGA txout.scriptPubKey (vout.length + 1) = 0
      · have hown := scriptDatacarrierBytes_total holga
        have hrest := ih (Nat.zero_le _) hmet.tail fun j hj => absurd hj (Nat.not_lt_zero j)
        omega
      · obtain ⟨hscript, outputs, _, _, hcount⟩ := isOLGA_form holga
        have hown : total (scriptDatacarrierBytes txout.scriptPubKey (vout.length + 1)) = outputs * 41 := by
          unfold scriptDatacarrierBytes total
          simp only [holga, ne_eq, not_false_iff, if_true]
          omega
        have hlength : txout.scriptPubKey.length = 34 := by
          unfold isPayToWitnessScriptHash at hscript
          simp only [Bool.and_eq_true, beq_iff_eq] at hscript
          exact hscript.1.1
        have hrest := ih (n := outputs - 1) (by omega) hmet.tail fun j hj claimed hget => by
          have hafter := hmet 0 (j + 1) txout claimed rfl hget (Nat.succ_pos j) (by
            rw [Nat.sub_zero, length_cons, hcount, Nat.mul_div_cancel _ (by decide)]
            omega)
          rwa [hlen] at hafter
        omega

/-! ## The inputs -/

section Inputs

variable (crypto : Crypto)

theorem evalScriptSig_within {scriptSig : CScript} {stack : List Valtype}
    (h : evalScriptSig crypto scriptSig = some stack) : Within (max 32 scriptSig.length) stack := by
  have hrun := @evalScript_within _ .base (le_max_left 32 scriptSig.length) ⟨crypto, baseSignatureChecker⟩ ∅ _
      (le_max_right 32 _) {}
  unfold evalScriptSig at h
  split at h
  · next out execdata hout =>
    rw [hout] at hrun
    cases h
    exact hrun
  · cases h

theorem getScriptForTransactionInput_within (prevScript : CScript) (input : CTxIn × List Valtype) :
    (getScriptForTransactionInput crypto prevScript input).1.length ≤ max 32 input.1.scriptSig.length ∨
      (getScriptForTransactionInput crypto prevScript input).1 ∈ input.2 := by
  have hempty : ([] : CScript).length ≤ max 32 input.1.scriptSig.length := Nat.zero_le _
  unfold getScriptForTransactionInput
  simp only
  split
  · exact .inl hempty
  · next redeem hredeem =>
    split
    · left
      split
      · next hp2sh =>
        rw [if_pos hp2sh] at hredeem
        obtain ⟨stack, hstack, htop⟩ := Option.bind_eq_some_iff.mp hredeem
        exact evalScriptSig_within crypto hstack _ (mem_of_head? htop)
      · exact le_max_right _ _
    · split
      · split
        · exact .inl hempty
        · next script hlast => exact .inr (mem_of_getLast? hlast)
      · split
        · have hsub : (if input.2.length ≥ 2 ∧ (input.2.getLastD []).head? = some ANNEX_TAG then input.2.dropLast
              else input.2) ⊆ input.2 := by
            split
            · exact dropLast_subset _
            · exact List.Subset.refl _
          generalize (if input.2.length ≥ 2 ∧ (input.2.getLastD []).head? = some ANNEX_TAG then input.2.dropLast
            else input.2) = stack at hsub ⊢
          split
          · next hlen =>
            -- the script stands below the control block
            have hne : stack.dropLast ≠ [] := by
              intro hnil
              have hzero := congrArg length hnil
              rw [length_dropLast, length_nil] at hzero
              omega
            right
            rw [getLastD_eq_getLast?, getLast?_eq_some_getLast hne]
            exact hsub (mem_of_mem_dropLast (getLast_mem hne))
          · exact .inl hempty
        · exact .inl hempty

def inputCounts (coins : COutPoint → Option Coin) (input : CTxIn × List Valtype) : Nat × Nat :=
  scriptDatacarrierBytes (getScriptForTransactionInput crypto (prevOutput coins input.1).scriptPubKey input).1 0

theorem writeTxIn_le (input : CTxIn × List Valtype) :
    max 32 input.1.scriptSig.length ≤ (Wire.writeTxIn (toWireInput input)).length := by
  unfold Wire.writeTxIn Wire.writeOutPoint Wire.writeByteVector Wire.writeBits toWireInput
  simp only [length_append, leBytes_length]
  omega

theorem writeWitness_le {input : CTxIn × List Valtype} {script : CScript} (h : script ∈ input.2) :
    script.length ≤ (Wire.writeWitness (toWireInput input)).length := by
  unfold Wire.writeWitness Wire.writeVector
  have hwritten : (Wire.writeByteVector script).length ≤ (input.2.flatMap Wire.writeByteVector).length := by
    rw [flatMap_def]
    exact (sublist_flatten_of_mem (mem_map_of_mem h)).length_le
  have hscript : script.length ≤ (Wire.writeByteVector script).length := by
    unfold Wire.writeByteVector
    rw [length_append]
    exact Nat.le_add_left _ _
  rw [length_append]
  change script.length ≤ _ + (input.2.flatMap Wire.writeByteVector).length
  omega

theorem inputCounts_total (coins : COutPoint → Option Coin) (input : CTxIn × List Valtype) :
    total (inputCounts crypto coins input) ≤ (Wire.writeTxIn (toWireInput input)).length +
      (if input.2 = [] then 0 else (Wire.writeWitness (toWireInput input)).length) := by
  have hcount := scriptDatacarrierBytes_total
    (isOLGA_none (getScriptForTransactionInput crypto (prevOutput coins input.1).scriptPubKey input).1)
  have hsig := writeTxIn_le input
  unfold inputCounts
  rcases getScriptForTransactionInput_within crypto (prevOutput coins input.1).scriptPubKey input with hshort | hmem
  · omega
  · have hne : input.2 ≠ [] := ne_nil_of_mem hmem
    have hwitness := writeWitness_le hmem
    rw [if_neg hne]
    omega

end Inputs

/-! ## The transaction -/

theorem foldr_addCounts (counts : List (Nat × Nat)) (rest : Nat × Nat) :
    total (counts.foldr addCounts rest) = (counts.map total).sum + total rest := by
  induction counts with
  | nil => exact (Nat.zero_add _).symm
  | cons first counts ih =>
    rw [foldr_cons, map_cons, sum_cons, Nat.add_assoc, ← ih]
    simp only [total, addCounts]
    omega

theorem serialize_le (t : WitnessTx) : (t.inputs.map fun input => (Wire.writeTxIn (toWireInput input)).length +
    (if input.2 = [] then 0 else (Wire.writeWitness (toWireInput input)).length)).sum + (t.tx.vout.map outputSize).sum ≤
    (Wire.serializeTransaction true t.toMutable).length := by
  have hins : (Wire.writeVector Wire.writeTxIn t.toMutable.vin).length ≥
      (t.inputs.map fun input => (Wire.writeTxIn (toWireInput input)).length).sum := by
    simp only [Wire.writeVector, WitnessTx.toMutable, length_append, length_flatMap, map_map, Function.comp_def]
    omega
  have houts : (Wire.writeVector Wire.writeTxOut t.toMutable.vout).length ≥ (t.tx.vout.map outputSize).sum := by
    simp only [Wire.writeVector, WitnessTx.toMutable, length_append, length_flatMap, map_map, Function.comp_def]
    exact Nat.le_add_left _ _
  rw [sum_map_add]
  cases hwitness : t.toMutable.hasWitness with
  | false =>
    have hnone : ∀ input ∈ t.inputs, input.2 = [] := by
      intro input hinput
      have hany := any_eq_false.mp hwitness (toWireInput input) (mem_map_of_mem hinput)
      simpa [toWireInput] using hany
    have hzero : (t.inputs.map fun input =>
        if input.2 = [] then 0 else (Wire.writeWitness (toWireInput input)).length).sum = 0 := by
      refine sum_eq_zero fun size hsize => ?_
      obtain ⟨input, hinput, rfl⟩ := mem_map.mp hsize
      exact if_pos (hnone input hinput)
    unfold Wire.serializeTransaction
    simp only [length_append]
    omega
  | true =>
    have hwit : (t.inputs.map fun input =>
        if input.2 = [] then 0 else (Wire.writeWitness (toWireInput input)).length).sum ≤
        (t.toMutable.vin.flatMap Wire.writeWitness).length := by
      rw [length_flatMap, WitnessTx.toMutable, map_map]
      refine sum_le_sum fun input _ => ?_
      split
      · exact Nat.zero_le _
      · exact le_rfl
    unfold Wire.serializeTransaction
    simp only [hwitness, length_append, and_self, if_true]
    have hflag : (1 : UInt8) &&& 1 ≠ 0 := by decide
    rw [if_pos hflag]
    omega

/-- Where headers claim what is there, no byte is counted twice. -/
theorem datacarrierBytes_le (crypto : Crypto) (coins : COutPoint → Option Coin) (t : WitnessTx)
    (h : ClaimsMet t.tx.vout) :
    (datacarrierBytes crypto coins t).1 + (datacarrierBytes crypto coins t).2 ≤
    (Wire.serializeTransaction true t.toMutable).length := by
  have houts := outputBytes_total (Nat.zero_le t.tx.vout.length) h fun j hj => absurd hj (Nat.not_lt_zero j)
  have hins : ((t.inputs.map (inputCounts crypto coins)).map total).sum ≤
      (t.inputs.map fun input => (Wire.writeTxIn (toWireInput input)).length +
        (if input.2 = [] then 0 else (Wire.writeWitness (toWireInput input)).length)).sum := by
    rw [map_map]
    exact sum_le_sum fun input _ => inputCounts_total crypto coins input
  have hall := serialize_le t
  have hsum : total (datacarrierBytes crypto coins t) = _ :=
      foldr_addCounts (t.inputs.map (inputCounts crypto coins)) (outputBytes t.tx.vout)
  change total (datacarrierBytes crypto coins t) ≤ _
  omega

def stampHeader (size : UInt8) : CScript :=
  [0x00, 0x20, 0x00, size, 0x73, 0x74, 0x61, 0x6d, 0x70, 0x3a] ++ List.replicate 24 0

def keyHashCoins (o : COutPoint) : Option Coin :=
  if o = ⟨1, 0⟩ then some ⟨⟨100000, [0x00, 0x14] ++ List.replicate 20 7⟩, false, 500⟩ else none

def keyHashCrypto : Crypto :=
  ⟨fun _ => Vector.replicate 20 0, fun _ => Vector.replicate 20 0, fun _ => true, fun _ _ _ _ => true⟩

def keyHashSpend (vout : List CTxOut) : WitnessTx :=
  ⟨⟨[⟨⟨1, 0⟩, [], 0xfffffffd⟩], vout, 2, 0, 30⟩, [[List.replicate 72 1, List.replicate 33 2]], rfl⟩

/-- A stamp of two outputs. -/
theorem stamp_counted : (datacarrierBytes keyHashCrypto keyHashCoins
      (keyHashSpend [⟨1000, stampHeader 62⟩, ⟨1000, [0x00, 0x20] ++ List.replicate 32 9⟩])).1 +
    (datacarrierBytes keyHashCrypto keyHashCoins
      (keyHashSpend [⟨1000, stampHeader 62⟩, ⟨1000, [0x00, 0x20] ++ List.replicate 32 9⟩])).2 ≤
      (Wire.serializeTransaction true
        (keyHashSpend [⟨1000, stampHeader 62⟩, ⟨1000, [0x00, 0x20] ++ List.replicate 32 9⟩]).toMutable).length := by
  refine datacarrierBytes_le keyHashCrypto keyHashCoins _ fun i j header claimed hi hj hlt hclaim => ?_
  have hilt := (List.getElem?_eq_some_iff.mp hi).1
  have hjlt := (List.getElem?_eq_some_iff.mp hj).1
  simp only [keyHashSpend, length_cons, length_nil] at hilt hjlt
  obtain rfl : i = 0 := by omega
  obtain rfl : j = 1 := by omega
  cases hj
  exact ⟨by decide, by decide⟩

def stackedSpend : WitnessTx :=
  keyHashSpend [⟨1000, stampHeader 95⟩, ⟨1000, stampHeader 63⟩, ⟨1000, stampHeader 31⟩, ⟨1000, stampHeader 0⟩]

/-- Four headers claim four, three, two and one of four outputs. -/
theorem stacked_headers_overcounted : datacarrierBytes keyHashCrypto keyHashCoins stackedSpend = (0, 410) ∧
    (Wire.serializeTransaction true stackedSpend.toMutable).length = 333 ∧
    ¬ (datacarrierBytes keyHashCrypto keyHashCoins stackedSpend).1 +
      (datacarrierBytes keyHashCrypto keyHashCoins stackedSpend).2 ≤
      (Wire.serializeTransaction true stackedSpend.toMutable).length := by
  have hbytes : datacarrierBytes keyHashCrypto keyHashCoins stackedSpend = (0, 410) := by decide +kernel
  have hsize : (Wire.serializeTransaction true stackedSpend.toMutable).length = 333 := by decide +kernel
  refine ⟨hbytes, hsize, ?_⟩
  rw [hbytes, hsize]
  decide

end FullNode.Policy

import FullNode.CoinsRuns
import FullNode.InterpreterSafety
import FullNode.Policy
import FullNode.VerifyScript

/-!
# Outputs that nobody can spend

`AddCoin` skips a script that starts with `OP_RETURN` or is too long, and the scan of `DatacarrierBytes` stops at some
others.
-/

namespace FullNode.Script

open List

/-! ## What an opcode leaves alone -/

def Opcode.conditional : Opcode → Bool
  | .cond _ | .else_ | .endIf => true
  | _ => false

abbrev Returns {α : Type} (post : α → Prop) (x : Eval α) : Prop := Ensures (fun _ => True) post x

section Frame

variable {α β : Type} {post : β → Prop} {s : EvalState}

theorem returns_bind {x : Eval α} {f : α → Eval β} (hf : ∀ a, Returns post (f a)) : Returns post (x >>= f) := by
  cases x with
  | ok a => exact hf a
  | error h => trivial

def Framed (s s' : EvalState) : Prop := s'.pc = s.pc ∧ s'.vfExec = s.vfExec

theorem onStack_framed (f : List Valtype → Eval (List Valtype)) : Returns (Framed s) (s.onStack f) :=
  returns_bind fun _ => ⟨rfl, rfl⟩

theorem opToAltStack_framed : Returns (Framed s) (opToAltStack s) := by
  unfold opToAltStack
  refine returns_bind fun _ => ?_
  refine returns_bind fun _ => ?_
  exact returns_bind fun _ => ⟨rfl, rfl⟩

theorem opFromAltStack_framed : Returns (Framed s) (opFromAltStack s) := by
  unfold opFromAltStack
  refine returns_bind fun _ => ?_
  refine returns_bind fun _ => ?_
  exact returns_bind fun _ => ⟨rfl, rfl⟩

variable (v : Verifier)

variable (flags : Flags) (sv : SigVersion)
include flags sv

theorem opCheckSig_framed (verify : Bool) :
    Returns (Framed s) (opCheckSig v flags sv verify s) := by
  unfold opCheckSig
  iterate 6 refine returns_bind fun _ => ?_
  exact returns_bind fun _ => ⟨rfl, rfl⟩

theorem opCheckSigAdd_framed : Returns (Framed s) (opCheckSigAdd v flags sv s) := by
  unfold opCheckSigAdd
  repeat refine returns_bind fun _ => ?_
  exact ⟨rfl, rfl⟩

theorem opCheckMultiSig_framed (verify : Bool) :
    Returns (Framed s) (opCheckMultiSig v flags sv verify s) := by
  unfold opCheckMultiSig
  repeat refine returns_bind fun _ => ?_
  exact ⟨rfl, rfl⟩

theorem execOp_framed (fExec : Bool) {op : Opcode}
    (hop : op.conditional = false) : Returns (Framed s) (execOp v flags sv fExec s op) := by
  cases op with
  | cond negated | else_ | endIf => cases hop
  | number n => exact onStack_framed fun stack => .ok (serialize n :: stack)
  | nop | codeSeparator => exact ⟨rfl, rfl⟩
  | return_ => trivial
  | unknown => trivial
  | checkLockTimeVerify | checkSequenceVerify | upgradableNop => exact returns_bind fun _ => ⟨rfl, rfl⟩
  | toAltStack => exact opToAltStack_framed
  | fromAltStack => exact opFromAltStack_framed
  | checkSig verify => exact opCheckSig_framed v flags sv verify
  | checkSigAdd => exact opCheckSigAdd_framed v flags sv
  | checkMultiSig verify => exact opCheckMultiSig_framed v flags sv verify
  | _ => exact onStack_framed _

omit flags sv

theorem pushValue_framed (flags : Flags) (opcode : UInt8) (vch : Valtype) :
    Returns (Framed s) (pushValue flags opcode vch s) := by
  unfold pushValue
  split
  · refine returns_bind fun _ => ?_
    exact returns_bind fun _ => ⟨rfl, rfl⟩
  · exact ⟨rfl, rfl⟩

end Frame

/-! ## The depth of the conditionals -/

/-- `d` conditionals are open, and the first false one is among them. -/
structure Depth (c : ConditionStack) (d : Nat) : Prop where
  size : c.stackSize.toNat = d
  firstFalse : c.firstFalsePos = ConditionStack.NO_FALSE ∨ c.firstFalsePos.toNat < d

section Conditions

variable {c : ConditionStack} {d : Nat}

theorem Depth.empty_iff (h : Depth c d) : c.empty = true ↔ d = 0 := by
  unfold ConditionStack.empty
  rw [beq_iff_eq, ← h.size]
  exact ⟨fun hzero => by rw [hzero]; rfl, fun hzero => BitVec.eq_of_toNat_eq hzero⟩

theorem Depth.allTrue (h : Depth c 0) : c.allTrue = true := by
  unfold ConditionStack.allTrue
  rcases h.firstFalse with hnone | hlt
  · rw [hnone, beq_self_eq_true]
  · exact absurd hlt (Nat.not_lt_zero _)

theorem Depth.pushBack (h : Depth c d) (hd : d + 1 < 2 ^ 32) (f : Bool) : Depth (c.pushBack f) (d + 1) := by
  have hsize := h.size
  unfold ConditionStack.pushBack
  refine ⟨?_, ?_⟩
  · show (c.stackSize + 1).toNat = d + 1
    rw [BitVec.toNat_add, hsize]
    exact Nat.mod_eq_of_lt hd
  · show (if c.firstFalsePos = ConditionStack.NO_FALSE ∧ ¬ f then c.stackSize else c.firstFalsePos) = _ ∨ _
    split
    · exact .inr (show c.stackSize.toNat < d + 1 by omega)
    · rcases h.firstFalse with hnone | hlt
      · exact .inl hnone
      · exact .inr (show c.firstFalsePos.toNat < d + 1 by omega)

theorem Depth.last (h : Depth c (d + 1)) : (c.stackSize - 1).toNat = d := by
  have hsize := h.size
  rw [BitVec.toNat_sub, hsize]
  show (2 ^ 32 - 1 + (d + 1)) % 2 ^ 32 = d
  omega

variable {c' : ConditionStack} {s : EvalState}

theorem Depth.popBack (h : Depth c (d + 1)) (hpop : c.popBack = .ok c') : Depth c' d := by
  have hlast := h.last
  unfold ConditionStack.popBack at hpop
  split at hpop
  · cases hpop
  · cases hpop
    refine ⟨hlast, ?_⟩
    show (if c.firstFalsePos = c.stackSize - 1 then ConditionStack.NO_FALSE else c.firstFalsePos) = _ ∨ _
    split
    · exact .inl rfl
    · next hne =>
      rcases h.firstFalse with hnone | hlt
      · exact .inl hnone
      · have hother : c.firstFalsePos.toNat ≠ (c.stackSize - 1).toNat := fun heq => hne (BitVec.eq_of_toNat_eq heq)
        exact .inr (show c.firstFalsePos.toNat < d by omega)

theorem Depth.toggleTop (h : Depth c d) (htoggle : c.toggleTop = .ok c') : Depth c' d := by
  unfold ConditionStack.toggleTop at htoggle
  split at htoggle
  · cases htoggle
  · next hne =>
    cases d with
    | zero => exact absurd (BitVec.eq_of_toNat_eq h.size) hne
    | succ d =>
      have hlast := h.last
      split at htoggle
      · cases htoggle
        exact ⟨h.size, .inr (by show (c.stackSize - 1).toNat < d + 1; omega)⟩
      · split at htoggle
        · cases htoggle
          exact ⟨h.size, .inl rfl⟩
        · cases htoggle
          exact h

theorem opIf_depth (h : Depth s.vfExec d) (hd : d + 1 < 2 ^ 32) (flags : Flags) (sv : SigVersion)
    (negated fExec : Bool) :
    Returns (fun s' => s'.pc = s.pc ∧ Depth s'.vfExec (d + 1)) (opIf flags sv negated fExec s) := by
  unfold opIf
  split
  · refine returns_bind fun _ => ?_
    refine returns_bind fun _ => ?_
    refine returns_bind fun _ => ?_
    exact returns_bind fun _ => ⟨rfl, h.pushBack hd _⟩
  · exact ⟨rfl, h.pushBack hd false⟩

theorem opElse_depth (h : Depth s.vfExec d) : Returns (fun s' => s'.pc = s.pc ∧ Depth s'.vfExec d) (opElse s) := by
  unfold opElse
  refine returns_bind fun _ => ?_
  cases htoggle : s.vfExec.toggleTop with
  | error e => trivial
  | ok c => exact ⟨rfl, h.toggleTop htoggle⟩

theorem opEndIf_depth (h : Depth s.vfExec d) :
    Returns (fun s' => s'.pc = s.pc ∧ 0 < d ∧ Depth s'.vfExec (d - 1)) (opEndIf s) := by
  unfold opEndIf
  cases d with
  | zero =>
    rw [failIf, if_pos (h.empty_iff.mpr rfl)]
    trivial
  | succ d =>
    refine returns_bind fun _ => ?_
    cases hpop : s.vfExec.popBack with
    | error e => trivial
    | ok c => exact ⟨rfl, Nat.succ_pos d, h.popBack hpop⟩

end Conditions

/-! ## One opcode -/

theorem label_conditional {opcode : UInt8} (h : (label opcode).conditional = true) :
    opcode = 0x63 ∨ opcode = 0x64 ∨ opcode = 0x67 ∨ opcode = 0x68 := by
  have hall : ∀ entry ∈ labels, entry.2.conditional = true →
      entry.1 = 0x63 ∨ entry.1 = 0x64 ∨ entry.1 = 0x67 ∨ entry.1 = 0x68 := by decide
  unfold label at h
  cases hlookup : labels.lookup opcode with
  | none => rw [hlookup] at h; cases h
  | some op =>
    rw [hlookup] at h
    obtain ⟨_, _, hlabels, -⟩ := lookup_eq_some_iff.mp hlookup
    exact hall (opcode, op) (by rw [hlabels]; simp) h

end FullNode.Script

namespace FullNode.Policy

open Script List

variable {v : Verifier} {flags : Flags}

variable {opcode : UInt8} {d : Nat} {s : EvalState} {vch : Valtype} {rest script : CScript} {α : Type}
  {post : α → Prop} {x : Eval α}

theorem nested_of_conditional (h : (label opcode).conditional = false) : nested opcode d = d := by
  unfold nested
  rw [if_neg, if_neg]
  · rintro rfl
    exact absurd h (by decide)
  · rintro (rfl | rfl)
    · exact absurd h (by decide)
    · exact absurd h (by decide)

/-- An opcode changes the depth as the scan counts it. -/
theorem runOp_depth (vch : Valtype) (hdepth : Depth s.vfExec d) (hd : d + 1 < 2 ^ 32) :
    Returns (fun s' => s'.pc = s.pc ∧ Depth s'.vfExec (nested opcode d)) (runOp v flags .base opcode vch s) := by
  cases hcond : (label opcode).conditional with
  | false =>
    rw [nested_of_conditional hcond]
    have hframed : Returns (Framed s) (runOp v flags .base opcode vch s) := by
      unfold runOp
      simp only
      split
      · exact pushValue_framed flags opcode vch
      · split
        · exact execOp_framed v flags .base _ hcond
        · exact ⟨rfl, rfl⟩
    exact hframed.mono fun s' hs' => ⟨hs'.1, hs'.2 ▸ hdepth⟩
  | true =>
    -- the conditionals are executed even where nothing else is
    have hrun : runOp v flags .base opcode vch s = execOp v flags .base s.vfExec.allTrue s (label opcode) := by
      unfold runOp
      rcases label_conditional hcond with rfl | rfl | rfl | rfl <;>
        exact (if_neg (fun h => absurd h.2 (by decide))).trans (if_pos (.inr (by decide)))
    rw [hrun]
    rcases label_conditional hcond with rfl | rfl | rfl | rfl
    · exact opIf_depth hdepth hd flags .base false _
    · exact opIf_depth hdepth hd flags .base true _
    · exact opElse_depth hdepth
    · exact (opEndIf_depth hdepth).mono fun s' hs' => ⟨hs'.1, hs'.2.2⟩

theorem runOp_decided (vch : Valtype) (hdepth : Depth s.vfExec 0)
    (hop : opcode = OP_ENDIF ∨ opcode = opReturn) : Returns (fun _ => False) (runOp v flags .base opcode vch s) := by
  unfold runOp
  rw [hdepth.allTrue]
  rcases hop with rfl | rfl
  · exact (opEndIf_depth hdepth).mono fun s' hs' => absurd hs'.2.1 (Nat.lt_irrefl 0)
  · trivial

theorem evalStep_depth (hop : getScriptOp s.pc = some (opcode, vch, rest)) (hdepth : Depth s.vfExec d)
    (hd : d + 1 < 2 ^ 32) :
    Returns (fun s' => s'.pc = rest ∧ Depth s'.vfExec (nested opcode d)) (evalStep v flags .base s) := by
  unfold evalStep
  rw [hop]
  simp only
  iterate 4 refine returns_bind fun _ => ?_
  have hread : Depth ({ s with pc := rest, nOpCount := countOp .base opcode s.nOpCount } : EvalState).vfExec d := hdepth
  refine (runOp_depth vch hread hd).bind fun s' hs' => ?_
  exact returns_bind fun _ => hs'

theorem evalStep_decided (hop : getScriptOp s.pc = some (opcode, vch, rest)) (hdepth : Depth s.vfExec 0)
    (hdecides : opcode = OP_ENDIF ∨ opcode = opReturn) :
    Returns (fun _ => False) (evalStep v flags .base s) := by
  unfold evalStep
  rw [hop]
  simp only
  iterate 4 refine returns_bind fun _ => ?_
  have hread : Depth ({ s with pc := rest, nOpCount := countOp .base opcode s.nOpCount } : EvalState).vfExec 0 := hdepth
  exact (runOp_decided vch hread hdecides).bind fun s' hs' => hs'.elim

/-! ## The scan -/

/-- What a return from inside the loop of `DatacarrierBytes` gives. -/
def dataEarly (size : Nat) : Nat → CScript → DataScan → Option (Nat × Nat)
  | 0, _, _ => none
  | fuel + 1, pc, s =>
    if pc = [] then none
    else
      match getScriptOp pc with
      | none => some (0, size)
      | some (opcode, _, rest) =>
        match dataDecided size opcode s with
        | some counts => some counts
        | none => dataEarly size fuel rest (dataStep (size - pc.length) (size - rest.length) opcode s)

/-- The scan of `DatacarrierBytes(0)` returns from inside its loop. -/
def ReturnsEarly (script : CScript) : Prop := (dataEarly script.length script.length script {}).isSome = true

theorem dataDecided_some {size : Nat} {s : DataScan} {counts : Nat × Nat}
    (h : dataDecided size opcode s = some counts) : (opcode = OP_ENDIF ∨ opcode = opReturn) ∧
      s.insideConditional = 0 := by
  unfold dataDecided at h
  split at h
  · next hend => exact ⟨.inl hend.1, hend.2⟩
  · split at h
    · next hreturn => exact ⟨.inr hreturn.1, hreturn.2⟩
    · cases h

theorem dataStep_insideConditional (opcodeIt it : Nat) (opcode : UInt8) (s : DataScan) :
    (dataStep opcodeIt it opcode s).insideConditional = nested opcode s.insideConditional := by
  unfold dataStep
  simp only
  split_ifs <;> rfl

theorem evalLoop_of_early {size fuel : Nat} {scan : DataScan} (hdepth : Depth s.vfExec scan.insideConditional)
    (hd : s.pc.length + scan.insideConditional < 2 ^ 32) (h : (dataEarly size fuel s.pc scan).isSome = true) :
    Returns (fun _ => False) (evalLoop v flags .base fuel s) := by
  induction fuel generalizing s scan with
  | zero => cases h
  | succ fuel ih =>
    unfold dataEarly at h
    unfold evalLoop
    split at h
    · cases h
    next hne =>
    rw [if_neg hne]
    cases hop : getScriptOp s.pc with
    | none =>
      unfold evalStep
      rw [hop]
      trivial
    | some read =>
      obtain ⟨opcode, _, _⟩ := read
      have hlt := getScriptOp_length hop
      rw [hop] at h
      simp only at h
      cases hdecided : dataDecided size opcode scan with
      | some counts =>
        obtain ⟨hdecides, hzero⟩ := dataDecided_some hdecided
        rw [hzero] at hdepth
        exact (evalStep_decided hop hdepth hdecides).bind fun s' hs' => hs'.elim
      | none =>
        rw [hdecided] at h
        refine (evalStep_depth hop hdepth (by omega)).bind fun s' hs' => ?_
        have hnested : nested opcode scan.insideConditional ≤ scan.insideConditional + 1 := by
          unfold nested
          split_ifs <;> omega
        refine ih ((dataStep_insideConditional _ _ opcode scan).symm ▸ hs'.2) ?_ (hs'.1.symm ▸ h)
        rw [dataStep_insideConditional, hs'.1]
        omega

/-! ## Whole scripts -/

def ScriptFails (h : Halt) : Prop := ∃ e, h = .error e

theorem returns_catchAll (h : Returns post x) : Returns post (catchAll x) := by
  unfold catchAll
  split
  · trivial
  · trivial
  · trivial
  · exact h

theorem catchAll_fails {w : Bool} (h : Ensures (Tame .base w) post x) :
    Ensures ScriptFails post (catchAll x) := by
  unfold catchAll
  split
  · exact ⟨_, rfl⟩
  · exact ⟨_, rfl⟩
  · exact ⟨_, rfl⟩
  · next hnum _ _ =>
    cases x with
    | ok a => exact h
    | error halt =>
      cases halt with
      | error e => exact ⟨e, rfl⟩
      | scriptNumError => exact absurd rfl hnum
      | fault f =>
        cases f with
        | sigVersion => cases h
        | weightNotSet => cases h.1
        | _ => exact h.elim

theorem failIf_fails {c : Prop} [Decidable c] {e : ScriptError} : Ensures ScriptFails (fun _ => True) (failIf c e) := by
  unfold failIf
  split
  · exact ⟨e, rfl⟩
  · trivial

theorem evalScript_base (v : Verifier) (flags : Flags) {stack : List Valtype} (hcount : stack.length ≤ MAX_STACK_SIZE)
    (hsize : Script.Small stack) (script : CScript) :
    Ensures ScriptFails (fun r => r.1.length ≤ MAX_STACK_SIZE ∧ Script.Small r.1)
      (evalScript v flags .base stack script {}) := by
  unfold evalScript
  rw [if_neg (by decide)]
  refine failIf_fails.bind fun _ _ => ?_
  have hstart : Bounded ({} : ScriptExecutionData).validationWeightLeft.isSome (.start script stack {}) :=
      start_bounded hcount hsize
  refine (catchAll_fails (evalLoop_safe v flags le_rfl hstart)).bind fun s hs => ?_
  refine failIf_fails.bind fun _ _ => ?_
  exact ⟨(Nat.le_add_right _ _).trans hs.count, hs.stack⟩

theorem returnsEarly_of_return (h : (opReturn :: rest).length ≤ maxScriptSize) : ReturnsEarly (opReturn :: rest) := by
  have hop : getScriptOp (opReturn :: rest) = some (opReturn, [], rest) := by
    unfold maxScriptSize at h
    have hleft : left (opReturn :: rest) = (opReturn :: rest).length := Int.bmod_eq_of_le (by omega) (by omega)
    rw [getScriptOp, if_neg, if_neg (by decide)]
    rw [hleft, length_cons]
    omega
  unfold ReturnsEarly
  rw [length_cons, dataEarly, if_neg (cons_ne_nil _ _), hop]
  rfl

theorem evalScript_of_stop (h : isUnspendable script = true ∨ ReturnsEarly script) (v : Verifier) (flags : Flags)
    (stack : List Valtype) : Returns (fun _ => False) (evalScript v flags .base stack script {}) := by
  unfold evalScript
  rw [if_neg (by decide)]
  by_cases hlong : script.length > MAX_SCRIPT_SIZE
  · rw [failIf, if_pos ⟨rfl, hlong⟩]
    trivial
  · refine returns_bind fun _ => ?_
    have hshort : script.length ≤ 10000 := not_lt.mp hlong
    have hearly : ReturnsEarly script := by
      rcases h with hunspendable | hearly
      · unfold isUnspendable at hunspendable
        rw [Bool.or_eq_true, decide_eq_true_eq] at hunspendable
        rcases hunspendable with hhead | hsize
        · obtain ⟨_, rfl⟩ := head?_eq_some_iff.mp (beq_iff_eq.mp hhead)
          exact returnsEarly_of_return hshort
        · exact absurd hsize (not_lt.mpr hshort)
      · exact hearly
    have hdepth : Depth (EvalState.start script stack {}).vfExec ({} : DataScan).insideConditional := ⟨rfl, .inl rfl⟩
    have hloop : Returns (fun _ => False) (evalLoop v flags .base script.length (.start script stack {})) :=
      evalLoop_of_early hdepth (show script.length + 0 < 2 ^ 32 by omega) hearly
    exact (returns_catchAll hloop).bind fun s hs => hs.elim

theorem scanOps_total (stop : UInt8 → Option α) (bad done : α) {fuel : Nat} {pc : CScript} (hfuel : pc.length < fuel) :
    Ensures ScriptFails (fun _ => True) (scanOps stop bad done fuel pc) := by
  induction fuel generalizing pc with
  | zero => omega
  | succ fuel ih =>
    unfold scanOps
    split
    · trivial
    · split
      · trivial
      · next hop =>
        have hlt := getScriptOp_length hop
        split
        · trivial
        · exact ih (by omega)

theorem checkPushOnly_fails (flags : Flags) (scriptSig : CScript) :
    Ensures ScriptFails (fun _ => True) (checkPushOnly flags scriptSig) := by
  unfold checkPushOnly
  split
  · exact (scanOps_total _ _ _ (Nat.lt_succ_self _)).bind fun _ _ => failIf_fails
  · trivial

theorem verifyScript_of_stop (h : isUnspendable script = true ∨ ReturnsEarly script) (v : Verifier) (flags : Flags)
    (scriptSig : CScript) (witness : Option (List Valtype)) :
    ∃ e, verifyScript v flags scriptSig script witness = .error (.error e) := by
  have hfails : Ensures ScriptFails (fun _ => False) (verifyScript v flags scriptSig script witness) := by
    unfold verifyScript
    simp only
    refine (checkPushOnly_fails flags scriptSig).bind fun _ _ => ?_
    refine (evalScript_base v flags (Nat.zero_le _) (by simp [Script.Small]) scriptSig).bind fun r hr => ?_
    have hscript : Ensures ScriptFails (fun _ => False) (evalScript v flags .base r.1 script {}) := by
      have hstop := evalScript_of_stop h v flags r.1
      have hbase := evalScript_base v flags hr.1 hr.2 script
      cases hrun : evalScript v flags .base r.1 script {} with
      | ok r' => rw [hrun] at hstop; exact hstop
      | error halt => rw [hrun] at hbase; exact hbase
    exact hscript.bind fun _ hfalse => hfalse.elim
  cases hrun : verifyScript v flags scriptSig script witness with
  | ok u => rw [hrun] at hfails; exact hfails.elim
  | error halt =>
    rw [hrun] at hfails
    obtain ⟨e, rfl⟩ := hfails
    exact ⟨e, rfl⟩

/-! ## Skipped coins -/

/-- The inputs are there and pass, with the rules on coins. -/
def ValidOver (verifier : Nat → Coin → Verifier) (flags : Flags) (rules : List Coin → Prop)
    (coins : COutPoint → Option Coin) (t : WitnessTx) : Prop :=
  ∃ spent : List Coin, List.Forall₂ (fun input coin => coins input.1.prevout = some coin) t.inputs spent ∧
    List.Forall₂ (fun entry coin => verifyScript (verifier entry.2 coin) flags entry.1.1.scriptSig coin.out.scriptPubKey
      (some entry.1.2) = .ok ()) t.inputs.zipIdx spent ∧ rules spent

def SameSpendable (coins coins' : COutPoint → Option Coin) : Prop :=
  ∀ o coin, isUnspendable coin.out.scriptPubKey = false → (coins o = some coin ↔ coins' o = some coin)

section Coins

variable {verifier : Nat → Coin → Verifier} {rules : List Coin → Prop} {coins coins' : COutPoint → Option Coin}
  {t : WitnessTx}

theorem ValidOver.of_sameSpendable (h : SameSpendable coins coins') (hvalid : ValidOver verifier flags rules coins t) :
    ValidOver verifier flags rules coins' t := by
  obtain ⟨spent, hthere, hpass, hrules⟩ := hvalid
  refine ⟨spent, ?_, hpass, hrules⟩
  rw [forall₂_iff_get] at hthere hpass ⊢
  refine ⟨hthere.1, fun i hi hi' => ?_⟩
  refine (h _ _ ?_).mp (hthere.2 i hi hi')
  rw [← Bool.not_eq_true]
  intro hunspendable
  obtain ⟨_, hfails⟩ := verifyScript_of_stop (.inl hunspendable)
      (verifier (t.inputs.zipIdx.get ⟨i, by simpa using hi⟩).2 (spent.get ⟨i, hi'⟩))
    flags (t.inputs.zipIdx.get ⟨i, by simpa using hi⟩).1.1.scriptSig
      (some (t.inputs.zipIdx.get ⟨i, by simpa using hi⟩).1.2)
  rw [hpass.2 i (by simpa using hi) hi'] at hfails
  cases hfails

/-- `AddCoin` may skip the coin: the same is valid. -/
theorem addCoin_sameSpendable {view : CoinsView} {o : COutPoint} {coin : Coin} {overwrite : Bool}
    (hview : view.Valid) (hne : view.caches ≠ []) (hun : coin.isSpent = false)
    (hshow : overwrite = false → view.peek o = none)
    (hsame : ∀ old, view.peek o = some old → old.out.scriptPubKey = coin.out.scriptPubKey) (allocated : Nat) :
    SameSpendable (view.addCoin o coin allocated overwrite).2.peek (Function.update view.peek o (some coin)) := by
  obtain ⟨-, -, -, hpeek⟩ := CoinsView.addCoin_spec hview hne hun allocated hshow
  intro o' coin' hspendable
  rw [hpeek, Function.update_apply]
  by_cases ho : o' = o
  · subst ho
    cases hscript : isUnspendable coin.out.scriptPubKey with
    | false => simp
    | true =>
      simp only [Bool.true_eq_false, and_false, if_false, if_true, Option.some.injEq]
      refine iff_of_false (fun hold => ?_) fun hcoin => ?_
      · rw [hsame coin' hold, hscript] at hspendable
        cases hspendable
      · rw [← hcoin, hscript] at hspendable
        cases hspendable
  · rw [if_neg fun h => ho h.1, if_neg ho]

end Coins

/-- No input spends a script that is unspendable or stops the scan. -/
theorem unspendable_never_spent :
    (∀ script, isUnspendable script = true ∨ ReturnsEarly script → ∀ v flags scriptSig witness,
    ∃ e, verifyScript v flags scriptSig script witness = .error (.error e)) ∧
    (∀ (view : CoinsView) o coin allocated overwrite, view.Valid → view.caches ≠ [] → coin.isSpent = false →
      (overwrite = false → view.peek o = none) →
        (∀ old, view.peek o = some old → old.out.scriptPubKey = coin.out.scriptPubKey) →
      ∀ verifier flags rules t, ValidOver verifier flags rules (view.addCoin o coin allocated overwrite).2.peek t ↔
          ValidOver verifier flags rules (Function.update view.peek o (some coin)) t) := by
  refine ⟨fun script h => verifyScript_of_stop h, ?_⟩
  intro view o coin allocated overwrite hview hne hun hshow hsame verifier flags rules t
  have hspendable := addCoin_sameSpendable hview hne hun hshow hsame allocated
  exact ⟨ValidOver.of_sameSpendable hspendable, ValidOver.of_sameSpendable fun o coin h => (hspendable o coin h).symm⟩

def returnCoin : Coin := ⟨⟨5, [0x6a]⟩, false, 1⟩
def returnSpend : WitnessTx := bareTx ⟨[⟨CoinsView.someOutpoint, [0x51], 0⟩], [], 2, 0, 7⟩

/-- An `OP_RETURN` behind an `OP_1`, and a coin that starts with one. -/
theorem return_never_spent : (∃ e, verifyScript baseVerifier {.p2sh} [0x51] [0x51, 0x6a] none = .error (.error e)) ∧
    (ValidOver (fun _ _ => baseVerifier) ∅ (fun _ => True)
        ((CoinsView.start 1 CoinsView.emptyBase).addCoin CoinsView.someOutpoint returnCoin 0 false).2.peek returnSpend ↔
      ValidOver (fun _ _ => baseVerifier) ∅ (fun _ => True)
        (Function.update (CoinsView.start 1 CoinsView.emptyBase).peek CoinsView.someOutpoint (some returnCoin))
          returnSpend) := by
  have hbase : CoinsView.BaseUnspent CoinsView.emptyBase := by
    intro o coin h
    simp [CoinsView.emptyBase] at h
  have hpeek : (CoinsView.start 1 CoinsView.emptyBase).peek CoinsView.someOutpoint = none := rfl
  refine ⟨unspendable_never_spent.1 [0x51, 0x6a] (.inr ?_) baseVerifier {.p2sh} [0x51] none, ?_⟩
  · unfold ReturnsEarly
    decide
  · exact unspendable_never_spent.2 _ _ _ 0 false (CoinsView.start_valid 1 hbase) (cons_ne_nil _ _) rfl (fun _ => hpeek)
      (fun old hold => by rw [hpeek] at hold; cases hold) _ _ _ _

end FullNode.Policy

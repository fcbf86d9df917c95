import FullNode.Interpreter

/-!
# The interpreter is safe

Every place an opcode reads on the stacks is there, no number overflows, and every loop ends.
The stacks stay within their limits from one opcode to the next.
-/

namespace FullNode.Script

open List ConditionStack

/-- The key-path version, and a signature without a weight. -/
def Expected (sv : SigVersion) (weightSet : Bool) : ScriptFault → Prop
  | .sigVersion => sv = .taproot
  | .weightNotSet => sv = .tapscript ∧ weightSet = false
  | _ => False

/-- A script may fail, or throw `scriptnum_error`. -/
def Tame (sv : SigVersion) (weightSet : Bool) : Halt → Prop
  | .error _ => True
  | .scriptNumError => True
  | .fault f => Expected sv weightSet f

def Small (stack : List Valtype) : Prop := ∀ vch ∈ stack, vch.length ≤ MAX_SCRIPT_ELEMENT_SIZE

def Within (b : Nat) (stack : List Valtype) : Prop := ∀ vch ∈ stack, vch.length ≤ b

variable {stack : List Valtype} {vch : Valtype} {pc rest : CScript} {opcode : UInt8} {w : Bool} {sv : SigVersion}

theorem Within.of_subset {b : Nat} {out : List Valtype} (h : Within b stack) (hsub : out ⊆ stack) : Within b out :=
  fun vch hvch => h vch (hsub hvch)

theorem Within.cons {b : Nat} (h : Within b stack) (hvch : vch.length ≤ b) : Within b (vch :: stack) := by
  intro x hx
  rcases mem_cons.mp hx with rfl | hx
  · exact hvch
  · exact h x hx

/-! ## Sizes of what is pushed -/

theorem absBytes_length (fuel n : Nat) : (absBytes fuel n).length ≤ fuel := by
  induction fuel generalizing n with
  | zero => simp [absBytes]
  | succ fuel ih =>
    unfold absBytes
    split
    · simp
    · simpa using ih _

theorem serialize_length (n : Int) : (serialize n).length ≤ 9 := by
  have h := absBytes_length 8 n.natAbs
  unfold serialize
  simp only
  split_ifs <;> simp <;> omega

theorem serialize_short (n : Int) : (serialize n).length ≤ 32 := (serialize_length n).trans (by decide)

theorem ofBool_short (b : Bool) : (ofBool b).length ≤ 32 := by
  cases b <;> decide

theorem hashOf_short (crypto : Crypto) (vch : Valtype) (op : HashOp) : (hashOf crypto vch op).length ≤ 32 := by
  cases op <;> simp [hashOf, sha256_length]

/-! ## Numbers -/

theorem setVch_lt (vch : Valtype) : (setVch vch).natAbs < 256 ^ vch.length := by
  have h := leValue_lt vch
  unfold setVch
  split
  · exact Nat.pow_pos (by decide)
  · split
    · omega
    · omega

section Rules

variable {sv : SigVersion} {w : Bool} {b : Nat} {α β : Type} {post : β → Prop}

/-! ## Rules for the steps of an opcode -/

variable {e : ScriptError} {stack : List Valtype} {i : Nat} {vch : Valtype}

theorem failIf_then {c : Prop} [Decidable c] {f : Unit → Eval β}
    (h : ¬ c → Ensures (Tame sv w) post (f ())) : Ensures (Tame sv w) post (failIf c e >>= f) := by
  unfold failIf
  split
  · exact trivial
  · next hc => exact h hc

theorem failIf_safe {c : Prop} [Decidable c] : Ensures (Tame sv w) (fun _ => True) (failIf c e) := by
  unfold failIf
  split
  · exact trivial
  · trivial

theorem stackTop_then {f : Valtype → Eval β} (hi : 0 < i ∧ i ≤ stack.length)
    (h : ∀ vch ∈ stack, Ensures (Tame sv w) post (f vch)) : Ensures (Tame sv w) post (stackTop stack i >>= f) := by
  obtain ⟨i, rfl⟩ := Nat.exists_eq_succ_of_ne_zero hi.1.ne'
  have hlt : i < stack.length := hi.2
  unfold stackTop
  simp only [getElem?_eq_getElem hlt]
  exact h _ (getElem_mem hlt)

theorem popStack_safe (hlen : 0 < stack.length) :
    Ensures (Tame sv w) (fun out => out ⊆ stack ∧ stack.length = out.length + 1) (popStack stack) := by
  cases stack with
  | nil => simp at hlen
  | cons vch rest => exact ⟨subset_cons_self vch rest, rfl⟩

theorem popStack_then {f : List Valtype → Eval β} (hlen : 0 < stack.length)
    (h : ∀ out, out ⊆ stack → stack.length = out.length + 1 → Ensures (Tame sv w) post (f out)) :
    Ensures (Tame sv w) post (popStack stack >>= f) :=
  (popStack_safe hlen).bind fun out hout => h out hout.1 hout.2

theorem scriptNum_then {fRequireMinimal : Bool} {k : Nat} {f : Int → Eval β}
    (h : ∀ n : Int, n.natAbs < 256 ^ k → Ensures (Tame sv w) post (f n)) :
    Ensures (Tame sv w) post (scriptNum vch fRequireMinimal k >>= f) := by
  unfold scriptNum
  split
  · exact trivial
  · next hlen =>
    split
    · exact trivial
    · exact h _ ((setVch_lt vch).trans_le (Nat.pow_le_pow_right (by decide) (not_lt.mp hlen)))

theorem int64_safe {n : Int} (h : n.natAbs < 2 ^ 63) : Ensures (Tame sv w) (fun _ => True) (int64 n) := by
  unfold int64 INT64_MIN INT64_MAX
  rw [if_pos (by omega)]
  trivial

theorem swapTop_safe {j : Nat} (hi : 0 < i ∧ i ≤ stack.length) (hj : 0 < j ∧ j ≤ stack.length) :
    Ensures (Tame sv w) (fun out => out ⊆ stack ∧ out.length = stack.length) (swapTop stack i j) := by
  unfold swapTop
  refine stackTop_then hi fun a ha => ?_
  refine stackTop_then hj fun b hb => ?_
  constructor
  · intro x hx
    rcases mem_or_eq_of_mem_set hx with hx | rfl
    · rcases mem_or_eq_of_mem_set hx with hx | rfl
      · exact hx
      · exact hb
    · exact ha
  · simp

theorem eraseTop_safe {j : Nat} (hji : j ≤ i) (hi : i ≤ stack.length) :
    Ensures (Tame sv w) (fun out => out ⊆ stack) (eraseTop stack i j) := by
  unfold eraseTop
  rw [if_pos ⟨hji, hi⟩]
  intro x hx
  rcases mem_append.mp hx with hx | hx
  · exact mem_of_mem_take hx
  · exact mem_of_mem_drop hx

theorem insertTop_safe (hi : i ≤ stack.length) (hvch : vch ∈ stack) :
    Ensures (Tame sv w) (fun out => out ⊆ stack) (insertTop stack i vch) := by
  unfold insertTop
  rw [if_pos hi]
  intro x hx
  rcases mem_append.mp hx with hx | hx
  · exact mem_of_mem_take hx
  · rcases mem_cons.mp hx with rfl | hx
    · exact hvch
    · exact mem_of_mem_drop hx

theorem verifyTop_safe {verify ok : Bool} (hstack : Within b stack)
    (hlen : 0 < stack.length) : Ensures (Tame sv w) (Within b) (verifyTop verify ok e stack) := by
  unfold verifyTop
  split
  · split
    · exact (popStack_safe hlen).mono fun out hout => hstack.of_subset hout.1
    · exact trivial
  · exact hstack

end Rules

section Opcodes

variable {sv : SigVersion} {w : Bool} {b : Nat} {stack : List Valtype}

/-! ## Opcodes on the main stack -/

variable (h : Within b stack)
include h

theorem opVerify_safe : Ensures (Tame sv w) (Within b) (opVerify stack) := by
  unfold opVerify
  refine failIf_then fun hlen => ?_
  refine stackTop_then (by omega) fun vch _ => ?_
  split
  · exact (popStack_safe (by omega)).mono fun out hout => h.of_subset hout.1
  · exact trivial

theorem op2Drop_safe : Ensures (Tame sv w) (Within b) (op2Drop stack) := by
  unfold op2Drop
  refine failIf_then fun hlen => ?_
  refine popStack_then (by omega) fun out hsub hout => ?_
  exact (popStack_safe (by omega)).mono fun out' hout' => (h.of_subset hsub).of_subset hout'.1

theorem op2Dup_safe : Ensures (Tame sv w) (Within b) (op2Dup stack) := by
  unfold op2Dup
  refine failIf_then fun hlen => ?_
  refine stackTop_then (by omega) fun vch1 h1 => ?_
  refine stackTop_then (by omega) fun vch2 h2 => ?_
  exact (h.cons (h _ h1)).cons (h _ h2)

theorem op3Dup_safe : Ensures (Tame sv w) (Within b) (op3Dup stack) := by
  unfold op3Dup
  refine failIf_then fun hlen => ?_
  refine stackTop_then (by omega) fun vch1 h1 => ?_
  refine stackTop_then (by omega) fun vch2 h2 => ?_
  refine stackTop_then (by omega) fun vch3 h3 => ?_
  exact ((h.cons (h _ h1)).cons (h _ h2)).cons (h _ h3)

theorem op2Over_safe : Ensures (Tame sv w) (Within b) (op2Over stack) := by
  unfold op2Over
  refine failIf_then fun hlen => ?_
  refine stackTop_then (by omega) fun vch1 h1 => ?_
  refine stackTop_then (by omega) fun vch2 h2 => ?_
  exact (h.cons (h _ h1)).cons (h _ h2)

theorem op2Rot_safe : Ensures (Tame sv w) (Within b) (op2Rot stack) := by
  unfold op2Rot
  refine failIf_then fun hlen => ?_
  refine stackTop_then (by omega) fun vch1 h1 => ?_
  refine stackTop_then (by omega) fun vch2 h2 => ?_
  refine (eraseTop_safe (by omega) (by omega)).bind fun out hsub => ?_
  exact ((h.of_subset hsub).cons (h _ h1)).cons (h _ h2)

theorem op2Swap_safe : Ensures (Tame sv w) (Within b) (op2Swap stack) := by
  unfold op2Swap
  refine failIf_then fun hlen => ?_
  refine (swapTop_safe (by omega) (by omega)).bind fun out hout => ?_
  obtain ⟨hsub, hout⟩ := hout
  refine (swapTop_safe (by omega) (by omega)).mono fun out' hout' => ?_
  exact (h.of_subset hsub).of_subset hout'.1

theorem opIfDup_safe : Ensures (Tame sv w) (Within b) (opIfDup stack) := by
  unfold opIfDup
  refine failIf_then fun hlen => ?_
  refine stackTop_then (by omega) fun vch hvch => ?_
  change Within b (if castToBool vch then vch :: stack else stack)
  split
  · exact h.cons (h _ hvch)
  · exact h

omit h

theorem opDepth_safe (hb : 32 ≤ b) (h : Within b stack) : Ensures (Tame sv w) (Within b) (opDepth stack) :=
  h.cons ((serialize_short _).trans hb)

section

variable (h : Within b stack)
include h

theorem opDrop_safe : Ensures (Tame sv w) (Within b) (opDrop stack) := by
  unfold opDrop
  refine failIf_then fun hlen => ?_
  exact (popStack_safe (by omega)).mono fun out hout => h.of_subset hout.1

theorem opDup_safe : Ensures (Tame sv w) (Within b) (opDup stack) := by
  unfold opDup
  refine failIf_then fun hlen => ?_
  exact stackTop_then (by omega) fun vch hvch => h.cons (h _ hvch)

theorem opNip_safe : Ensures (Tame sv w) (Within b) (opNip stack) := by
  unfold opNip
  refine failIf_then fun hlen => ?_
  exact (eraseTop_safe (by omega) (by omega)).mono fun out => h.of_subset

theorem opOver_safe : Ensures (Tame sv w) (Within b) (opOver stack) := by
  unfold opOver
  refine failIf_then fun hlen => ?_
  exact stackTop_then (by omega) fun vch hvch => h.cons (h _ hvch)

end

variable (flags : Flags)

theorem opPick_safe (roll : Bool) (h : Within b stack) : Ensures (Tame sv w) (Within b) (opPick flags roll stack) := by
  unfold opPick
  refine failIf_then fun hlen => ?_
  refine stackTop_then (by omega) fun top _ => ?_
  refine scriptNum_then fun num _ => ?_
  refine popStack_then (by omega) fun out hsub hout => ?_
  refine failIf_then fun hn => ?_
  refine stackTop_then (by omega) fun vch hvch => ?_
  have hsmall := h.of_subset hsub
  split
  · refine (eraseTop_safe (by omega) (by omega)).bind fun out' hsub' => ?_
    exact (hsmall.of_subset hsub').cons (hsmall _ hvch)
  · exact hsmall.cons (hsmall _ hvch)

theorem opRot_safe (h : Within b stack) : Ensures (Tame sv w) (Within b) (opRot stack) := by
  unfold opRot
  refine failIf_then fun hlen => ?_
  refine (swapTop_safe (by omega) (by omega)).bind fun out hout => ?_
  obtain ⟨hsub, hout⟩ := hout
  refine (swapTop_safe (by omega) (by omega)).mono fun out' hout' => ?_
  exact (h.of_subset hsub).of_subset hout'.1

theorem opSwap_safe (h : Within b stack) : Ensures (Tame sv w) (Within b) (opSwap stack) := by
  unfold opSwap
  refine failIf_then fun hlen => ?_
  exact (swapTop_safe (by omega) (by omega)).mono fun out hout => h.of_subset hout.1

theorem opTuck_safe (h : Within b stack) : Ensures (Tame sv w) (Within b) (opTuck stack) := by
  unfold opTuck
  refine failIf_then fun hlen => ?_
  refine stackTop_then (by omega) fun vch hvch => ?_
  exact (insertTop_safe (by omega) hvch).mono fun out => h.of_subset

theorem opSize_safe (hb : 32 ≤ b) (h : Within b stack) : Ensures (Tame sv w) (Within b) (opSize stack) := by
  unfold opSize
  refine failIf_then fun hlen => ?_
  exact stackTop_then (by omega) fun vch _ => h.cons ((serialize_short _).trans hb)

theorem opEqual_safe (verify : Bool) (hb : 32 ≤ b) (h : Within b stack) :
    Ensures (Tame sv w) (Within b) (opEqual verify stack) := by
  unfold opEqual
  refine failIf_then fun hlen => ?_
  refine stackTop_then (by omega) fun vch1 _ => ?_
  refine stackTop_then (by omega) fun vch2 _ => ?_
  refine popStack_then (by omega) fun out hsub hout => ?_
  refine popStack_then (by omega) fun out' hsub' _ => ?_
  exact verifyTop_safe (((h.of_subset hsub).of_subset hsub').cons ((ofBool_short _).trans hb)) (by simp)

/-! ## Numbers and hashes -/

theorem UnaryOp.apply_safe (op : UnaryOp) {n : Int} (h : n.natAbs < 256 ^ nDefaultMaxNumSize) :
    Ensures (Tame sv w) (fun _ => True) (op.apply n) := by
  unfold nDefaultMaxNumSize at h
  unfold UnaryOp.apply
  split
  · exact int64_safe (by omega)
  · exact int64_safe (by omega)
  · exact int64_safe (by omega)
  · split
    · exact int64_safe (by omega)
    · trivial
  · trivial
  · trivial

theorem opUnary_safe (op : UnaryOp) (hb : 32 ≤ b) (h : Within b stack) :
    Ensures (Tame sv w) (Within b) (opUnary flags op stack) := by
  unfold opUnary
  refine failIf_then fun hlen => ?_
  refine stackTop_then (by omega) fun vch _ => ?_
  refine scriptNum_then fun n hn => ?_
  refine (op.apply_safe hn).bind fun out _ => ?_
  exact popStack_then (by omega) fun rest hsub _ => (h.of_subset hsub).cons ((serialize_short _).trans hb)

theorem BinaryOp.apply_safe (op : BinaryOp) {n m : Int} (hn : n.natAbs < 256 ^ nDefaultMaxNumSize)
    (hm : m.natAbs < 256 ^ nDefaultMaxNumSize) : Ensures (Tame sv w) (fun _ => True) (op.apply n m) := by
  unfold nDefaultMaxNumSize at hn hm
  unfold BinaryOp.apply
  split
  · exact int64_safe (by omega)
  · exact int64_safe (by omega)
  all_goals exact trivial

theorem checkNumEqual_safe (op : BinaryOp) (h : Within b stack) (hlen : 0 < stack.length) :
    Ensures (Tame sv w) (Within b) (checkNumEqual op stack) := by
  unfold checkNumEqual
  split
  · refine stackTop_then (by omega) fun vch _ => ?_
    split
    · exact (popStack_safe hlen).mono fun out hout => h.of_subset hout.1
    · exact trivial
  · exact h

theorem opBinary_safe (op : BinaryOp) (hb : 32 ≤ b) (h : Within b stack) :
    Ensures (Tame sv w) (Within b) (opBinary flags op stack) := by
  unfold opBinary
  refine failIf_then fun hlen => ?_
  refine stackTop_then (by omega) fun vch1 _ => ?_
  refine scriptNum_then fun n hn => ?_
  refine stackTop_then (by omega) fun vch2 _ => ?_
  refine scriptNum_then fun m hm => ?_
  refine (op.apply_safe hn hm).bind fun bn _ => ?_
  refine popStack_then (by omega) fun out hsub hout => ?_
  refine popStack_then (by omega) fun out' hsub' _ => ?_
  exact checkNumEqual_safe op (((h.of_subset hsub).of_subset hsub').cons ((serialize_short _).trans hb)) (by simp)

theorem opWithin_safe (hb : 32 ≤ b) (h : Within b stack) : Ensures (Tame sv w) (Within b) (opWithin flags stack) := by
  unfold opWithin
  refine failIf_then fun hlen => ?_
  refine stackTop_then (by omega) fun vch1 _ => ?_
  refine scriptNum_then fun _ _ => ?_
  refine stackTop_then (by omega) fun vch2 _ => ?_
  refine scriptNum_then fun _ _ => ?_
  refine stackTop_then (by omega) fun vch3 _ => ?_
  refine scriptNum_then fun _ _ => ?_
  refine popStack_then (by omega) fun out1 hsub1 hout1 => ?_
  refine popStack_then (by omega) fun out2 hsub2 hout2 => ?_
  refine popStack_then (by omega) fun out3 hsub3 _ => ?_
  exact (((h.of_subset hsub1).of_subset hsub2).of_subset hsub3).cons ((ofBool_short _).trans hb)

theorem opHash_safe (crypto : Crypto) (op : HashOp) (hb : 32 ≤ b) (h : Within b stack) :
    Ensures (Tame sv w) (Within b) (opHash crypto op stack) := by
  unfold opHash
  refine failIf_then fun hlen => ?_
  refine stackTop_then (by omega) fun vch _ => ?_
  exact popStack_then (by omega) fun out hsub _ => (h.of_subset hsub).cons ((hashOf_short _ _ _).trans hb)

end Opcodes

/-! ## Reading the script -/

theorem readSize_suffix {k n : Nat} (h : readSize k pc = some (n, rest)) : rest <:+ pc := by
  unfold readSize at h
  split at h
  · cases h
  · obtain ⟨-, rfl⟩ := Prod.mk.inj (Option.some.inj h)
    exact drop_suffix k pc

theorem pushSize_suffix {n : Nat} (h : pushSize opcode pc = some (n, rest)) : rest <:+ pc := by
  unfold pushSize at h
  split_ifs at h
  · cases h
    exact suffix_refl _
  all_goals exact readSize_suffix h

theorem getScriptOp_head (h : getScriptOp pc = some (opcode, vch, rest)) :
    ∃ tail, pc = opcode :: tail ∧ rest <:+ tail := by
  cases pc with
  | nil => cases h
  | cons b bytes =>
    simp only [getScriptOp] at h
    split_ifs at h
    · obtain ⟨⟨_, _⟩, hmid, h⟩ := Option.bind_eq_some_iff.mp h
      simp only at h
      split_ifs at h
      cases h
      exact ⟨bytes, rfl, (drop_suffix _ _).trans (pushSize_suffix hmid)⟩
    · cases h
      exact ⟨rest, rfl, suffix_refl _⟩

theorem getScriptOp_length (h : getScriptOp pc = some (opcode, vch, rest)) : rest.length < pc.length := by
  obtain ⟨_, rfl, hsuffix⟩ := getScriptOp_head h
  exact Nat.lt_succ_of_le hsuffix.length_le

theorem left_of_lt (h : pc.length < 2 ^ 31) : left pc = pc.length := by
  unfold left
  rw [Int.bmod_eq_of_le] <;> omega

theorem getScriptOp_op (hlen : rest.length < 100) (hop : OP_PUSHDATA4 < opcode) :
    getScriptOp (opcode :: rest) = some (opcode, [], rest) := by
  have hlt : (opcode :: rest).length < 2 ^ 31 := by
    simp only [length_cons]
    omega
  have hleft : ¬ left (opcode :: rest) < 1 := by
    rw [left_of_lt hlt, length_cons]
    omega
  rw [getScriptOp, if_neg hleft, if_neg (UInt8.not_le.mpr hop)]

theorem getScriptOp_push (hlen : rest.length < 100) (hop : opcode < OP_PUSHDATA1) (hsize : opcode.toNat ≤ rest.length) :
    getScriptOp (opcode :: rest) = some (opcode, rest.take opcode.toNat, rest.drop opcode.toNat) := by
  have hlt : (opcode :: rest).length < 2 ^ 31 := by
    simp only [length_cons]
    omega
  have hleft : ¬ left (opcode :: rest) < 1 := by
    rw [left_of_lt hlt, length_cons]
    omega
  have hrest : ¬ (left rest < 0 ∨ left rest < opcode.toNat) := by
    rw [left_of_lt (by omega)]
    omega
  have hpush : opcode ≤ OP_PUSHDATA4 := UInt8.le_of_lt (UInt8.lt_trans hop (by decide))
  have hpushSize : pushSize opcode rest = some (opcode.toNat, rest) := if_pos hop
  have hread : getScriptOp (opcode :: rest) = if left rest < 0 ∨ left rest < opcode.toNat then none
      else some (opcode, rest.take opcode.toNat, rest.drop opcode.toNat) := by
    rw [getScriptOp, if_neg hleft, if_pos hpush, hpushSize, Option.bind_eq_bind, Option.bind_some]
  rw [hread, if_neg hrest]

theorem getScriptOp_operand (h : getScriptOp pc = some (opcode, vch, rest)) : vch.length ≤ pc.length := by
  cases pc with
  | nil => cases h
  | cons b bytes =>
    simp only [getScriptOp] at h
    split_ifs at h
    · obtain ⟨⟨_, _⟩, hmid, h⟩ := Option.bind_eq_some_iff.mp h
      have hle := (pushSize_suffix hmid).length_le
      simp only at h
      split_ifs at h
      cases h
      simp only [length_take, length_cons]
      omega
    · cases h
      simp

/-! ## Signatures -/

section Signatures

variable {sv : SigVersion} {w : Bool} {b : CScript} {fuel : Nat}

theorem skipCopies_safe (hb : b ≠ []) {pc : CScript} (n : Nat) (hfuel : pc.length < fuel) :
    Ensures (Tame sv w) (fun r => r.1.length ≤ pc.length) (skipCopies b fuel pc n) := by
  induction fuel generalizing pc n with
  | zero => omega
  | succ fuel ih =>
    unfold skipCopies
    split
    · next hprefix =>
      have hlen := ( isPrefixOf_iff_prefix.mp hprefix).length_le
      have hpos := length_pos_iff.mpr hb
      have hdrop : (pc.drop b.length).length = pc.length - b.length := length_drop
      refine (ih (n + 1) (by omega)).mono fun r hr => ?_
      omega
    · exact le_rfl

theorem findAndDeleteLoop_safe (hb : b ≠ []) {result pc pc2 : CScript} (n : Nat)
    (hfuel : pc.length < fuel) : Ensures (Tame sv w) (fun _ => True) (findAndDeleteLoop b fuel result pc pc2 n) := by
  induction fuel generalizing result pc pc2 n with
  | zero => omega
  | succ fuel ih =>
    unfold findAndDeleteLoop
    refine (skipCopies_safe hb n (by omega)).bind fun r hr => ?_
    obtain ⟨_, m⟩ := r
    simp only at hr ⊢
    split
    · next hop =>
      have hlt := getScriptOp_length hop
      exact ih m (by omega)
    · trivial

theorem findAndDelete_safe (script b : CScript) : Ensures (Tame sv w) (fun _ => True) (findAndDelete script b) := by
  unfold findAndDelete
  split
  · trivial
  · next hb =>
    exact (findAndDeleteLoop_safe hb 0 (Nat.lt_succ_self _)).bind fun _ _ => trivial

theorem dropSignature_safe (flags : Flags) (version : SigVersion) (vchSig : Valtype) (code : CScript) :
    Ensures (Tame sv w) (fun _ => True) (dropSignature flags version vchSig code) := by
  unfold dropSignature
  split
  · refine (findAndDelete_safe _ _).bind fun r _ => ?_
    exact failIf_then fun _ => trivial
  · trivial

variable (v : Verifier)

theorem checkLowDER_safe (flags : Flags) (vchSig : Valtype) :
    Ensures (Tame sv w) (fun _ => True) (checkLowDER v flags vchSig) := by
  unfold checkLowDER isLowDERSignature
  split
  · exact failIf_then fun _ => failIf_safe
  · trivial

theorem checkSignatureEncoding_safe (flags : Flags) (vchSig : Valtype) :
    Ensures (Tame sv w) (fun _ => True) (checkSignatureEncoding v flags vchSig) := by
  unfold checkSignatureEncoding
  split
  · trivial
  · refine failIf_then fun _ => ?_
    exact (checkLowDER_safe v flags vchSig).bind fun _ _ => failIf_safe

theorem checkPubKeyEncoding_safe (flags : Flags) (version : SigVersion) (vchPubKey : Valtype) :
    Ensures (Tame sv w) (fun _ => True) (checkPubKeyEncoding flags version vchPubKey) := by
  unfold checkPubKeyEncoding
  exact failIf_then fun _ => failIf_safe

theorem spendWeight_safe {data : ScriptExecutionData} (success : Bool) :
    Ensures (Tame .tapscript data.validationWeightLeft.isSome)
      (fun out => out.validationWeightLeft.isSome = data.validationWeightLeft.isSome) (spendWeight data success) := by
  unfold spendWeight
  split
  · split
    · next hnone =>
      rw [hnone]
      exact ⟨rfl, rfl⟩
    · next hsome => exact failIf_then fun _ => by rw [hsome]; rfl
  · rfl

theorem checkTapscriptKey_safe (flags : Flags) (version : SigVersion) (data : ScriptExecutionData)
    (success : Bool) (sig pubkey : Valtype) :
    Ensures (Tame sv w) (fun _ => True) (checkTapscriptKey v flags version data success sig pubkey) := by
  unfold checkTapscriptKey
  split
  · exact trivial
  · split
    · split
      · cases v.checker.checkSchnorrSignature sig pubkey version data <;> exact trivial
      · trivial
    · exact failIf_safe

theorem evalChecksigPreTapscript_safe (flags : Flags) {version : SigVersion}
    (hversion : version = .base ∨ version = .witnessV0) (sig pubkey : Valtype) (code : CScript) :
    Ensures (Tame sv w) (fun _ => True) (evalChecksigPreTapscript v flags version sig pubkey code) := by
  unfold evalChecksigPreTapscript
  rw [if_neg (by tauto)]
  refine (dropSignature_safe _ _ _ _).bind fun code _ => ?_
  refine (checkSignatureEncoding_safe _ _ _).bind fun _ _ => ?_
  refine (checkPubKeyEncoding_safe _ _ _).bind fun _ _ => ?_
  exact failIf_then fun _ => trivial

theorem evalChecksig_safe (flags : Flags) (sv : SigVersion) (sig pubkey : Valtype)
    (code : CScript) (data : ScriptExecutionData) : Ensures (Tame sv data.validationWeightLeft.isSome)
      (fun out => out.2.validationWeightLeft.isSome = data.validationWeightLeft.isSome)
      (evalChecksig v flags sv sig pubkey code data) := by
  unfold evalChecksig
  split
  · exact (evalChecksigPreTapscript_safe v flags (.inl rfl) _ _ _).bind fun _ _ => rfl
  · exact (evalChecksigPreTapscript_safe v flags (.inr rfl) _ _ _).bind fun _ _ => rfl
  · unfold evalChecksigTapscript
    rw [if_neg (not_not.mpr rfl)]
    refine (spendWeight_safe _).bind fun out hout => ?_
    exact (checkTapscriptKey_safe _ _ _ _ _ _ _).bind fun _ _ => hout
  · rfl

end Signatures

/-! ## Steps -/

/-- Short elements, a position, and the weight set as before. -/
structure Kept (pc : CScript) (w : Bool) (s : EvalState) : Prop where
  stack : Small s.stack
  altstack : Small s.altstack
  pc : s.pc = pc
  weight : s.execdata.validationWeightLeft.isSome = w

structure KeptWithin (b : Nat) (pc : CScript) (w : Bool) (s : EvalState) : Prop where
  stack : Within b s.stack
  altstack : Within b s.altstack
  pc : s.pc = pc
  weight : s.execdata.validationWeightLeft.isSome = w

theorem Kept.within {s : EvalState} (h : Kept pc w s) : KeptWithin MAX_SCRIPT_ELEMENT_SIZE pc w s :=
  ⟨h.stack, h.altstack, h.pc, h.weight⟩

section Steps

variable {sv : SigVersion} {w : Bool} {b : Nat} {pc : CScript} {s : EvalState}

theorem KeptWithin.onStack (hs : KeptWithin b pc w s) {f : List Valtype → Eval (List Valtype)}
    (h : Within b s.stack → Ensures (Tame sv w) (Within b) (f s.stack)) :
    Ensures (Tame sv w) (KeptWithin b pc w) (s.onStack f) := by
  unfold EvalState.onStack
  exact (h hs.stack).bind fun stack hstack => { hs with stack := hstack }

variable (flags : Flags)

theorem opIf_safe (version : SigVersion) (negated fExec : Bool) (hs : KeptWithin b pc w s) :
    Ensures (Tame sv w) (KeptWithin b pc w) (opIf flags version negated fExec s) := by
  unfold opIf
  split
  · refine failIf_then fun hlen => ?_
    refine stackTop_then (by omega) fun vch _ => ?_
    have hminimal : Ensures (Tame sv w) (fun _ => True) (checkMinimalIf flags version vch) :=
      failIf_then fun _ => failIf_safe
    refine hminimal.bind fun _ _ => ?_
    exact popStack_then (by omega) fun out hsub _ => { hs with stack := hs.stack.of_subset hsub }
  · exact { hs with }

variable (hs : KeptWithin b pc w s)
include hs

theorem opElse_safe : Ensures (Tame sv w) (KeptWithin b pc w) (opElse s) := by
  unfold opElse
  refine failIf_then fun hempty => ?_
  have hpos : s.vfExec.stackSize ≠ 0 := by simpa [empty] using hempty
  unfold toggleTop
  rw [if_neg hpos]
  split_ifs <;> exact { hs with }

theorem opEndIf_safe : Ensures (Tame sv w) (KeptWithin b pc w) (opEndIf s) := by
  unfold opEndIf
  refine failIf_then fun hempty => ?_
  have hpos : s.vfExec.stackSize ≠ 0 := by simpa [empty] using hempty
  unfold popBack
  rw [if_neg hpos]
  exact { hs with }

theorem opToAltStack_safe : Ensures (Tame sv w) (KeptWithin b pc w) (opToAltStack s) := by
  unfold opToAltStack
  refine failIf_then fun hlen => ?_
  refine stackTop_then (by omega) fun vch hvch => ?_
  refine popStack_then (by omega) fun out hsub _ => ?_
  exact { hs with
    stack := hs.stack.of_subset hsub
    altstack := hs.altstack.cons (hs.stack _ hvch) }

theorem opFromAltStack_safe : Ensures (Tame sv w) (KeptWithin b pc w) (opFromAltStack s) := by
  unfold opFromAltStack
  refine failIf_then fun hlen => ?_
  refine stackTop_then (by omega) fun vch hvch => ?_
  refine popStack_then (by omega) fun out hsub _ => ?_
  exact { hs with
    stack := hs.stack.cons (hs.altstack _ hvch)
    altstack := hs.altstack.of_subset hsub }

omit hs

variable (v : Verifier)

theorem opCheckLockTimeVerify_safe (flags : Flags) (stack : List Valtype) :
    Ensures (Tame sv w) (fun _ => True) (opCheckLockTimeVerify v flags stack) := by
  unfold opCheckLockTimeVerify
  split
  · refine failIf_then fun hlen => ?_
    refine stackTop_then (by omega) fun vch _ => ?_
    refine scriptNum_then fun _ _ => ?_
    exact failIf_then fun _ => failIf_safe
  · trivial

theorem opCheckSequenceVerify_safe (flags : Flags) (stack : List Valtype) :
    Ensures (Tame sv w) (fun _ => True) (opCheckSequenceVerify v flags stack) := by
  unfold opCheckSequenceVerify
  split
  · refine failIf_then fun hlen => ?_
    refine stackTop_then (by omega) fun vch _ => ?_
    refine scriptNum_then fun _ _ => ?_
    exact failIf_then fun _ => failIf_safe
  · trivial

theorem opCheckSig_safe (hb : 32 ≤ b) (v : Verifier) (flags : Flags) (verify : Bool) (hs : KeptWithin b pc w s) :
    Ensures (Tame sv w) (KeptWithin b pc w) (opCheckSig v flags sv verify s) := by
  have hsig := fun sig pubkey => evalChecksig_safe v flags sv sig pubkey s.pbegincodehash s.execdata
  rw [hs.weight] at hsig
  unfold opCheckSig
  refine failIf_then fun hlen => ?_
  refine stackTop_then (by omega) fun vchSig _ => ?_
  refine stackTop_then (by omega) fun vchPubKey _ => ?_
  refine (hsig vchSig vchPubKey).bind fun r hr => ?_
  refine popStack_then (by omega) fun out hsub hout => ?_
  refine popStack_then (by omega) fun out' hsub' _ => ?_
  have hsmall := ((hs.stack.of_subset hsub).of_subset hsub').cons ((ofBool_short r.1).trans hb)
  refine (verifyTop_safe hsmall (by simp)).bind fun stack hstack => ?_
  exact { hs with
    stack := hstack
    weight := hr }

theorem opCheckSigAdd_safe (hb : 32 ≤ b) (v : Verifier) (flags : Flags) (hs : KeptWithin b pc w s) :
    Ensures (Tame sv w) (KeptWithin b pc w) (opCheckSigAdd v flags sv s) := by
  have hsig := fun sig pubkey => evalChecksig_safe v flags sv sig pubkey s.pbegincodehash s.execdata
  rw [hs.weight] at hsig
  unfold opCheckSigAdd
  refine failIf_then fun _ => ?_
  refine failIf_then fun hlen => ?_
  refine stackTop_then (by omega) fun sig _ => ?_
  refine stackTop_then (by omega) fun vchNum _ => ?_
  refine scriptNum_then fun num hnum => ?_
  refine stackTop_then (by omega) fun pubkey _ => ?_
  refine (hsig sig pubkey).bind fun r hr => ?_
  refine popStack_then (by omega) fun out1 hsub1 hout1 => ?_
  refine popStack_then (by omega) fun out2 hsub2 hout2 => ?_
  refine popStack_then (by omega) fun out3 hsub3 _ => ?_
  unfold nDefaultMaxNumSize at hnum
  refine (int64_safe (by split <;> omega)).bind fun sum _ => ?_
  exact { hs with
    stack := (((hs.stack.of_subset hsub1).of_subset hsub2).of_subset hsub3).cons ((serialize_short _).trans hb)
    weight := hr }

/-! ## Multiple signatures -/

variable {stack : List Valtype} {opcode : UInt8} {vch : Valtype}

theorem dropSignatures_safe (version : SigVersion) {n isig : Nat}
    (code : CScript) (hpos : 0 < isig) (hn : isig + n ≤ stack.length + 1) :
    Ensures (Tame sv w) (fun _ => True) (dropSignatures flags version stack n isig code) := by
  induction n generalizing isig code with
  | zero => trivial
  | succ n ih =>
    unfold dropSignatures
    refine stackTop_then (by omega) fun vchSig _ => ?_
    refine (dropSignature_safe _ _ _ _).bind fun code _ => ?_
    exact ih code (by omega) (by omega)

/-- The signatures and keys are on the stack, no more of the former. -/
theorem matchSignatures_safe (flags : Flags) (version : SigVersion) (code : CScript)
    {fuel isig ikey nSigs nKeys : Nat} (hfuel : nKeys < fuel) (hle : nSigs ≤ nKeys)
    (hsig : 0 < isig ∧ isig + nSigs ≤ stack.length + 1) (hkey : 0 < ikey ∧ ikey + nKeys ≤ stack.length + 1) :
    Ensures (Tame sv w) (fun _ => True)
      (matchSignatures v flags version code stack fuel isig ikey nSigs nKeys) := by
  induction fuel generalizing isig ikey nSigs nKeys with
  | zero => omega
  | succ fuel ih =>
    unfold matchSignatures
    split
    · trivial
    · refine stackTop_then (by omega) fun vchSig _ => ?_
      refine stackTop_then (by omega) fun vchPubKey _ => ?_
      refine (checkSignatureEncoding_safe _ _ _).bind fun _ _ => ?_
      refine (checkPubKeyEncoding_safe _ _ _).bind fun _ _ => ?_
      simp only
      -- a match uses up a signature and a key, a mismatch only a key
      split
      all_goals
        split
        · trivial
        · exact ih (by omega) (by omega) (by omega) (by omega)

theorem checkNullFail_safe (fSuccess : Bool) (ikey2 : Nat) (hlen : 0 < stack.length) :
    Ensures (Tame sv w) (fun _ => True) (checkNullFail flags fSuccess ikey2 stack) := by
  unfold checkNullFail
  split
  · exact stackTop_then (by omega) fun _ _ => failIf_safe
  · trivial

theorem removeArguments_safe (fSuccess : Bool) {i : Nat} (ikey2 : Nat) (hi : i ≤ stack.length) :
    Ensures (Tame sv w) (fun out => out ⊆ stack ∧ stack.length = out.length + i)
      (removeArguments flags fSuccess i ikey2 stack) := by
  induction i generalizing ikey2 stack with
  | zero => exact ⟨List.Subset.refl _, rfl⟩
  | succ i ih =>
    unfold removeArguments
    refine (checkNullFail_safe flags fSuccess ikey2 (by omega)).bind fun _ _ => ?_
    refine popStack_then (by omega) fun out hsub hout => ?_
    refine (ih (ikey2 - 1) (by omega)).mono fun out' hout' => ?_
    exact ⟨List.Subset.trans hout'.1 hsub, by omega⟩

theorem checkNullDummy_safe (hlen : 0 < stack.length) :
    Ensures (Tame sv w) (fun _ => True) (checkNullDummy flags stack) := by
  unfold checkNullDummy
  split
  · exact stackTop_then (by omega) fun _ _ => failIf_safe
  · trivial

theorem opCheckMultiSig_safe (hb : 32 ≤ b) (v : Verifier) (flags : Flags) (version : SigVersion) (verify : Bool)
    (hs : KeptWithin b pc w s) :
    Ensures (Tame sv w) (KeptWithin b pc w) (opCheckMultiSig v flags version verify s) := by
  unfold opCheckMultiSig
  refine failIf_then fun _ => ?_
  refine failIf_then fun hlen => ?_
  refine stackTop_then (by omega) fun vchKeys _ => ?_
  refine scriptNum_then fun keys _ => ?_
  refine failIf_then fun hkeys => ?_
  refine failIf_then fun _ => ?_
  refine failIf_then fun hlenKeys => ?_
  refine stackTop_then (by omega) fun vchSigs _ => ?_
  refine scriptNum_then fun sigs _ => ?_
  refine failIf_then fun hsigs => ?_
  refine failIf_then fun hlenSigs => ?_
  refine (dropSignatures_safe _ _ _ (by omega) (by omega)).bind fun code _ => ?_
  refine (matchSignatures_safe _ _ _ _ (Nat.lt_succ_self _) (by omega) (by omega) (by omega)).bind fun fSuccess _ => ?_
  refine (removeArguments_safe _ _ _ (by omega)).bind fun out hout => ?_
  obtain ⟨hsub, hout⟩ := hout
  refine failIf_then fun hrest => ?_
  refine (checkNullDummy_safe flags (by omega)).bind fun _ _ => ?_
  refine popStack_then (by omega) fun out' hsub' _ => ?_
  have hsmall := ((hs.stack.of_subset hsub).of_subset hsub').cons ((ofBool_short fSuccess).trans hb)
  exact (verifyTop_safe hsmall (by simp)).bind fun stack hstack => { hs with stack := hstack }

/-! ## The loop -/

theorem execOp_safe (hb : 32 ≤ b) (v : Verifier) (flags : Flags) (fExec : Bool) (op : Opcode)
    (hs : KeptWithin b pc w s) :
    Ensures (Tame sv w) (KeptWithin b pc w) (execOp v flags sv fExec s op) := by
  cases op with
  | number n =>
    exact hs.onStack (f := fun stack => .ok (serialize n :: stack)) fun h => h.cons ((serialize_short n).trans hb)
  | nop => exact hs
  | checkLockTimeVerify => exact (opCheckLockTimeVerify_safe _ _ _).bind fun _ _ => hs
  | checkSequenceVerify => exact (opCheckSequenceVerify_safe _ _ _).bind fun _ _ => hs
  | upgradableNop => exact failIf_then fun _ => hs
  | cond negated => exact opIf_safe _ _ _ _ hs
  | else_ => exact opElse_safe hs
  | endIf => exact opEndIf_safe hs
  | verify => exact hs.onStack opVerify_safe
  | return_ => exact trivial
  | toAltStack => exact opToAltStack_safe hs
  | fromAltStack => exact opFromAltStack_safe hs
  | drop2 => exact hs.onStack op2Drop_safe
  | dup2 => exact hs.onStack op2Dup_safe
  | dup3 => exact hs.onStack op3Dup_safe
  | over2 => exact hs.onStack op2Over_safe
  | rot2 => exact hs.onStack op2Rot_safe
  | swap2 => exact hs.onStack op2Swap_safe
  | ifDup => exact hs.onStack opIfDup_safe
  | depth => exact hs.onStack (opDepth_safe hb)
  | drop => exact hs.onStack opDrop_safe
  | dup => exact hs.onStack opDup_safe
  | nip => exact hs.onStack opNip_safe
  | «over» => exact hs.onStack opOver_safe
  | pick roll => exact hs.onStack (opPick_safe flags roll)
  | rot => exact hs.onStack opRot_safe
  | swap => exact hs.onStack opSwap_safe
  | tuck => exact hs.onStack opTuck_safe
  | size => exact hs.onStack (opSize_safe hb)
  | equal verify => exact hs.onStack (opEqual_safe verify hb)
  | unary op => exact hs.onStack (opUnary_safe flags op hb)
  | binary op => exact hs.onStack (opBinary_safe flags op hb)
  | within => exact hs.onStack (opWithin_safe flags hb)
  | hash op => exact hs.onStack (opHash_safe v.crypto op hb)
  | codeSeparator => exact { hs with }
  | checkSig verify => exact opCheckSig_safe hb v flags verify hs
  | checkSigAdd => exact opCheckSigAdd_safe hb v flags hs
  | checkMultiSig verify => exact opCheckMultiSig_safe hb v flags _ verify hs
  | unknown => exact trivial

theorem pushValue_safe (hopcode : opcode ≤ OP_PUSHDATA4) (hvch : vch.length ≤ b) (hs : KeptWithin b pc w s) :
    Ensures (Tame sv w) (KeptWithin b pc w) (pushValue flags opcode vch s) := by
  have hpushed : KeptWithin b pc w { s with stack := vch :: s.stack } := { hs with stack := hs.stack.cons hvch }
  unfold pushValue
  split
  · unfold checkMinimalPush
    rw [if_neg (UInt8.not_lt.mpr hopcode)]
    exact failIf_then fun _ => hpushed
  · exact hpushed

theorem runOp_safe (hb : 32 ≤ b) (v : Verifier) (flags : Flags) (hvch : vch.length ≤ b) (hs : KeptWithin b pc w s) :
    Ensures (Tame sv w) (KeptWithin b pc w) (runOp v flags sv opcode vch s) := by
  unfold runOp
  simp only
  split
  · next hpush => exact pushValue_safe flags hpush.2 hvch hs
  · split
    · exact execOp_safe hb v flags _ _ hs
    · exact hs

structure Bounded (w : Bool) (s : EvalState) : Prop where
  stack : Small s.stack
  altstack : Small s.altstack
  count : s.stack.length + s.altstack.length ≤ MAX_STACK_SIZE
  weight : s.execdata.validationWeightLeft.isSome = w

theorem evalStep_safe (flags : Flags) (hs : Bounded w s) :
    Ensures (Tame sv w) (fun s' => Bounded w s' ∧ s'.pc.length < s.pc.length) (evalStep v flags sv s) := by
  unfold evalStep
  split
  · exact trivial
  · next opcode vch rest hop =>
    have hlt := getScriptOp_length hop
    refine failIf_then fun hvch => ?_
    refine failIf_then fun _ => ?_
    refine failIf_then fun _ => ?_
    refine failIf_then fun _ => ?_
    have hread : Kept rest w { s with pc := rest, nOpCount := countOp sv opcode s.nOpCount } :=
      ⟨hs.stack, hs.altstack, rfl, hs.weight⟩
    refine (runOp_safe (by decide) v flags (not_lt.mp hvch) hread.within).bind fun s' hs' => ?_
    refine failIf_then fun hcount => ?_
    refine ⟨⟨hs'.stack, hs'.altstack, not_lt.mp hcount, hs'.weight⟩, ?_⟩
    change s'.pc.length < s.pc.length
    rw [hs'.pc]
    exact hlt

theorem evalLoop_safe (flags : Flags) {fuel : Nat} (hfuel : s.pc.length ≤ fuel) (hs : Bounded w s) :
    Ensures (Tame sv w) (Bounded w) (evalLoop v flags sv fuel s) := by
  induction fuel generalizing s with
  | zero =>
    unfold evalLoop
    rw [if_pos (length_eq_zero_iff.mp (Nat.le_zero.mp hfuel))]
    exact hs
  | succ fuel ih =>
    unfold evalLoop
    split
    · exact hs
    · refine (evalStep_safe v flags hs).bind fun s' hs' => ?_
      exact ih (by omega) hs'.1

end Steps

/-! ## Whole scripts -/

/-- `s'` is the state of the loop some opcodes after `s`. -/
def Reaches (v : Verifier) (flags : Flags) (sv : SigVersion) : EvalState → EvalState → Prop :=
  Relation.ReflTransGen fun s s' => s.pc ≠ [] ∧ evalStep v flags sv s = .ok s'

theorem Reaches.bounded {v : Verifier} {flags : Flags} {s s' : EvalState}
    (h : Reaches v flags sv s s') (hs : Bounded w s) : Bounded w s' := by
  induction h with
  | refl => exact hs
  | tail _ hstep ih =>
    have hsafe : Ensures (Tame sv w) _ (evalStep v flags sv _) := evalStep_safe v flags ih
    rw [hstep.2] at hsafe
    exact hsafe.1

theorem start_bounded {script : CScript} {data : ScriptExecutionData}
    (hcount : stack.length ≤ MAX_STACK_SIZE) (hsize : Small stack) :
    Bounded data.validationWeightLeft.isSome (.start script stack data) where
  stack := hsize
  altstack := by simp [Small, EvalState.start]
  count := hcount
  weight := rfl

theorem catchAll_safe {α : Type} {post : α → Prop} {x : Eval α}
    (h : Ensures (Tame sv w) post x) : Ensures (Tame sv w) post (catchAll x) := by
  unfold catchAll
  split
  · exact trivial
  · exact trivial
  · exact trivial
  · exact h

theorem expected_of_fault {α : Type} {post : α → Prop} {x : Eval α} {f : ScriptFault}
    (hx : Ensures (Tame sv w) post x) (h : x = .error (.fault f)) : Expected sv w f := by
  rw [h] at hx
  exact hx

/-- Every state between two opcodes keeps the limits, and nothing faults but two assertions. -/
theorem evalScript_safe (v : Verifier) (flags : Flags) (sv : SigVersion) (script : CScript)
    (stack : List Valtype) (data : ScriptExecutionData) (hcount : stack.length ≤ MAX_STACK_SIZE)
    (hsize : ∀ vch ∈ stack, vch.length ≤ MAX_SCRIPT_ELEMENT_SIZE) :
    (∀ s, Reaches v flags sv (.start script stack data) s →
      s.stack.length + s.altstack.length ≤ MAX_STACK_SIZE ∧
        (∀ vch ∈ s.stack ++ s.altstack, vch.length ≤ MAX_SCRIPT_ELEMENT_SIZE) ∧
      ∀ f, evalStep v flags sv s = .error (.fault f) → Expected sv data.validationWeightLeft.isSome f) ∧
    (∀ f, evalLoop v flags sv script.length (.start script stack data) = .error (.fault f) →
      Expected sv data.validationWeightLeft.isSome f) ∧
    (∀ f, evalScript v flags sv stack script data = .error (.fault f) →
      Expected sv data.validationWeightLeft.isSome f) := by
  have hstart : Bounded data.validationWeightLeft.isSome (.start script stack data) :=
    start_bounded hcount hsize
  have hloop : Ensures (Tame sv data.validationWeightLeft.isSome) _
      (evalLoop v flags sv script.length (.start script stack data)) :=
    evalLoop_safe v flags le_rfl hstart
  refine ⟨?_, fun f => expected_of_fault hloop, ?_⟩
  · intro s hs
    have hbounded := hs.bounded hstart
    refine ⟨hbounded.count, ?_, fun f => expected_of_fault (evalStep_safe v flags hbounded)⟩
    intro vch hvch
    rcases mem_append.mp hvch with hvch | hvch
    · exact hbounded.stack vch hvch
    · exact hbounded.altstack vch hvch
  · have hscript : Ensures (Tame sv data.validationWeightLeft.isSome) (fun _ => True)
        (evalScript v flags sv stack script data) := by
      unfold evalScript
      split
      · next hversion => exact hversion
      · refine failIf_then fun _ => ?_
        refine (catchAll_safe hloop).bind fun s _ => ?_
        exact failIf_then fun _ => trivial
    exact fun f => expected_of_fault hscript

/-- `BaseSignatureChecker`, which accepts nothing. -/
def baseVerifier : Verifier where
  crypto :=
    { ripemd160 := fun _ => Vector.replicate 20 0
      sha1 := fun _ => Vector.replicate 20 0
      checkLowS := fun _ => true
      checkTapTweak := fun _ _ _ _ => false }
  checker :=
    { checkECDSASignature := fun _ _ _ _ => false
      checkSchnorrSignature := fun _ _ _ _ => .error .unknownError
      checkLockTime := fun _ => false
      checkSequence := fun _ => false }

def sumScript : CScript := [0x51, 0x52, 0x93, 0x53, 0x87]

theorem sumScript_safe : evalScript baseVerifier {.minimalData} .base [] sumScript {} =
    .ok ([vchTrue], { codeseparatorPos := some 0xffffffff }) ∧
    ∀ s, Reaches baseVerifier {.minimalData} .base (.start sumScript [] {}) s →
      s.stack.length + s.altstack.length ≤ MAX_STACK_SIZE := by
  have hsafe := evalScript_safe baseVerifier {.minimalData} .base sumScript [] {} (by decide) (by decide)
  exact ⟨by decide, fun s hs => (hsafe.1 s hs).1⟩

end FullNode.Script

import FullNode.InterpreterSafety
import FullNode.ScriptNumbers

/-!
# Canonical pushes

A script is decoded one opcode after the other. The positions are kept in 32 bits with a sign, so that the script has
to stay below 2^31 bytes.
-/

namespace FullNode.Script

open List Option Nat
open Pool (pushInt64)

/-! ## Decoding -/

/-- Reads with `GetScriptOp` up to the end; `fuel` bounds the reads. -/
def decodeLoop : Nat → CScript → Option (List (UInt8 × Valtype))
  | 0, pc => if pc = [] then some [] else none
  | fuel + 1, pc =>
    if pc = [] then some []
    else do
      let (opcode, vch, rest) ← getScriptOp pc
      let ops ← decodeLoop fuel rest
      return (opcode, vch) :: ops

def decodeOps (script : CScript) : Option (List (UInt8 × Valtype)) := decodeLoop script.length script

variable {pc rest script : CScript} {opcode : UInt8} {vch data : Valtype} {ops : List (UInt8 × Valtype)} {v : Verifier}
  {flags : Flags} {sv : SigVersion} {s : EvalState} {n : Int}

variable (tail : CScript)

theorem readSize_append {k n : Nat} (hlen : (pc ++ tail).length < 2 ^ 31)
    (h : readSize k pc = some (n, rest)) : readSize k (pc ++ tail) = some (n, rest ++ tail) := by
  have hpc : pc.length < 2 ^ 31 := by
    rw [length_append] at hlen
    omega
  unfold readSize at *
  rw [left_of_lt hpc] at h
  rw [left_of_lt hlen]
  split at h
  · cases h
  · next hk =>
    obtain ⟨rfl, rfl⟩ := Prod.mk.inj (some.inj h)
    rw [length_append, if_neg (by omega), take_append_of_le_length (by omega),
      drop_append_of_le_length (by omega)]

theorem pushSize_append {n : Nat}
    (hlen : (pc ++ tail).length < 2 ^ 31) (h : pushSize opcode pc = some (n, rest)) :
    pushSize opcode (pc ++ tail) = some (n, rest ++ tail) := by
  unfold pushSize at *
  split_ifs at h ⊢
  · obtain ⟨rfl, rfl⟩ := Prod.mk.inj (some.inj h)
    rfl
  all_goals exact readSize_append tail hlen h

theorem getScriptOp_cons (hlen : rest.length + 1 < 2 ^ 31) :
    getScriptOp (opcode :: rest) = if opcode ≤ OP_PUSHDATA4 then
      (pushSize opcode rest).bind fun p =>
          if p.2.length < p.1 then none else some (opcode, p.2.take p.1, p.2.drop p.1)
      else some (opcode, [], rest) := by
  have hleft : ¬ left (opcode :: rest) < 1 := by
    rw [left_of_lt (by rwa [length_cons]), length_cons]
    omega
  rw [getScriptOp, if_neg hleft]
  split
  · rcases hsize : pushSize opcode rest with _ | ⟨n, pc⟩
    · rw [bind_eq_bind, bind_none, bind_none]
    · have hle := (pushSize_suffix hsize).length_le
      have hiff : (left pc < 0 ∨ left pc < n) ↔ pc.length < n := by
        rw [left_of_lt (by omega)]
        omega
      rw [bind_eq_bind, bind_some, bind_some]
      simp only [hiff]
  · rfl

theorem getScriptOp_append (hlen : (pc ++ tail).length < 2 ^ 31) (h : getScriptOp pc = some (opcode, vch, rest)) :
    getScriptOp (pc ++ tail) = some (opcode, vch, rest ++ tail) := by
  obtain ⟨bytes, rfl, -⟩ := getScriptOp_head h
  rw [cons_append, length_cons] at hlen
  have hbytes : (bytes ++ tail).length = bytes.length + tail.length := length_append
  rw [getScriptOp_cons (by omega)] at h
  rw [cons_append, getScriptOp_cons hlen]
  split at h
  · next hpush =>
    obtain ⟨⟨_, _⟩, hsize, h⟩ := bind_eq_some_iff.mp h
    simp only at h
    split at h
    · cases h
    · next hn =>
      cases h
      rw [if_pos hpush, pushSize_append tail (by omega) hsize, bind_some, length_append,
        if_neg (by omega), take_append_of_le_length (by omega), drop_append_of_le_length (by omega)]
  · next hop =>
    cases h
    rw [if_neg hop]

theorem readSize_leBytes {k n : Nat} (hn : n < 256 ^ k) (hlen : k + data.length < 2 ^ 31) :
    readSize k (leBytes k n ++ data) = some (n, data) := by
  have hbytes : (leBytes k n ++ data).length = k + data.length := by rw [length_append, leBytes_length]
  rw [readSize, left_of_lt (by omega), if_neg (by omega),
    take_left' (leBytes_length k n), drop_left' (leBytes_length k n), leValue_leBytes hn]

theorem getScriptOp_of_size (size : Valtype) (hop : opcode ≤ OP_PUSHDATA4)
    (hlen : size.length + data.length + 1 < 2 ^ 31)
    (hsize : pushSize opcode (size ++ data) = some (data.length, data)) :
    getScriptOp (opcode :: (size ++ data)) = some (opcode, data, []) := by
  rw [getScriptOp_cons (by rwa [length_append]), if_pos hop, hsize, bind_some, if_neg (lt_irrefl _),
    take_length, drop_length]

theorem getScriptOp_pushData (hlen : (pushData data).length < 2 ^ 31) :
    ∃ opcode, getScriptOp (pushData data) = some (opcode, data, []) := by
  have hdata : data.length ≤ (pushData data).length := by
    rw [pushData, length_append]
    exact le_add_left _ _
  have hmod : data.length % 2 ^ 32 = data.length := mod_eq_of_lt (by omega)
  unfold pushData at *
  simp only [hmod] at *
  split_ifs at hlen ⊢ with h1 h2 h3
  · have hbyte : (UInt8.ofNat data.length).toNat = data.length := by
      rw [UInt8.toNat_ofNat']
      exact mod_eq_of_lt (lt_trans h1 (by decide))
    have hlt : UInt8.ofNat data.length < OP_PUSHDATA1 := by
      rw [UInt8.lt_iff_toNat_lt, hbyte]
      exact h1
    refine ⟨_, getScriptOp_of_size [] (UInt8.le_of_lt (UInt8.lt_trans hlt (by decide))) ?_ ?_⟩
    · simpa [add_comm] using hlen
    · rw [nil_append, pushSize, if_pos hlt, hbyte]
  · rw [length_append, length_cons, leBytes_length] at hlen
    refine ⟨_, getScriptOp_of_size (leBytes 1 data.length) (by decide) ?_ ?_⟩
    · rw [leBytes_length]
      omega
    · rw [pushSize, if_neg (by decide), if_pos rfl]
      exact readSize_leBytes (by omega) (by omega)
  · rw [length_append, length_cons, leBytes_length] at hlen
    refine ⟨_, getScriptOp_of_size (leBytes 2 data.length) (by decide) ?_ ?_⟩
    · rw [leBytes_length]
      omega
    · rw [pushSize, if_neg (by decide), if_neg (by decide), if_pos rfl]
      exact readSize_leBytes (by omega) (by omega)
  · rw [length_append, length_cons, leBytes_length] at hlen
    refine ⟨_, getScriptOp_of_size (leBytes 4 data.length) (by decide) ?_ ?_⟩
    · rw [leBytes_length]
      omega
    · rw [pushSize, if_neg (by decide), if_neg (by decide), if_neg (by decide)]
      exact readSize_leBytes (by omega) (by omega)

/-! ## Appending -/

theorem decodeLoop_nil (fuel : Nat) : decodeLoop fuel [] = some [] := by
  cases fuel <;> rfl

theorem decodeLoop_cons {fuel : Nat} (h : getScriptOp pc = some (opcode, vch, rest)) :
    decodeLoop (fuel + 1) pc = (decodeLoop fuel rest).map ((opcode, vch) :: ·) := by
  have hne : pc ≠ [] := by
    rintro rfl
    cases h
  rw [decodeLoop, if_neg hne, h, bind_eq_bind, bind_some, map_eq_bind]
  rfl

theorem decodeLoop_append {fuel more : Nat} (hpush : getScriptOp (pushData data) = some (opcode, data, []))
    (hlen : (script ++ pushData data).length < 2 ^ 31) (hfuel : fuel < more) (h : decodeLoop fuel script = some ops) :
    decodeLoop more (script ++ pushData data) = some (ops ++ [(opcode, data)]) := by
  induction fuel generalizing script ops more with
  | zero =>
    obtain ⟨more, rfl⟩ := exists_eq_succ_of_ne_zero (ne_of_gt hfuel)
    unfold decodeLoop at h
    split at h
    · next hnil =>
      cases h
      rw [hnil, nil_append, decodeLoop_cons hpush, decodeLoop_nil]
      rfl
    · cases h
  | succ fuel ih =>
    obtain ⟨more, rfl⟩ := exists_eq_succ_of_ne_zero (ne_of_gt (zero_lt_of_lt hfuel))
    by_cases hnil : script = []
    · rw [hnil, decodeLoop_nil] at h
      cases h
      rw [hnil, nil_append, decodeLoop_cons hpush, decodeLoop_nil]
      rfl
    · rw [decodeLoop, if_neg hnil] at h
      obtain ⟨⟨_, _, _⟩, hop, h⟩ := bind_eq_some_iff.mp h
      obtain ⟨_, hrest, h⟩ := bind_eq_some_iff.mp h
      cases h
      have hshorter := getScriptOp_length hop
      rw [length_append] at hlen
      rw [decodeLoop_cons (getScriptOp_append _ (by rwa [length_append]) hop),
        ih (by rw [length_append]; omega) (lt_of_succ_lt_succ hfuel) hrest]
      rfl

theorem decodeOps_push (hlen : (script ++ pushData data).length < 2 ^ 31) (h : decodeOps script = some ops) :
    ∃ opcode, decodeOps (script ++ pushData data) = some (ops ++ [(opcode, data)]) := by
  have hshort : (pushData data).length < 2 ^ 31 := by
    rw [length_append] at hlen
    omega
  obtain ⟨opcode, hpush⟩ := getScriptOp_pushData hshort
  have hpos := getScriptOp_length hpush
  refine ⟨opcode, decodeLoop_append hpush hlen ?_ h⟩
  rw [length_append]
  exact Nat.lt_add_of_pos_right (zero_lt_of_lt hpos)

/-! ## Executing -/

theorem skip_failIf {c : Prop} [Decidable c] {e : ScriptError} {β : Type} {f : Unit → Eval β} (h : ¬ c) :
    (failIf c e >>= f) = f () := by
  rw [failIf, if_neg h]
  rfl

theorem evalStep_push (hread : getScriptOp s.pc = some (opcode, vch, rest))
    (hsize : vch.length ≤ MAX_SCRIPT_ELEMENT_SIZE) (hop : opcode ≤ OP_16)
    (hrun : ∀ s', s'.vfExec = s.vfExec →
      runOp v flags sv opcode vch s' = .ok { s' with stack := data :: s'.stack })
    (hroom : s.stack.length + s.altstack.length < MAX_STACK_SIZE) :
    evalStep v flags sv s =
      .ok { s with pc := rest, stack := data :: s.stack, opcodePos := s.opcodePos + 1 } := by
  have hno (b : UInt8) (hb : OP_16 < b) : opcode ≠ b := by
    rintro rfl
    exact absurd hop (UInt8.not_le.mpr hb)
  have hcount : ¬ opcode > OP_16 := UInt8.not_lt.mpr hop
  have hdisabled : opcode ∉ disabledOpcodes := by
    intro hmem
    have hall : ∀ b ∈ disabledOpcodes, OP_16 < b := by simp [disabledOpcodes, OP_16]
    exact hno opcode (hall opcode hmem) rfl
  have hcountOp : countOp sv opcode s.nOpCount = s.nOpCount := if_neg fun h => hcount h.2
  rw [evalStep, hread]
  simp only
  rw [skip_failIf (not_lt.mpr hsize), skip_failIf (fun h => hcount h.2.1), skip_failIf hdisabled,
    skip_failIf (fun h => hno OP_CODESEPARATOR (by decide) h.1), hcountOp, hrun { s with pc := rest } rfl]
  change (failIf ((data :: s.stack).length + s.altstack.length > MAX_STACK_SIZE) _ >>= _) = _
  rw [skip_failIf (by rw [length_cons]; omega)]
  rfl

theorem label_number (h : n = -1 ∨ n ≥ 1 ∧ n ≤ 16) :
    label (UInt8.ofInt (n + (0x51 - 1))) = .number n ∧ OP_PUSHDATA4 < UInt8.ofInt (n + (0x51 - 1)) ∧
      UInt8.ofInt (n + (0x51 - 1)) ≤ OP_16 := by
  rcases h with rfl | ⟨_, _⟩
  · decide
  · interval_cases n <;> decide

theorem runOp_number (hexec : s.vfExec.allTrue = true) (hop : OP_PUSHDATA4 < opcode)
    (hlabel : label opcode = .number n) :
    runOp v flags sv opcode vch s = .ok { s with stack := serialize n :: s.stack } := by
  rw [runOp, hexec]
  simp only
  rw [if_neg (fun h => absurd h.2 (UInt8.not_le.mpr hop)), if_pos (Or.inl trivial), hlabel]
  rfl

theorem runOp_push (hexec : s.vfExec.allTrue = true) (hop : opcode ≤ OP_PUSHDATA4)
    (hminimal : checkMinimalPush vch opcode = .ok true) :
    runOp v flags sv opcode vch s = .ok { s with stack := vch :: s.stack } := by
  rw [runOp, hexec]
  simp only
  rw [if_pos ⟨trivial, hop⟩, pushValue]
  split
  · rw [hminimal]
    rfl
  · rfl

theorem checkMinimalPush_serialize (hn : n.natAbs < 256 ^ 8) (hop : ¬ (n = -1 ∨ n ≥ 1 ∧ n ≤ 16)) :
    checkMinimalPush (serialize n) (UInt8.ofNat (serialize n).length) = .ok true := by
  have hlength := serialize_length n
  have hback := setVch_serialize hn
  have hpush : ¬ OP_PUSHDATA4 < UInt8.ofNat (serialize n).length := by
    interval_cases (serialize n).length <;> decide
  unfold checkMinimalPush
  rw [if_neg hpush]
  congr 1
  generalize serialize n = data at *
  match data with
  | [] => rfl
  | [b] =>
    have hspecial : ¬ ((1 ≤ b ∧ b ≤ 16) ∨ b = 0x81) := by
      rintro (⟨h1, h16⟩ | rfl)
      · rw [UInt8.le_iff_toNat_le] at h1 h16
        simp only [UInt8.reduceToNat] at h1 h16
        have hvalue : setVch [b] = b.toNat := by
          have h := setVch_last [] b
          rw [if_neg (by omega)] at h
          simpa [leValue] using h
        omega
      · exact hop (Or.inl (hback.symm.trans (by decide)))
    simp only [if_neg hspecial, length_singleton]
    rfl
  | b :: c :: rest =>
    simp only [length_cons] at hlength ⊢
    rw [if_pos (by omega), beq_iff_eq, UInt8.toNat_ofNat', mod_eq_of_lt (by omega)]

theorem evalStep_pushInt64 (hn : n.natAbs < 256 ^ 8) (hpc : s.pc = pushInt64 n ++ rest) (hlen : s.pc.length < 2 ^ 31)
    (hexec : s.vfExec.allTrue = true) (hroom : s.stack.length + s.altstack.length < MAX_STACK_SIZE) :
    evalStep v flags sv s =
      .ok { s with pc := rest, stack := serialize n :: s.stack, opcodePos := s.opcodePos + 1 } := by
  by_cases hop : n = -1 ∨ n ≥ 1 ∧ n ≤ 16
  · obtain ⟨hlabel, habove, hbelow⟩ := label_number hop
    rw [pushInt64, if_pos hop, singleton_append] at hpc
    rw [hpc, length_cons] at hlen
    have hread : getScriptOp s.pc = some (UInt8.ofInt (n + (0x51 - 1)), [], rest) := by
      rw [hpc, getScriptOp_cons hlen, if_neg (UInt8.not_le.mpr habove)]
    exact evalStep_push hread (zero_le _) hbelow
      (fun s' hs' => runOp_number (by rw [hs', hexec]) habove hlabel) hroom
  · have hlength := serialize_length n
    have hbytes : pushInt64 n = UInt8.ofNat (serialize n).length :: serialize n := by
      rw [pushInt64, if_neg hop]
      split
      · next hzero =>
        rw [hzero]
        rfl
      · rw [Pool.appendDataSize, if_pos (by omega), leBytes, leBytes, mod_eq_of_lt (by omega)]
        rfl
    have hbyte : (UInt8.ofNat (serialize n).length).toNat = (serialize n).length := by
      rw [UInt8.toNat_ofNat', mod_eq_of_lt (by omega)]
    have hdirect : UInt8.ofNat (serialize n).length < OP_PUSHDATA1 := by
      interval_cases (serialize n).length <;> decide
    rw [hbytes, cons_append] at hpc
    rw [hpc, length_cons] at hlen
    have hread : getScriptOp s.pc = some (UInt8.ofNat (serialize n).length, serialize n, rest) := by
      rw [hpc, getScriptOp_cons hlen, if_pos (UInt8.le_of_lt (UInt8.lt_trans hdirect (by decide))), pushSize,
        if_pos hdirect, hbyte, bind_some, if_neg (by simp), take_left, drop_left]
    exact evalStep_push hread (by unfold MAX_SCRIPT_ELEMENT_SIZE; omega)
      (UInt8.le_of_lt (UInt8.lt_trans hdirect (by decide)))
      (fun s' hs' => runOp_push (by rw [hs', hexec]) (UInt8.le_of_lt (UInt8.lt_trans hdirect (by decide)))
        (checkMinimalPush_serialize hn hop)) hroom

/-! ## Canonical encodings -/

theorem scriptNum_serialize (hmin : INT64_MIN ≤ n) (hmax : n ≤ INT64_MAX) : IsMinimal (serialize n) ∧
    ∀ fRequireMinimal nMaxNumSize, nMaxNumSize ≤ 8 → (serialize n).length ≤ nMaxNumSize →
      scriptNum (serialize n) fRequireMinimal nMaxNumSize = .ok n ∧
        ∃ v, setVch64 (serialize n) = some v ∧ v.toInt = n := by
  have hn := natAbs_lt hmin hmax
  refine ⟨isMinimal_serialize hn, fun fRequireMinimal nMaxNumSize hlimit hlen => ⟨?_, ?_⟩⟩
  · rw [scriptNum_eq, if_pos ⟨hlen, fun _ => isMinimal_serialize hn⟩, setVch_serialize hn]
  · have hvalue := setVch64_eq (serialize n) (hlen.trans hlimit)
    rwa [setVch_serialize hn] at hvalue

theorem serialize_scriptNum {nMaxNumSize : Nat} (hlimit : nMaxNumSize ≤ 8)
    (hlen : vch.length ≤ nMaxNumSize) (h : IsMinimal vch) :
    ∃ n, (INT64_MIN ≤ n ∧ n ≤ INT64_MAX) ∧ scriptNum vch true nMaxNumSize = .ok n ∧ serialize n = vch := by
  obtain ⟨v, -, hvalue⟩ := setVch64_eq _ (hlen.trans hlimit)
  refine ⟨setVch vch, ?_, ?_, serialize_setVch (hlen.trans hlimit) h⟩
  · have hmin := BitVec.le_toInt v
    have hmax := BitVec.toInt_lt (x := v)
    rw [hvalue] at hmin hmax
    unfold INT64_MIN INT64_MAX
    omega
  · rw [scriptNum_eq, if_pos ⟨hlen, fun _ => h⟩]

/-- Pushes and numbers have one encoding each, in scripts below 2^31 bytes and limits up to eight. -/
theorem pushes_and_numbers_canonical :
    (∀ script data ops, (script ++ pushData data).length < 2 ^ 31 → decodeOps script = some ops →
      ∃ opcode, decodeOps (script ++ pushData data) = some (ops ++ [(opcode, data)])) ∧
    (∀ n, INT64_MIN ≤ n → n ≤ INT64_MAX → IsMinimal (serialize n) ∧
      ∀ fRequireMinimal nMaxNumSize, nMaxNumSize ≤ 8 → (serialize n).length ≤ nMaxNumSize →
        scriptNum (serialize n) fRequireMinimal nMaxNumSize = .ok n ∧
          ∃ v, setVch64 (serialize n) = some v ∧ v.toInt = n) ∧
    (∀ vch nMaxNumSize, nMaxNumSize ≤ 8 → vch.length ≤ nMaxNumSize → IsMinimal vch →
      ∃ n, (INT64_MIN ≤ n ∧ n ≤ INT64_MAX) ∧ scriptNum vch true nMaxNumSize = .ok n ∧ serialize n = vch) ∧
    (∀ v flags sv (s : EvalState) n rest, INT64_MIN ≤ n → n ≤ INT64_MAX → s.pc = pushInt64 n ++ rest →
      s.pc.length < 2 ^ 31 → s.vfExec.allTrue = true → s.stack.length + s.altstack.length < MAX_STACK_SIZE →
      evalStep v flags sv s =
        .ok { s with pc := rest, stack := serialize n :: s.stack, opcodePos := s.opcodePos + 1 }) := by
  refine ⟨fun _ _ _ => decodeOps_push, fun _ => scriptNum_serialize, fun _ _ => serialize_scriptNum, ?_⟩
  intro v flags sv s n rest hmin hmax hpc hlen hexec hroom
  exact evalStep_pushInt64 (natAbs_lt hmin hmax) hpc hlen hexec hroom

/-- The most negative number, and a minimal encoding of eight bytes. -/
theorem most_negative_canonical :
    (∃ opcode, decodeOps ([0x51] ++ pushData (serialize INT64_MIN)) =
      some ([(0x51, [])] ++ [(opcode, serialize INT64_MIN)])) ∧
    IsMinimal (serialize INT64_MIN) ∧
    (∃ n, (INT64_MIN ≤ n ∧ n ≤ INT64_MAX) ∧ scriptNum (List.replicate 8 0xff) true 8 = .ok n ∧
      serialize n = List.replicate 8 0xff) ∧
    evalStep baseVerifier ∅ .base (.start (pushInt64 INT64_MIN) [] {}) =
      .ok { EvalState.start [] [serialize INT64_MIN] {} with
        pbegincodehash := pushInt64 INT64_MIN
        opcodePos := 1 } := by
  obtain ⟨hpush, hnumber, hvch, hrun⟩ := pushes_and_numbers_canonical
  refine ⟨hpush _ _ _ (by decide) rfl, (hnumber _ (by decide) (by decide)).1,
    hvch _ 8 (by decide) (by decide) (by decide), ?_⟩
  exact hrun baseVerifier ∅ .base (.start (pushInt64 INT64_MIN) [] {}) INT64_MIN [] (by decide) (by decide)
    (append_nil _).symm (by decide) rfl (by decide)

theorem left_long (hlow : 2 ^ 31 ≤ pc.length) (hhigh : pc.length < 2 ^ 32) : left pc < 1 := by
  have hmod : (pc.length : Int) % ((2 ^ 32 : Nat) : Int) = pc.length := Int.emod_eq_of_lt (by omega) (by omega)
  have hleft : left pc = pc.length - ((2 ^ 32 : Nat) : Int) := by
    unfold left
    rw [Int.bmod_eq_emod, hmod, if_pos]
    omega
  omega

theorem decodeOps_long (hlow : 2 ^ 31 ≤ pc.length) (hhigh : pc.length < 2 ^ 32) : decodeOps pc = none := by
  have hleft := left_long hlow hhigh
  cases pc with
  | nil => simp at hlow
  | cons opcode rest =>
    rw [decodeOps, length_cons, decodeLoop, if_neg (cons_ne_nil _ _), getScriptOp, if_pos hleft]
    rfl

theorem length_pushData_long (data : Valtype) (hlow : 2 ^ 16 ≤ data.length) (hhigh : data.length < 2 ^ 32) :
    (pushData data).length = 5 + data.length := by
  have hmod : data.length % 2 ^ 32 = data.length := mod_eq_of_lt hhigh
  rw [pushData]
  simp only [hmod]
  rw [if_neg (by rw [show OP_PUSHDATA1.toNat = 76 from rfl]; omega), if_neg (by omega), if_neg (by omega),
    length_append, length_cons, leBytes_length]

/-- From 2^31 bytes on the end seems to lie before the start. -/
theorem long_push_lost :
    (List.replicate (2 ^ 31) (0 : UInt8)).length ≤ 2 ^ 32 - 1 ∧ decodeOps [] = some [] ∧
      decodeOps ([] ++ pushData (List.replicate (2 ^ 31) 0)) = none ∧
      (serialize INT64_MIN).length ≤ 9 ∧ setVch64 (serialize INT64_MIN) = none := by
  have hlength : (replicate (2 ^ 31) (0 : UInt8)).length = 2 ^ 31 := length_replicate
  have hpush := length_pushData_long (replicate (2 ^ 31) 0) (by omega) (by omega)
  refine ⟨by omega, rfl, ?_, by decide, by decide⟩
  rw [nil_append]
  exact decodeOps_long (by omega) (by omega)

end FullNode.Script

import FullNode.Lib.ChaCha20
import FullNode.Lib.Sha256
import FullNode.Num3072Inverse

/-!
# MuHash

`MuHash3072` keeps a set as a fraction: what is added multiplies the numerator, what is removed the
denominator. The objects live in a store, because an operation may have one object on both sides.
-/

namespace FullNode.MuHash

open Num3072 Limbs List Nat.ModEq Function

variable (b : Build)

/-! ## Limbs and bytes -/

def fromBytes (data : List UInt8) : List Nat :=
  (List.range b.limbs).map fun i => leValue ((data.drop (b.limbSize / 8 * i)).take (b.limbSize / 8))

def toBytes (limbs : List Nat) : List UInt8 := limbs.flatMap (leBytes (b.limbSize / 8))

def BYTE_SIZE : Nat := 384

def toNum3072 (input : List UInt8) : List Nat := fromBytes b (ChaCha20.keystream (sha256 input) (BYTE_SIZE / 64))

/-! ## Objects -/

structure MuHash3072 where
  numerator : List Nat
  denominator : List Nat

def MuHash3072.empty : MuHash3072 := ⟨one b, one b⟩

def MuHash3072.singleton (input : List UInt8) : MuHash3072 := ⟨toNum3072 b input, one b⟩

abbrev Objects := Nat → MuHash3072

namespace Objects

def setNumerator (s : Objects) (i : Nat) (n : List Nat) : Objects := Function.update s i { s i with numerator := n }

def setDenominator (s : Objects) (i : Nat) (d : List Nat) : Objects := Function.update s i { s i with denominator := d }

end Objects

def insert (s : Objects) (i : Nat) (input : List UInt8) : Checked Objects := do
  let n ← multiply b (s i).numerator (toNum3072 b input)
  return s.setNumerator i n

def remove (s : Objects) (i : Nat) (input : List UInt8) : Checked Objects := do
  let d ← multiply b (s i).denominator (toNum3072 b input)
  return s.setDenominator i d

def mulAssign (s : Objects) (i j : Nat) : Checked Objects := do
  let n ← multiply b (s i).numerator (s j).numerator
  let s := s.setNumerator i n
  let d ← multiply b (s i).denominator (s j).denominator
  return s.setDenominator i d

/-- `i /= j`, where the second product may read a new numerator. -/
def divAssign (s : Objects) (i j : Nat) : Checked Objects := do
  let n ← multiply b (s i).numerator (s j).denominator
  let s := s.setNumerator i n
  let d ← multiply b (s i).denominator (s j).numerator
  return s.setDenominator i d

def finalize (s : Objects) (i : Nat) : Checked (Objects × List UInt8) := do
  let n ← divide b (s i).numerator (s i).denominator
  let s := (s.setNumerator i n).setDenominator i (one b)
  return (s, sha256 (toBytes b n))

/-! ## Runs -/

inductive Op where
  | empty (i : Nat)
  | singleton (i : Nat) (input : List UInt8)
  | insert (i : Nat) (input : List UInt8)
  | remove (i : Nat) (input : List UInt8)
  | mulAssign (i j : Nat)
  | divAssign (i j : Nat)
  | finalize (i : Nat)

def apply (s : Objects) : Op → Checked Objects
  | .empty i => .ok (Function.update s i (.empty b))
  | .singleton i input => .ok (Function.update s i (.singleton b input))
  | .insert i input => insert b s i input
  | .remove i input => remove b s i input
  | .mulAssign i j => mulAssign b s i j
  | .divAssign i j => divAssign b s i j
  | .finalize i => do
    let (s, _) ← finalize b s i
    return s

def run : Objects → List Op → Checked Objects
  | s, [] => .ok s
  | s, op :: ops => do
    let s ← apply b s op
    run s ops

def initial : Objects := fun _ => .empty b

def hashAfter (ops : List Op) (i : Nat) : Checked (List UInt8) := do
  let s ← run b (initial b) ops
  let (_, hash) ← finalize b s i
  return hash

/-! ## What the objects stand for -/

/-- The byte strings gained and lost, with multiplicity. -/
structure Net where
  added : Multiset (List UInt8)
  removed : Multiset (List UInt8)

def Net.Same (x y : Net) : Prop := x.added + y.removed = y.added + x.removed

def applyNet (nets : Nat → Net) : Op → Nat → Net
  | .empty i => Function.update nets i ⟨0, 0⟩
  | .singleton i input => Function.update nets i ⟨{input}, 0⟩
  | .insert i input => Function.update nets i ⟨(nets i).added + {input}, (nets i).removed⟩
  | .remove i input => Function.update nets i ⟨(nets i).added, (nets i).removed + {input}⟩
  | .mulAssign i j => Function.update nets i ⟨(nets i).added + (nets j).added, (nets i).removed + (nets j).removed⟩
  | .divAssign i j => Function.update nets i ⟨(nets i).added + (nets j).removed, (nets i).removed + (nets j).added⟩
  | .finalize _ => nets

def netAfter (ops : List Op) : Nat → Net := ops.foldl applyNet fun _ => ⟨0, 0⟩

def Op.inputs : Op → List (List UInt8)
  | .singleton _ input | .insert _ input | .remove _ input => [input]
  | _ => []

def Invertible (input : List UInt8) : Prop := Nat.Coprime (value b.base (toNum3072 b input)) modulus

/-- An object is divided by itself only while its denominator is 1. -/
def Plain (s : Objects) : Op → Prop
  | .divAssign i j => i = j → value b.base (s i).denominator ≡ 1 [MOD modulus]
  | _ => True

def PlainRun : Objects → List Op → Prop
  | _, [] => True
  | s, op :: ops => Plain b s op ∧ ∀ s', apply b s op = .ok s' → PlainRun s' ops

variable {b}

/-! ## Limbs -/

theorem toNum3072_limbs (input : List UInt8) : IsLimbs b (toNum3072 b input) := by
  refine ⟨by simp [toNum3072, fromBytes], ?_⟩
  intro limb hlimb
  obtain ⟨_, -, rfl⟩ := mem_map.mp hlimb
  apply (leValue_lt _).trans_le
  have hbase : 256 ^ (b.limbSize / 8) = b.base := by
    cases b with
    | int128 => rfl
    | int64 => rfl
  rw [← hbase]
  exact Nat.pow_le_pow_right (by decide) (by simp)

theorem one_limbs : IsLimbs b (one b) := by
  have hlimbs := two_le_limbs b
  have hbase := one_lt_base b
  refine ⟨?_, ?_⟩
  · simp only [one, length_cons, length_replicate]
    omega
  · simp only [one, mem_cons, mem_replicate]
    rintro x (rfl | ⟨-, rfl⟩) <;> omega

theorem one_value : value b.base (one b) = 1 := by
  simp [one, value_replicate_zero]

/-! ## The fraction -/

def prodOf (b : Build) (inputs : Multiset (List UInt8)) : Nat :=
  (inputs.map fun input => value b.base (toNum3072 b input)).prod

@[simp] theorem prodOf_zero : prodOf b 0 = 1 := by simp [prodOf]

@[simp] theorem prodOf_singleton (input : List UInt8) : prodOf b {input} =
    value b.base (toNum3072 b input) := by simp [prodOf]

@[simp] theorem prodOf_add (x y : Multiset (List UInt8)) : prodOf b (x + y) =
    prodOf b x * prodOf b y := by simp [prodOf]

structure Holds (b : Build) (m : MuHash3072) (net : Net) : Prop where
  numerator : IsLimbs b m.numerator
  denominator : IsLimbs b m.denominator
  numerator_coprime : Nat.Coprime (value b.base m.numerator) modulus
  denominator_coprime : Nat.Coprime (value b.base m.denominator) modulus
  removed_coprime : Nat.Coprime (prodOf b net.removed) modulus
  eq : value b.base m.numerator * prodOf b net.removed ≡ value b.base m.denominator * prodOf b net.added [MOD modulus]

theorem coprime_of_modEq {x y : Nat} (h : x ≡ y [MOD modulus]) (hy : Nat.Coprime y modulus) :
    Nat.Coprime x modulus := by
  rw [Nat.Coprime, h.gcd_eq]
  exact hy

theorem Holds.empty : Holds b (.empty b) ⟨0, 0⟩ := by
  refine ⟨one_limbs, one_limbs, ?_, ?_, ?_, ?_⟩ <;> simp [MuHash3072.empty, one_value, Nat.ModEq]

variable {input : List UInt8} {m : MuHash3072} {net : Net} {ops : List Op}

theorem Holds.singleton (h : Invertible b input) : Holds b (.singleton b input) ⟨{input}, 0⟩ := by
  refine ⟨toNum3072_limbs input, one_limbs, h, ?_, ?_, ?_⟩
  · simp [MuHash3072.singleton, one_value]
  · simp
  · simp only [MuHash3072.singleton, one_value, prodOf_zero, prodOf_singleton, mul_one, one_mul]
    exact Nat.ModEq.refl _

theorem Holds.mul {m' : MuHash3072} {net' : Net} {n d : List Nat} (h : Holds b m net) (h' : Holds b m' net')
    (hn : IsLimbs b n) (hd : IsLimbs b d)
    (hnmod : value b.base n ≡ value b.base m.numerator * value b.base m'.numerator [MOD modulus])
    (hdmod : value b.base d ≡ value b.base m.denominator * value b.base m'.denominator [MOD modulus]) :
    Holds b ⟨n, d⟩ ⟨net.added + net'.added, net.removed + net'.removed⟩ := by
  refine ⟨hn, hd, coprime_of_modEq hnmod (h.numerator_coprime.mul_left h'.numerator_coprime),
    coprime_of_modEq hdmod (h.denominator_coprime.mul_left h'.denominator_coprime), ?_, ?_⟩
  · rw [prodOf_add]
    exact h.removed_coprime.mul_left h'.removed_coprime
  · simp only [prodOf_add]
    calc value b.base n * (prodOf b net.removed * prodOf b net'.removed)
        ≡ value b.base m.numerator * value b.base m'.numerator *
          (prodOf b net.removed * prodOf b net'.removed) [MOD modulus] := hnmod.mul_right _
      _ = (value b.base m.numerator * prodOf b net.removed) *
        (value b.base m'.numerator * prodOf b net'.removed) := by ring
      _ ≡ (value b.base m.denominator * prodOf b net.added) * (value b.base m'.denominator * prodOf b net'.added)
          [MOD modulus] := h.eq.mul h'.eq
      _ = value b.base m.denominator * value b.base m'.denominator *
        (prodOf b net.added * prodOf b net'.added) := by ring
      _ ≡ value b.base d * (prodOf b net.added * prodOf b net'.added) [MOD modulus] := (hdmod.mul_right _).symm

theorem Holds.inverse (h : Holds b m net) : Holds b ⟨m.denominator, m.numerator⟩ ⟨net.removed, net.added⟩ := by
  refine ⟨h.denominator, h.numerator, h.denominator_coprime, h.numerator_coprime, ?_, h.eq.symm⟩
  exact (coprime_of_modEq h.eq.symm (h.numerator_coprime.mul_left h.removed_coprime)).coprime_mul_left

/-! ## Steps -/

@[simp] theorem setNumerator_denominator (s : Objects) (i j : Nat) (n : List Nat) :
    (s.setNumerator i n j).denominator = (s j).denominator := by
  by_cases h : j = i
  · subst h
    simp [Objects.setNumerator]
  · simp [Objects.setNumerator, h]

theorem setNumerator_numerator (s : Objects) (i j : Nat) (n : List Nat) :
    (s.setNumerator i n j).numerator = if j = i then n else (s j).numerator := by
  by_cases h : j = i
  · subst h
    simp [Objects.setNumerator]
  · simp [Objects.setNumerator, h]

@[simp] theorem setNumerator_setDenominator (s : Objects) (i : Nat) (n d : List Nat) :
    (s.setNumerator i n).setDenominator i d = update s i ⟨n, d⟩ := by
  simp [Objects.setNumerator, Objects.setDenominator]

def Stands (b : Build) (s : Objects) (nets : Nat → Net) : Prop := ∀ k, Holds b (s k) (nets k)

theorem Stands.update {s : Objects} {nets : Nat → Net} (h : Stands b s nets) (i : Nat)
    (hm : Holds b m net) : Stands b (update s i m) (update nets i net) := by
  intro k
  by_cases hk : k = i
  · subst hk
    simpa using hm
  · simpa [hk] using h k

variable {s : Objects} {nets : Nat → Net}

variable (h : Stands b s nets)
include h

theorem insert_spec (i : Nat) (hinput : Invertible b input) :
    ∃ s', insert b s i input = .ok s' ∧ Stands b s' (applyNet nets (.insert i input)) := by
  obtain ⟨n, hn, hlimbs, hmod⟩ := multiply_spec (h i).numerator (toNum3072_limbs (b := b) input)
  have hone : value b.base (s i).denominator ≡ value b.base (s i).denominator * value b.base (one b) [MOD modulus] := by
    rw [one_value, mul_one]
  have hheld := (h i).mul (Holds.singleton hinput) hlimbs (h i).denominator hmod hone
  rw [add_zero] at hheld
  refine ⟨s.setNumerator i n, ?_, h.update i hheld⟩
  unfold insert
  rw [hn]
  rfl

theorem remove_spec (i : Nat) (hinput : Invertible b input) :
    ∃ s', remove b s i input = .ok s' ∧ Stands b s' (applyNet nets (.remove i input)) := by
  obtain ⟨d, hd, hlimbs, hmod⟩ := multiply_spec (h i).denominator (toNum3072_limbs (b := b) input)
  have hone : value b.base (s i).numerator ≡ value b.base (s i).numerator * value b.base (one b) [MOD modulus] := by
    rw [one_value, mul_one]
  have hheld := (h i).mul (Holds.singleton hinput).inverse (h i).numerator hlimbs hone hmod
  rw [add_zero] at hheld
  refine ⟨s.setDenominator i d, ?_, h.update i hheld⟩
  unfold remove
  rw [hd]
  rfl

theorem mulAssign_spec (i j : Nat) :
    ∃ s', mulAssign b s i j = .ok s' ∧ Stands b s' (applyNet nets (.mulAssign i j)) := by
  obtain ⟨n, hn, hnlimbs, hnmod⟩ := multiply_spec (h i).numerator (h j).numerator
  obtain ⟨d, hd, hdlimbs, hdmod⟩ := multiply_spec (h i).denominator (h j).denominator
  refine ⟨update s i ⟨n, d⟩, ?_, h.update i ((h i).mul (h j) hnlimbs hdlimbs hnmod hdmod)⟩
  unfold mulAssign
  simp [hn, hd]

theorem divAssign_eq (i j : Nat) : ∃ n d, divAssign b s i j = .ok (update s i ⟨n, d⟩) ∧ IsLimbs b n ∧
    IsLimbs b d ∧ value b.base n ≡ value b.base (s i).numerator * value b.base (s j).denominator [MOD modulus] ∧
    value b.base d ≡ value b.base (s i).denominator * value b.base (if j = i then n else (s j).numerator)
      [MOD modulus] := by
  obtain ⟨n, hn, hnlimbs, hnmod⟩ := multiply_spec (h i).numerator (h j).denominator
  have hlimbs : IsLimbs b (if j = i then n else (s j).numerator) := by
    split
    · exact hnlimbs
    · exact (h j).numerator
  obtain ⟨d, hd, hdlimbs, hdmod⟩ := multiply_spec (h i).denominator hlimbs
  refine ⟨n, d, ?_, hnlimbs, hdlimbs, hnmod, hdmod⟩
  unfold divAssign
  simp [hn, setNumerator_numerator, hd]

theorem divAssign_spec (i j : Nat) (hplain : i = j → value b.base (s i).denominator ≡ 1 [MOD modulus]) :
    ∃ s', divAssign b s i j = .ok s' ∧ Stands b s' (applyNet nets (.divAssign i j)) := by
  obtain ⟨n, _, hrun, hnlimbs, hdlimbs, hnmod, hdmod⟩ := divAssign_eq h i j
  refine ⟨_, hrun, h.update i ((h i).mul (h j).inverse hnlimbs hdlimbs hnmod ?_)⟩
  split at hdmod
  · next hself =>
    -- the numerator has been multiplied by a denominator of 1
    subst hself
    have hone := hplain rfl
    have hsame : value b.base n ≡ value b.base (s j).numerator [MOD modulus] := by
      simpa using hnmod.trans (hone.mul_left _)
    exact hdmod.trans (hsame.mul_left _)
  · exact hdmod

theorem finalize_spec (i : Nat) : ∃ s' r, finalize b s i = .ok (s', sha256 (toBytes b r)) ∧ Stands b s' nets ∧
    IsLimbs b r ∧ value b.base r < modulus ∧
      value b.base r * prodOf b (nets i).removed ≡ prodOf b (nets i).added [MOD modulus] := by
  have hi := h i
  obtain ⟨r, hr, hlimbs, hlt, hmod⟩ := divide_spec hi.numerator hi.denominator hi.denominator_coprime
  have heq : value b.base r * prodOf b (nets i).removed ≡ prodOf b (nets i).added [MOD modulus] := by
    apply cancel_left_of_coprime hi.denominator_coprime.symm
    calc value b.base (s i).denominator * (value b.base r * prodOf b (nets i).removed)
        = value b.base r * value b.base (s i).denominator * prodOf b (nets i).removed := by ring
      _ ≡ value b.base (s i).numerator * prodOf b (nets i).removed [MOD modulus] := hmod.mul_right _
      _ ≡ value b.base (s i).denominator * prodOf b (nets i).added [MOD modulus] := hi.eq
  have hheld : Holds b ⟨r, one b⟩ (nets i) := by
    refine ⟨hlimbs, one_limbs, (coprime_of_modEq hmod hi.numerator_coprime).coprime_mul_right, ?_,
      hi.removed_coprime, ?_⟩
    · simp [one_value]
    · simpa [one_value] using heq
  refine ⟨update s i ⟨r, one b⟩, r, ?_, ?_, hlimbs, hlt, heq⟩
  · unfold finalize
    rw [hr, ok_bind]
    simp only [setNumerator_setDenominator]
    rfl
  · simpa using h.update i hheld

omit h

/-! ## Runs -/

theorem apply_spec (h : Stands b s nets) {op : Op} (hinputs : ∀ input ∈ op.inputs, Invertible b input)
    (hplain : Plain b s op) : ∃ s', apply b s op = .ok s' ∧ Stands b s' (applyNet nets op) := by
  cases op with
  | empty i => exact ⟨_, rfl, h.update i Holds.empty⟩
  | singleton i input => exact ⟨_, rfl, h.update i (Holds.singleton (hinputs input (by simp [Op.inputs])))⟩
  | insert i input => exact insert_spec h i (hinputs input (by simp [Op.inputs]))
  | remove i input => exact remove_spec h i (hinputs input (by simp [Op.inputs]))
  | mulAssign i j => exact mulAssign_spec h i j
  | divAssign i j => exact divAssign_spec h i j hplain
  | finalize i =>
    obtain ⟨s', _, hrun, hstands, -⟩ := finalize_spec h i
    refine ⟨s', ?_, hstands⟩
    simp only [apply, hrun, ok_bind]
    rfl

theorem run_spec (h : Stands b s nets) (hinputs : ∀ op ∈ ops, ∀ input ∈ op.inputs, Invertible b input)
    (hplain : PlainRun b s ops) : ∃ s', run b s ops = .ok s' ∧ Stands b s' (ops.foldl applyNet nets) := by
  induction ops generalizing s nets with
  | nil => exact ⟨s, rfl, h⟩
  | cons op ops ih =>
    rw [forall_mem_cons] at hinputs
    obtain ⟨s1, hstep, hstands⟩ := apply_spec h hinputs.1 hplain.1
    obtain ⟨s', hrun, hstands'⟩ := ih hstands hinputs.2 (hplain.2 s1 hstep)
    refine ⟨s', ?_, hstands'⟩
    unfold run
    rw [hstep, ok_bind, hrun]

theorem hashAfter_spec (hinputs : ∀ op ∈ ops, ∀ input ∈ op.inputs, Invertible b input)
    (hplain : PlainRun b (initial b) ops) (i : Nat) : ∃ r, hashAfter b ops i = .ok (sha256 (toBytes b r)) ∧
    IsLimbs b r ∧ value b.base r < modulus ∧ Nat.Coprime (prodOf b (netAfter ops i).removed) modulus ∧
    value b.base r * prodOf b (netAfter ops i).removed ≡ prodOf b (netAfter ops i).added [MOD modulus] := by
  have hstart : Stands b (initial b) fun _ => ⟨0, 0⟩ := fun _ => Holds.empty
  obtain ⟨_, hrun, hstands⟩ := run_spec hstart hinputs hplain
  obtain ⟨_, r, hfinal, -, hlimbs, hlt, hmod⟩ := finalize_spec hstands i
  refine ⟨r, ?_, hlimbs, hlt, (hstands i).removed_coprime, hmod⟩
  unfold hashAfter
  rw [hrun, ok_bind, hfinal]
  rfl

theorem hash_of_same {ops' : List Op} (hinputs : ∀ op ∈ ops, ∀ input ∈ op.inputs, Invertible b input)
    (hinputs' : ∀ op ∈ ops', ∀ input ∈ op.inputs, Invertible b input) (hplain : PlainRun b (initial b) ops)
    (hplain' : PlainRun b (initial b) ops') {i j : Nat} (hnet : (netAfter ops i).Same (netAfter ops' j)) :
    ∃ hash, hashAfter b ops i = .ok hash ∧ hashAfter b ops' j = .ok hash := by
  obtain ⟨r, hhash, hlimbs, hlt, hcoprime, hmod⟩ := hashAfter_spec hinputs hplain i
  obtain ⟨r', hhash', hlimbs', hlt', hcoprime', hmod'⟩ := hashAfter_spec hinputs' hplain' j
  have hprod := congrArg (prodOf b) hnet
  rw [prodOf_add, prodOf_add] at hprod
  have heq : value b.base r ≡ value b.base r' [MOD modulus] := by
    apply cancel_left_of_coprime (hcoprime.mul_left hcoprime').symm
    calc prodOf b (netAfter ops i).removed * prodOf b (netAfter ops' j).removed * value b.base r
        = value b.base r * prodOf b (netAfter ops i).removed * prodOf b (netAfter ops' j).removed := by ring
      _ ≡ prodOf b (netAfter ops i).added * prodOf b (netAfter ops' j).removed [MOD modulus] := hmod.mul_right _
      _ = prodOf b (netAfter ops' j).added * prodOf b (netAfter ops i).removed := hprod
      _ ≡ value b.base r' * prodOf b (netAfter ops' j).removed * prodOf b (netAfter ops i).removed [MOD modulus] :=
          (hmod'.mul_right _).symm
      _ = prodOf b (netAfter ops i).removed * prodOf b (netAfter ops' j).removed * value b.base r' := by ring
  obtain rfl : r = r' := by
    apply value_injective (hlimbs.length_eq.trans hlimbs'.length_eq.symm) hlimbs.lt hlimbs'.lt
    exact eq_of_lt_of_lt heq hlt hlt'
  exact ⟨_, hhash, hhash'⟩

/-- The hash depends on the net alone, and no assertion fails. -/
theorem hash_depends_on_net {ops ops' : List Op} (hinputs : ∀ op ∈ ops, ∀ input ∈ op.inputs, Invertible b input)
    (hinputs' : ∀ op ∈ ops', ∀ input ∈ op.inputs, Invertible b input) (hplain : PlainRun b (initial b) ops)
    (hplain' : PlainRun b (initial b) ops') {i j : Nat} (hnet : (netAfter ops i).Same (netAfter ops' j)) :
    (∃ hash, hashAfter b ops i = .ok hash ∧ hashAfter b ops' j = .ok hash ∧ hash.length = 32) ∧
    (∀ first rest k, ops = first ++ rest → PlainRun b (initial b) (first ++ .finalize k :: rest) →
      ∀ l, hashAfter b (first ++ .finalize k :: rest) l = hashAfter b ops l) ∧
    ∀ x y, IsLimbs b x → IsLimbs b y → ∃ limbs, multiply b x y = .ok limbs ∧ IsLimbs b limbs ∧
      value b.base limbs ≡ value b.base x * value b.base y [MOD modulus] := by
  refine ⟨?_, ?_, fun x y => multiply_spec⟩
  · obtain ⟨_, hhash, -⟩ := hashAfter_spec hinputs hplain i
    obtain ⟨hash, hsame, hsame'⟩ := hash_of_same hinputs hinputs' hplain hplain' hnet
    rw [hhash] at hsame
    cases hsame
    exact ⟨_, hhash, hsame', sha256_length _⟩
  · rintro first rest k rfl hfinal l
    have hinputs'' : ∀ op ∈ first ++ .finalize k :: rest, ∀ input ∈ op.inputs, Invertible b input := by
      intro op hop
      simp only [mem_append, mem_cons] at hop
      rcases hop with hop | rfl | hop
      · exact hinputs op (mem_append_left _ hop)
      · simp [Op.inputs]
      · exact hinputs op (mem_append_right _ hop)
    have hnets : netAfter (first ++ .finalize k :: rest) = netAfter (first ++ rest) := by
      simp [netAfter, applyNet]
    obtain ⟨hash, hsame, hsame'⟩ :=
        hash_of_same hinputs'' hinputs hfinal hplain (i := l) (j := l) (by rw [hnets]; exact rfl)
    rw [hsame, hsame']

/-- Dividing by itself is fine before anything was removed. -/
theorem insert_self_divide_insert : Invertible .int128 [] ∧
    (∃ hash, hashAfter .int128 [.insert 0 [], .divAssign 0 0, .insert 0 []] 0 = .ok hash ∧
      hashAfter .int128 [.insert 0 []] 0 = .ok hash ∧ hash.length = 32) := by
  have hinv : Invertible .int128 [] := by
    unfold Invertible
    decide +kernel
  refine ⟨hinv, (hash_depends_on_net ?_ ?_ ?_ ?_ ?_).1⟩
  · simpa [Op.inputs] using hinv
  · simpa [Op.inputs] using hinv
  · refine ⟨trivial, fun s hs => ⟨fun _ => ?_, fun s' _ => ⟨trivial, fun _ _ => trivial⟩⟩⟩
    obtain ⟨_, -, hn⟩ := bind_ok.mp hs
    cases hn
    rw [setNumerator_denominator, initial, MuHash3072.empty, one_value]
  · exact ⟨trivial, fun _ _ => trivial⟩
  · simp [netAfter, applyNet, Net.Same]

theorem self_division_keeps (hinput : Invertible b input) :
    hashAfter b [.remove 0 input, .divAssign 0 0, .insert 0 input] 0 = .ok (sha256 (toBytes b (one b))) := by
  obtain ⟨d1, hd1, hlimbs1, hmod1⟩ := multiply_spec (one_limbs (b := b)) (toNum3072_limbs (b := b) input)
  obtain ⟨n2, hn2, hlimbs2, hmod2⟩ := multiply_spec (one_limbs (b := b)) hlimbs1
  obtain ⟨d2, hd2, hlimbsd2, hmodd2⟩ := multiply_spec hlimbs1 hlimbs2
  obtain ⟨n3, hn3, hlimbs3, hmod3⟩ := multiply_spec hlimbs2 (toNum3072_limbs (b := b) input)
  rw [one_value, one_mul] at hmod1 hmod2
  -- numerator and denominator are both the square of the hash
  have hsame : value b.base n3 ≡ value b.base d2 [MOD modulus] := by
    calc value b.base n3 ≡ value b.base n2 * value b.base (toNum3072 b input) [MOD modulus] := hmod3
      _ ≡ value b.base n2 * value b.base d1 [MOD modulus] := hmod1.symm.mul_left _
      _ = value b.base d1 * value b.base n2 := Nat.mul_comm _ _
      _ ≡ value b.base d2 [MOD modulus] := hmodd2.symm
  have hcoprime1 := coprime_of_modEq hmod1 hinput
  have hcoprime := coprime_of_modEq hmodd2 (hcoprime1.mul_left (coprime_of_modEq hmod2 hcoprime1))
  obtain ⟨r, hr, hlimbs, hlt, hmod⟩ := divide_spec hlimbs3 hlimbsd2 hcoprime
  have hone : value b.base r ≡ 1 [MOD modulus] := by
    apply cancel_right_of_coprime hcoprime.symm
    rw [one_mul]
    exact hmod.trans hsame
  obtain rfl : r = one b := by
    apply value_injective (hlimbs.length_eq.trans one_limbs.length_eq.symm) hlimbs.lt one_limbs.lt
    rw [one_value]
    have hp := one_lt_modulus
    exact eq_of_lt_of_lt hone hlt (by omega)
  simp [hashAfter, run, apply, remove, divAssign, insert, finalize, initial, MuHash3072.empty, Objects.setDenominator,
    Objects.setNumerator, hd1, hn2, hd2, hn3, hr]

/-- Dividing an object by itself gives the hash of the empty set. -/
theorem self_division_hash_differs : Invertible .int128 [] ∧
    (netAfter [.remove 0 [], .divAssign 0 0, .insert 0 []] 0).Same (netAfter [.insert 0 []] 0) ∧
    ∃ hash hash', hashAfter .int128 [.remove 0 [], .divAssign 0 0, .insert 0 []] 0 = .ok hash ∧
      hashAfter .int128 [.insert 0 []] 0 = .ok hash' ∧ hash ≠ hash' := by
  have hinv : Invertible .int128 [] := by
    unfold Invertible
    decide +kernel
  have hlt : value Build.int128.base (toNum3072 .int128 []) < modulus := by decide +kernel
  have hinputs : ∀ op ∈ [Op.insert 0 []], ∀ input ∈ op.inputs, Invertible .int128 input := by
    simpa [Op.inputs] using hinv
  obtain ⟨r, hhash, hlimbs, hrlt, -, hmod⟩ := hashAfter_spec hinputs ⟨trivial, fun _ _ => trivial⟩ 0
  obtain rfl : r = toNum3072 .int128 [] := by
    have htoNum := toNum3072_limbs (b := .int128) []
    apply value_injective (hlimbs.length_eq.trans htoNum.length_eq.symm) hlimbs.lt htoNum.lt
    have heq : value Build.int128.base r ≡ value Build.int128.base (toNum3072 .int128 []) [MOD modulus] := by
      simpa [netAfter, applyNet] using hmod
    exact eq_of_lt_of_lt heq hrlt hlt
  exact ⟨hinv, by simp [netAfter, applyNet, Net.Same], _, _, self_division_keeps hinv, hhash, by decide +kernel⟩

end FullNode.MuHash

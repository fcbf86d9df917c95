import FullNode.Basic
import FullNode.Lib.Generations

/-!
# The rolling bloom filter

Every position has a mark of two bits, kept at the same place of two words: zero, or the number of the generation that
set it last. The words `data[2 * w]` and `data[2 * w + 1]` stand together here as the pair `w`.
-/

namespace FullNode.RollingBloom

open List Generations

/-! ## The code -/

structure CRollingBloomFilter where
  nEntriesPerGeneration : Nat
  nEntriesThisGeneration : Nat
  nGeneration : Nat
  data : List (Uint64 × Uint64)
  nTweak : Uint32
  nHashFuncs : Nat
  deriving DecidableEq

def INT_MAX : Nat := 2 ^ 31 - 1

def reset (f : CRollingBloomFilter) (nTweak : Uint32) : CRollingBloomFilter :=
  { f with
    nTweak
    nEntriesThisGeneration := 0
    nGeneration := 1
    data := List.replicate f.data.length (0, 0) }

/-- The constructor, with the logarithm of the rate. -/
def create (nElements : Uint32) (nHashFuncs : Nat) (filterBits : Nat → Nat)
    (nTweak : Uint32) : Checked CRollingBloomFilter :=
  let nEntriesPerGeneration := (nElements + 1).toNat / 2
  let nMaxElements := nEntriesPerGeneration * 3
  if nMaxElements > INT_MAX then .error .overflow
  else if filterBits nMaxElements ≥ 2 ^ 32 then .error .overflow
  else
    let nFilterBits := filterBits nMaxElements
    let pairs := (nFilterBits + 63) % 2 ^ 32 / 64
    .ok (reset ⟨nEntriesPerGeneration, 0, 1, List.replicate pairs (0, 0), 0, nHashFuncs⟩ nTweak)

/-- `FastRange32`. -/
def fastRange32 (x n : Nat) : Nat := x * n / 2 ^ 32

/-- The pair and the bit of a hash, without its lowest bit. -/
def place (pairs : Nat) (h : Uint32) : Nat × Nat := (fastRange32 h.toNat (2 * pairs) / 2, h.toNat &&& 0x3F)

variable (murmurHash3 : Uint32 → List UInt8 → Uint32)

def rollingBloomHash (nHashNum : Nat) (nTweak : Uint32) (vKey : List UInt8) : Uint32 :=
  murmurHash3 (BitVec.ofNat 32 nHashNum * 0xFBA4C795#32 + nTweak) vKey

def wipe (nGeneration : Nat) (data : List (Uint64 × Uint64)) : List (Uint64 × Uint64) :=
  let nGenerationMask1 : Uint64 := 0#64 - BitVec.ofNat 64 (nGeneration &&& 1)
  let nGenerationMask2 : Uint64 := 0#64 - BitVec.ofNat 64 (nGeneration >>> 1)
  data.map fun p =>
    let mask := (p.1 ^^^ nGenerationMask1) ||| (p.2 ^^^ nGenerationMask2)
    (p.1 &&& mask, p.2 &&& mask)

/-- `(word & ~(uint64_t{1} << bit)) | uint64_t(value) << bit`. -/
def setBit (word : Uint64) (bit value : Nat) : Uint64 :=
  (word &&& ~~~(1#64 <<< bit)) ||| BitVec.ofNat 64 value <<< bit

/-- What an insertion does for hash function `n`. -/
def insertHash (vKey : List UInt8) (f : CRollingBloomFilter) (n : Nat) : Checked CRollingBloomFilter :=
  let pos := place f.data.length (rollingBloomHash murmurHash3 n f.nTweak vKey)
  match f.data[pos.1]? with
  | none => .error .badIterator
  | some p =>
    .ok { f with
      data := f.data.set pos.1 (setBit p.1 pos.2 (f.nGeneration &&& 1), setBit p.2 pos.2 (f.nGeneration >>> 1)) }

def startGeneration (f : CRollingBloomFilter) : CRollingBloomFilter :=
  if f.nEntriesThisGeneration = f.nEntriesPerGeneration then
    let nGeneration := if f.nGeneration + 1 = 4 then 1 else f.nGeneration + 1
    { f with nEntriesThisGeneration := 0, nGeneration, data := wipe nGeneration f.data }
  else f

def insert (f : CRollingBloomFilter) (vKey : List UInt8) : Checked CRollingBloomFilter :=
  let f := startGeneration f
  (List.range f.nHashFuncs).foldlM (insertHash murmurHash3 vKey)
    { f with nEntriesThisGeneration := f.nEntriesThisGeneration + 1 }

/-- The loop of `contains`. -/
def containsFrom (f : CRollingBloomFilter) (vKey : List UInt8) : List Nat → Checked Bool
  | [] => .ok true
  | n :: ns =>
    let pos := place f.data.length (rollingBloomHash murmurHash3 n f.nTweak vKey)
    match f.data[pos.1]? with
    | none => .error .badIterator
    | some p => if ((p.1 ||| p.2) >>> pos.2) &&& 1 = 0 then .ok false else containsFrom f vKey ns

def contains (f : CRollingBloomFilter) (vKey : List UInt8) : Checked Bool :=
  containsFrom murmurHash3 f vKey (List.range f.nHashFuncs)

/-! ## Marks -/

def markAt (data : List (Uint64 × Uint64)) (p : Nat × Nat) : Nat :=
  let words := data.getD p.1 (0, 0)
  (words.1.getLsbD p.2).toNat + 2 * (words.2.getLsbD p.2).toNat

theorem bit_of_mask (b : Nat) (hb : b = 0 ∨ b = 1) (i : Nat) (hi : i < 64) :
    (0#64 - BitVec.ofNat 64 b).getLsbD i = decide (b = 1) := by
  rcases hb with rfl | rfl
  · simp
  · have hall : 0#64 - BitVec.ofNat 64 1 = BitVec.allOnes 64 := by decide
    rw [hall, BitVec.getLsbD_allOnes]
    simpa using hi

theorem bits_of_generation {g : Nat} (hg : 1 ≤ g ∧ g ≤ 3) : (g &&& 1 = 0 ∨ g &&& 1 = 1) ∧ (g >>> 1 = 0 ∨ g >>> 1 = 1) ∧
    (decide (g &&& 1 = 1)).toNat + 2 * (decide (g >>> 1 = 1)).toNat = g := by
  obtain rfl | rfl | rfl : g = 1 ∨ g = 2 ∨ g = 3 := by omega
  all_goals decide

/-- The masks on a place are zero at the generation's mark. -/
theorem wipe_bits (a b m1 m2 : Bool) : (a && (a ^^ m1 || b ^^ m2)).toNat + 2 * (b && (a ^^ m1 || b ^^ m2)).toNat =
    if a.toNat + 2 * b.toNat = m1.toNat + 2 * m2.toNat then 0 else a.toNat + 2 * b.toNat := by
  revert a b m1 m2
  decide

theorem markAt_wipe (data : List (Uint64 × Uint64)) {g : Nat} (hg : 1 ≤ g ∧ g ≤ 3) (p : Nat × Nat) :
    markAt (wipe g data) p = if markAt data p = g then 0 else markAt data p := by
  obtain ⟨w, i⟩ := p
  obtain ⟨hb1, hb2, hvalue⟩ := bits_of_generation hg
  have hword : (wipe g data).getD w (0, 0) = let words := data.getD w (0, 0)
      let mask := (words.1 ^^^ (0#64 - BitVec.ofNat 64 (g &&& 1))) ||| (words.2 ^^^ (0#64 - BitVec.ofNat 64 (g >>> 1)))
      (words.1 &&& mask, words.2 &&& mask) := by
    rw [wipe, getD_eq_getElem?_getD, getElem?_map, getD_eq_getElem?_getD]
    cases data[w]? with
    | none => simp
    | some words => rfl
  rcases Nat.lt_or_ge i 64 with hi | hi
  · simp only [markAt, hword, BitVec.getLsbD_and, BitVec.getLsbD_or, BitVec.getLsbD_xor, bit_of_mask _ hb1 i hi,
      bit_of_mask _ hb2 i hi]
    have hbits := wipe_bits ((data.getD w (0, 0)).1.getLsbD i) ((data.getD w (0, 0)).2.getLsbD i)
      (decide (g &&& 1 = 1)) (decide (g >>> 1 = 1))
    rwa [hvalue] at hbits
  · simp only [markAt, BitVec.getLsbD_of_ge _ _ hi]
    simp

theorem getLsbD_one_shift {bit : Nat} (hbit : bit < 64) (i : Nat) : (1#64 <<< bit).getLsbD i = decide (i = bit) := by
  rw [show 1#64 <<< bit = BitVec.twoPow 64 bit from rfl, BitVec.getLsbD_twoPow]
  simp [hbit, eq_comm]

theorem getLsbD_setBit (word : Uint64) {bit value : Nat} (hbit : bit < 64) (hvalue : value = 0 ∨ value = 1) (i : Nat) :
    (setBit word bit value).getLsbD i = if i = bit then decide (value = 1) else word.getLsbD i := by
  have hone : (BitVec.ofNat 64 value <<< bit).getLsbD i = decide (i = bit ∧ value = 1) := by
    rcases hvalue with rfl | rfl
    · simp
    · rw [getLsbD_one_shift hbit]
      simp
  rw [setBit, BitVec.getLsbD_or, BitVec.getLsbD_and, BitVec.getLsbD_not, hone, getLsbD_one_shift hbit]
  rcases Nat.lt_or_ge i 64 with hi | hi
  · by_cases heq : i = bit
    · simp [heq]
    · simp [heq, hi]
  · simp only [BitVec.getLsbD_of_ge word i hi, show ¬ i = bit by omega, false_and, decide_false, Bool.or_false,
      if_false, Bool.false_and]

theorem markAt_set {data : List (Uint64 × Uint64)} {w bit g : Nat} {words : Uint64 × Uint64} (hg : 1 ≤ g ∧ g ≤ 3)
    (hbit : bit < 64) (hw : data[w]? = some words) (p : Nat × Nat) :
    markAt (data.set w (setBit words.1 bit (g &&& 1), setBit words.2 bit (g >>> 1))) p =
      if p = (w, bit) then g else markAt data p := by
  obtain ⟨w', i⟩ := p
  obtain ⟨hb1, hb2, hvalue⟩ := bits_of_generation hg
  have hlt : w < data.length := (List.getElem?_eq_some_iff.mp hw).1
  by_cases hw' : w' = w
  · subst hw'
    have hnew : (data.set w' (setBit words.1 bit (g &&& 1), setBit words.2 bit (g >>> 1))).getD w' (0, 0) =
        (setBit words.1 bit (g &&& 1), setBit words.2 bit (g >>> 1)) := by
      rw [getD_eq_getElem?_getD, getElem?_set_self hlt]
      rfl
    have hold : data.getD w' (0, 0) = words := by
      rw [getD_eq_getElem?_getD, hw]
      rfl
    simp only [markAt, hnew, hold, getLsbD_setBit _ hbit hb1, getLsbD_setBit _ hbit hb2, Prod.mk.injEq, true_and]
    by_cases hi : i = bit
    · simp only [hi, if_true]
      exact hvalue
    · simp only [hi, if_false]
  · simp only [markAt, getD_eq_getElem?_getD, getElem?_set_ne (Ne.symm hw'), Prod.mk.injEq, hw', false_and, if_false]

/-! ## One call -/

theorem place_lt {pairs : Nat} (hpairs : 0 < pairs) (h : Uint32) :
    (place pairs h).1 < pairs ∧ (place pairs h).2 < 64 := by
  have hlt := h.isLt
  refine ⟨?_, ?_⟩
  · have hrange : fastRange32 h.toNat (2 * pairs) < 2 * pairs := by
      rw [fastRange32, Nat.div_lt_iff_lt_mul (by norm_num), Nat.mul_comm (2 * pairs)]
      exact Nat.mul_lt_mul_of_pos_right hlt (by omega)
    change fastRange32 h.toNat (2 * pairs) / 2 < pairs
    omega
  · exact Nat.lt_of_le_of_lt Nat.and_le_right (by norm_num)

def places (pairs nHashFuncs : Nat) (nTweak : Uint32) (vKey : List UInt8) : List (Nat × Nat) :=
  (List.range nHashFuncs).map fun n => place pairs (rollingBloomHash murmurHash3 n nTweak vKey)

def marks (f : CRollingBloomFilter) : Generations.State (Nat × Nat) :=
  ⟨markAt f.data, f.nGeneration, f.nEntriesThisGeneration⟩

def SameShape (f f' : CRollingBloomFilter) : Prop :=
  f'.nEntriesPerGeneration = f.nEntriesPerGeneration ∧ f'.data.length = f.data.length ∧ f'.nTweak = f.nTweak ∧
    f'.nHashFuncs = f.nHashFuncs

variable {murmurHash3} {f : CRollingBloomFilter} {vKey : List UInt8}

theorem startGeneration_spec (hgen : 1 ≤ f.nGeneration ∧ f.nGeneration ≤ 3) :
    SameShape f (startGeneration f) ∧ marks (startGeneration f) =
      if f.nEntriesThisGeneration = f.nEntriesPerGeneration then advance 3 (marks f) else marks f := by
  unfold startGeneration
  split
  · have hnext : 1 ≤ Generations.next 3 f.nGeneration ∧ Generations.next 3 f.nGeneration ≤ 3 := by
      unfold Generations.next
      split <;> omega
    refine ⟨⟨rfl, by simp [wipe], rfl, rfl⟩, ?_⟩
    unfold marks advance
    congr 1
    funext p
    exact markAt_wipe f.data hnext p
  · exact ⟨⟨rfl, rfl, rfl, rfl⟩, rfl⟩

theorem insertHash_spec (murmurHash3 : Uint32 → List UInt8 → Uint32) (vKey : List UInt8) (hpairs : 0 < f.data.length)
    (hgen : 1 ≤ f.nGeneration ∧ f.nGeneration ≤ 3) (n : Nat) :
    ∃ f', insertHash murmurHash3 vKey f n = .ok f' ∧ SameShape f f' ∧ f'.nGeneration = f.nGeneration ∧
      f'.nEntriesThisGeneration = f.nEntriesThisGeneration ∧ ∀ p, markAt f'.data p =
        if p = place f.data.length (rollingBloomHash murmurHash3 n f.nTweak vKey) then f.nGeneration
        else markAt f.data p := by
  obtain ⟨hw, hbit⟩ := place_lt hpairs (rollingBloomHash murmurHash3 n f.nTweak vKey)
  unfold insertHash
  simp only [getElem?_eq_getElem hw]
  refine ⟨_, rfl, ⟨rfl, by simp, rfl, rfl⟩, rfl, rfl, fun p => ?_⟩
  exact markAt_set hgen hbit (getElem?_eq_getElem hw) p

theorem insertHashes_spec (murmurHash3 : Uint32 → List UInt8 → Uint32) (vKey : List UInt8) (hpairs : 0 < f.data.length)
    (hgen : 1 ≤ f.nGeneration ∧ f.nGeneration ≤ 3) (ns : List Nat) :
    ∃ f', ns.foldlM (insertHash murmurHash3 vKey) f = .ok f' ∧ SameShape f f' ∧ f'.nGeneration = f.nGeneration ∧
      f'.nEntriesThisGeneration = f.nEntriesThisGeneration ∧ ∀ p, markAt f'.data p =
        if p ∈ ns.map (fun n => place f.data.length (rollingBloomHash murmurHash3 n f.nTweak vKey)) then f.nGeneration
        else markAt f.data p := by
  induction ns generalizing f with
  | nil => exact ⟨f, rfl, ⟨rfl, rfl, rfl, rfl⟩, rfl, rfl, fun p => by simp⟩
  | cons n ns ih =>
    obtain ⟨f1, h₁, ⟨_, hd, ht, _⟩, hg, _, hmark⟩ := insertHash_spec murmurHash3 vKey hpairs hgen n
    obtain ⟨f2, h₂, ⟨_, _, ht', _⟩, _, _, hmark'⟩ := ih (f := f1) (by omega) (by omega)
    refine ⟨f2, by rw [foldlM_cons, h₁, ok_bind, h₂], ⟨by omega, by omega, by rw [ht', ht], by omega⟩, by omega,
      by omega, fun p => ?_⟩
    rw [hmark', hmark, hg, hd, ht]
    simp only [map_cons, mem_cons]
    by_cases hp : p = place f.data.length (rollingBloomHash murmurHash3 n f.nTweak vKey)
    · simp [hp]
    · simp [hp]

theorem insert_spec (murmurHash3 : Uint32 → List UInt8 → Uint32) (vKey : List UInt8) (hpairs : 0 < f.data.length)
    (hgen : 1 ≤ f.nGeneration ∧ f.nGeneration ≤ 3) : ∃ f', insert murmurHash3 f vKey = .ok f' ∧ SameShape f f' ∧
      marks f' = Generations.insert 3 f.nEntriesPerGeneration (places murmurHash3 f.data.length f.nHashFuncs f.nTweak)
        (marks f) vKey := by
  obtain ⟨⟨he, hd, ht, hh⟩, hstart⟩ := startGeneration_spec hgen
  have hgen' : 1 ≤ (startGeneration f).nGeneration ∧ (startGeneration f).nGeneration ≤ 3 := by
    have hnumber := congrArg Generations.State.gen hstart
    simp only [marks, advance, Generations.next] at hnumber
    grind
  obtain ⟨f', h, ⟨he', hd', ht', hh'⟩, hg, hc, hmark⟩ := insertHashes_spec murmurHash3 vKey
    (f := { startGeneration f with nEntriesThisGeneration := (startGeneration f).nEntriesThisGeneration + 1 })
    (hd.symm ▸ hpairs) hgen' (range f.nHashFuncs)
  refine ⟨f', by rw [← h, ← hh]; rfl, ⟨he'.trans he, hd'.trans hd, ht'.trans ht, hh'.trans hh⟩, ?_⟩
  have hbegin : (if (marks f).count = f.nEntriesPerGeneration then advance 3 (marks f) else marks f) =
      marks (startGeneration f) := hstart.symm
  rw [Generations.insert, hbegin]
  unfold marks write places
  rw [hg, hc]
  congr 1
  funext p
  rw [hmark]
  simp only [ht, hd]

theorem containsFrom_spec (hpairs : 0 < f.data.length) {ns : List Nat}
    (h : ∀ n ∈ ns, markAt f.data (place f.data.length (rollingBloomHash murmurHash3 n f.nTweak vKey)) ≠ 0) :
    containsFrom murmurHash3 f vKey ns = .ok true := by
  induction ns with
  | nil => rfl
  | cons n ns ih =>
    obtain ⟨hw, hbit⟩ := place_lt hpairs (rollingBloomHash murmurHash3 n f.nTweak vKey)
    have hmark := h n mem_cons_self
    rw [containsFrom]
    simp only [getElem?_eq_getElem hw]
    rw [if_neg, ih fun m hm => h m (mem_cons_of_mem _ hm)]
    intro hzero
    apply hmark
    have hbit := congrArg (fun w : Uint64 => w.getLsbD 0) hzero
    have hone : (1 : Uint64).getLsbD 0 = true := rfl
    simp only [BitVec.getLsbD_and, BitVec.getLsbD_ushiftRight, BitVec.getLsbD_or, hone, Bool.and_true,
      Nat.add_zero] at hbit
    obtain ⟨hfirst, hsecond⟩ := Bool.or_eq_false_iff.mp hbit
    simp only [markAt, getD_eq_getElem?_getD, getElem?_eq_getElem hw, Option.getD_some, hfirst, hsecond]
    rfl

/-! ## Runs -/

inductive Op where
  | insert (vKey : List UInt8)
  | reset (nTweak : Uint32)
  deriving DecidableEq

def step (murmurHash3 : Uint32 → List UInt8 → Uint32) (f : CRollingBloomFilter) : Op → Checked CRollingBloomFilter
  | .insert vKey => insert murmurHash3 f vKey
  | .reset nTweak => .ok (reset f nTweak)

def inserted (keys : List (List UInt8)) : List Op → List (List UInt8)
  | [] => keys
  | .insert vKey :: ops => inserted (vKey :: keys) ops
  | .reset _ :: ops => inserted [] ops

structure Holds (murmurHash3 : Uint32 → List UInt8 → Uint32) (E pairs nHashFuncs : Nat) (keys : List (List UInt8))
    (f : CRollingBloomFilter) : Prop where
  entries : f.nEntriesPerGeneration = E
  length : f.data.length = pairs
  hashes : f.nHashFuncs = nHashFuncs
  remembers : Generations.Remembers 3 E (places murmurHash3 pairs nHashFuncs f.nTweak) keys (marks f)

variable {E pairs nHashFuncs : Nat} {keys : List (List UInt8)}

variable (murmurHash3) in
theorem holds_reset (h1 : f.nEntriesPerGeneration = E) (h2 : f.data.length = pairs) (h3 : f.nHashFuncs = nHashFuncs)
    (nTweak : Uint32) : Holds murmurHash3 E pairs nHashFuncs [] (reset f nTweak) := by
  refine ⟨h1, by simp [reset, h2], h3, ?_⟩
  have hempty : marks (reset f nTweak) = empty := by
    unfold marks empty reset
    congr 1
    funext p
    simp only [markAt, getD_eq_getElem?_getD, getElem?_replicate]
    split <;> simp
  rw [hempty]
  exact Generations.Remembers.empty (by norm_num)

section

variable (h : Holds murmurHash3 E pairs nHashFuncs keys f)
include h

theorem Holds.insert (hE : 0 < E) (hpairs : 0 < pairs)
    (vKey : List UInt8) : ∃ f', insert murmurHash3 f vKey = .ok f' ∧
      Holds murmurHash3 E pairs nHashFuncs (vKey :: keys) f' := by
  obtain ⟨f', hf', ⟨he, hd, ht, hh⟩, hmarks⟩ := insert_spec murmurHash3 vKey
    (h.length.symm ▸ hpairs) h.remembers.gen
  refine ⟨f', hf', he.trans h.entries, hd.trans h.length, hh.trans h.hashes, ?_⟩
  rw [hmarks, ht, h.entries, h.length, h.hashes]
  exact h.remembers.insert hE vKey

theorem Holds.run (hE : 0 < E) (hpairs : 0 < pairs) (ops : List Op) :
    ∃ f', ops.foldlM (step murmurHash3) f = .ok f' ∧ Holds murmurHash3 E pairs nHashFuncs (inserted keys ops) f' := by
  induction ops generalizing f keys with
  | nil => exact ⟨f, rfl, h⟩
  | cons op ops ih =>
    cases op with
    | insert vKey =>
      obtain ⟨_, h₁, hold1⟩ := h.insert hE hpairs vKey
      obtain ⟨f2, h₂, hold2⟩ := ih hold1
      exact ⟨f2, by rw [foldlM_cons, step, h₁, ok_bind, h₂], hold2⟩
    | reset nTweak =>
      obtain ⟨f2, h₂, hold2⟩ := ih (holds_reset murmurHash3 h.entries h.length h.hashes nTweak)
      exact ⟨f2, by rw [foldlM_cons, step, ok_bind, h₂], hold2⟩

theorem Holds.contains (hpairs : 0 < pairs) {vKey : List UInt8}
    (hkey : vKey ∈ keys.take (2 * E)) : contains murmurHash3 f vKey = .ok true := by
  refine containsFrom_spec (h.length.symm ▸ hpairs) fun n hn => ?_
  refine h.remembers.mark_ne_zero hkey ?_
  rw [places, h.length, mem_map]
  exact ⟨n, by rwa [← h.hashes], rfl⟩

end

/-! ## The constructor -/

/-- A filter can be made, and always contains the last `n` keys. -/
def RemembersLast (murmurHash3 : Uint32 → List UInt8 → Uint32) (n : Nat) (made : Checked CRollingBloomFilter) : Prop :=
  ∃ f, made = .ok f ∧ ∀ ops, ∃ f', ops.foldlM (step murmurHash3) f = .ok f' ∧
    ∀ vKey ∈ (inserted [] ops).take n, contains murmurHash3 f' vKey = .ok true

def WipesExactly : Prop :=
  ∀ data g p, 1 ≤ g ∧ g ≤ 3 → markAt (wipe g data) p = if markAt data p = g then 0 else markAt data p

/-- Nothing leaves its type, and there is a word to mark. -/
def SizesFit (nElements : Uint32) (filterBits : Nat → Nat) : Prop :=
  (nElements.toNat + 1) / 2 * 3 ≤ INT_MAX ∧ 0 < filterBits ((nElements.toNat + 1) / 2 * 3) ∧
    filterBits ((nElements.toNat + 1) / 2 * 3) ≤ 2 ^ 32 - 64

variable {nElements nTweak : Uint32} {filterBits : Nat → Nat}

variable (murmurHash3) in
theorem create_of_fit (nHashFuncs : Nat) (nTweak : Uint32) (hfit : SizesFit nElements filterBits) :
    ∃ f, create nElements nHashFuncs filterBits nTweak = .ok f ∧
      Holds murmurHash3 ((nElements.toNat + 1) / 2) ((filterBits ((nElements.toNat + 1) / 2 * 3) + 63) / 64)
        nHashFuncs [] f := by
  obtain ⟨hmax, _, _⟩ := hfit
  have hsum : (nElements + 1).toNat = nElements.toNat + 1 := by
    unfold INT_MAX at hmax
    rw [BitVec.toNat_add]
    exact Nat.mod_eq_of_lt (by simp; omega)
  unfold create
  simp only [hsum]
  rw [if_neg (not_lt.mpr hmax), if_neg (by omega)]
  refine ⟨_, rfl, ?_⟩
  apply holds_reset
  · rfl
  · rw [length_replicate, Nat.mod_eq_of_lt (by omega)]
  · rfl

theorem not_remembers_of_empty {n : Nat} (hhash : 1 ≤ f.nHashFuncs) (hdata : f.data = []) :
    ¬ RemembersLast murmurHash3 n (.ok f) := by
  rintro ⟨_, hf0, hruns⟩
  cases hf0
  obtain ⟨_, hf', -⟩ := hruns [.insert []]
  have hnone : (startGeneration f).data = [] := by
    unfold startGeneration
    split
    · simp [wipe, hdata]
    · exact hdata
  have hhash' : (startGeneration f).nHashFuncs = f.nHashFuncs := by
    unfold startGeneration
    split <;> rfl
  obtain ⟨_, hk⟩ := Nat.exists_eq_add_of_le' hhash
  rw [foldlM_cons, step, insert, hhash', hk, range_succ_eq_map, foldlM_cons, insertHash, hnone] at hf'
  cases hf'

theorem create_of_not_fit (nHashFuncs : Nat) (nTweak : Uint32) (hbits : filterBits 0 = 0)
    (hfit : ¬ SizesFit nElements filterBits) :
    create nElements nHashFuncs filterBits nTweak = .error .overflow ∨
      ∃ f, create nElements nHashFuncs filterBits nTweak = .ok f ∧ f.nHashFuncs = nHashFuncs ∧ f.data = [] := by
  unfold create
  simp only
  split
  · exact Or.inl rfl
  · next hmax =>
    split
    · exact Or.inl rfl
    · next hwide =>
      refine Or.inr ⟨_, rfl, rfl, ?_⟩
      have hpairs : (filterBits ((nElements + 1).toNat / 2 * 3) + 63) % 2 ^ 32 / 64 = 0 := by
        by_contra hpos
        apply hfit
        by_cases hwrap : nElements.toNat + 1 = 2 ^ 32
        · -- the sum wraps, and there is nothing to store
          have hsum : (nElements + 1).toNat = 0 := by
            rw [BitVec.toNat_add]
            simp [hwrap]
          rw [hsum, Nat.zero_div, Nat.zero_mul, hbits] at hpos
          exact absurd rfl hpos
        · have hsum : (nElements + 1).toNat = nElements.toNat + 1 := by
            rw [BitVec.toNat_add]
            exact Nat.mod_eq_of_lt (by simp; omega)
          rw [hsum] at hpos hmax hwide
          refine ⟨not_lt.mp hmax, ?_, ?_⟩ <;> omega
      simp only [reset, hpairs, replicate_zero, length_nil]

/-- The filter remembers its last keys exactly when its sizes fit. -/
theorem remembers_iff (murmurHash3 : Uint32 → List UInt8 → Uint32) (nElements nTweak : Uint32) (nHashFuncs : Nat)
    (filterBits : Nat → Nat) (hn : nElements ≠ 0) (hhash : 1 ≤ nHashFuncs) (hbits : filterBits 0 = 0) :
    (RemembersLast murmurHash3 nElements.toNat (create nElements nHashFuncs filterBits nTweak) ∧ WipesExactly) ↔
      SizesFit nElements filterBits := by
  constructor
  · rintro ⟨hremembers, -⟩
    by_contra hfit
    rcases create_of_not_fit nHashFuncs nTweak hbits hfit with herror | ⟨f, hf, _, hdata⟩
    · obtain ⟨f, hf, -⟩ := hremembers
      rw [herror] at hf
      cases hf
    · rw [hf] at hremembers
      exact not_remembers_of_empty (by omega) hdata hremembers
  · intro hfit
    refine ⟨?_, fun data g p hg => markAt_wipe data hg p⟩
    obtain ⟨f, hf, hholds⟩ := create_of_fit murmurHash3 nHashFuncs nTweak hfit
    have hpos : 0 < nElements.toNat := Nat.pos_of_ne_zero fun h0 => hn (BitVec.eq_of_toNat_eq h0)
    have hpairs : 0 < (filterBits ((nElements.toNat + 1) / 2 * 3) + 63) / 64 := by
      have hsome := hfit.2.1
      omega
    refine ⟨f, hf, fun ops => ?_⟩
    obtain ⟨f', hf', hholds'⟩ := hholds.run (by omega) hpairs ops
    refine ⟨f', hf', fun vKey hkey => hholds'.contains hpairs ?_⟩
    -- two generations hold at least as many keys as asked for
    exact (take_prefix_take_left (by omega)).subset hkey

/-- The filter with the most elements is made without a word to mark. -/
theorem largest_forgets : ¬ RemembersLast (fun _ _ => 0) 4294967295 (create 4294967295 10 (15 * ·) 0) :=
  not_remembers_of_empty (f := reset ⟨0, 0, 1, [], 0, 10⟩ 0) (by decide) rfl

theorem hundred_remembered : RemembersLast (fun _ _ => 0) 100 (create 100 10 (15 * ·) 0) ∧ WipesExactly :=
  (remembers_iff (fun _ _ => 0) 100 0 10 (15 * ·) (by decide) (by decide) rfl).mpr (by unfold SizesFit INT_MAX; decide)

end FullNode.RollingBloom

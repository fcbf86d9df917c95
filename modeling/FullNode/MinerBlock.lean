import FullNode.MempoolGraph
import FullNode.Miner

/-! # What a block template keeps -/

namespace FullNode.Miner

open OrderedIndex Mempool List
open TxRequest (memoryBytes)
open Relation

variable {ctx : Context} {options : BlockCreateOptions} {pool : CTxMemPool} {b : BlockAssembler} {k p : Uint256}
  {l done : List Uint256}

/-! ## Sizes cover weights -/

/-- Nothing is lost in the conversions of `GetTxSize`. -/
structure Fits (e : CTxMemPoolEntry) : Prop where
  weight : 0 ≤ e.nTxWeight
  extra : 0 ≤ e.extraWeight
  sigOps : 0 ≤ e.sigOpCost
  weightFits : e.nTxWeight + e.extraWeight < 2 ^ 31
  sizeFits : e.sigOpCost * e.bytesPerSigOp < 2 ^ 31

theorem int32_eq {x : Int} (h0 : 0 ≤ x) (h : x < 2 ^ 31) : int32 x = x := by
  unfold int32
  rw [Int.bmod_def]
  omega

variable {e : CTxMemPoolEntry}

theorem Fits.size (h : Fits e) : 0 ≤ e.getTxSize ∧ e.nTxWeight ≤ WITNESS_SCALE_FACTOR * e.getTxSize := by
  have hweight := h.weight
  have hextra := h.extra
  have hfits := h.weightFits
  have hsize := h.sizeFits
  unfold CTxMemPoolEntry.getTxSize getVirtualTransactionSize
  rw [int32_eq (by omega) hfits]
  simp only [WITNESS_SCALE_FACTOR]
  generalize e.sigOpCost * e.bytesPerSigOp = sigops at *
  rw [Int.tdiv_eq_ediv_of_nonneg (by omega), int32_eq (by omega) (by omega)]
  omega

def AllFit (pool : CTxMemPool) : Prop := ∀ k e, pool.find k = some e → Fits e

def weightOf (pool : CTxMemPool) (k : Uint256) : Int := (pool.find k).elim 0 CTxMemPoolEntry.nTxWeight
def sizeOf (pool : CTxMemPool) (k : Uint256) : Int := (pool.find k).elim 0 CTxMemPoolEntry.getTxSize
def sigOpsOf (pool : CTxMemPool) (k : Uint256) : Int := (pool.find k).elim 0 CTxMemPoolEntry.sigOpCost
def feeOf (pool : CTxMemPool) (k : Uint256) : Int := (pool.find k).elim 0 CTxMemPoolEntry.nFee

theorem AllFit.size (h : AllFit pool) (k : Uint256) :
    0 ≤ sizeOf pool k ∧ weightOf pool k ≤ WITNESS_SCALE_FACTOR * sizeOf pool k := by
  unfold sizeOf weightOf
  cases hfind : pool.find k with
  | none => simp
  | some e => exact (h k e hfind).size

theorem AllFit.sigOps (h : AllFit pool) (k : Uint256) : 0 ≤ sigOpsOf pool k := by
  unfold sigOpsOf
  cases hfind : pool.find k with
  | none => simp
  | some e => exact (h k e hfind).sigOps

/-! ## Parents first -/

def ParentsFirst (pool : CTxMemPool) : List Uint256 → List Uint256 → Prop
  | _, [] => True
  | done, k :: l => (∀ p, pool.Spends k p → p ∈ done) ∧ ParentsFirst pool (done ++ [k]) l

theorem parentsFirst_append {l' : List Uint256} :
    ParentsFirst pool done (l ++ l') ↔ ParentsFirst pool done l ∧ ParentsFirst pool (done ++ l) l' := by
  induction l generalizing done with
  | nil => simp [ParentsFirst]
  | cons k l ih => simp [ParentsFirst, ih, and_assoc]

theorem parentsFirst_of_pairwise (hpairs : l.Pairwise fun a b => ¬pool.Spends a b) (hself : ∀ k, ¬pool.Spends k k)
    (hparents : ∀ k ∈ l, ∀ p, pool.Spends k p → p ∈ done ∨ p ∈ l) : ParentsFirst pool done l := by
  induction l generalizing done with
  | nil => trivial
  | cons k l ih =>
    obtain ⟨hk, hpairs⟩ := pairwise_cons.mp hpairs
    constructor
    · intro p hp
      rcases hparents k mem_cons_self p hp with hdone | hmem
      · exact hdone
      · rcases mem_cons.mp hmem with rfl | hmem
        · exact absurd hp (hself p)
        · exact absurd hp (hk p hmem)
    · apply ih hpairs
      intro x hx p hp
      rw [mem_append, mem_singleton, or_assoc, ← mem_cons]
      exact hparents x (mem_cons_of_mem _ hx) p hp

theorem ParentsFirst.mem (h : ParentsFirst pool [] l) (hk : k ∈ l) (hp : pool.Spends k p) : p ∈ l := by
  obtain ⟨_, _, rfl⟩ := append_of_mem hk
  have hlast := (parentsFirst_append.mp h).2.1 p hp
  exact mem_append_left _ (by simpa using hlast)

theorem ParentsFirst.reaches (h : ParentsFirst pool [] l) (hk : k ∈ l) (hp : ReflTransGen pool.Spends k p) : p ∈ l := by
  induction hp with
  | refl => exact hk
  | tail _ hstep ih => exact h.mem ih hstep

/-! ## The block -/

structure BlockInv (ctx : Context) (options : BlockCreateOptions) (pool : CTxMemPool) (b : BlockAssembler) : Prop where
  inBlock : ∀ k, k ∈ b.inBlock ↔ k ∈ b.vtx
  inBlock_nodup : b.inBlock.Nodup
  nodup : b.vtx.Nodup
  keys : ∀ k ∈ b.vtx, k ∈ pool.keys
  parentsFirst : ParentsFirst pool [] b.vtx
  final : ∀ k ∈ b.vtx, ∀ e, pool.find k = some e → isFinalTx e.tx ctx.nHeight ctx.lockTimeCutoff = true
  weight : b.nBlockWeight = options.blockReservedWeight + (b.vtx.map (weightOf pool)).sum
  sigOps : b.nBlockSigOpsCost = options.coinbaseOutputMaxAdditionalSigops + (b.vtx.map (sigOpsOf pool)).sum
  fees : b.nFees = (b.vtx.map (feeOf pool)).sum
  limits : b.vtx = [] ∨ b.nBlockWeight < options.nBlockMaxWeight ∧ b.nBlockSigOpsCost < MAX_BLOCK_SIGOPS_COST

theorem resetBlock_inv {need : Bool} : BlockInv ctx options pool (resetBlock options need) := by
  constructor <;> simp [resetBlock, ParentsFirst]

theorem addToBlock_fields (ctx : Context) (b : BlockAssembler) (h : pool.find k = some e) :
    (addToBlock ctx pool b k).vtx = b.vtx ++ [k] ∧
    (addToBlock ctx pool b k).inBlock = insertNew memoryBytes k b.inBlock ∧
    (addToBlock ctx pool b k).nBlockWeight = b.nBlockWeight + weightOf pool k ∧
    (addToBlock ctx pool b k).nBlockSigOpsCost = b.nBlockSigOpsCost + sigOpsOf pool k ∧
    (addToBlock ctx pool b k).nFees = b.nFees + feeOf pool k := by
  simp [addToBlock, weightOf, sigOpsOf, feeOf, h]

theorem foldl_addToBlock (ctx : Context) (b : BlockAssembler) (hkeys : ∀ k ∈ l, k ∈ pool.keys) :
    (l.foldl (addToBlock ctx pool) b).vtx = b.vtx ++ l ∧
    (∀ x, x ∈ (l.foldl (addToBlock ctx pool) b).inBlock ↔ x ∈ b.inBlock ∨ x ∈ l) ∧
    (b.inBlock.Nodup → (l.foldl (addToBlock ctx pool) b).inBlock.Nodup) ∧
    (l.foldl (addToBlock ctx pool) b).nBlockWeight = b.nBlockWeight + (l.map (weightOf pool)).sum ∧
    (l.foldl (addToBlock ctx pool) b).nBlockSigOpsCost = b.nBlockSigOpsCost + (l.map (sigOpsOf pool)).sum ∧
    (l.foldl (addToBlock ctx pool) b).nFees = b.nFees + (l.map (feeOf pool)).sum := by
  induction l generalizing b with
  | nil => simp
  | cons k l ih =>
    obtain ⟨_, hfind⟩ := CTxMemPool.mem_keys.mp (hkeys k mem_cons_self)
    obtain ⟨hvtx, hin, hweight, hsigops, hfees⟩ := addToBlock_fields ctx b hfind
    obtain ⟨ih1, ih2, ih3, ih4, ih5, ih6⟩ := ih (addToBlock ctx pool b k) fun x hx => hkeys x (mem_cons_of_mem _ hx)
    rw [foldl_cons]
    refine ⟨?_, ?_, ?_, ?_, ?_, ?_⟩
    · rw [ih1, hvtx, append_assoc, singleton_append]
    · intro x
      rw [ih2, hin, mem_insertNew, mem_cons, ← or_assoc, or_comm (a := x = k)]
    · intro hnodup
      apply ih3
      rw [hin]
      exact insertNew_nodup hnodup
    · rw [ih4, hweight, map_cons, sum_cons]
      omega
    · rw [ih5, hsigops, map_cons, sum_cons]
      omega
    · rw [ih6, hfees, map_cons, sum_cons]
      omega

theorem BlockInv.addAll (hinv : BlockInv ctx options pool b) (hkeys : ∀ k ∈ l, k ∈ pool.keys) (hnodup : l.Nodup)
    (hnew : ∀ k ∈ l, k ∉ b.vtx) (hfirst : ParentsFirst pool b.vtx l)
    (hfinal : ∀ k ∈ l, ∀ e, pool.find k = some e → isFinalTx e.tx ctx.nHeight ctx.lockTimeCutoff = true)
    (hweight : b.nBlockWeight + (l.map (weightOf pool)).sum < options.nBlockMaxWeight)
    (hsigops : b.nBlockSigOpsCost + (l.map (sigOpsOf pool)).sum < MAX_BLOCK_SIGOPS_COST) :
    BlockInv ctx options pool (l.foldl (addToBlock ctx pool) b) := by
  obtain ⟨hvtx, hin, hinNodup, hw, hs, hf⟩ := foldl_addToBlock ctx b hkeys
  constructor
  · intro k
    rw [hin, hvtx, mem_append, hinv.inBlock]
  · exact hinNodup hinv.inBlock_nodup
  · rw [hvtx, nodup_append]
    refine ⟨hinv.nodup, hnodup, fun a ha c hc hac => ?_⟩
    subst hac
    exact hnew a hc ha
  · intro k hk
    rw [hvtx, mem_append] at hk
    rcases hk with hk | hk
    · exact hinv.keys k hk
    · exact hkeys k hk
  · rw [hvtx, parentsFirst_append]
    exact ⟨hinv.parentsFirst, by simpa using hfirst⟩
  · intro k hk
    rw [hvtx, mem_append] at hk
    rcases hk with hk | hk
    · exact hinv.final k hk
    · exact hfinal k hk
  · rw [hw, hinv.weight, hvtx, map_append, sum_append]
    omega
  · rw [hs, hinv.sigOps, hvtx, map_append, sum_append]
    omega
  · rw [hf, hinv.fees, hvtx, map_append, sum_append]
  · right
    rw [hw, hs]
    exact ⟨hweight, hsigops⟩

theorem BlockInv.congr {b' : BlockAssembler} (hinv : BlockInv ctx options pool b) (hvtx : b'.vtx = b.vtx)
    (hin : b'.inBlock = b.inBlock) (hweight : b'.nBlockWeight = b.nBlockWeight)
    (hsigops : b'.nBlockSigOpsCost = b.nBlockSigOpsCost) (hfees : b'.nFees = b.nFees) :
    BlockInv ctx options pool b' where
  inBlock := by rw [hin, hvtx]; exact hinv.inBlock
  inBlock_nodup := by rw [hin]; exact hinv.inBlock_nodup
  nodup := by rw [hvtx]; exact hinv.nodup
  keys := by rw [hvtx]; exact hinv.keys
  parentsFirst := by rw [hvtx]; exact hinv.parentsFirst
  final := by rw [hvtx]; exact hinv.final
  weight := by rw [hweight, hvtx]; exact hinv.weight
  sigOps := by rw [hsigops, hvtx]; exact hinv.sigOps
  fees := by rw [hfees, hvtx]; exact hinv.fees
  limits := by rw [hvtx, hweight, hsigops]; exact hinv.limits

/-! ## The tests -/

theorem testPackage_true {size sigops : Int} (h : testPackage options b size sigops = true) :
    b.nBlockWeight + WITNESS_SCALE_FACTOR * size < options.nBlockMaxWeight ∧
      b.nBlockSigOpsCost + sigops < MAX_BLOCK_SIGOPS_COST := by
  unfold testPackage at h
  split at h
  · cases h
  · split at h
    · cases h
    · omega

theorem testTransactions_true {size : Int} (h : testTransactions ctx options pool b l size = true) :
    ∀ k ∈ l, ∀ e, pool.find k = some e → isFinalTx e.tx ctx.nHeight ctx.lockTimeCutoff = true := by
  induction l generalizing size with
  | nil => simp
  | cons k l ih =>
    unfold testTransactions at h
    split at h
    · cases h
    · next it hfind =>
      simp only at h
      split at h
      · cases h
      · next hfinal =>
        have htail : ∃ size, testTransactions ctx options pool b l size = true := by
          split at h
          · split at h
            · cases h
            · exact ⟨_, h⟩
          · exact ⟨_, h⟩
        obtain ⟨_, htail⟩ := htail
        intro x hx e he
        rcases mem_cons.mp hx with rfl | hx
        · rw [hfind] at he
          cases he
          simpa using hfinal
        · exact ih htail x hx e he

theorem AllFit.weights_le (h : AllFit pool) (l : List Uint256) :
    (l.map (weightOf pool)).sum ≤ WITNESS_SCALE_FACTOR * (l.map (sizeOf pool)).sum := by
  induction l with
  | nil => simp
  | cons k l ih =>
    have hk := (h.size k).2
    simp only [map_cons, sum_cons, Int.mul_add]
    omega

end FullNode.Miner

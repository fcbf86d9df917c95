import FullNode.MinerBlock
import Mathlib.Algebra.BigOperators.Pi
import Mathlib.Algebra.Order.BigOperators.Group.Finset

/-! # The pass by priority -/

namespace FullNode.Miner

open OrderedIndex Mempool Ancestry List PriorityState
open TxRequest (memoryBytes)

variable {ctx : Context} {options : BlockCreateOptions} {pool : CTxMemPool} {b : BlockAssembler} {k p : Uint256}
  {e : CTxMemPoolEntry}

/-! ## Sums of an entry -/

theorem sizeWithAncestors_eq (hexact : pool.Exact) (h : pool.find k = some e) :
    e.sizeWithAncestors = ∑ a ∈ ancestors pool.Spends pool.keys k, sizeOf pool a := by
  have hsum := congrArg (fun t => t.2.1) (hexact.summed.ancestors h)
  simp only [Prod.snd_sum, Prod.fst_sum] at hsum
  refine hsum.trans (Finset.sum_congr rfl fun a _ => ?_)
  unfold CTxMemPool.own sizeOf
  cases pool.find a <;> rfl

theorem sigOpCostWithAncestors_eq (hexact : pool.Exact) (h : pool.find k = some e) :
    e.sigOpCostWithAncestors = ∑ a ∈ ancestors pool.Spends pool.keys k, sigOpsOf pool a := by
  have hsum := congrArg (fun t => t.2.2.2) (hexact.summed.ancestors h)
  simp only [Prod.snd_sum] at hsum
  refine hsum.trans (Finset.sum_congr rfl fun a _ => ?_)
  unfold CTxMemPool.own sigOpsOf
  cases pool.find a <;> rfl

theorem mem_ancestors_self (h : pool.find k = some e) : k ∈ ancestors pool.Spends pool.keys k :=
  mem_ancestors.mpr ⟨CTxMemPool.mem_keys_of_find h, .refl⟩

/-! ## One transaction -/

theorem testForBlock_spec {fits : Bool} {b' : BlockAssembler} (h : testForBlock ctx options pool b e k = (fits, b')) :
    (fits = true → b' = b ∧ testPackage options b e.sizeWithAncestors e.sigOpCostWithAncestors = true ∧
      testPackageTransactions ctx options pool b [k] = true) ∧
    b'.vtx = b.vtx ∧ b'.inBlock = b.inBlock ∧ b'.nBlockWeight = b.nBlockWeight ∧
      b'.nBlockSigOpsCost = b.nBlockSigOpsCost ∧ b'.nFees = b.nFees := by
  unfold testForBlock at h
  split at h
  · split at h
    · cases h
      simp
    · split at h <;> cases h <;> simp
  · next hpackage =>
    split at h
    · split at h
      · cases h
        simp
      · split at h <;> cases h <;> simp
    · next htransactions =>
      cases h
      simpa using ⟨by simpa using hpackage, by simpa using htransactions⟩

theorem BlockInv.addOne (hinv : BlockInv ctx options pool b) (hexact : pool.Exact) (hfit : AllFit pool)
    (hfind : pool.find k = some e) (hnew : k ∉ b.vtx) (hparents : isStillDependent pool b k = false)
    (hpackage : testPackage options b e.sizeWithAncestors e.sigOpCostWithAncestors = true)
    (htransactions : testPackageTransactions ctx options pool b [k] = true) :
    BlockInv ctx options pool (addToBlock ctx pool b k) := by
  obtain ⟨_, _⟩ := testPackage_true hpackage
  have hsize : sizeOf pool k ≤ e.sizeWithAncestors := by
    rw [sizeWithAncestors_eq hexact hfind]
    exact Finset.single_le_sum (fun a _ => (hfit.size a).1) (mem_ancestors_self hfind)
  have hsig : sigOpsOf pool k ≤ e.sigOpCostWithAncestors := by
    rw [sigOpCostWithAncestors_eq hexact hfind]
    exact Finset.single_le_sum (fun a _ => hfit.sigOps a) (mem_ancestors_self hfind)
  have hcover := (hfit.size k).2
  have hscale : (WITNESS_SCALE_FACTOR : Int) * sizeOf pool k ≤ WITNESS_SCALE_FACTOR * e.sizeWithAncestors :=
    Int.mul_le_mul_of_nonneg_left hsize (Int.natCast_nonneg _)
  have hfirst : ParentsFirst pool b.vtx [k] := by
    refine ⟨fun p hp => ?_, trivial⟩
    have hmem := hexact.linked.parents.mpr hp
    unfold isStillDependent at hparents
    rw [any_eq_false] at hparents
    exact (hinv.inBlock p).mp (by simpa using hparents p hmem)
  have hall : BlockInv ctx options pool ([k].foldl (addToBlock ctx pool) b) := by
    apply hinv.addAll _ (nodup_singleton k) _ hfirst
    · exact testTransactions_true htransactions
    · simp only [map_cons, map_nil, sum_cons, sum_nil]
      omega
    · simp only [map_cons, map_nil, sum_cons, sum_nil]
      omega
    · intro x hx
      rw [mem_singleton.mp hx]
      exact CTxMemPool.mem_keys_of_find hfind
    · intro x hx
      rw [mem_singleton.mp hx]
      exact hnew
  exact hall

/-! ## The heap -/

theorem foldl_pick_mem {α : Type} (better : α → α → Bool) {x : α} {l : List α} :
    l.foldl (fun best y => if better best y then y else best) x ∈ x :: l := by
  induction l generalizing x with
  | nil => simp
  | cons y l ih =>
    rw [foldl_cons]
    split
    · exact mem_cons_of_mem _ ih
    · rcases mem_cons.mp (ih (x := x)) with h | h
      · rw [h]
        exact mem_cons_self
      · exact mem_cons_of_mem _ (mem_cons_of_mem _ h)

theorem heapFront_mem {less : Uint256 → Uint256 → Bool} {heap : List Uint256} : heapFront less k heap ∈ k :: heap :=
  foldl_pick_mem less

def PriorityState.left (s : PriorityState) : List Uint256 := s.vecPriority ++ s.waitPriMap

theorem wakeChildren_spec (children : List Uint256) (s : PriorityState) :
    (wakeChildren children s).b = s.b ∧ (wakeChildren children s).left.Perm s.left := by
  unfold wakeChildren
  induction children generalizing s with
  | nil => exact ⟨rfl, .refl _⟩
  | cons child children ih =>
    rw [foldl_cons]
    split
    · next hwait =>
      obtain ⟨hb, hperm⟩ := ih
          { s with vecPriority := s.vecPriority ++ [child], waitPriMap := s.waitPriMap.erase child }
      refine ⟨hb, hperm.trans ?_⟩
      simp only [left, append_assoc, singleton_append]
      exact (perm_cons_erase hwait).symm.append_left _
    · exact ih s

structure PriorityInv (ctx : Context) (options : BlockCreateOptions) (pool : CTxMemPool) (s : PriorityState) :
    Prop where
  block : BlockInv ctx options pool s.b
  nodup : s.left.Nodup
  keys : ∀ k ∈ s.left, k ∈ pool.keys
  new : ∀ k ∈ s.left, k ∉ s.b.vtx

variable {s s' : PriorityState}

theorem PriorityInv.perm (h : PriorityInv ctx options pool s) (hb : s'.b = s.b)
    (hperm : s'.left.Perm s.left) : PriorityInv ctx options pool s' where
  block := by rw [hb]; exact h.block
  nodup := hperm.nodup_iff.mpr h.nodup
  keys := fun k hk => h.keys k (hperm.mem_iff.mp hk)
  new := fun k hk => by rw [hb]; exact h.new k (hperm.mem_iff.mp hk)

theorem PriorityInv.length_le (h : PriorityInv ctx options pool s) : s.left.length ≤ pool.mapTx.keys.length := by
  rw [← toFinset_card_of_nodup h.nodup, ← CTxMemPool.keys_length]
  exact Finset.card_le_card fun k hk => h.keys k (mem_toFinset.mp hk)

/-- Waiting shortens the heap, anything else what is left. -/
def priorityMeasure (pool : CTxMemPool) (s : PriorityState) : Nat :=
  s.left.length * (pool.mapTx.keys.length + 2) + s.vecPriority.length

theorem priorityMeasure_lt (hs : PriorityInv ctx options pool s)
    (h : s'.left.length + 1 = s.left.length) : priorityMeasure pool s' < priorityMeasure pool s := by
  have hle := hs.length_le
  have hheap : s'.vecPriority.length ≤ s'.left.length := by simp [left]
  unfold priorityMeasure
  rw [← h, Nat.succ_mul]
  omega

theorem priorityMeasure_lt_of_wait (h : s'.left.length = s.left.length)
    (hheap : s'.vecPriority.length < s.vecPriority.length) : priorityMeasure pool s' < priorityMeasure pool s := by
  unfold priorityMeasure
  rw [h]
  omega

theorem priorityStep_spec (hexact : pool.Exact) (hfit : AllFit pool) {size : Int}
    (hs : PriorityInv ctx options pool s) :
    (∃ s', priorityStep ctx options pool size s = .ok (.done s') ∧ BlockInv ctx options pool s'.b) ∨
      ∃ s', priorityStep ctx options pool size s = .ok (.again s') ∧ PriorityInv ctx options pool s' ∧
        priorityMeasure pool s' < priorityMeasure pool s := by
  unfold priorityStep
  split
  · exact .inl ⟨s, rfl, hs.block⟩
  · next k rest hheap =>
    split
    · exact .inl ⟨s, rfl, hs.block⟩
    · -- the front of the heap, and what is left without it
      have hmem : heapFront ctx.pricomparer k rest ∈ k :: rest := heapFront_mem
      simp only
      generalize heapFront ctx.pricomparer k rest = iter at hmem ⊢
      have hperm : s.left.Perm (iter :: ((k :: rest).erase iter ++ s.waitPriMap)) := by
        unfold left
        rw [hheap]
        exact (perm_cons_erase hmem).append_right _
      have hleft : iter ∈ s.left := hperm.mem_iff.mpr mem_cons_self
      have hnodup := nodup_cons.mp (hperm.nodup_iff.mp hs.nodup)
      have hrest : ∀ x ∈ (k :: rest).erase iter ++ s.waitPriMap, x ∈ s.left :=
        fun x hx => hperm.mem_iff.mpr (mem_cons_of_mem _ hx)
      have hlength := hperm.length_eq
      rw [length_cons] at hlength
      obtain ⟨entry, hfind⟩ := CTxMemPool.mem_keys.mp (hs.keys iter hleft)
      have hnew := hs.new iter hleft
      have hnotIn : iter ∉ s.b.inBlock := fun h => hnew ((hs.block.inBlock iter).mp h)
      simp only [hfind, hnotIn, not_false_eq_true, decide_true, check_true, ok_bind]
      split
      · -- it waits for a parent
        have hwait : iter ∉ s.waitPriMap := fun h => hnodup.1 (mem_append_right _ h)
        have hsame : ((k :: rest).erase iter ++ insertNew memoryBytes iter s.waitPriMap).Perm s.left := by
          refine Perm.trans ?_ hperm.symm
          unfold insertNew
          rw [if_neg hwait]
          exact ((insert_perm iter s.waitPriMap).append_left _).trans perm_middle
        have hshort := length_erase_of_mem hmem
        refine .inr ⟨_, rfl, PriorityInv.perm hs rfl hsame, priorityMeasure_lt_of_wait hsame.length_eq ?_⟩
        rw [hheap]
        simp [hshort]
      · next hparents =>
        rcases htest : testForBlock ctx options pool s.b entry iter with ⟨_, b⟩
        obtain ⟨hfits, hvtx, hin, hweight, hsigops, hfees⟩ := testForBlock_spec htest
        simp only
        split
        · -- it does not fit
          have hblock := hs.block.congr hvtx hin hweight hsigops hfees
          refine .inr ⟨_, rfl, ⟨hblock, hnodup.2, fun x hx => hs.keys x (hrest x hx), ?_⟩,
            priorityMeasure_lt hs hlength.symm⟩
          intro x hx
          rw [hvtx]
          exact hs.new x (hrest x hx)
        · next hfit' =>
          obtain ⟨rfl, hpackage, htransactions⟩ := hfits (by simpa using hfit')
          have hblock := hs.block.addOne hexact hfit hfind hnew (by simpa using hparents) hpackage htransactions
          split
          · exact .inl ⟨_, rfl, hblock⟩
          · -- its children that waited may try again
            generalize hs1 : mk (addToBlock ctx pool s.b iter) ((k :: rest).erase iter) s.waitPriMap = s1
            have hleft1 : s1.left = (k :: rest).erase iter ++ s.waitPriMap := by
              rw [← hs1]
              rfl
            have hinv1 : PriorityInv ctx options pool s1 := by
              refine ⟨?_, ?_, ?_, ?_⟩
              · rw [← hs1]
                exact hblock
              · rw [hleft1]
                exact hnodup.2
              · rw [hleft1]
                exact fun x hx => hs.keys x (hrest x hx)
              · rw [hleft1, ← hs1]
                intro x hx
                simp only [(addToBlock_fields ctx s.b hfind).1, mem_append, mem_singleton]
                rintro (hold | rfl)
                · exact hs.new x (hrest x hx) hold
                · exact hnodup.1 hx
            obtain ⟨hb, hwake⟩ := wakeChildren_spec entry.children s1
            refine .inr ⟨_, rfl, hinv1.perm hb hwake, priorityMeasure_lt hs ?_⟩
            rw [hwake.length_eq, hleft1]
            exact hlength.symm

theorem addPriorityTxs_spec (hexact : pool.Exact) (hfit : AllFit pool) (hb : BlockInv ctx options pool b)
    (hempty : b.vtx = []) :
    ∃ b', addPriorityTxs ctx options pool b = .ok b' ∧ BlockInv ctx options pool b' := by
  unfold addPriorityTxs
  split
  · exact ⟨b, rfl, hb⟩
  · have hstart : PriorityInv ctx options pool
        { b := { b with fNeedSizeAccounting := true }, vecPriority := pool.mapTx.keys, waitPriMap := [] } := by
      refine ⟨hb.congr rfl rfl rfl rfl rfl, ?_, ?_, ?_⟩
      · simpa [left] using pool.mapTx.keys_nodup
      · intro k hk
        exact mem_toFinset.mpr (by simpa [left] using hk)
      · intro k _ hk
        rw [show _ = b.vtx from rfl, hempty] at hk
        cases hk
    have hfuel : priorityMeasure pool
        { b := { b with fNeedSizeAccounting := true }, vecPriority := pool.mapTx.keys, waitPriMap := [] } <
          priorityFuel pool := by
      simp only [priorityMeasure, priorityFuel, left, append_nil, Nat.succ_mul]
      omega
    obtain ⟨s, hloop, hs⟩ := loop_spec (priorityMeasure pool) (fun s => priorityStep_spec hexact hfit) hstart hfuel
    refine ⟨{ s.b with fNeedSizeAccounting := b.fNeedSizeAccounting }, ?_, hs.congr rfl rfl rfl rfl rfl⟩
    rw [hloop]
    rfl

end FullNode.Miner

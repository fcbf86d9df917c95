import FullNode.MinerPriority

/-! # The pass by packages -/

namespace FullNode.Miner

open OrderedIndex Mempool Ancestry List Finset CTxMemPool CTxMemPoolModifiedEntry AList
open TxRequest (memoryBytes)
open Relation

variable {ctx : Context} {options : BlockCreateOptions} {pool : CTxMemPool} {b : BlockAssembler} {k p x : Uint256}
  {e it : CTxMemPoolEntry} {its alreadyAdded descs : List Uint256} {m : CTxMemPoolModifiedEntry}
  {mods mods' : ModifiedSet}

/-! ## Sums of modified entries -/

def CTxMemPoolModifiedEntry.sums (m : CTxMemPoolModifiedEntry) : Int × Int × Int :=
  (m.nSizeWithAncestors, m.nModFeesWithAncestors, m.nSigOpCostWithAncestors)

def cost (pool : CTxMemPool) (k : Uint256) : Int × Int × Int := (pool.own k).2

def view (pool : CTxMemPool) (mods : ModifiedSet) (k : Uint256) : Int × Int × Int :=
  match mods.lookup k with
  | some m => m.sums
  | none => (pool.find k).elim 0 fun e => (CTxMemPoolModifiedEntry.ofEntry e).sums

theorem sums_ofEntry (hexact : pool.Exact) (h : pool.find k = some e) :
    (ofEntry e).sums = ∑ a ∈ ancestors pool.Spends pool.keys k, cost pool a := by
  have hsum := congrArg Prod.snd (hexact.summed.ancestors h)
  rw [Prod.snd_sum] at hsum
  exact hsum

theorem updateForParentInclusion_sums (h : pool.find k = some it) :
    (m.updateForParentInclusion it).sums = m.sums - cost pool k := by
  simp [cost, own, h, CTxMemPoolEntry.own, updateForParentInclusion, sums]

/-! ## `UpdatePackagesForAdded` -/

theorem updateDescendant_spec (alreadyAdded : List Uint256) (mods : ModifiedSet) (d x : Uint256)
    (h : pool.find k = some it) :
    (x ∈ updateDescendant pool it alreadyAdded mods d ↔ x ∈ mods ∨ x = d ∧ x ∉ alreadyAdded ∧ x ∈ pool.keys) ∧
      view pool (updateDescendant pool it alreadyAdded mods d) x =
        if x = d ∧ x ∉ alreadyAdded ∧ x ∈ pool.keys then view pool mods x - cost pool k else view pool mods x := by
  unfold updateDescendant
  split
  · next hadded =>
    have hno : ¬(x = d ∧ x ∉ alreadyAdded ∧ x ∈ pool.keys) := by
      rintro ⟨rfl, hnot, -⟩
      exact hnot hadded
    simp [hno]
  · next hadded =>
    cases hfind : pool.find d with
    | none =>
      have hno : ¬(x = d ∧ x ∉ alreadyAdded ∧ x ∈ pool.keys) := by
        rintro ⟨rfl, -, hkey⟩
        obtain ⟨_, he⟩ := CTxMemPool.mem_keys.mp hkey
        rw [hfind] at he
        cases he
      simp [hno]
    | some entry =>
      have hkey := mem_keys_of_find hfind
      simp only
      by_cases hx : x = d
      · subst hx
        rw [if_pos ⟨rfl, hadded, hkey⟩]
        constructor
        · simp [hadded, hkey]
        · unfold view
          rw [AList.lookup_insert]
          simp only [updateForParentInclusion_sums h]
          cases hlookup : mods.lookup x with
          | none => simp [hfind]
          | some m => simp
      · rw [if_neg fun hc => hx hc.1]
        constructor
        · simp [AList.mem_insert, hx]
        · unfold view
          rw [AList.lookup_insert_ne hx]

theorem foldl_updateDescendant_spec (alreadyAdded : List Uint256) (mods : ModifiedSet) (x : Uint256)
    (h : pool.find k = some it) (hnodup : descs.Nodup) :
    (x ∈ descs.foldl (updateDescendant pool it alreadyAdded) mods ↔
      x ∈ mods ∨ x ∈ descs ∧ x ∉ alreadyAdded ∧ x ∈ pool.keys) ∧
      view pool (descs.foldl (updateDescendant pool it alreadyAdded) mods) x =
        if x ∈ descs ∧ x ∉ alreadyAdded ∧ x ∈ pool.keys then view pool mods x - cost pool k else view pool mods x := by
  induction descs generalizing mods with
  | nil => simp
  | cons d descs ih =>
    obtain ⟨hd, hnodup⟩ := nodup_cons.mp hnodup
    obtain ⟨hmem, hview⟩ := ih (updateDescendant pool it alreadyAdded mods d) hnodup
    obtain ⟨hmem', hview'⟩ := updateDescendant_spec alreadyAdded mods d x h
    rw [foldl_cons]
    constructor
    · rw [hmem, hmem', List.mem_cons]
      tauto
    · rw [hview, hview']
      by_cases hx : x = d
      · subst hx
        rw [if_neg fun hc => hd hc.1]
        simp only [List.mem_cons, true_or, true_and]
      · simp only [List.mem_cons, hx, false_or, false_and, if_false]

theorem updateForEach_spec (mods : ModifiedSet) (hlinked : pool.Linked pool.Spends)
    (hits : ∀ k ∈ its, k ∈ pool.keys) (hnodup : its.Nodup) :
    ∃ mods', updateForEach pool alreadyAdded its mods = .ok mods' ∧
      (∀ x, x ∈ mods' ↔ x ∈ mods ∨ x ∉ alreadyAdded ∧ ∃ a ∈ its, ReflTransGen pool.Spends x a) ∧
      ∀ x, x ∉ alreadyAdded → view pool mods' x = view pool mods x -
        ∑ a ∈ ancestors pool.Spends its.toFinset x, cost pool a := by
  induction its generalizing mods with
  | nil => exact ⟨mods, rfl, by simp, by simp [ancestors]⟩
  | cons k its ih =>
    obtain ⟨hk, hnodup⟩ := nodup_cons.mp hnodup
    have hkey := hits k List.mem_cons_self
    obtain ⟨it, hfind⟩ := CTxMemPool.mem_keys.mp hkey
    obtain ⟨descs, hdescs⟩ : ∃ descs, pool.calculateDescendants k [] = .ok descs :=
      hlinked.calculateDescendants_ok hkey (by simp) nodup_nil
    have hdnodup := calculateDescendants_nodup hdescs nodup_nil
    have hdmem : ∀ x, x ∈ descs ↔ ReflTransGen pool.Spends x k := by
      intro x
      rw [hlinked.calculateDescendants_spec (by simp) hdescs]
      simp
    obtain ⟨mods', hrun, hmem, hview⟩ := ih (descs.foldl (updateDescendant pool it alreadyAdded) mods)
      (fun x hx => hits x (List.mem_cons_of_mem _ hx)) hnodup
    refine ⟨mods', ?_, ?_, ?_⟩
    · unfold updateForEach
      simp only [hfind]
      rw [hdescs, ok_bind]
      exact hrun
    · intro x
      rw [hmem, (foldl_updateDescendant_spec alreadyAdded mods x hfind hdnodup).1, hdmem]
      have hkeys : ReflTransGen pool.Spends x k → x ∈ pool.keys := fun hx => hlinked.mem_of_reaches hx hkey
      simp only [List.mem_cons, exists_eq_or_imp]
      tauto
    · intro x hx
      rw [hview x hx, (foldl_updateDescendant_spec alreadyAdded mods x hfind hdnodup).2, toFinset_cons]
      by_cases hreach : ReflTransGen pool.Spends x k
      · have hnot : k ∉ ancestors pool.Spends its.toFinset x := fun h => hk (mem_toFinset.mp (mem_ancestors.mp h).1)
        rw [if_pos ⟨(hdmem x).mpr hreach, hx, hlinked.mem_of_reaches hreach hkey⟩, ancestors_insert hreach,
          sum_insert hnot, sub_sub]
      · rw [if_neg fun h => hreach ((hdmem x).mp h.1), ancestors_insert_of_not hreach]

/-! ## The order of a package -/

def Acyclic (pool : CTxMemPool) : Prop := ∀ k, ¬TransGen pool.Spends k k

theorem countWithAncestors_eq (hexact : pool.Exact) (h : pool.find k = some e) :
    e.countWithAncestors = (ancestors pool.Spends pool.keys k).card := by
  have hsum := congrArg Prod.fst (hexact.summed.ancestors h)
  rw [Prod.fst_sum] at hsum
  have hone : ∀ a ∈ ancestors pool.Spends pool.keys k, (pool.own a).1 = 1 := by
    intro a ha
    obtain ⟨_, hfind⟩ := mem_keys.mp (mem_ancestors.mp ha).1
    simp [own, hfind, CTxMemPoolEntry.own]
  rw [sum_congr rfl hone] at hsum
  simpa [CTxMemPoolEntry.withAncestors] using hsum

theorem count_lt (hexact : pool.Exact) (hacyclic : Acyclic pool) (hspends : pool.Spends k p) :
    (pool.find p).elim 0 CTxMemPoolEntry.countWithAncestors <
    (pool.find k).elim 0 CTxMemPoolEntry.countWithAncestors := by
  obtain ⟨_, hchild⟩ := mem_keys.mp (hexact.linked.child_mem hspends)
  obtain ⟨_, hparent⟩ := mem_keys.mp (hexact.linked.parent_mem hspends)
  rw [hchild, hparent, Option.elim_some, Option.elim_some, countWithAncestors_eq hexact hchild,
    countWithAncestors_eq hexact hparent, Nat.cast_lt]
  apply card_lt_card
  rw [ssubset_iff_of_subset]
  · refine ⟨k, mem_ancestors_self hchild, fun h => ?_⟩
    exact hacyclic k (.head' hspends (mem_ancestors.mp h).2)
  · intro a ha
    obtain ⟨hkey, hreach⟩ := mem_ancestors.mp ha
    exact mem_ancestors.mpr ⟨hkey, .head hspends hreach⟩

theorem sortForBlock_pairwise (hexact : pool.Exact) (hacyclic : Acyclic pool) (package : List Uint256) :
    (sortForBlock pool package).Pairwise fun a c => ¬pool.Spends a c := by
  unfold sortForBlock
  apply List.Pairwise.imp _
    (pairwise_insertionSort (fun a c => ancestorCountKey pool a ≤ ancestorCountKey pool c) package)
  intro a c hle hspends
  have hlt := count_lt hexact hacyclic hspends
  rcases Prod.Lex.toLex_le_toLex.mp hle with hle | ⟨_, -⟩
  · omega
  · omega

theorem sortForBlock_perm (package : List Uint256) : (sortForBlock pool package).Perm package :=
  perm_insertionSort _ _

variable {s : PackageState} {inBlock package l : List Uint256} {s' : PackageState}

theorem packageOf_spec (hexact : pool.Exact) (hfind : pool.find k = some e) (hnew : k ∉ s.b.inBlock) :
    ∃ package, packageOf pool s k e = .ok package ∧ package.Nodup ∧
      ∀ x, x ∈ package ↔ ReflTransGen pool.Spends k x ∧ x ∉ s.b.inBlock := by
  obtain ⟨out, hout, hnodup, hmem⟩ := hexact.linked.linkedAncestors_spec hfind
  refine ⟨insertNew memoryBytes k (out.filter (· ∉ s.b.inBlock)), ?_, ?_, ?_⟩
  · unfold packageOf
    rw [hout]
    rfl
  · exact insertNew_nodup (hnodup.filter _)
  · intro x
    rw [mem_insertNew, mem_filter, hmem, reflTransGen_iff_eq_or_transGen]
    simp only [decide_eq_true_eq]
    constructor
    · rintro (rfl | ⟨hx, hnot⟩)
      · exact ⟨.inl rfl, hnew⟩
      · exact ⟨.inr hx, hnot⟩
    · rintro ⟨rfl | hx, hnot⟩
      · exact .inl rfl
      · exact .inr ⟨hx, hnot⟩

/-! ## Modified entries cover what is outside -/

/-- Sums over ancestors with none missing outside the block. -/
def Covers (pool : CTxMemPool) (inBlock : List Uint256) (k : Uint256) (sums : Int × Int × Int) : Prop :=
  ∃ R ⊆ ancestors pool.Spends pool.keys k, ancestors pool.Spends pool.keys k \ inBlock.toFinset ⊆ R ∧
    sums = ∑ a ∈ R, cost pool a

theorem covers_ofEntry (hexact : pool.Exact) (h : pool.find k = some e) : Covers pool inBlock k (ofEntry e).sums :=
  ⟨_, Finset.Subset.refl _, sdiff_subset, sums_ofEntry hexact h⟩

theorem Covers.package_le (hfit : AllFit pool) (h : Covers pool inBlock k m.sums)
    (hkey : k ∈ pool.keys) (hlinked : pool.Linked pool.Spends) (hnodup : package.Nodup)
    (hmem : ∀ x, x ∈ package ↔ ReflTransGen pool.Spends k x ∧ x ∉ inBlock) :
    (package.map (sizeOf pool)).sum ≤ m.nSizeWithAncestors ∧
      (package.map (sigOpsOf pool)).sum ≤ m.nSigOpCostWithAncestors := by
  obtain ⟨R, -, hR, hsums⟩ := h
  have hsub : package.toFinset ⊆ R := by
    intro x hx
    obtain ⟨hreach, hnot⟩ := (hmem x).mp (mem_toFinset.mp hx)
    apply hR
    rw [mem_sdiff, mem_ancestors, mem_toFinset]
    exact ⟨⟨hlinked.reaches_mem hreach hkey, hreach⟩, hnot⟩
  have hsize : m.nSizeWithAncestors = ∑ a ∈ R, sizeOf pool a := by
    have hsum := congrArg (fun t => t.1) hsums
    simp only [Prod.fst_sum] at hsum
    refine hsum.trans (sum_congr rfl fun a _ => ?_)
    unfold cost own sizeOf
    cases pool.find a <;> rfl
  have hsigops : m.nSigOpCostWithAncestors = ∑ a ∈ R, sigOpsOf pool a := by
    have hsum := congrArg (fun t => t.2.2) hsums
    simp only [Prod.snd_sum] at hsum
    refine hsum.trans (sum_congr rfl fun a _ => ?_)
    unfold cost own sigOpsOf
    cases pool.find a <;> rfl
  rw [hsize, hsigops, ← sum_toFinset _ hnodup, ← sum_toFinset _ hnodup]
  exact ⟨sum_le_sum_of_subset_of_nonneg hsub fun a _ _ => (hfit.size a).1,
    sum_le_sum_of_subset_of_nonneg hsub fun a _ _ => hfit.sigOps a⟩

theorem Covers.subtract {inBlock' : List Uint256} {sums : Int × Int × Int} (h : Covers pool inBlock x sums)
    (hkeys : ∀ a ∈ package, a ∈ pool.keys) (hnew : ∀ a ∈ package, a ∉ inBlock)
    (hin : ∀ y, y ∈ inBlock' ↔ y ∈ inBlock ∨ y ∈ package) :
    Covers pool inBlock' x (sums - ∑ a ∈ ancestors pool.Spends package.toFinset x, cost pool a) := by
  obtain ⟨R, hsub, hR, rfl⟩ := h
  have htaken : ancestors pool.Spends package.toFinset x ⊆ R := by
    intro a ha
    obtain ⟨hmem, hreach⟩ := mem_ancestors.mp ha
    have hmem := mem_toFinset.mp hmem
    apply hR
    rw [mem_sdiff, mem_ancestors, mem_toFinset]
    exact ⟨⟨hkeys a hmem, hreach⟩, hnew a hmem⟩
  refine ⟨R \ ancestors pool.Spends package.toFinset x, sdiff_subset.trans hsub, ?_, ?_⟩
  · intro a ha
    rw [mem_sdiff, mem_toFinset, hin, not_or] at ha
    obtain ⟨hanc, hnotIn, hnotPackage⟩ := ha
    rw [mem_sdiff]
    refine ⟨hR (mem_sdiff.mpr ⟨hanc, by simpa using hnotIn⟩), fun h => hnotPackage ?_⟩
    exact mem_toFinset.mp (mem_ancestors.mp h).1
  · rw [← sum_sdiff htaken]
    exact add_sub_cancel_right _ _

/-! ## The state of the pass -/

structure PackageInv (ctx : Context) (options : BlockCreateOptions) (pool : CTxMemPool) (s : PackageState) : Prop where
  block : BlockInv ctx options pool s.b
  mi : s.mi.length ≤ pool.mapTx.keys.length
  miKeys : ∀ k ∈ s.mi, k ∈ pool.keys
  modsKeys : ∀ k ∈ s.mapModifiedTx, k ∈ pool.keys
  modsNew : ∀ k ∈ s.mapModifiedTx, k ∉ s.b.vtx
  covers : ∀ k ∈ s.mapModifiedTx, Covers pool s.b.inBlock k (view pool s.mapModifiedTx k)

theorem view_of_lookup (h : mods.lookup k = some m) : view pool mods k = m.sums := by
  simp [view, h]

theorem view_congr (h : mods.lookup k = mods'.lookup k) : view pool mods k = view pool mods' k := by
  simp [view, h]

theorem lookup_foldl_erase :
    (l.foldl (fun mods k => mods.erase k) mods).lookup x = if x ∈ l then none else mods.lookup x := by
  induction l generalizing mods with
  | nil => simp
  | cons k l ih =>
    rw [foldl_cons, ih]
    by_cases hx : x = k
    · subst hx
      simp
    · simp [hx, lookup_erase_ne hx]

theorem mem_foldl_erase : x ∈ l.foldl (fun mods k => mods.erase k) mods ↔ x ∉ l ∧ x ∈ mods := by
  rw [← lookup_isSome, lookup_foldl_erase, ← lookup_isSome]
  split <;> simp [*]

structure PackageAdded (pool : CTxMemPool) (s s' : PackageState) (package : List Uint256) : Prop where
  vtx : s'.b.vtx = s.b.vtx ++ sortForBlock pool package
  inBlock : ∀ x, x ∈ s'.b.inBlock ↔ x ∈ s.b.inBlock ∨ x ∈ package
  mi : s'.mi = s.mi
  failedTx : s'.failedTx = s.failedTx
  mem : ∀ x, x ∈ s'.mapModifiedTx ↔ x ∉ package ∧ (x ∈ s.mapModifiedTx ∨ ∃ a ∈ package, ReflTransGen pool.Spends x a)
  view : ∀ x, x ∉ package → view pool s'.mapModifiedTx x =
    view pool s.mapModifiedTx x - ∑ a ∈ ancestors pool.Spends package.toFinset x, cost pool a

theorem addPackage_spec (ctx : Context) (hexact : pool.Exact) (s : PackageState) (m : CTxMemPoolModifiedEntry)
    (hnodup : package.Nodup) (hkeys : ∀ x ∈ package, x ∈ pool.keys) :
    ∃ s' feerates, addPackage ctx pool s package m = .ok s' ∧ PackageAdded pool s s' package ∧
      s'.b = { (sortForBlock pool package).foldl (addToBlock ctx pool) s.b with packageFeerates := feerates } := by
  have hperm : (sortForBlock pool package).Perm package := sortForBlock_perm package
  obtain ⟨hvtx, hin, -⟩ := foldl_addToBlock ctx s.b fun k hk => hkeys k (hperm.mem_iff.mp hk)
  obtain ⟨mods', hrun, hmem, hview⟩ : ∃ mods', updatePackagesForAdded pool package
      ((sortForBlock pool package).foldl (fun mods k => mods.erase k) s.mapModifiedTx) = .ok mods' ∧ _ ∧ _ :=
    updateForEach_spec _ hexact.linked hkeys hnodup
  have herased : ∀ x, x ∉ package →
      view pool ((sortForBlock pool package).foldl (fun mods k => mods.erase k) s.mapModifiedTx) x =
        view pool s.mapModifiedTx x := by
    intro x hx
    apply view_congr
    rw [lookup_foldl_erase, if_neg fun h => hx (hperm.mem_iff.mp h)]
  have hadd : addPackage ctx pool s package m = .ok { s with
      b := { (sortForBlock pool package).foldl (addToBlock ctx pool) s.b with
        packageFeerates := ((sortForBlock pool package).foldl (addToBlock ctx pool) s.b).packageFeerates ++
          [(m.nModFeesWithAncestors, int32 m.nSizeWithAncestors)] }
      mapModifiedTx := mods'
      nConsecutiveFailed := 0 } := by
    unfold addPackage
    simp only
    rw [hrun]
    rfl
  refine ⟨_, _, hadd, ⟨hvtx, ?_, rfl, rfl, ?_, ?_⟩, rfl⟩
  · intro x
    rw [← hperm.mem_iff]
    exact hin x
  · intro x
    rw [hmem, mem_foldl_erase, hperm.mem_iff]
    tauto
  · intro x hx
    rw [hview x hx, herased x hx]

theorem PackageInv.addPackage (hexact : pool.Exact) (hacyclic : Acyclic pool) (hfit : AllFit pool)
    {feerates : List (Int × Int)} (hs : PackageInv ctx options pool s) (hkey : k ∈ pool.keys)
    (hcovers : Covers pool s.b.inBlock k m.sums) (hnodup : package.Nodup)
    (hmem : ∀ x, x ∈ package ↔ ReflTransGen pool.Spends k x ∧ x ∉ s.b.inBlock)
    (hpackage : testPackage options s.b m.nSizeWithAncestors m.nSigOpCostWithAncestors = true)
    (htransactions : testPackageTransactions ctx options pool s.b package = true)
    (hadded : PackageAdded pool s s' package)
    (hb : s'.b = { (sortForBlock pool package).foldl (addToBlock ctx pool) s.b with packageFeerates := feerates }) :
    PackageInv ctx options pool s' := by
  have hlinked := hexact.linked
  have hperm : (sortForBlock pool package).Perm package := sortForBlock_perm package
  have hkeys : ∀ x ∈ package, x ∈ pool.keys := fun x hx => hlinked.reaches_mem ((hmem x).mp hx).1 hkey
  have hnew : ∀ x ∈ package, x ∉ s.b.inBlock := fun x hx => ((hmem x).mp hx).2
  obtain ⟨_, _⟩ := testPackage_true hpackage
  obtain ⟨hsize, _⟩ := hcovers.package_le hfit hkey hlinked hnodup hmem
  have hcover := hfit.weights_le package
  have hscale : (WITNESS_SCALE_FACTOR : Int) * (package.map (sizeOf pool)).sum ≤
      WITNESS_SCALE_FACTOR * m.nSizeWithAncestors :=
    Int.mul_le_mul_of_nonneg_left hsize (Int.natCast_nonneg _)
  have hblock : BlockInv ctx options pool ((sortForBlock pool package).foldl (addToBlock ctx pool) s.b) := by
    apply hs.block.addAll
    · exact fun x hx => hkeys x (hperm.mem_iff.mp hx)
    · exact hperm.nodup_iff.mpr hnodup
    · exact fun x hx hold => hnew x (hperm.mem_iff.mp hx) ((hs.block.inBlock x).mpr hold)
    · apply parentsFirst_of_pairwise (sortForBlock_pairwise hexact hacyclic package) fun x hx => hacyclic x (.single hx)
      intro x hx p hp
      by_cases hin : p ∈ s.b.inBlock
      · exact .inl ((hs.block.inBlock p).mp hin)
      · exact .inr (hperm.mem_iff.mpr ((hmem p).mpr ⟨((hmem x).mp (hperm.mem_iff.mp hx)).1.tail hp, hin⟩))
    · exact fun x hx => testTransactions_true htransactions x (hperm.mem_iff.mp hx)
    · rw [(hperm.map _).sum_eq]
      omega
    · rw [(hperm.map _).sum_eq]
      omega
  have hblock' : BlockInv ctx options pool s'.b := by
    rw [hb]
    exact hblock.congr rfl rfl rfl rfl rfl
  have hmods : ∀ x ∈ s'.mapModifiedTx, x ∉ s'.b.inBlock := by
    intro x hx hin
    obtain ⟨hnot, hor⟩ := (hadded.mem x).mp hx
    rcases (hadded.inBlock x).mp hin with hin | hin
    · rcases hor with hmod | ⟨a, ha, hreach⟩
      · exact hs.modsNew x hmod ((hs.block.inBlock x).mp hin)
      · -- an ancestor of what is in the block is in the block
        exact hnew a ha ((hs.block.inBlock a).mpr (hs.block.parentsFirst.reaches ((hs.block.inBlock x).mp hin) hreach))
    · exact hnot hin
  have hmodsKeys : ∀ x ∈ s'.mapModifiedTx, x ∈ pool.keys := by
    intro x hx
    rcases ((hadded.mem x).mp hx).2 with hmod | ⟨a, ha, hreach⟩
    · exact hs.modsKeys x hmod
    · exact hlinked.mem_of_reaches hreach (hkeys a ha)
  refine ⟨hblock', ?_, ?_, hmodsKeys, fun x hx hold => hmods x hx ((hblock'.inBlock x).mpr hold), ?_⟩
  · rw [hadded.mi]
    exact hs.mi
  · rw [hadded.mi]
    exact hs.miKeys
  · intro x hx
    rw [hadded.view x ((hadded.mem x).mp hx).1]
    apply Covers.subtract _ hkeys hnew hadded.inBlock
    by_cases hmod : x ∈ s.mapModifiedTx
    · exact hs.covers x hmod
    · obtain ⟨entry, hfind⟩ := mem_keys.mp (hmodsKeys x hx)
      have hview : view pool s.mapModifiedTx x = (ofEntry entry).sums := by
        simp [view, lookup_eq_none.mpr hmod, hfind]
      rw [hview]
      exact covers_ofEntry hexact hfind

/-! ## One round -/

structure PackageFits (ctx : Context) (options : BlockCreateOptions) (pool : CTxMemPool) (b : BlockAssembler)
    (m : CTxMemPoolModifiedEntry) (package : List Uint256) : Prop where
  fee : options.blockMinFee m.nSizeWithAncestors ≤ m.nModFeesWithAncestors
  limits : testPackage options b m.nSizeWithAncestors m.nSigOpCostWithAncestors = true
  transactions : testPackageTransactions ctx options pool b package = true

/-- A round ends the pass, fails its entry, or adds its package. -/
inductive Evaluated (ctx : Context) (options : BlockCreateOptions) (pool : CTxMemPool) (s : PackageState)
    (iter : Uint256) (fUsingModified : Bool) (m : CTxMemPoolModifiedEntry) : Next PackageState → Prop where
  | stop (s' : PackageState) : s'.b = s.b → Evaluated ctx options pool s iter fUsingModified m (.done s')
  | fail (n : Nat) : Evaluated ctx options pool s iter fUsingModified m
      (.again { s.fail iter fUsingModified with nConsecutiveFailed := n })
  | add (s' : PackageState) (e : CTxMemPoolEntry) (package : List Uint256) (feerates : List (Int × Int)) :
      pool.find iter = some e → packageOf pool s iter e = .ok package → package.Nodup →
      (∀ x, x ∈ package ↔ ReflTransGen pool.Spends iter x ∧ x ∉ s.b.inBlock) →
      PackageFits ctx options pool s.b m package → PackageAdded pool s s' package →
      s'.b = { (sortForBlock pool package).foldl (addToBlock ctx pool) s.b with packageFeerates := feerates } →
      Evaluated ctx options pool s iter fUsingModified m (.again s')

theorem fail_b (s : PackageState) (iter : Uint256) (fUsingModified : Bool) : (s.fail iter fUsingModified).b = s.b := by
  unfold PackageState.fail
  split <;> rfl

theorem evaluate_spec (ctx : Context) (options : BlockCreateOptions) (hexact : pool.Exact) (s : PackageState)
    (hfind : pool.find k = some e) (hnew : k ∉ s.b.inBlock) (modified : Option CTxMemPoolModifiedEntry) :
    ∃ next, evaluate ctx options pool s k modified = .ok next ∧
      Evaluated ctx options pool s k modified.isSome (modified.getD (.ofEntry e)) next := by
  unfold evaluate
  simp only [hfind, hnew, not_false_eq_true, decide_true, check_true, ok_bind]
  generalize hm : modified.getD (.ofEntry e) = m
  split
  · exact ⟨_, rfl, .stop s rfl⟩
  · next hfee =>
    split
    · split
      · exact ⟨_, rfl, .stop _ (fail_b _ _ _)⟩
      · exact ⟨_, rfl, .fail _⟩
    · next hpackage =>
      obtain ⟨package, hrun, hnodup, hmem⟩ := packageOf_spec hexact hfind hnew
      rw [hrun, ok_bind]
      split
      · split
        · exact ⟨_, rfl, .fail _⟩
        · split
          · exact ⟨_, rfl, .stop _ (fail_b _ _ _)⟩
          · exact ⟨_, rfl, .fail _⟩
      · next htransactions =>
        have hkeys : ∀ x ∈ package, x ∈ pool.keys :=
          fun x hx => hexact.linked.reaches_mem ((hmem x).mp hx).1 (mem_keys_of_find hfind)
        obtain ⟨s', feerates, hadd, hadded, hb⟩ := addPackage_spec ctx hexact s m hnodup hkeys
        rw [hadd, ok_bind]
        have hfits : PackageFits ctx options pool s.b m package :=
          ⟨Int.not_lt.mp hfee, by simpa using hpackage, by simpa using htransactions⟩
        exact ⟨_, rfl, .add s' e package feerates hfind hrun hnodup hmem hfits hadded hb⟩

/-- Additions shorten what is outside, others one of the lists. -/
def packageMeasure (pool : CTxMemPool) (s : PackageState) : Nat :=
  (pool.mapTx.keys.length - s.b.vtx.length) * (2 * pool.mapTx.keys.length + 1) + s.mi.length +
    s.mapModifiedTx.keys.length

theorem PackageInv.modified_length (hs : PackageInv ctx options pool s) :
    s.mapModifiedTx.keys.length ≤ pool.mapTx.keys.length := by
  rw [← toFinset_card_of_nodup s.mapModifiedTx.keys_nodup, ← keys_length]
  exact card_le_card fun k hk => hs.modsKeys k (mem_keys.mpr (mem_toFinset.mp hk))

theorem BlockInv.length_le (hb : BlockInv ctx options pool b) : b.vtx.length ≤ pool.mapTx.keys.length := by
  rw [← toFinset_card_of_nodup hb.nodup, ← keys_length]
  exact card_le_card fun k hk => hb.keys k (mem_toFinset.mp hk)

theorem PackageInv.fail (hs : PackageInv ctx options pool s) (fUsingModified : Bool) (n : Nat) :
    PackageInv ctx options pool { s.fail k fUsingModified with nConsecutiveFailed := n } := by
  unfold PackageState.fail
  cases fUsingModified with
  | false => exact ⟨hs.block, hs.mi, hs.miKeys, hs.modsKeys, hs.modsNew, hs.covers⟩
  | true =>
    have hsub : ∀ x ∈ s.mapModifiedTx.erase k, x ≠ k ∧ x ∈ s.mapModifiedTx := fun x hx => mem_erase.mp hx
    refine ⟨hs.block, hs.mi, hs.miKeys, fun x hx => hs.modsKeys x (hsub x hx).2,
      fun x hx => hs.modsNew x (hsub x hx).2, ?_⟩
    intro x hx
    obtain ⟨hne, hmod⟩ := hsub x hx
    change Covers pool s.b.inBlock x (view pool (s.mapModifiedTx.erase k) x)
    rw [view_congr (lookup_erase_ne hne)]
    exact hs.covers x hmod

theorem packageMeasure_fail (n : Nat) (hmod : k ∈ s.mapModifiedTx) :
    packageMeasure pool { s.fail k true with nConsecutiveFailed := n } < packageMeasure pool s := by
  have hlength : (s.mapModifiedTx.erase k).keys.length + 1 = s.mapModifiedTx.keys.length := by
    have hpos := length_pos_of_mem (mem_keys.mp hmod)
    rw [keys_erase, length_erase_of_mem (mem_keys.mp hmod)]
    omega
  unfold PackageState.fail packageMeasure
  simp only [if_true]
  omega

theorem packageMeasure_add
    (hs' : PackageInv ctx options pool s') (hadded : PackageAdded pool s s' package) (hk : k ∈ package) :
    packageMeasure pool s' < packageMeasure pool s := by
  have hpos := length_pos_of_mem hk
  have hlength := congrArg length hadded.vtx
  rw [length_append, (sortForBlock_perm package).length_eq] at hlength
  have hle := hs'.block.length_le
  have hmods := hs'.modified_length
  unfold packageMeasure
  rw [hadded.mi]
  -- one factor goes down, and the lists after it hold less than the other
  have hfactor : (pool.mapTx.keys.length - s'.b.vtx.length) * (2 * pool.mapTx.keys.length + 1) +
      (2 * pool.mapTx.keys.length + 1) ≤
      (pool.mapTx.keys.length - s.b.vtx.length) * (2 * pool.mapTx.keys.length + 1) := by
    rw [← Nat.succ_mul]
    exact Nat.mul_le_mul_right _ (by omega)
  omega

end FullNode.Miner

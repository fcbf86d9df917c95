import FullNode.MempoolCheck
import FullNode.MinerPackages

/-! # Block templates are valid -/

namespace FullNode.Miner

open OrderedIndex Mempool Ancestry List Finset CTxMemPool AList
open TxRequest (memoryBytes)
open Relation

variable {ctx : Context} {options : BlockCreateOptions} {pool : CTxMemPool} {b : BlockAssembler} {k : Uint256}
  {e : CTxMemPoolEntry} {m : CTxMemPoolModifiedEntry} {mods : ModifiedSet} {s s' : PackageState}

/-! ## What a round looks at -/

theorem bestModified_lookup {modit : Σ _ : Uint256, CTxMemPoolModifiedEntry}
    (h : bestModified ctx pool mods = some modit) : mods.lookup modit.1 = some modit.2 := by
  unfold bestModified at h
  split at h
  · cases h
  · next t rest hentries =>
    cases h
    apply mem_lookup_iff.mpr
    rw [hentries]
    exact foldl_pick_mem fun (best t : Σ _ : Uint256, CTxMemPoolModifiedEntry) =>
      ctx.ancestorFee (modifiedScore pool t.1 t.2) (modifiedScore pool best.1 best.2)

variable {mi package : List Uint256} {modified : Option CTxMemPoolModifiedEntry}

theorem choose_entry (h : choose ctx pool s = .entry mi k modified) :
    (∃ m, modified = some m ∧ s.mapModifiedTx.lookup k = some m ∧ mi = s.mi) ∨
      modified = none ∧ s.mi = k :: mi ∧ k ∉ s.mapModifiedTx ∧ k ∉ s.b.inBlock ∧ k ∉ s.failedTx := by
  unfold choose at h
  cases hmi : s.mi with
  | nil =>
    cases hbest : bestModified ctx pool s.mapModifiedTx with
    | none => simp [hmi, hbest] at h
    | some modit =>
      simp only [hmi, hbest] at h
      cases h
      exact .inl ⟨_, rfl, bestModified_lookup hbest, rfl⟩
  | cons it rest =>
    simp only [hmi] at h
    split at h
    · cases h
    · next hnot =>
      rw [not_or, not_or] at hnot
      cases hbest : bestModified ctx pool s.mapModifiedTx with
      | none =>
        simp only [hbest] at h
        cases h
        exact .inr ⟨rfl, rfl, hnot⟩
      | some modit =>
        simp only [hbest] at h
        split at h
        · cases h
          exact .inl ⟨_, rfl, bestModified_lookup hbest, rfl⟩
        · cases h
          exact .inr ⟨rfl, rfl, hnot⟩

theorem choose_skip (h : choose ctx pool s = .skip mi) : ∃ it, s.mi = it :: mi := by
  unfold choose at h
  cases hmi : s.mi with
  | nil =>
    simp only [hmi] at h
    split at h <;> simp_all
  | cons it rest =>
    simp only [hmi] at h
    split at h
    · cases h
      exact ⟨it, rfl⟩
    · split at h
      · cases h
      · split at h <;> cases h

theorem choose_sublist (h : choose ctx pool s = .entry mi k modified) : mi.Sublist s.mi := by
  rcases choose_entry h with ⟨_, -, -, rfl⟩ | ⟨-, hmi, -⟩
  · exact Sublist.refl _
  · rw [hmi]
    exact sublist_cons_self k mi

theorem choose_covers (hexact : pool.Exact) (hs : PackageInv ctx options pool s)
    (h : choose ctx pool s = .entry mi k modified) :
    ∃ e, pool.find k = some e ∧ k ∉ s.b.inBlock ∧ Covers pool s.b.inBlock k (modified.getD (.ofEntry e)).sums := by
  rcases choose_entry h with ⟨_, rfl, hlookup, -⟩ | ⟨rfl, hmi, -, hnew, -⟩
  · have hmem : k ∈ s.mapModifiedTx := lookup_isSome.mp (by simp [hlookup])
    obtain ⟨e, hfind⟩ := mem_keys.mp (hs.modsKeys k hmem)
    refine ⟨e, hfind, fun hin => hs.modsNew k hmem ((hs.block.inBlock k).mp hin), ?_⟩
    have hcovers := hs.covers k hmem
    rw [view_of_lookup hlookup] at hcovers
    exact hcovers
  · have hkey : k ∈ pool.keys := by
      apply hs.miKeys
      rw [hmi]
      exact mem_cons_self
    obtain ⟨e, hfind⟩ := mem_keys.mp hkey
    exact ⟨e, hfind, hnew, covers_ofEntry hexact hfind⟩

/-! ## A round -/

inductive Round (ctx : Context) (options : BlockCreateOptions) (pool : CTxMemPool) (s : PackageState) :
    Next PackageState → Prop where
  | finish : Round ctx options pool s (.done s)
  | skip (it : Uint256) (mi : List Uint256) : s.mi = it :: mi → Round ctx options pool s (.again { s with mi })
  | entry (mi : List Uint256) (k : Uint256) (modified : Option CTxMemPoolModifiedEntry) (e : CTxMemPoolEntry)
      (next : Next PackageState) : choose ctx pool s = .entry mi k modified → pool.find k = some e → k ∉ s.b.inBlock →
      Evaluated ctx options pool { s with mi } k modified.isSome (modified.getD (.ofEntry e)) next →
        Round ctx options pool s next

theorem packageStep_round (hexact : pool.Exact) (hs : PackageInv ctx options pool s) :
    ∃ next, packageStep ctx options pool s = .ok next ∧ Round ctx options pool s next := by
  unfold packageStep
  cases hchoose : choose ctx pool s with
  | finish => exact ⟨_, rfl, .finish⟩
  | skip mi =>
    obtain ⟨it, hmi⟩ := choose_skip hchoose
    exact ⟨_, rfl, .skip it mi hmi⟩
  | entry mi k modified =>
    obtain ⟨e, hfind, hnew, -⟩ := choose_covers hexact hs hchoose
    obtain ⟨next, hrun, heval⟩ := evaluate_spec ctx options hexact { s with mi } hfind hnew modified
    exact ⟨next, hrun, .entry mi k modified e next hchoose hfind hnew heval⟩

theorem Round.done {next : PackageState} (hs : PackageInv ctx options pool s)
    (h : Round ctx options pool s (.done next)) : BlockInv ctx options pool next.b := by
  cases h with
  | finish => exact hs.block
  | entry mi k modified e _ _ _ _ heval =>
    cases heval with
    | stop _ hb =>
      rw [hb]
      exact hs.block

theorem PackageInv.shorten (hs : PackageInv ctx options pool s) (hsub : mi.Sublist s.mi) :
    PackageInv ctx options pool { s with mi } where
  block := hs.block
  mi := hsub.length_le.trans hs.mi
  miKeys := fun k hk => hs.miKeys k (hsub.subset hk)
  modsKeys := hs.modsKeys
  modsNew := hs.modsNew
  covers := hs.covers

theorem packageMeasure_mi : packageMeasure pool { s with mi } + s.mi.length = packageMeasure pool s + mi.length := by
  simp only [packageMeasure]
  omega

theorem Round.again (hexact : pool.Exact) (hacyclic : Acyclic pool) (hfit : AllFit pool)
    (hs : PackageInv ctx options pool s) (h : Round ctx options pool s (.again s')) :
    PackageInv ctx options pool s' ∧ packageMeasure pool s' < packageMeasure pool s := by
  cases h with
  | skip it mi hmi =>
    have hmeasure : packageMeasure pool { s with mi } + s.mi.length = packageMeasure pool s + mi.length :=
        packageMeasure_mi
    rw [hmi, length_cons] at hmeasure
    refine ⟨hs.shorten ?_, by omega⟩
    rw [hmi]
    exact sublist_cons_self it mi
  | entry mi k modified e _ hchoose hfind hnew heval =>
    obtain ⟨e', hfind', -, hcovers⟩ := choose_covers hexact hs hchoose
    obtain rfl : e = e' := Option.some.inj (hfind.symm.trans hfind')
    have hmeasure : packageMeasure pool { s with mi } + s.mi.length = packageMeasure pool s + mi.length :=
        packageMeasure_mi
    have hentry := choose_entry hchoose
    have hsub := choose_sublist hchoose
    have hs' := hs.shorten hsub
    cases heval with
    | fail n =>
      refine ⟨hs'.fail _ n, ?_⟩
      rcases hentry with ⟨_, rfl, hlookup, rfl⟩ | ⟨rfl, hmi, -⟩
      · exact packageMeasure_fail n (lookup_isSome.mp (by simp [hlookup]))
      · rw [hmi, length_cons] at hmeasure
        change packageMeasure pool { s with mi } < packageMeasure pool s
        omega
    | add _ _ package feerates _ _ hnodup hmem hfits hadded hb =>
      have hinv := hs'.addPackage hexact hacyclic hfit (mem_keys_of_find hfind) hcovers hnodup hmem hfits.limits
        hfits.transactions hadded hb
      have hlt := packageMeasure_add hinv hadded ((hmem k).mpr ⟨.refl, hnew⟩)
      have hlength := hsub.length_le
      exact ⟨hinv, by omega⟩

theorem packageStep_spec (hexact : pool.Exact) (hacyclic : Acyclic pool) (hfit : AllFit pool)
    (hs : PackageInv ctx options pool s) :
    (∃ s', packageStep ctx options pool s = .ok (.done s') ∧ BlockInv ctx options pool s'.b) ∨
      ∃ s', packageStep ctx options pool s = .ok (.again s') ∧ PackageInv ctx options pool s' ∧
        packageMeasure pool s' < packageMeasure pool s := by
  obtain ⟨next, hrun, hround⟩ := packageStep_round hexact hs
  cases next with
  | done s' => exact .inl ⟨s', hrun, hround.done hs⟩
  | again s' => exact .inr ⟨s', hrun, hround.again hexact hacyclic hfit hs⟩

/-! ## The sums of the modified entries -/

variable {x : Uint256}

noncomputable def outside (pool : CTxMemPool) (block : List Uint256) (k : Uint256) : Int × Int × Int :=
  ∑ a ∈ ancestors pool.Spends pool.keys k \ block.toFinset, cost pool a

theorem outside_sub {block block' : List Uint256} (hkeys : ∀ a ∈ package, a ∈ pool.keys)
    (hnew : ∀ a ∈ package, a ∉ block) (hblock : ∀ y, y ∈ block' ↔ y ∈ block ∨ y ∈ package) :
    outside pool block x - ∑ a ∈ ancestors pool.Spends package.toFinset x, cost pool a = outside pool block' x := by
  unfold outside
  have htaken : ancestors pool.Spends package.toFinset x ⊆ ancestors pool.Spends pool.keys x \ block.toFinset := by
    intro a ha
    obtain ⟨hmem, hreach⟩ := mem_ancestors.mp ha
    have hmem := mem_toFinset.mp hmem
    rw [mem_sdiff, mem_ancestors, mem_toFinset]
    exact ⟨⟨hkeys a hmem, hreach⟩, hnew a hmem⟩
  rw [← sum_sdiff htaken, add_sub_cancel_right]
  apply sum_congr _ fun _ _ => rfl
  ext a
  simp only [mem_sdiff, mem_ancestors, mem_toFinset, hblock]
  tauto

/-- The next package fits and is above an entry that failed. -/
def RevivesFailed (ctx : Context) (options : BlockCreateOptions) (pool : CTxMemPool) (s : PackageState) : Prop :=
  ∃ mi iter modified e package, choose ctx pool s = .entry mi iter modified ∧ pool.find iter = some e ∧
    packageOf pool s iter e = .ok package ∧ PackageFits ctx options pool s.b (modified.getD (.ofEntry e)) package ∧
    ∃ f ∈ s.failedTx, f ∉ package ∧ ∃ a ∈ package, ReflTransGen pool.Spends f a

structure SumsInv (pool : CTxMemPool) (s : PackageState) : Prop where
  exact : ∀ k ∈ s.mapModifiedTx, view pool s.mapModifiedTx k = outside pool s.b.vtx k
  tracked : ∀ k, k ∉ s.b.vtx → ∀ a ∈ s.b.vtx, ReflTransGen pool.Spends k a → k ∈ s.mapModifiedTx ∨ k ∈ s.failedTx

theorem SumsInv.view_eq (hexact : pool.Exact) (hs : SumsInv pool s) (hkey : k ∈ pool.keys) (hnew : k ∉ s.b.vtx)
    (hfailed : k ∉ s.failedTx) : view pool s.mapModifiedTx k = outside pool s.b.vtx k := by
  by_cases hmod : k ∈ s.mapModifiedTx
  · exact hs.exact k hmod
  · obtain ⟨e, hfind⟩ := CTxMemPool.mem_keys.mp hkey
    have hview : view pool s.mapModifiedTx k = (CTxMemPoolModifiedEntry.ofEntry e).sums := by
      simp [view, AList.lookup_eq_none.mpr hmod, hfind]
    have hout : ancestors pool.Spends pool.keys k \ s.b.vtx.toFinset = ancestors pool.Spends pool.keys k := by
      rw [Finset.sdiff_eq_self_iff_disjoint, Finset.disjoint_left]
      intro a ha hin
      rcases hs.tracked k hnew a (mem_toFinset.mp hin) (mem_ancestors.mp ha).2 with h | h
      · exact hmod h
      · exact hfailed h
    unfold outside
    rw [hview, hout, sums_ofEntry hexact hfind]

theorem SumsInv.fail (hs : SumsInv pool s) (fUsingModified : Bool) (n : Nat) :
    SumsInv pool { s.fail k fUsingModified with nConsecutiveFailed := n } := by
  cases fUsingModified with
  | false => exact ⟨hs.exact, hs.tracked⟩
  | true =>
    constructor
    · intro x hx
      obtain ⟨hne, hmod⟩ := AList.mem_erase.mp hx
      change view pool (s.mapModifiedTx.erase k) x = outside pool s.b.vtx x
      rw [view_congr (AList.lookup_erase_ne hne)]
      exact hs.exact x hmod
    · intro x hx a ha hreach
      change x ∈ s.mapModifiedTx.erase k ∨ x ∈ insertNew memoryBytes k s.failedTx
      rw [AList.mem_erase, mem_insertNew]
      have htracked := hs.tracked x hx a ha hreach
      tauto

theorem SumsInv.addPackage (hexact : pool.Exact) (hs : PackageInv ctx options pool s) (hsums : SumsInv pool s)
    (hs' : PackageInv ctx options pool s') (hadded : PackageAdded pool s s' package)
    (hkeys : ∀ a ∈ package, a ∈ pool.keys) (hnew : ∀ a ∈ package, a ∉ s.b.inBlock)
    (hfailed : ∀ f ∈ s.failedTx, f ∉ package → ∀ a ∈ package, ¬ReflTransGen pool.Spends f a) : SumsInv pool s' := by
  have hblock : ∀ y, y ∈ s'.b.vtx ↔ y ∈ s.b.vtx ∨ y ∈ package := by
    intro y
    rw [← hs'.block.inBlock, hadded.inBlock, hs.block.inBlock]
  constructor
  · intro x hx
    obtain ⟨hnot, hor⟩ := (hadded.mem x).mp hx
    have hview : view pool s.mapModifiedTx x = outside pool s.b.vtx x := by
      rcases hor with hmod | ⟨a, ha, hreach⟩
      · exact hsums.exact x hmod
      · apply hsums.view_eq hexact (hs'.modsKeys x hx)
        · exact fun hin => hs'.modsNew x hx ((hblock x).mpr (.inl hin))
        · exact fun hf => hfailed x hf hnot a ha hreach
    rw [hadded.view x hnot, hview]
    exact outside_sub hkeys (fun a ha hin => hnew a ha ((hs.block.inBlock a).mpr hin)) hblock
  · intro x hx a ha hreach
    rw [hblock, not_or] at hx
    rw [hadded.mem, hadded.failedTx]
    rcases (hblock a).mp ha with ha | ha
    · rcases hsums.tracked x hx.1 a ha hreach with hmod | hf
      · exact .inl ⟨hx.2, .inl hmod⟩
      · exact .inr hf
    · exact .inl ⟨hx.2, .inr ⟨a, ha, hreach⟩⟩

theorem Round.sums (hexact : pool.Exact) (hacyclic : Acyclic pool) (hfit : AllFit pool)
    (hs : PackageInv ctx options pool s) (hsums : SumsInv pool s) (hcond : ¬RevivesFailed ctx options pool s)
    (h : Round ctx options pool s (.again s')) : SumsInv pool s' := by
  have hs' := (h.again hexact hacyclic hfit hs).1
  cases h with
  | skip it mi hmi => exact ⟨hsums.exact, hsums.tracked⟩
  | entry mi k modified e _ hchoose hfind hnew heval =>
    have hsums' : SumsInv pool { s with mi } := ⟨hsums.exact, hsums.tracked⟩
    cases heval with
    | fail n => exact hsums'.fail _ n
    | add _ e' package feerates hfind' hpackage hnodup hmem hfits hadded hb =>
      obtain rfl : e = e' := Option.some.inj (hfind.symm.trans hfind')
      apply hsums'.addPackage hexact (hs.shorten (choose_sublist hchoose)) hs' hadded
      · exact fun a ha => hexact.linked.reaches_mem ((hmem a).mp ha).1 (mem_keys_of_find hfind)
      · exact fun a ha => ((hmem a).mp ha).2
      · intro f hf hnot a ha hreach
        exact hcond ⟨mi, k, modified, e, package, hchoose, hfind, hpackage, hfits, f, hf, hnot, a, ha, hreach⟩

/-! ## The pass -/

theorem byAncestorScore_perm : (byAncestorScore ctx pool).Perm pool.mapTx.keys := perm_insertionSort _ _

theorem packageStart_spec (hexact : pool.Exact) (hb : BlockInv ctx options pool b) :
    ∃ s, packageStart ctx pool b = .ok s ∧ PackageInv ctx options pool s ∧ SumsInv pool s ∧ s.b = b := by
  have hin : ∀ k ∈ b.inBlock, k ∈ pool.keys := fun k hk => hb.keys k ((hb.inBlock k).mp hk)
  obtain ⟨mods, hrun, hmem, hview⟩ : ∃ mods, updatePackagesForAdded pool b.inBlock ∅ = .ok mods ∧ _ ∧ _ :=
    updateForEach_spec ∅ hexact.linked hin hb.inBlock_nodup
  have hmem : ∀ k, k ∈ mods ↔ k ∉ b.vtx ∧ ∃ a ∈ b.vtx, ReflTransGen pool.Spends k a := by
    intro k
    have hold : k ∉ (∅ : ModifiedSet) := AList.notMem_empty k
    simp only [hmem, hold, false_or, hb.inBlock]
  have hkeys : ∀ k ∈ mods, k ∈ pool.keys := by
    intro k hk
    obtain ⟨-, a, ha, hreach⟩ := (hmem k).mp hk
    exact hexact.linked.mem_of_reaches hreach (hb.keys a ha)
  have hout : ∀ k ∈ mods, view pool mods k = outside pool b.vtx k := by
    intro k hk
    obtain ⟨_, hfind⟩ := CTxMemPool.mem_keys.mp (hkeys k hk)
    have hempty : view pool ∅ k = outside pool [] k := by
      simp [view, outside, hfind, sums_ofEntry hexact hfind]
    rw [hview k fun h => ((hmem k).mp hk).1 ((hb.inBlock k).mp h), hempty]
    apply outside_sub hin
    · simp
    · simp [hb.inBlock]
  have hlength : (byAncestorScore ctx pool).length ≤ pool.mapTx.keys.length := byAncestorScore_perm.length_eq.le
  have hmi : ∀ k ∈ byAncestorScore ctx pool, k ∈ pool.keys :=
    fun k hk => mem_toFinset.mpr (byAncestorScore_perm.mem_iff.mp hk)
  have hcovers : ∀ k ∈ mods, Covers pool b.inBlock k (view pool mods k) := by
    intro k hk
    rw [hout k hk]
    have hsame : b.inBlock.toFinset = b.vtx.toFinset := by
      ext a
      simp [hb.inBlock]
    refine ⟨_, sdiff_subset, ?_, rfl⟩
    rw [hsame]
  have hstart : packageStart ctx pool b = .ok ⟨b, byAncestorScore ctx pool, mods, [], 0⟩ := by
    unfold packageStart
    rw [hrun]
    rfl
  refine ⟨_, hstart, ⟨hb, hlength, hmi, hkeys, fun k hk => ((hmem k).mp hk).1, hcovers⟩, ⟨hout, ?_⟩, rfl⟩
  intro k hk a ha hreach
  exact .inl ((hmem k).mpr ⟨hk, a, ha, hreach⟩)

theorem packageMeasure_lt_fuel (hs : PackageInv ctx options pool s) : packageMeasure pool s < packageFuel pool := by
  have hmods := hs.modified_length
  have hmi := hs.mi
  have hfactor : (pool.mapTx.keys.length - s.b.vtx.length) * (2 * pool.mapTx.keys.length + 1) ≤
      pool.mapTx.keys.length * (2 * pool.mapTx.keys.length + 1) := Nat.mul_le_mul_right _ (Nat.sub_le _ _)
  have hfuel : packageFuel pool = pool.mapTx.keys.length * (2 * pool.mapTx.keys.length + 1) + pool.mapTx.keys.length +
      (2 * pool.mapTx.keys.length + 2) := by
    unfold packageFuel
    ring
  unfold packageMeasure
  omega

theorem addPackageTxs_spec (hexact : pool.Exact) (hacyclic : Acyclic pool) (hfit : AllFit pool)
    (hb : BlockInv ctx options pool b) : ∃ b', addPackageTxs ctx options pool b = .ok b' ∧
      BlockInv ctx options pool b' := by
  obtain ⟨s, hstart, hs, -, -⟩ := packageStart_spec hexact hb
  obtain ⟨s', hloop, hs'⟩ := loop_spec (packageMeasure pool) (fun s => packageStep_spec hexact hacyclic hfit) hs
    (packageMeasure_lt_fuel hs)
  refine ⟨s'.b, ?_, hs'⟩
  unfold addPackageTxs
  rw [hstart, ok_bind, hloop]
  rfl

/-- A block of transactions of the pool that the next block may hold. -/
structure Template (ctx : Context) (options : BlockCreateOptions) (pool : CTxMemPool) (b : BlockAssembler) : Prop where
  nodup : b.vtx.Nodup
  keys : ∀ k ∈ b.vtx, k ∈ pool.keys
  parentsFirst : ∀ l1 k l2, b.vtx = l1 ++ k :: l2 → ∀ p, pool.Spends k p → p ∈ l1
  final : ∀ k ∈ b.vtx, ∀ e, pool.find k = some e → isFinalTx e.tx ctx.nHeight ctx.lockTimeCutoff = true
  weight : b.vtx = [] ∨ options.blockReservedWeight + (b.vtx.map (weightOf pool)).sum < options.nBlockMaxWeight
  sigOps : (b.vtx.map (sigOpsOf pool)).sum < MAX_BLOCK_SIGOPS_COST
  fees : b.nFees = (b.vtx.map (feeOf pool)).sum

theorem BlockInv.template (hb : BlockInv ctx options pool b) : Template ctx options pool b where
  nodup := hb.nodup
  keys := hb.keys
  parentsFirst := by
    intro l1 k l2 hvtx p hp
    have hfirst := hb.parentsFirst
    rw [hvtx, parentsFirst_append, nil_append] at hfirst
    exact hfirst.2.1 p hp
  final := hb.final
  weight := by
    rcases hb.limits with hempty | ⟨hlt, -⟩
    · exact .inl hempty
    · exact .inr (hb.weight ▸ hlt)
  sigOps := by
    rcases hb.limits with hempty | ⟨-, hlt⟩
    · simp [hempty, MAX_BLOCK_SIGOPS_COST]
    · have hsum := hb.sigOps
      omega
  fees := hb.fees

/-- Every run makes a template, and modified entries have their sums where no failed one comes back. -/
theorem createNewBlock_template (ctx : Context) (options : BlockCreateOptions) (hexact : pool.Exact)
    (hacyclic : Acyclic pool) (hfit : AllFit pool) (need : Bool) :
    (∃ b, createNewBlock ctx options pool need = .ok b ∧ Template ctx options pool b) ∧
    ∀ b s t, addPriorityTxs ctx options pool (resetBlock options need) = .ok b → packageStart ctx pool b = .ok s →
      Visits (fun t => ¬RevivesFailed ctx options pool t) (packageStep ctx options pool) s t →
      ∀ k m, t.mapModifiedTx.lookup k = some m → m.sums = outside pool t.b.vtx k := by
  obtain ⟨b, hpriority, hb⟩ : ∃ b, addPriorityTxs ctx options pool (resetBlock options need) = .ok b ∧
      BlockInv ctx options pool b := addPriorityTxs_spec hexact hfit resetBlock_inv rfl
  constructor
  · obtain ⟨b', hpackages, hb'⟩ := addPackageTxs_spec hexact hacyclic hfit hb
    refine ⟨b', ?_, hb'.template⟩
    unfold createNewBlock
    rw [hpriority]
    exact hpackages
  · intro b1 s t hb1 hstart hvisits k m hlookup
    obtain rfl : b = b1 := Except.ok.inj (hpriority.symm.trans hb1)
    obtain ⟨s1, hstart1, hs, hsums, -⟩ := packageStart_spec hexact hb
    obtain rfl : s1 = s := Except.ok.inj (hstart1.symm.trans hstart)
    have hinv : PackageInv ctx options pool t ∧ SumsInv pool t := by
      apply hvisits.inv ⟨hs, hsums⟩
      rintro t u ⟨ht, htsums⟩ hcond hstep
      obtain ⟨next, hrun, hround⟩ := packageStep_round hexact ht
      obtain rfl : next = .again u := Except.ok.inj (hrun.symm.trans hstep)
      exact ⟨(hround.again hexact hacyclic hfit ht).1, hround.sums hexact hacyclic hfit ht htsums hcond⟩
    rw [← view_of_lookup hlookup]
    exact hinv.2.exact k (lookup_isSome.mp (by simp [hlookup]))

/-! ### A failed entry that comes back -/

def rounds (ctx : Context) (options : BlockCreateOptions) (pool : CTxMemPool) : Nat → PackageState → Option PackageState
  | 0, s => some s
  | n + 1, s =>
    match packageStep ctx options pool s with
    | .ok (.again s') => rounds ctx options pool n s'
    | _ => none

theorem visits_of_rounds {n : Nat} {s0 t : PackageState} (h : rounds ctx options pool n s = some t)
    (hs : Visits (fun _ => True) (packageStep ctx options pool) s0 s) :
    Visits (fun _ => True) (packageStep ctx options pool) s0 t := by
  induction n generalizing s with
  | zero => exact Option.some.inj h ▸ hs
  | succ n ih =>
    unfold rounds at h
    split at h
    · next s' hstep => exact ih h (hs.again trivial hstep)
    · cases h

/-- Two parents, with a high and a low rate, and a large child. -/
def twinEntry (hash : Uint256) (vin : List CTxIn) (fee weight : Int) : CTxMemPoolEntry :=
  .new ⟨vin, [⟨9000, [0x51]⟩], 2, 0, hash⟩ hash fee weight 0 0 0 20

def twinPool : CTxMemPool where
  mapTx := ((AList.singleton 10 { twinEntry 10 [⟨⟨1, 0⟩, [], 0xfffffffd⟩] 10000 400 with
      children := [30]
      countWithDescendants := 2
      sizeWithDescendants := 900
      modFeesWithDescendants := 90000 }).insert 20 { twinEntry 20 [⟨⟨2, 0⟩, [], 0xfffffffd⟩] 300 1200 with
      children := [30]
      countWithDescendants := 2
      sizeWithDescendants := 1100
      modFeesWithDescendants := 80300 }).insert 30
      { twinEntry 30 [⟨⟨10, 0⟩, [], 0xfffffffd⟩, ⟨⟨20, 0⟩, [], 0xfffffffd⟩] 80000 3200 with
      parents := [10, 20]
      countWithAncestors := 3
      sizeWithAncestors := 1200
      modFeesWithAncestors := 90300 }
  mapNextTx := (((AList.singleton ⟨1, 0⟩ 10).insert ⟨2, 0⟩ 20).insert ⟨10, 0⟩ 30).insert ⟨20, 0⟩ 30
  totalTxSize := 1200
  totalFee := 90300

/-- The lower of the rates with and without ancestors, as a fraction. -/
def AncestorScore.modFeeAndSize (a : AncestorScore) : Int × Int :=
  if a.modifiedFee * a.sizeWithAncestors > a.modFeesWithAncestors * a.txSize then (a.modFeesWithAncestors,
    a.sizeWithAncestors)
  else (a.modifiedFee, a.txSize)

def twinContext : Context where
  nHeight := 100
  lockTimeCutoff := 1700000000
  blockPrioritySize := 0
  serializeSize := fun _ => 0
  pricomparer := fun _ _ => false
  lowPriority := fun _ => true
  ancestorFee := fun a b => a.modFeeAndSize.1 * b.modFeeAndSize.2 > b.modFeeAndSize.1 * a.modFeeAndSize.2

def twinOptions : BlockCreateOptions := ⟨1000, 2000, 400, 6000, 4000000, fun _ => 0⟩

def twinStart : PackageState := ⟨resetBlock twinOptions false, byAncestorScore twinContext twinPool, ∅, [], 0⟩

theorem twinStart_eq : addPriorityTxs twinContext twinOptions twinPool (resetBlock twinOptions false) =
    .ok (resetBlock twinOptions false) ∧ packageStart twinContext twinPool (resetBlock twinOptions false) =
      .ok twinStart :=
  ⟨rfl, rfl⟩

def twinRounds (n : Nat) : Option (List Uint256 × Option CTxMemPoolModifiedEntry) :=
  (rounds twinContext twinOptions twinPool n twinStart).map fun t => (t.b.vtx, t.mapModifiedTx.lookup 30)

theorem twin_runs : twinPool.isExact = true ∧ twinPool.isAcyclic = true ∧ (30 : Uint256) ∈ twinPool.mapTx.keys ∧
    (∀ s ∈ twinPool.mapTx.entries, 0 ≤ s.2.nTxWeight ∧ 0 ≤ s.2.extraWeight ∧ 0 ≤ s.2.sigOpCost ∧
      s.2.nTxWeight + s.2.extraWeight < 2 ^ 31 ∧ s.2.sigOpCost * s.2.bytesPerSigOp < 2 ^ 31) ∧
    twinRounds 1 = some ([10], some ⟨1100, 80300, 0⟩) ∧ twinRounds 4 = some ([10, 20], some ⟨900, 90000, 0⟩) := by
  decide

theorem twinPool_exact : twinPool.Exact := exact_of_isExact twin_runs.1

theorem twinPool_acyclic : Acyclic twinPool := acyclic_of_isAcyclic twinPool_exact.linked twin_runs.2.1

theorem twinPool_fits : AllFit twinPool := by
  intro k e h
  obtain ⟨hweight, hextra, hsigops, hfits, hsize⟩ := twin_runs.2.2.2.1 ⟨k, e⟩ (mem_lookup_iff.mp h)
  exact ⟨hweight, hextra, hsigops, hfits, hsize⟩

theorem outside_twin (block : List Uint256) : outside twinPool block 30 =
    ∑ a ∈ (twinPool.reached twinPool.parentsOf 30).toFinset \ block.toFinset, cost twinPool a := by
  have hkey : (30 : Uint256) ∈ twinPool.keys := mem_toFinset.mpr twin_runs.2.2.1
  unfold outside
  rw [(ancestors_eq_reached twinPool_exact.linked hkey).2]

/-- The first parent goes in, and the child waits with the second. -/
theorem twin_template :
    (∃ b, createNewBlock twinContext twinOptions twinPool false = .ok b ∧ Template twinContext twinOptions twinPool b) ∧
    ∃ t, packageStep twinContext twinOptions twinPool twinStart = .ok (.again t) ∧
      t.mapModifiedTx.lookup 30 = some ⟨1100, 80300, 0⟩ ∧ (1100, 80300, 0) = outside twinPool t.b.vtx 30 := by
  obtain ⟨htemplate, hsums⟩ :=
    createNewBlock_template twinContext twinOptions twinPool_exact twinPool_acyclic twinPool_fits false
  refine ⟨htemplate, ?_⟩
  obtain ⟨t, ht, hlookup⟩ := Option.map_eq_some_iff.mp twin_runs.2.2.2.2.1
  have hstep : packageStep twinContext twinOptions twinPool twinStart = .ok (.again t) := by
    unfold rounds at ht
    split at ht
    · next s' hstep => rw [hstep, Option.some.inj ht]
    · cases ht
  have hlookup : t.mapModifiedTx.lookup 30 = some ⟨1100, 80300, 0⟩ := congrArg Prod.snd hlookup
  have hcond : ¬RevivesFailed twinContext twinOptions twinPool twinStart := by
    rintro ⟨_, _, _, _, _, _, _, _, _, _, hf, -⟩
    cases hf
  exact ⟨t, hstep, hlookup, hsums _ _ t twinStart_eq.1 twinStart_eq.2 (.again .start hcond hstep) 30 _ hlookup⟩

/-- The second parent brings the child back, with both in its sums. -/
theorem failed_child_comes_back : twinPool.Exact ∧ Acyclic twinPool ∧ AllFit twinPool ∧
    twinOptions.clamped = .ok twinOptions ∧
    ∃ b s t m, addPriorityTxs twinContext twinOptions twinPool (resetBlock twinOptions false) = .ok b ∧
      packageStart twinContext twinPool b = .ok s ∧
        Visits (fun _ => True) (packageStep twinContext twinOptions twinPool) s t ∧
      t.mapModifiedTx.lookup 30 = some m ∧ m.sums ≠ outside twinPool t.b.vtx 30 := by
  obtain ⟨t, ht, hstate⟩ := Option.map_eq_some_iff.mp twin_runs.2.2.2.2.2
  have hvtx : t.b.vtx = [10, 20] := congrArg Prod.fst hstate
  have hlookup : t.mapModifiedTx.lookup 30 = some ⟨900, 90000, 0⟩ := congrArg Prod.snd hstate
  refine ⟨twinPool_exact, twinPool_acyclic, twinPool_fits, rfl, _, _, t, _, twinStart_eq.1, twinStart_eq.2,
    visits_of_rounds ht .start, hlookup, ?_⟩
  rw [hvtx, outside_twin]
  decide

end FullNode.Miner

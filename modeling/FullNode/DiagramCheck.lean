import FullNode.Replacement
import FullNode.ReplacementDiagrams

/-! # The check of the diagrams -/

namespace FullNode.Mempool

open FeeDiagrams List
open MiniMiner (FeeFrac)

namespace CTxMemPool

variable {pool : CTxMemPool} {k p : Uint256} {e : CTxMemPoolEntry} {gone : List Uint256} {changes : ChangeSet}

/-- A chunk for each affected transaction that stays, and one for what is staged. -/
structure NewDiagram (pool : CTxMemPool) (changes : ChangeSet) (chunks : List FeeFrac) : Prop where
  content : ∃ survivors : List Uint256, survivors.Nodup ∧
    (∀ p, p ∈ survivors ↔ Affected pool changes.m_to_remove p ∧ p ∉ changes.m_to_remove) ∧
    (∀ p ∈ survivors, ∃ k ∈ changes.m_to_remove, pool.Spends k p) ∧
    chunks.Perm (survivors.map pool.fracOf ++ [sumFracs (changes.entries.map entryFrac)])
  sized : changes.entries ≠ [] → FeeDiagrams.Sized chunks
  sorted : changes.entries ≠ [] → chunks.Pairwise fun chunk chunk' => rate chunk' ≤ rate chunk

/-! ## The loops over the conflicts -/

theorem chunksOf_eq {chunks : CTxMemPoolEntry → Checked (List FeeFrac)} {g : Uint256 → List FeeFrac}
    (h : ∀ k ∈ gone, ∃ e, pool.find k = some e ∧ chunks e = .ok (g k)) :
    pool.chunksOf chunks gone = .ok (gone.flatMap g) := by
  induction gone with
  | nil => rfl
  | cons k gone ih =>
    obtain ⟨e, he, hchunks⟩ := h k mem_cons_self
    unfold chunksOf
    rw [deref_ok he, ok_bind, hchunks, ok_bind, ih fun k' hk' => h k' (mem_cons_of_mem k hk'), ok_bind, flatMap_cons]
    rfl

theorem chunksOf_old (hsound : Sound pool) (hmeasured : Measured pool)
    (h : pool.checkConflictTopology gone = .ok none) :
    pool.chunksOf (fun e => .ok (oldChunks e)) gone = .ok ((allGroups pool gone).map pool.groupFrac) := by
  unfold allGroups
  rw [map_flatMap]
  apply chunksOf_eq
  intro k hk
  obtain ⟨⟨e, he⟩, hcheck⟩ := topology_none h k hk
  exact ⟨e, he, by rw [(place_of_check hsound hmeasured he hcheck).2]⟩

theorem places_of_check (hsound : Sound pool) (hmeasured : Measured pool)
    (h : pool.checkConflictTopology gone = .ok none) : ∀ k ∈ gone, k ∈ pool.keys ∧ Place pool k := by
  intro k hk
  obtain ⟨⟨_, he⟩, hcheck⟩ := topology_none h k hk
  exact ⟨mem_keys_of_find he, (place_of_check hsound hmeasured he hcheck).1⟩

def leftBehind (pool : CTxMemPool) (gone : List Uint256) (k : Uint256) : List Uint256 :=
  (pool.parentsOf k).filter (· ∉ gone)

theorem mem_leftBehind (hsound : Sound pool) : p ∈ leftBehind pool gone k ↔ pool.Spends k p ∧ p ∉ gone := by
  unfold leftBehind
  rw [mem_filter, hsound.exact.linked.parents, decide_eq_true_eq]

theorem parents_of_place (hsound : Sound pool) (he : pool.find k = some e) (h : Place pool k) :
    e.parents = [] ∨ ∃ p e', e.parents = [p] ∧ pool.find p = some e' := by
  cases h with
  | alone h _ => exact .inl (parents_of_alone hsound he h)
  | child p h _ =>
    obtain ⟨e', he'⟩ := mem_keys.mp (mem_of_spends hsound h.spends).2
    exact .inr ⟨p, e', parents_of_pair hsound he h, he'⟩
  | parent c h _ =>
    left
    rw [← parentsOf_eq he, eq_nil_iff_forall_not_mem]
    exact fun x hx => h.above x (hsound.exact.linked.parents.mp hx)

theorem survivor_eq (hsound : Sound pool) (he : pool.find k = some e) (h : Place pool k) :
    pool.survivor gone e = .ok ((leftBehind pool gone k).map pool.fracOf) := by
  unfold survivor leftBehind
  rw [parentsOf_eq he]
  rcases parents_of_place hsound he h with hnone | ⟨_, _, hone, he'⟩
  · rw [hnone]
    rfl
  · rw [hone]
    dsimp only
    split
    · next hmem =>
      rw [filter_cons_of_neg (by simpa using hmem)]
      rfl
    · next hmem =>
      rw [filter_cons_of_pos (by simpa using hmem), deref_ok he', ok_bind, filter_nil, map_singleton, fracOf_eq he']
      rfl

def survivors (pool : CTxMemPool) (gone : List Uint256) : List Uint256 := gone.flatMap (leftBehind pool gone)

theorem chunksOf_survivors (hsound : Sound pool) (hmeasured : Measured pool)
    (h : pool.checkConflictTopology gone = .ok none) :
    pool.chunksOf (pool.survivor gone) gone = .ok ((survivors pool gone).map pool.fracOf) := by
  unfold survivors
  rw [map_flatMap]
  apply chunksOf_eq
  intro k hk
  obtain ⟨⟨e, he⟩, hcheck⟩ := topology_none h k hk
  exact ⟨e, he, survivor_eq hsound he (place_of_check hsound hmeasured he hcheck).1⟩

theorem mem_survivors (hsound : Sound pool) : p ∈ survivors pool gone ↔ (∃ k ∈ gone, pool.Spends k p) ∧ p ∉ gone := by
  unfold survivors
  rw [mem_flatMap]
  constructor
  · rintro ⟨k, hk, hp⟩
    obtain ⟨hspends, hnot⟩ := (mem_leftBehind hsound).mp hp
    exact ⟨⟨k, hk, hspends⟩, hnot⟩
  · rintro ⟨⟨k, hk, hspends⟩, hnot⟩
    exact ⟨k, hk, (mem_leftBehind hsound).mpr ⟨hspends, hnot⟩⟩

theorem nodup_survivors (hsound : Sound pool) (hplace : ∀ k ∈ gone, Place pool k) (hnodup : gone.Nodup) :
    (survivors pool gone).Nodup := by
  unfold survivors
  rw [nodup_flatMap]
  refine ⟨fun k _ => (hsound.exact.linked.parents_nodup k).filter _, hnodup.imp_of_mem ?_⟩
  intro k k' hk hk' hne p hp hp'
  have hspends := ((mem_leftBehind hsound).mp hp).1
  have hspends' := ((mem_leftBehind hsound).mp hp').1
  cases hplace k hk with
  | alone h _ => exact h.above p hspends
  | child p' h _ =>
    rw [h.onlyParent p hspends] at hspends'
    exact hne (h.onlyChild k' hspends').symm
  | parent c h _ => exact h.above p hspends

theorem survivors_iff (hsound : Sound pool) (hplace : ∀ k ∈ gone, Place pool k) (hstaged : Staged pool gone) :
    p ∈ survivors pool gone ↔ Affected pool gone p ∧ p ∉ gone := by
  rw [mem_survivors hsound]
  refine and_congr_left fun hnot => ⟨?_, ?_⟩
  · rintro ⟨k, hk, hspends⟩
    exact ⟨k, hk, .rel k p hspends⟩
  · intro haffected
    obtain ⟨k, hk, ⟨rfl, -⟩ | ⟨_, hpair, rfl | rfl⟩⟩ := (affected_iff hplace hstaged).mp haffected
    · exact absurd hk hnot
    · exact ⟨k, hk, hpair.spends⟩
    · exact absurd hk hnot

/-! ## The new diagram -/

theorem sumFracs_cons (frac : FeeFrac) (fracs : List FeeFrac) :
    (sumFracs (frac :: fracs)).size = frac.size + (sumFracs fracs).size := by
  have hfold : ∀ (fracs : List FeeFrac) (start : FeeFrac), (fracs.foldl add start).size =
      start.size + (fracs.map FeeFrac.size).sum := by
    intro fracs
    induction fracs with
    | nil => exact fun start => (add_zero _).symm
    | cons frac fracs ih =>
      intro start
      rw [foldl_cons, ih, map_cons, sum_cons, ← add_assoc]
      rfl
  unfold sumFracs
  rw [hfold, hfold, map_cons, sum_cons, zero_add, zero_add]

variable {entries : List CTxMemPoolEntry}

theorem sumFracs_nonneg (hpositive : ∀ e ∈ entries, 0 < e.getTxSize) : 0 ≤ (sumFracs (entries.map entryFrac)).size := by
  induction entries with
  | nil => exact le_rfl
  | cons e entries ih =>
    rw [map_cons, sumFracs_cons]
    exact add_nonneg (hpositive e mem_cons_self).le (ih fun e' he' => hpositive e' (mem_cons_of_mem e he'))

theorem sumFracs_pos (hpositive : ∀ e ∈ entries, 0 < e.getTxSize) (hne : entries ≠ []) :
    0 < (sumFracs (entries.map entryFrac)).size := by
  obtain ⟨e, entries, rfl⟩ := exists_cons_of_ne_nil hne
  rw [map_cons, sumFracs_cons]
  exact add_pos_of_pos_of_nonneg (hpositive e mem_cons_self)
    (sumFracs_nonneg fun e' he' => hpositive e' (mem_cons_of_mem e he'))

theorem newChunks_sized (hsound : Sound pool) (hmeasured : Measured pool)
    (hpositive : ∀ e ∈ changes.entries, 0 < e.getTxSize) (hne : changes.entries ≠ []) :
    FeeDiagrams.Sized ((survivors pool changes.m_to_remove).map pool.fracOf ++
      [sumFracs (changes.entries.map entryFrac)]) := by
  intro chunk hchunk
  rcases mem_append.mp hchunk with hold | hnew
  · obtain ⟨_, hp, rfl⟩ := mem_map.mp hold
    obtain ⟨⟨_, -, hspends⟩, -⟩ := (mem_survivors hsound).mp hp
    exact size_pos hmeasured (mem_of_spends hsound hspends).2
  · rw [mem_singleton.mp hnew]
    exact sumFracs_pos hpositive hne

theorem newDiagram_of_places (hsound : Sound pool) (hmeasured : Measured pool)
    (hstaged : Staged pool changes.m_to_remove) (hplace : ∀ k ∈ changes.m_to_remove, Place pool k)
      (hpositive : ∀ e ∈ changes.entries, 0 < e.getTxSize) :
      NewDiagram pool changes (((survivors pool changes.m_to_remove).map pool.fracOf ++
        [sumFracs (changes.entries.map entryFrac)]).insertionSort notWorse) where
  content := by
    refine ⟨survivors pool changes.m_to_remove, nodup_survivors hsound hplace hstaged.nodup,
      fun p => survivors_iff hsound hplace hstaged, ?_, perm_insertionSort _ _⟩
    exact fun p hp => ((mem_survivors hsound).mp hp).1
  sized := fun hne => insertionSort_sized (newChunks_sized hsound hmeasured hpositive hne)
  sorted := fun hne => insertionSort_sorted (newChunks_sized hsound hmeasured hpositive hne)

/-! ## The check -/

theorem calculateChunksForRBF_spec (hsound : Sound pool) (hmeasured : Measured pool)
    (hstaged : Staged pool changes.m_to_remove) (hpositive : ∀ e ∈ changes.entries, 0 < e.getTxSize)
    (h : pool.checkConflictTopology changes.m_to_remove = .ok none) :
    ∃ old new, pool.calculateChunksForRBF changes = .ok (.ok (old, new)) ∧
      Optimal pool (Affected pool changes.m_to_remove) old ∧ NewDiagram pool changes new := by
  have hplace := places_of_check hsound hmeasured h
  refine ⟨_, _, ?_, optimal_of_places hsound hmeasured hstaged hplace,
    newDiagram_of_places hsound hmeasured hstaged (fun k hk => (hplace k hk).2) hpositive⟩
  unfold calculateChunksForRBF
  rw [h, ok_bind]
  dsimp only
  rw [chunksOf_old hsound hmeasured h, ok_bind, chunksOf_survivors hsound hmeasured h, ok_bind]
  rfl

theorem improvesFeerateDiagram_none {old new : List FeeFrac}
    (h : pool.calculateChunksForRBF changes = .ok (.ok (old, new))) :
    pool.improvesFeerateDiagram changes = .ok none ↔ compareChunks new old = .greater := by
  unfold improvesFeerateDiagram
  rw [h, ok_bind]
  dsimp only
  split
  · next hgreater => exact iff_of_true rfl hgreater
  · next hnot => exact iff_of_false nofun hnot

/-- The old diagram is the best, the new one has the rest and the replacement. -/
theorem diagrams_sound :
    (∀ (pool : CTxMemPool) (changes : ChangeSet), Sound pool → Measured pool → Staged pool changes.m_to_remove →
      (∀ e ∈ changes.entries, 0 < e.getTxSize) → pool.checkConflictTopology changes.m_to_remove = .ok none →
      ∃ old new, pool.calculateChunksForRBF changes = .ok (.ok (old, new)) ∧
        Optimal pool (Affected pool changes.m_to_remove) old ∧ NewDiagram pool changes new ∧
        (changes.entries ≠ [] → (pool.improvesFeerateDiagram changes = .ok none ↔
          Exceeds (diagram new) (diagram old) ∧ ¬ Exceeds (diagram old) (diagram new)))) ∧
    ∀ chunks0 chunks1, FeeDiagrams.Sized chunks0 → FeeDiagrams.Sized chunks1 →
      Verdict (diagram chunks0) (diagram chunks1) (compareChunks chunks0 chunks1) := by
  refine ⟨?_, fun chunks0 chunks1 => compareChunks_spec⟩
  intro pool changes hsound hmeasured hstaged hpositive hcheck
  obtain ⟨old, new, hchunks, hold, hnew⟩ := calculateChunksForRBF_spec hsound hmeasured hstaged hpositive hcheck
  refine ⟨old, new, hchunks, hold, hnew, fun hne => ?_⟩
  rw [improvesFeerateDiagram_none hchunks, (compareChunks_spec (hnew.sized hne) hold.sized).greater]

def familyChanges : ChangeSet :=
  ⟨[CTxMemPoolEntry.new ⟨[⟨⟨10, 0⟩, [], 0xfffffffd⟩], [⟨4000, [0x54]⟩], 2, 0, 30⟩ 30 5000 400 0 0 0 20], [20]⟩

theorem familyPool_measured : Measured familyPool := by
  have hall : ∀ s ∈ familyPool.mapTx.entries, 0 < s.2.getTxSize ∧ s.2.sizeWithAncestors < 2 ^ 31 := by decide
  exact ⟨fun he => (hall _ (AList.mem_lookup_iff.mp he)).1, fun he => (hall _ (AList.mem_lookup_iff.mp he)).2⟩

theorem familyChild_diagrams : ∃ old new, familyPool.calculateChunksForRBF familyChanges = .ok (.ok (old, new)) ∧
    Optimal familyPool (Affected familyPool [20]) old ∧ NewDiagram familyPool familyChanges new ∧
      familyPool.improvesFeerateDiagram familyChanges = .ok none ∧ Exceeds (diagram new) (diagram old) ∧
        Verdict (diagram [⟨3, 1⟩, ⟨1, 1⟩]) (diagram [⟨4, 2⟩]) .greater := by
  have hsound : Sound familyPool := ⟨familyPool_exact, acyclic_of_isAcyclic familyPool_exact.linked (by decide)⟩
  have hstaged : Staged familyPool [20] := by
    refine ⟨nodup_singleton 20, fun k hk x hspends => ?_⟩
    rw [mem_singleton.mp hk] at hspends
    have hnone : familyPool.childrenOf 20 = [] := by decide
    have hmem := familyPool_exact.linked.children.mpr hspends
    rw [hnone] at hmem
    cases hmem
  have hpositive : ∀ e ∈ familyChanges.entries, 0 < e.getTxSize := by decide
  have hne : familyChanges.entries ≠ [] := cons_ne_nil _ _
  obtain ⟨hrun, hcompare⟩ := diagrams_sound
  obtain ⟨old, new, hchunks, hold, hnew, hiff⟩ :=
      hrun familyPool familyChanges hsound familyPool_measured hstaged hpositive (by decide)
  have himproves : familyPool.improvesFeerateDiagram familyChanges = .ok none := by decide
  have hverdict := hcompare [⟨3, 1⟩, ⟨1, 1⟩] [⟨4, 2⟩] (by unfold FeeDiagrams.Sized; decide)
      (by unfold FeeDiagrams.Sized; decide)
  rw [show compareChunks [⟨3, 1⟩, ⟨1, 1⟩] [⟨4, 2⟩] = .greater by decide] at hverdict
  exact ⟨old, new, hchunks, hold, hnew, himproves, ((hiff hne).mp himproves).1, hverdict⟩

end CTxMemPool

end FullNode.Mempool

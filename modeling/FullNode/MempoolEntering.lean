import FullNode.MempoolChanges
import FullNode.MempoolLimits

/-! # A transaction enters -/

namespace FullNode.Mempool

open OrderedIndex Ancestry List Finset CTxMemPoolEntry
open TxRequest (memoryBytes)
open Relation

/-- As `StageAddition` leaves it: no links, and its own sums. -/
structure CTxMemPoolEntry.Alone (e : CTxMemPoolEntry) : Prop where
  parents : e.parents = []
  children : e.children = []
  above : e.withAncestors = e.own
  below : e.withDescendants = e.ownBelow

namespace CTxMemPool

variable {pool pool' : CTxMemPool} {k p x a : Uint256} {e entry : CTxMemPoolEntry} {xs set : List Uint256}
  {j : Uint256}

/-- It shares no outpoint with the pool and has no child there. -/
structure Newcomer (pool : CTxMemPool) (tx : CTransaction) : Prop where
  fresh : tx.hash ∉ pool.keys
  childless : ∀ {k e}, pool.find k = some e → tx.hash ∉ e.tx.parentHashes
  unspent : ∀ o ∈ tx.prevouts, pool.mapNextTx.lookup o = none
  notOwn : tx.hash ∉ tx.parentHashes

/-! ## Parts of `addNewTransaction` -/

theorem foldl_insertNew (xs set : List Uint256) :
    (∀ x, x ∈ xs.foldl (fun set x => insertNew memoryBytes x set) set ↔ x ∈ xs ∨ x ∈ set) ∧
      (set.Nodup → (xs.foldl (fun set x => insertNew memoryBytes x set) set).Nodup) := by
  induction xs generalizing set with
  | nil => simp
  | cons y xs ih =>
    obtain ⟨hmem, hnodup⟩ := ih (insertNew memoryBytes y set)
    rw [foldl_cons]
    refine ⟨fun x => ?_, fun h => hnodup (insertNew_nodup h)⟩
    rw [hmem, mem_insertNew, List.mem_cons]
    tauto

theorem foldl_addParent (e : CTxMemPoolEntry) (xs : List Uint256) :
    xs.foldl (fun e parent => e.withParent parent true) e =
    { e with parents := xs.foldl (fun set x => insertNew memoryBytes x set) e.parents } := by
  induction xs generalizing e with
  | nil => rfl
  | cons y xs ih =>
    rw [foldl_cons, ih, foldl_cons]
    rfl

theorem mem_foldr_insertNew (xs : List Uint256) : ∀ x, x ∈ xs.foldr (insertNew memoryBytes) [] ↔ x ∈ xs := by
  intro x
  induction xs with
  | nil => simp
  | cons y xs ih => rw [foldr_cons, mem_insertNew, ih, List.mem_cons]

theorem mem_getIterSet : x ∈ pool.getIterSet xs ↔ x ∈ xs ∧ x ∈ pool.keys := by
  unfold getIterSet
  rw [List.mem_filterMap]
  constructor
  · rintro ⟨_, hy, hiter⟩
    obtain ⟨rfl, hkey⟩ := getIter_eq_some.mp hiter
    exact ⟨hy, hkey⟩
  · rintro ⟨hx, hkey⟩
    exact ⟨x, hx, getIter_eq_some.mpr ⟨rfl, hkey⟩⟩

theorem sumEntries_spec {sums r : Int × Int × Int} (h : pool.sumEntries xs sums = .ok r) :
    ((xs.length : Int), r) = (0, sums) + (xs.map pool.own).sum := by
  induction xs generalizing sums with
  | nil =>
    cases h
    simp
  | cons y xs ih =>
    obtain ⟨_, _, _⟩ := sums
    unfold sumEntries at h
    obtain ⟨e, he, h⟩ := bind_ok.mp h
    obtain ⟨_, hfee, h⟩ := bind_ok.mp h
    have hown : pool.own y = (1, e.getTxSize, e.modifiedFee, e.sigOpCost) := by
      simp [own, entryAt_ok.mp he, CTxMemPoolEntry.own]
    unfold int64 at hfee
    split at hfee
    · cases hfee
      have hrest := ih h
      rw [length_cons, List.map_cons, List.sum_cons, hown, Nat.cast_succ]
      simp only [Prod.ext_iff, Prod.fst_add, Prod.snd_add] at hrest ⊢
      omega
    · cases hfee

theorem int64_ok {i j : Int} (h : int64 i = .ok j) : j = i := by
  unfold int64 at h
  split at h
  · cases h
    rfl
  · cases h

def Entered (k : Uint256) (parents ancestors : List Uint256) (entry : CTxMemPoolEntry)
    (above : Int × Int × Int × Int) (j : Uint256) (e e' : CTxMemPoolEntry) : Prop :=
  if j = k then e.Becomes parents e.children above 0 e'
  else e.Becomes e.parents (if j ∈ parents then insertNew memoryBytes k e.children else e.children) 0
    (if j ∈ ancestors then entry.ownBelow else 0) e'

theorem updateAncestorsOf_spec (h : pool.updateAncestorsOf true k set = .ok pool') (hsat : pool'.saturated = false)
    (hfind : pool.find k = some entry) (hparents : entry.parents.Nodup) (hset : set.Nodup)
    (hself : k ∉ entry.parents) (hother : k ∉ set) :
    Changed (Entered k entry.parents set entry 0) pool pool' := by
  unfold updateAncestorsOf at h
  obtain ⟨_, hit, h⟩ := bind_ok.mp h
  rw [entryAt_ok, hfind] at hit
  cases hit
  obtain ⟨_, hchildren, h⟩ := bind_ok.mp h
  obtain ⟨_, hfee, h⟩ := bind_ok.mp h
  obtain rfl := int64_ok hfee
  have hlinked := foldlM_changed (fun _ _ _ => updateChild_changed) hparents hchildren
  have hsummed := modifyAll_becomes hset h hsat fun _ _ => updateDescendantState_becomes
  have hboth := hlinked.trans hsummed (T := fun _ _ _ => True) fun _ _ _ _ _ _ => trivial
  refine ⟨hboth.toSameIndices, ?_, hboth.absent, hboth.saturated⟩
  intro j e he
  obtain ⟨e1, he1, hfirst⟩ := hlinked.found he
  obtain ⟨e2, he2, hlast⟩ := hsummed.found he1
  refine ⟨e2, he2, ?_⟩
  -- first the link, then the sum
  have hmiddle : e.Becomes e.parents (if j ∈ entry.parents then insertNew memoryBytes k e.children else e.children)
      0 0 e1 := by
    split at hfirst
    · next hj =>
      cases hfirst
      rw [if_pos hj]
      exact ⟨rfl, rfl, rfl, (add_zero _).symm, (add_zero _).symm⟩
    · next hj =>
      subst hfirst
      rw [if_neg hj]
      exact .refl e1
  have hend : e.Becomes e.parents (if j ∈ entry.parents then insertNew memoryBytes k e.children else e.children) 0
      (if j ∈ set then entry.ownBelow else 0) e2 := by
    refine ⟨hlast.bare.trans hmiddle.bare, hlast.parents.trans hmiddle.parents,
      hlast.children.trans hmiddle.children, ?_, ?_⟩
    · rw [hlast.above, hmiddle.above, ite_self, add_zero, add_zero]
    · rw [hlast.below, hmiddle.below, add_zero]
      simp [CTxMemPoolEntry.ownBelow]
  unfold Entered
  split
  · next hj =>
    subst hj
    rw [if_neg hself, if_neg hother] at hend
    rw [hfind] at he
    cases he
    exact hend
  · exact hend

theorem updateEntryForAncestors_spec (h : pool.updateEntryForAncestors k set = .ok pool')
    (hsat : pool'.saturated = false) :
    Changed (fun j e e' => if j = k then e.Becomes e.parents e.children (set.map pool.own).sum 0 e' else e' = e)
      pool pool' := by
  unfold updateEntryForAncestors at h
  obtain ⟨⟨_, _, _⟩, hsums, h⟩ := bind_ok.mp h
  have hsum := sumEntries_spec hsums
  rw [show ((0 : Int), ((0 : Int), (0 : Int), (0 : Int))) = 0 from rfl, zero_add] at hsum
  obtain ⟨hchanged, hsats⟩ := modify_changed h
  refine ⟨hchanged.toSameIndices, ?_, hchanged.absent, hchanged.saturated⟩
  intro j e he
  obtain ⟨e', he', hR⟩ := hchanged.found he
  refine ⟨e', he', ?_⟩
  split at hR
  · next hj =>
    subst hj
    rw [if_pos rfl, ← hsum]
    exact updateAncestorState_becomes hR (hsats hsat e' he')
  · next hj => rwa [if_neg hj]

structure Added (k : Uint256) (entry : CTxMemPoolEntry) (parents set : List Uint256) (pool pool' : CTxMemPool) :
    Prop where
  parents_nodup : parents.Nodup
  parents_mem : ∀ x, x ∈ parents ↔ x ∈ entry.tx.parentHashes ∧ x ∈ pool.keys
  found : ∀ {j e}, pool.find j = some e →
      ∃ e', pool'.find j = some e' ∧ Entered k parents set entry (set.map pool.own).sum j e e'
  absent : ∀ {j}, pool.find j = none → pool'.find j = none
  mapNextTx : pool'.mapNextTx = entry.tx.vin.foldl (spendInputs k) pool.mapNextTx
  mapDeltas : pool'.mapDeltas = pool.mapDeltas
  mapUsedSPK : pool'.mapUsedSPK = entry.mapSPK.entries.foldl (claimSPK k) pool.mapUsedSPK
  totalTxSize : pool'.totalTxSize = pool.totalTxSize + entry.getTxSize
  totalFee : pool'.totalFee = pool.totalFee + entry.nFee
  saturated : pool.saturated = false

theorem Entered.bare {k : Uint256} {parents ancestors : List Uint256} {above : Int × Int × Int × Int}
    {e e' : CTxMemPoolEntry} (h : Entered k parents ancestors entry above j e e') : e'.bare = e.bare := by
  unfold Entered at h
  split at h
  · exact h.bare
  · exact h.bare

theorem own_of_find (h : pool.find k = some e) : pool.own k = e.own := by simp [own, h]

theorem ownBelow_of_find (h : pool.find k = some e) : pool.ownBelow k = e.ownBelow := by simp [ownBelow, h]

theorem own_eq_of_bare (hsome : ∀ {j e}, pool.find j = some e → ∃ e', pool'.find j = some e' ∧ e'.bare = e.bare)
    (hnone : ∀ {j}, pool.find j = none → pool'.find j = none) (j : Uint256) :
    pool'.own j = pool.own j ∧ pool'.ownBelow j = pool.ownBelow j := by
  cases hfind : pool.find j with
  | none =>
    have hfind' := hnone hfind
    simp [own, ownBelow, hfind, hfind']
  | some e =>
    obtain ⟨e', hfind', hbare⟩ := hsome hfind
    rw [own_of_find hfind, own_of_find hfind', ownBelow_of_find hfind, ownBelow_of_find hfind', own_of_bare hbare,
      ownBelow_of_bare hbare]
    exact ⟨rfl, rfl⟩

def withSpent (pool : CTxMemPool) (k : Uint256) (entry : CTxMemPoolEntry) : CTxMemPool :=
  { pool with
    cachedInnerUsage := pool.cachedInnerUsage + entry.nUsageSize
    mapNextTx := entry.tx.vin.foldl (spendInputs k) pool.mapNextTx }

/-- The entry gets parents, relatives, sums and a place. -/
theorem addNewTransaction_steps (h : pool.addNewTransaction k set = .ok pool') (hfind : pool.find k = some entry) :
    ∃ (its : List Uint256) (pool1 pool2 pool3 pool4 : CTxMemPool),
      (∀ x, x ∈ its ↔ x ∈ entry.tx.parentHashes ∧ x ∈ pool.keys) ∧
      its.foldlM (fun pool pit => pool.updateParent k pit true) (pool.withSpent k entry) = .ok pool1 ∧
      pool1.updateAncestorsOf true k set = .ok pool2 ∧ pool2.updateEntryForAncestors k set = .ok pool3 ∧
      (pool3.modify k fun e => .ok { e with idxRandomized := pool3.txnsRandomized.length }) = .ok pool4 ∧
      pool' = { pool4 with
        txnsRandomized := pool4.txnsRandomized ++ [k]
        totalTxSize := pool4.totalTxSize + entry.getTxSize
        totalFee := pool4.totalFee + entry.nFee
        mapUsedSPK := entry.mapSPK.entries.foldl (claimSPK k) pool4.mapUsedSPK } := by
  unfold addNewTransaction at h
  obtain ⟨_, hit, h⟩ := bind_ok.mp h
  rw [entryAt_ok, hfind] at hit
  cases hit
  obtain ⟨pool1, hlinks, h⟩ := bind_ok.mp h
  obtain ⟨pool2, hrelatives, h⟩ := bind_ok.mp h
  obtain ⟨pool3, hsums, h⟩ := bind_ok.mp h
  obtain ⟨pool4, hplace, h⟩ := bind_ok.mp h
  cases h
  refine ⟨_, pool1, pool2, pool3, pool4, fun x => ?_, hlinks, hrelatives, hsums, hplace, rfl⟩
  rw [mem_getIterSet, mem_foldr_insertNew]
  rfl

theorem addNewTransaction_spec (h : pool.addNewTransaction k set = .ok pool') (hsat : pool'.saturated = false)
    (hfind : pool.find k = some entry) (hparents : entry.parents = []) (hset : set.Nodup)
    (hself : k ∉ entry.tx.parentHashes) (hother : k ∉ set) :
    ∃ parents, Added k entry parents set pool pool' := by
  obtain ⟨its, pool1, pool2, pool3, _, hiter, hlinks, hrelatives, hsums, hplace, rfl⟩ := addNewTransaction_steps h hfind
  -- the entry gets its parents
  generalize hstart : pool.withSpent k entry = pool0 at hlinks
  have hfindStart : ∀ j, pool0.find j = pool.find j := fun j => by rw [← hstart]; rfl
  have hlinked : Changed (fun j e e' =>
      if j = k then e' = its.foldl (fun e parent => e.withParent parent true) e else e' = e) pool0 pool1 :=
    foldlM_changedOne (fun _ _ _ => updateParent_changed) hlinks
  obtain ⟨hmem, hnodup⟩ := foldl_insertNew its ([] : List Uint256)
  have hfindBase : pool0.find k = some entry := (hfindStart k).trans hfind
  obtain ⟨entry1, hfind1, hfirst⟩ := hlinked.found hfindBase
  rw [if_pos rfl, foldl_addParent, hparents] at hfirst
  have hparents1 : ∀ x, x ∈ entry1.parents ↔ x ∈ entry.tx.parentHashes ∧ x ∈ pool.keys := by
    intro x
    rw [hfirst, hmem, hiter]
    simp
  have hnodup1 : entry1.parents.Nodup := by
    rw [hfirst]
    exact hnodup nodup_nil
  have hbelow1 : entry1.ownBelow = entry.ownBelow := by rw [hfirst]; rfl
  -- then its relatives, then its sums
  have hplaced := modifyTo_changed hplace
  have hsat3 : pool3.saturated = false := hplaced.saturated hsat
  have hsat2 : pool2.saturated = false := (updateEntryForAncestors_spec hsums hsat3).saturated hsat3
  have hentered := updateAncestorsOf_spec hrelatives hsat2 hfind1 hnodup1 hset
      (fun hk => hself ((hparents1 k).mp hk).1) hother
  have hsummed := updateEntryForAncestors_spec hsums hsat3
  have hown : set.map pool2.own = set.map pool.own := by
    apply map_congr_left
    intro j _
    have hchanged : Changed (fun _ e e' => e'.bare = e.bare) pool0 pool2 := by
      refine hlinked.trans hentered ?_
      intro j a b c hab hbc
      refine hbc.bare.trans ?_
      split at hab
      · rw [hab, foldl_addParent]
        rfl
      · rw [hab]
    rw [(own_eq_of_bare hchanged.found hchanged.absent j).1, ← hstart]
    rfl
  have hsame := ((hlinked.toSameIndices.trans hentered.toSameIndices).trans hsummed.toSameIndices).trans
      hplaced.toSameIndices
  have hsat0 := hlinked.saturated (hentered.saturated hsat2)
  rw [← hstart] at hsame hsat0
  refine ⟨entry1.parents, hnodup1, hparents1, ?_, fun hj => ?_, hsame.mapNextTx, hsame.mapDeltas, ?_, ?_, ?_, hsat0⟩
  · intro j e he
    obtain ⟨_, he1, h1⟩ := hlinked.found ((hfindStart j).trans he)
    obtain ⟨_, he2, h2⟩ := hentered.found he1
    obtain ⟨e3, he3, h3⟩ := hsummed.found he2
    obtain ⟨e4, he4, h4⟩ := hplaced.found he3
    refine ⟨e4, he4, ?_⟩
    unfold Entered at h2 ⊢
    by_cases hj : j = k
    · subst hj
      rw [if_pos rfl] at h1 h2 h3 h4 ⊢
      rw [hfind] at he
      cases he
      rw [foldl_addParent, hparents, ← hfirst] at h1
      subst h1
      rw [hfirst] at h2 ⊢
      subst h4
      refine ⟨h3.bare.trans h2.bare, h3.parents.trans h2.parents, h3.children.trans h2.children, ?_, ?_⟩
      · change e3.withAncestors = _
        rw [h3.above, h2.above, hown, add_zero]
        rfl
      · change e3.withDescendants = _
        rw [h3.below, h2.below, add_zero]
        rfl
    · rw [if_neg hj] at h1 h2 h3 h4 ⊢
      subst h1 h3 h4
      rw [hbelow1] at h2
      exact h2
  · exact hplaced.absent (hsummed.absent (hentered.absent (hlinked.absent ((hfindStart _).trans hj))))
  · simp only [hsame.mapUsedSPK]
    rfl
  · simp only [hsame.totalTxSize]
    rfl
  · simp only [hsame.totalFee]
    rfl

theorem lookup_spendInputs (k : Uint256) (vin : List CTxIn) (next : AssocMap COutPoint Uint256) (o : COutPoint) :
    (vin.foldl (spendInputs k) next).lookup o = (next.lookup o).or
    (if o ∈ vin.map CTxIn.prevout then some k else none) := by
  induction vin generalizing next with
  | nil => simp
  | cons txin vin ih =>
    rw [foldl_cons, ih]
    simp only [List.map_cons, List.mem_cons]
    unfold spendInputs
    split
    · next hmem =>
      obtain ⟨_, hj⟩ := Option.isSome_iff_exists.mp (AList.lookup_isSome.mpr hmem)
      by_cases ho : o = txin.prevout
      · subst ho
        rw [hj, Option.some_or, Option.some_or]
      · simp [ho]
    · next hmem =>
      by_cases ho : o = txin.prevout
      · subst ho
        rw [AList.lookup_insert, AList.lookup_eq_none.mpr hmem]
        simp
      · rw [AList.lookup_insert_ne ho]
        simp [ho]

/-! ## Exact bookkeeping -/

theorem find_insertEntry (j : Uint256) :
    (pool.insertEntry entry).find j = if j = entry.tx.hash then some entry else pool.find j :=
  find_insert pool entry.tx.hash j entry _

theorem keys_insertEntry : (pool.insertEntry entry).keys = insert entry.tx.hash pool.keys := by
  ext j
  rw [mem_insert, mem_keys, mem_keys, find_insertEntry]
  by_cases hj : j = entry.tx.hash
  · simp [hj]
  · simp [hj]

def spendsWith (pool : CTxMemPool) (tx : CTransaction) : Uint256 → Uint256 → Prop :=
  withNode pool.Spends tx.hash fun p => p ∈ tx.parentHashes ∧ p ∈ pool.keys

theorem Newcomer.ne_of_find {tx : CTransaction} (hnew : Newcomer pool tx) (he : pool.find j = some e) :
    j ≠ tx.hash := by
  rintro rfl
  exact hnew.fresh (mem_keys_of_find he)

variable {parents : List Uint256}

section

variable (hexact : Exact pool) (hnew : Newcomer pool entry.tx) (halone : entry.Alone)
  (hset : ∀ a, a ∈ set ↔ pool.AncestorOf entry.tx a)
  (hadded : Added entry.tx.hash entry parents set (pool.insertEntry entry) pool')
include hadded

theorem Added.keys_eq : pool'.keys = insert entry.tx.hash pool.keys := by
  rw [← keys_insertEntry]
  ext j
  rw [mem_keys, mem_keys]
  constructor
  · rintro ⟨e', he'⟩
    cases hfind : (pool.insertEntry entry).find j with
    | none =>
      rw [hadded.absent hfind] at he'
      cases he'
    | some e => exact ⟨e, rfl⟩
  · rintro ⟨e, he⟩
    obtain ⟨e', he', -⟩ := hadded.found he
    exact ⟨e', he'⟩

theorem Added.find_new : ∃ e', pool'.find entry.tx.hash = some e' ∧
    entry.Becomes parents entry.children (set.map (pool.insertEntry entry).own).sum 0 e' := by
  obtain ⟨e', he', hR⟩ := hadded.found (show (pool.insertEntry entry).find entry.tx.hash =
      some entry by rw [find_insertEntry, if_pos rfl])
  unfold Entered at hR
  rw [if_pos rfl] at hR
  exact ⟨e', he', hR⟩

variable {j : Uint256}

theorem Added.find_old {e : CTxMemPoolEntry} (hj : j ≠ entry.tx.hash) (he : pool.find j = some e) :
    ∃ e', pool'.find j = some e' ∧
    e.Becomes e.parents (if j ∈ parents then insertNew memoryBytes entry.tx.hash e.children else e.children) 0
      (if j ∈ set then entry.ownBelow else 0) e' := by
  obtain ⟨e', he', hR⟩ := hadded.found (show (pool.insertEntry entry).find j =
      some e by rw [find_insertEntry, if_neg hj, he])
  unfold Entered at hR
  rw [if_neg hj] at hR
  exact ⟨e', he', hR⟩

theorem Added.find_some {e' : CTxMemPoolEntry} (he' : pool'.find j = some e') :
    j = entry.tx.hash ∧ entry.Becomes parents entry.children (set.map (pool.insertEntry entry).own).sum 0 e' ∨
    j ≠ entry.tx.hash ∧ ∃ e, pool.find j = some e ∧ e.Becomes e.parents
      (if j ∈ parents then insertNew memoryBytes entry.tx.hash e.children else e.children) 0
      (if j ∈ set then entry.ownBelow else 0) e' := by
  by_cases hj : j = entry.tx.hash
  · obtain ⟨e1, he1, hbecomes⟩ := hadded.find_new
    rw [hj, he1] at he'
    cases he'
    exact .inl ⟨hj, hbecomes⟩
  · have hmem := mem_keys_of_find he'
    rw [hadded.keys_eq, mem_insert] at hmem
    obtain ⟨e, he⟩ := mem_keys.mp (hmem.resolve_left hj)
    obtain ⟨e1, he1, hbecomes⟩ := hadded.find_old hj he
    rw [he1] at he'
    cases he'
    exact .inr ⟨hj, e, he, hbecomes⟩

theorem Added.own_new : pool'.own entry.tx.hash = entry.own ∧ pool'.ownBelow entry.tx.hash = entry.ownBelow := by
  obtain ⟨_, he', hbecomes⟩ := hadded.find_new
  rw [own_of_find he', ownBelow_of_find he', own_of_bare hbecomes.bare, ownBelow_of_bare hbecomes.bare]
  exact ⟨rfl, rfl⟩

include hnew

theorem Added.own_old (hj : j ∈ pool.keys) : pool'.own j = pool.own j ∧ pool'.ownBelow j = pool.ownBelow j := by
  obtain ⟨_, he⟩ := mem_keys.mp hj
  obtain ⟨_, he', hbecomes⟩ := hadded.find_old (hnew.ne_of_find he) he
  rw [own_of_find he', own_of_find he, ownBelow_of_find he', ownBelow_of_find he, own_of_bare hbecomes.bare,
    ownBelow_of_bare hbecomes.bare]
  exact ⟨rfl, rfl⟩

theorem Added.mem_parents (x : Uint256) : x ∈ parents ↔ x ∈ entry.tx.parentHashes ∧ x ∈ pool.keys := by
  rw [hadded.parents_mem, keys_insertEntry, mem_insert]
  constructor
  · rintro ⟨hx, rfl | hkey⟩
    · exact absurd hx hnew.notOwn
    · exact ⟨hx, hkey⟩
  · rintro ⟨hx, hkey⟩
    exact ⟨hx, .inr hkey⟩

theorem Added.exists_iff {P : CTxMemPoolEntry → Prop} (hP : ∀ e e' : CTxMemPoolEntry, e'.bare = e.bare → (P e' ↔ P e)) :
    (∃ e', pool'.find j = some e' ∧ P e') ↔ j = entry.tx.hash ∧ P entry ∨ ∃ e, pool.find j = some e ∧ P e := by
  constructor
  · rintro ⟨e', he', hpe'⟩
    rcases hadded.find_some he' with ⟨hj, hbecomes⟩ | ⟨-, e, he, hbecomes⟩
    · exact .inl ⟨hj, (hP _ _ hbecomes.bare).mp hpe'⟩
    · exact .inr ⟨e, he, (hP _ _ hbecomes.bare).mp hpe'⟩
  · rintro (⟨rfl, hpe⟩ | ⟨e, he, hpe⟩)
    · obtain ⟨e', he', hbecomes⟩ := hadded.find_new
      exact ⟨e', he', (hP _ _ hbecomes.bare).mpr hpe⟩
    · obtain ⟨e', he', hbecomes⟩ := hadded.find_old (hnew.ne_of_find he) he
      exact ⟨e', he', (hP _ _ hbecomes.bare).mpr hpe⟩

theorem Added.spends_iff {c p : Uint256} : pool'.Spends c p ↔ pool.spendsWith entry.tx c p := by
  have hchild := hadded.exists_iff hnew (j := c)
      (P := fun e => p ∈ e.tx.parentHashes) fun e e' hbare => by rw [tx_of_bare hbare]
  unfold Spends spendsWith withNode
  rw [hadded.keys_eq]
  constructor
  · rintro ⟨e', he', hp, hkey⟩
    rw [mem_insert] at hkey
    rcases hchild.mp ⟨e', he', hp⟩ with ⟨rfl, hp⟩ | ⟨e, he, hp⟩
    · exact .inr ⟨rfl, hp, hkey.resolve_left fun heq => hnew.notOwn (heq ▸ hp)⟩
    · exact .inl ⟨e, he, hp, hkey.resolve_left fun heq => hnew.childless he (heq ▸ hp)⟩
  · intro h
    obtain ⟨hspends, hkey⟩ :
        (c = entry.tx.hash ∧ p ∈ entry.tx.parentHashes ∨ ∃ e, pool.find c = some e ∧ p ∈ e.tx.parentHashes) ∧
          p ∈ pool.keys := by
      rcases h with ⟨e, he, hp, hkey⟩ | ⟨hc, hp, hkey⟩
      · exact ⟨.inr ⟨e, he, hp⟩, hkey⟩
      · exact ⟨.inl ⟨hc, hp⟩, hkey⟩
    obtain ⟨e', he', hp⟩ := hchild.mpr hspends
    exact ⟨e', he', hp, Finset.mem_insert_of_mem hkey⟩

include hexact halone

omit hnew hexact halone in
theorem Added.links_new : pool'.parentsOf entry.tx.hash = parents ∧
    pool'.childrenOf entry.tx.hash = entry.children := by
  obtain ⟨_, he', hbecomes⟩ := hadded.find_new
  exact ⟨(parentsOf_eq he').trans hbecomes.parents, (childrenOf_eq he').trans hbecomes.children⟩

omit hexact halone in
theorem Added.links_old (hj : j ≠ entry.tx.hash) : pool'.parentsOf j = pool.parentsOf j ∧
    pool'.childrenOf j = if j ∈ parents then insertNew memoryBytes entry.tx.hash (pool.childrenOf j)
      else pool.childrenOf j := by
  by_cases hkey : j ∈ pool.keys
  · obtain ⟨_, he⟩ := mem_keys.mp hkey
    obtain ⟨_, he', hbecomes⟩ := hadded.find_old hj he
    rw [parentsOf_eq he', childrenOf_eq he', parentsOf_eq he, childrenOf_eq he]
    exact ⟨hbecomes.parents, hbecomes.children⟩
  · have hnone : pool'.find j = none := find_of_notMem (by rw [hadded.keys_eq, mem_insert, not_or]; exact ⟨hj, hkey⟩)
    rw [if_neg fun hp => hkey ((hadded.mem_parents hnew j).mp hp).2]
    simp [parentsOf, childrenOf, hnone, find_of_notMem hkey]

theorem Added.linked : Linked (pool.spendsWith entry.tx) pool' := by
  obtain ⟨hparentsNew, hchildrenNew⟩ := hadded.links_new
  rw [halone.children] at hchildrenNew
  refine ⟨?_, ?_, ?_, ?_⟩
  · intro c p
    unfold spendsWith withNode
    by_cases hc : c = entry.tx.hash
    · subst hc
      rw [hparentsNew, hadded.mem_parents hnew]
      constructor
      · exact fun hp => .inr ⟨rfl, hp⟩
      · rintro (⟨e, he, -⟩ | ⟨-, hp⟩)
        · exact absurd (mem_keys_of_find he) hnew.fresh
        · exact hp
    · rw [or_iff_left fun hbad => hc hbad.1, ← hexact.linked.parents, (hadded.links_old hnew hc).1]
  · intro c p
    unfold spendsWith withNode
    by_cases hp : p = entry.tx.hash
    · subst hp
      rw [hchildrenNew]
      constructor
      · intro hc
        cases hc
      · rintro (⟨e, he, hp, -⟩ | ⟨-, hp, -⟩)
        · exact absurd hp (hnew.childless he)
        · exact absurd hp hnew.notOwn
    · rw [(hadded.links_old hnew hp).2, ← hexact.linked.children]
      change _ ↔ _ ∨ c = entry.tx.hash ∧ p ∈ entry.tx.parentHashes ∧ p ∈ pool.keys
      rw [← hadded.mem_parents hnew p]
      split
      · next hparent => rw [mem_insertNew, or_comm, and_iff_left hparent]
      · next hparent => rw [or_iff_left fun hbad => hparent hbad.2]
  · intro c
    by_cases hc : c = entry.tx.hash
    · rw [hc, hparentsNew]
      exact hadded.parents_nodup
    · rw [(hadded.links_old hnew hc).1]
      exact hexact.linked.parents_nodup c
  · intro p
    by_cases hp : p = entry.tx.hash
    · rw [hp, hchildrenNew]
      exact nodup_nil
    · have hnodup := hexact.linked.children_nodup p
      rw [(hadded.links_old hnew hp).2]
      split
      · exact insertNew_nodup hnodup
      · exact hnodup

omit hexact halone hadded in
theorem Newcomer.spends_ne {c p : Uint256} (h : pool.Spends c p) : c ≠ entry.tx.hash ∧ p ≠ entry.tx.hash := by
  obtain ⟨_, he, hp, -⟩ := h
  refine ⟨hnew.ne_of_find he, ?_⟩
  rintro rfl
  exact hnew.childless he hp

omit hexact halone hadded in
theorem Newcomer.reach_old {x y : Uint256} (hx : x ≠ entry.tx.hash) :
    ReflTransGen (pool.spendsWith entry.tx) x y ↔ ReflTransGen pool.Spends x y :=
  reach_withNode_of_ne (fun _ hstep => (hnew.spends_ne hstep).2 rfl) hx

omit hexact halone hadded in
theorem Newcomer.reach_new {y : Uint256} :
    ReflTransGen (pool.spendsWith entry.tx) entry.tx.hash y ↔ y = entry.tx.hash ∨ pool.AncestorOf entry.tx y := by
  unfold spendsWith
  rw [reach_withNode_self (E := pool.Spends) fun _ hstep => (hnew.spends_ne hstep).1 rfl]
  unfold AncestorOf
  simp only [and_assoc]

omit hexact halone hadded in
theorem Newcomer.acyclic (hacyclic : ∀ x, ¬TransGen pool.Spends x x) (x : Uint256) :
    ¬TransGen (pool.spendsWith entry.tx) x x := by
  intro hloop
  obtain ⟨y, hfirst, hrest⟩ := TransGen.head'_iff.mp hloop
  rcases hfirst with hfirst | ⟨rfl, hP⟩
  · have hy := (hnew.reach_old (hnew.spends_ne hfirst).2).mp hrest
    exact hacyclic x (TransGen.head' hfirst hy)
  · have hne : y ≠ entry.tx.hash := by
      rintro rfl
      exact hnew.notOwn hP.1
    have hy := (hnew.reach_old hne).mp hrest
    rcases ReflTransGen.cases_tail hy with heq | ⟨_, -, hlast⟩
    · exact hne heq.symm
    · exact (hnew.spends_ne hlast).2 rfl

include hset

theorem Added.summed (hnodup : set.Nodup) : Summed (pool.spendsWith entry.tx) pool' := by
  have hinPool : ∀ {a}, pool.AncestorOf entry.tx a → a ∈ pool.keys := by
    rintro a ⟨_, -, hkey, hreach⟩
    exact hexact.linked.reaches_mem hreach hkey
  constructor
  · intro j e he
    rcases hadded.find_some he with ⟨rfl, hbecomes⟩ | ⟨hj, e0, he0, hbecomes⟩
    · have hancestors : ancestors (pool.spendsWith entry.tx) pool'.keys entry.tx.hash =
          insert entry.tx.hash set.toFinset := by
        ext y
        rw [mem_ancestors, hadded.keys_eq, hnew.reach_new, mem_insert, mem_insert, mem_toFinset, hset]
        constructor
        · exact fun h => h.2
        · rintro (rfl | hy)
          · exact ⟨.inl rfl, .inl rfl⟩
          · exact ⟨.inr (hinPool hy), .inr hy⟩
      have hnot : entry.tx.hash ∉ set.toFinset := by
        rw [mem_toFinset, hset]
        exact fun h => hnew.fresh (hinPool h)
      have hsum : ∀ a ∈ set.toFinset, pool'.own a = (pool.insertEntry entry).own a := by
        intro a ha
        rw [mem_toFinset, hset] at ha
        have hkey := hinPool ha
        have hne : a ≠ entry.tx.hash := fun heq => hnew.fresh (heq ▸ hkey)
        rw [(hadded.own_old hnew hkey).1]
        unfold own
        rw [find_insertEntry, if_neg hne]
      rw [hbecomes.above, halone.above, hancestors, sum_insert hnot, hadded.own_new.1, sum_congr rfl hsum,
        sum_toFinset _ hnodup]
    · have hancestors : ancestors (pool.spendsWith entry.tx) pool'.keys j = ancestors pool.Spends pool.keys j := by
        ext y
        rw [mem_ancestors, mem_ancestors, hadded.keys_eq, hnew.reach_old hj, mem_insert]
        constructor
        · rintro ⟨-, hreach⟩
          exact ⟨hexact.linked.reaches_mem hreach (mem_keys_of_find he0), hreach⟩
        · rintro ⟨hkey, hreach⟩
          exact ⟨.inr hkey, hreach⟩
      rw [hbecomes.above, add_zero, hexact.summed.ancestors he0, hancestors]
      apply sum_congr rfl
      intro a ha
      exact ((hadded.own_old hnew (mem_ancestors.mp ha).1).1).symm
  · intro j e he
    rcases hadded.find_some he with ⟨rfl, hbecomes⟩ | ⟨hj, e0, he0, hbecomes⟩
    · have hdescendants : descendants (pool.spendsWith entry.tx) pool'.keys entry.tx.hash = {entry.tx.hash} := by
        ext y
        rw [mem_descendants, Finset.mem_singleton, hadded.keys_eq]
        constructor
        · rintro ⟨-, hreach⟩
          by_contra hy
          rcases ReflTransGen.cases_tail ((hnew.reach_old hy).mp hreach) with heq | ⟨z, -, hlast⟩
          · exact hy heq.symm
          · exact (hnew.spends_ne hlast).2 rfl
        · rintro rfl
          exact ⟨Finset.mem_insert_self _ _, .refl⟩
      rw [hbecomes.below, add_zero, halone.below, hdescendants, Finset.sum_singleton, hadded.own_new.2]
    · have hreach : ∀ y, ReflTransGen (pool.spendsWith entry.tx) y j ↔
          y = entry.tx.hash ∧ j ∈ set ∨ ReflTransGen pool.Spends y j := by
        intro y
        by_cases hy : y = entry.tx.hash
        · subst hy
          rw [hnew.reach_new, hset, or_iff_right hj]
          constructor
          · exact fun h => .inl ⟨rfl, h⟩
          · rintro (⟨-, h⟩ | h)
            · exact h
            · rcases ReflTransGen.cases_head h with heq | ⟨z, hfirst, -⟩
              · exact absurd heq.symm hj
              · exact absurd rfl (hnew.spends_ne hfirst).1
        · rw [hnew.reach_old hy, or_iff_right fun hbad => hy hbad.1]
      have hold : ∑ d ∈ descendants pool.Spends pool.keys j, pool'.ownBelow d = ∑ d ∈
          descendants pool.Spends pool.keys j, pool.ownBelow d :=
        sum_congr rfl fun d hd => (hadded.own_old hnew (mem_descendants.mp hd).1).2
      have hnot : entry.tx.hash ∉ descendants pool.Spends pool.keys j :=
          fun hmem => hnew.fresh (mem_descendants.mp hmem).1
      rw [hbecomes.below, hexact.summed.descendants he0]
      split
      · next hmem =>
        have hdescendants : descendants (pool.spendsWith entry.tx) pool'.keys j =
            insert entry.tx.hash (descendants pool.Spends pool.keys j) := by
          ext y
          rw [mem_descendants, mem_insert, mem_descendants, hadded.keys_eq, hreach, mem_insert]
          constructor
          · rintro ⟨-, ⟨rfl, -⟩ | h⟩
            · exact .inl rfl
            · exact .inr ⟨hexact.linked.mem_of_reaches h (mem_keys_of_find he0), h⟩
          · rintro (rfl | ⟨hkey, h⟩)
            · exact ⟨.inl rfl, .inl ⟨rfl, hmem⟩⟩
            · exact ⟨.inr hkey, .inr h⟩
        rw [hdescendants, sum_insert hnot, hold, hadded.own_new.2, add_comm]
      · next hmem =>
        have hdescendants : descendants (pool.spendsWith entry.tx) pool'.keys j =
            descendants pool.Spends pool.keys j := by
          ext y
          rw [mem_descendants, mem_descendants, hadded.keys_eq, hreach, mem_insert]
          constructor
          · rintro ⟨-, ⟨-, hbad⟩ | h⟩
            · exact absurd hbad hmem
            · exact ⟨hexact.linked.mem_of_reaches h (mem_keys_of_find he0), h⟩
          · rintro ⟨hkey, h⟩
            exact ⟨.inr hkey, .inr h⟩
        rw [hdescendants, hold, add_zero]

omit hexact halone hset in
theorem Added.sum_eq {g : CTxMemPoolEntry → Int} (hg : ∀ e e' : CTxMemPoolEntry, e'.bare = e.bare → g e' = g e) :
    ∑ j ∈ pool'.keys, (pool'.find j).elim 0 g = (∑ j ∈ pool.keys, (pool.find j).elim 0 g) + g entry := by
  obtain ⟨new, hfindNew, hbecomesNew⟩ := hadded.find_new
  have hold : ∑ j ∈ pool.keys, (pool'.find j).elim 0 g = ∑ j ∈ pool.keys, (pool.find j).elim 0 g := by
    apply sum_congr rfl
    intro j hj
    obtain ⟨e, he⟩ := mem_keys.mp hj
    obtain ⟨e', he', hbecomes⟩ := hadded.find_old (hnew.ne_of_find he) he
    rw [he, he']
    exact hg e e' hbecomes.bare
  rw [hadded.keys_eq, sum_insert hnew.fresh, hold, hfindNew, add_comm]
  exact congrArg _ (hg entry new hbecomesNew.bare)

omit halone hset in
theorem Added.indexed : Indexed pool' := by
  refine ⟨?_, ?_, ?_, ?_⟩
  · intro j e' he'
    rcases hadded.find_some he' with ⟨rfl, hbecomes⟩ | ⟨-, e, he, hbecomes⟩
    · rw [tx_of_bare hbecomes.bare]
    · rw [tx_of_bare hbecomes.bare]
      exact hexact.indexed.hash he
  · intro o j
    rw [hadded.mapNextTx, lookup_spendInputs,
      hadded.exists_iff hnew (P := fun e => o ∈ e.tx.prevouts) (fun e e' hbare => by rw [tx_of_bare hbare]),
      ← hexact.indexed.nextTx]
    change (pool.mapNextTx.lookup o).or (if o ∈ entry.tx.prevouts then some entry.tx.hash else none) = some j ↔ _
    by_cases ho : o ∈ entry.tx.prevouts
    · rw [hnew.unspent o ho]
      simp [ho, eq_comm]
    · simp [ho]
  · have hsize : ∀ e e' : CTxMemPoolEntry, e'.bare = e.bare → e'.getTxSize = e.getTxSize := fun e e' hbare =>
      (congrArg getTxSize hbare : e'.bare.getTxSize = e.bare.getTxSize)
    rw [hadded.totalTxSize, hadded.sum_eq hnew hsize, ← hexact.indexed.totalTxSize]
    rfl
  · have hfee : ∀ e e' : CTxMemPoolEntry, e'.bare = e.bare → e'.nFee = e.nFee := fun e e' hbare =>
      (congrArg nFee hbare : e'.bare.nFee = e.bare.nFee)
    rw [hadded.totalFee, hadded.sum_eq hnew hfee, ← hexact.indexed.totalFee]
    rfl

theorem Added.exact (hnodup : set.Nodup) : Exact pool' ∧ pool'.Spends = pool.spendsWith entry.tx := by
  have hspends : pool'.Spends = pool.spendsWith entry.tx := by
    funext c p
    exact propext (hadded.spends_iff hnew)
  refine ⟨⟨?_, ?_, hadded.indexed hexact hnew⟩, hspends⟩
  · rw [hspends]
    exact hadded.linked hexact hnew halone
  · rw [hspends]
    exact hadded.summed hexact hnew halone hset hnodup

end

end CTxMemPool
end FullNode.Mempool

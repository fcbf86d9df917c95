import FullNode.MempoolLinks

/-! # Entries leave -/

namespace FullNode.Mempool

open CTxMemPoolEntry Option

namespace CTxMemPool

variable {pool pool' pool1 pool2 : CTxMemPool} {k p x : Uint256} {e e' : CTxMemPoolEntry}
  {f : CTxMemPoolEntry → Checked CTxMemPoolEntry} {ks set stage : List Uint256} {P C E : Uint256 → Uint256 → Prop}

/-! ## An entry is dropped -/

variable {it entry : CTxMemPoolEntry} {j : Uint256} {entries : List CTxMemPoolEntry} {tx : CTransaction}
  {Inv : CTxMemPool → Prop} {vtx : List CTransaction}

theorem dropRandomized_ok (h : pool.dropRandomized it = .ok pool') :
    (pool.txnsRandomized.length ≤ 1 ∧ pool' = { pool with txnsRandomized := [] }) ∨
      ∃ back pool1, pool.txnsRandomized.getLast? = some back ∧ 1 < pool.txnsRandomized.length ∧
        it.idxRandomized < pool.txnsRandomized.length ∧
        (pool.modify back fun e => .ok { e with idxRandomized := it.idxRandomized }) = .ok pool1 ∧
        pool' = { pool1 with txnsRandomized := (pool.txnsRandomized.set it.idxRandomized back).dropLast } := by
  unfold dropRandomized at h
  split at h
  · next back hback =>
    split at h
    · next hlength =>
      obtain ⟨-, -, h⟩ := bind_ok.mp h
      obtain ⟨pool1, hmodify, h⟩ := bind_ok.mp h
      have hsame : pool1.txnsRandomized = pool.txnsRandomized := by
        obtain ⟨e, _, -, -, rfl⟩ := modify_ok hmodify
        rfl
      rw [hsame] at h
      split at h
      · next hidx =>
        cases h
        exact .inr ⟨back, pool1, hback, hlength, hidx, hmodify, rfl⟩
      · cases h
    · next hlength =>
      cases h
      exact .inl ⟨by omega, rfl⟩
  · next hnone =>
    cases h
    rw [List.getLast?_eq_none_iff] at hnone
    refine .inl ⟨by rw [hnone]; exact Nat.zero_le 1, ?_⟩
    rw [← hnone]

structure Shuffled (pool pool' : CTxMemPool) : Prop where
  find : ∀ k, (pool'.find k).map (CTxMemPoolEntry.placed 0) = (pool.find k).map (CTxMemPoolEntry.placed 0)
  mapNextTx : pool'.mapNextTx = pool.mapNextTx
  mapUsedSPK : pool'.mapUsedSPK = pool.mapUsedSPK
  cachedInnerUsage : pool'.cachedInnerUsage = pool.cachedInnerUsage

theorem dropRandomized_shuffled (h : pool.dropRandomized it = .ok pool') : Shuffled pool pool' := by
  rcases dropRandomized_ok h with ⟨-, rfl⟩ | ⟨back, _, -, -, -, hmodify, rfl⟩
  · exact ⟨fun _ => rfl, rfl, rfl, rfl⟩
  · obtain ⟨e, _, he, hplace, rfl⟩ := modify_ok hmodify
    cases hplace
    refine ⟨fun j => ?_, rfl, rfl, rfl⟩
    have hfind := find_insert pool back j (e.placed it.idxRandomized) (pool.saturated || e.saturated)
    refine (congrArg (Option.map (placed 0)) hfind).trans ?_
    split
    · next hj => rw [hj, he]; rfl
    · rfl

theorem removeUnchecked_ok (h : pool.removeUnchecked k = .ok pool') : ∃ it pool1, pool.find k = some it ∧
    pool.dropRandomized it = .ok pool1 ∧ pool' = { pool1 with
      cachedInnerUsage := pool1.cachedInnerUsage - entryUsage it
      mapNextTx := it.tx.vin.foldl (fun next txin => next.erase txin.prevout) pool1.mapNextTx
      mapUsedSPK := it.mapSPK.keys.foldl (releaseSPK k) pool1.mapUsedSPK
      totalTxSize := pool1.totalTxSize - it.getTxSize
      totalFee := pool1.totalFee - it.nFee
      mapTx := pool1.mapTx.erase k } := by
  unfold removeUnchecked at h
  obtain ⟨it, hit, h⟩ := bind_ok.mp h
  obtain ⟨pool1, hdrop, h⟩ := bind_ok.mp h
  cases h
  exact ⟨it, pool1, entryAt_ok.mp hit, hdrop, rfl⟩

theorem find_erase (pool : CTxMemPool) (k j : Uint256) :
    (pool.mapTx.erase k).lookup j = if j = k then none else pool.find j := by
  split
  · next hj => rw [hj, AList.lookup_erase]
  · next hj => exact AList.lookup_erase_ne hj

def SameBare (pool pool' : CTxMemPool) : Prop :=
  ∀ k, (pool'.find k).map CTxMemPoolEntry.bare = (pool.find k).map CTxMemPoolEntry.bare

theorem SameBare.symm (h : SameBare pool pool') : SameBare pool' pool := fun k => (h k).symm

theorem SameBare.find (h : SameBare pool pool') (he' : pool'.find k = some e') :
    ∃ e, pool.find k = some e ∧ e.bare = e'.bare := by
  have hk := h k
  rw [he', map_some, eq_comm, map_eq_some_iff] at hk
  exact hk

theorem Framed.sameBare (h : Framed pool pool') : SameBare pool pool' := by
  intro k
  have hcore := congrArg (Option.map Prod.fst) (h.find k)
  rwa [map_map, map_map] at hcore

theorem Shuffled.sameBare (h : Shuffled pool pool') : SameBare pool pool' := by
  intro k
  have hplaced := congrArg (Option.map bare) (h.find k)
  rwa [map_map, map_map] at hplaced

section

variable (h : pool.removeUnchecked k = .ok pool')
include h

theorem removeUnchecked_find (j : Uint256) :
    (pool'.find j).map bare = if j = k then none else (pool.find j).map bare := by
  obtain ⟨_, pool1, -, hdrop, rfl⟩ := removeUnchecked_ok h
  have hfind := congrArg (Option.map bare) (find_erase pool1 k j)
  refine hfind.trans ?_
  split
  · rfl
  · exact (dropRandomized_shuffled hdrop).sameBare j

theorem removeUnchecked_kept (hj : j ≠ k) (he : pool.find j = some e) :
    ∃ e', pool'.find j = some e' ∧ e'.bare = e.bare := by
  have hfind := removeUnchecked_find h j
  rw [if_neg hj, he, map_some, map_eq_some_iff] at hfind
  exact hfind

theorem removeUnchecked_found (he' : pool'.find j = some e') :
    j ≠ k ∧ ∃ e, pool.find j = some e ∧ e'.bare = e.bare := by
  have hfind := removeUnchecked_find h j
  rw [he', map_some] at hfind
  split at hfind
  · cases hfind
  · next hj =>
    obtain ⟨e, he, hbare⟩ := map_eq_some_iff.mp hfind.symm
    exact ⟨hj, e, he, hbare.symm⟩

end

theorem removeAll_find (h : stage.foldlM removeUnchecked pool = .ok pool') (j : Uint256) :
    (pool'.find j).map bare = if j ∈ stage then none else (pool.find j).map bare := by
  induction stage generalizing pool with
  | nil =>
    cases h
    simp
  | cons k stage ih =>
    obtain ⟨_, hfirst, hrest⟩ := bind_ok.mp h
    rw [ih hrest, removeUnchecked_find hfirst]
    simp only [List.mem_cons]
    grind

theorem removeStaged_find {updateDescendants : Bool} (h : pool.removeStaged stage updateDescendants = .ok pool')
    (j : Uint256) : (pool'.find j).map bare = if j ∈ stage then none else (pool.find j).map bare := by
  unfold removeStaged at h
  obtain ⟨_, hupdate, h⟩ := bind_ok.mp h
  rw [removeAll_find h, (updateForRemoveFromMempool_framed hupdate).sameBare]

theorem removeStaged_left {updateDescendants : Bool} (h : pool.removeStaged stage updateDescendants = .ok pool')
    (hfind' : pool'.find j = some e') : j ∉ stage ∧ ∃ e, pool.find j = some e ∧ e'.tx = e.tx := by
  have hfind := removeStaged_find h j
  rw [hfind', Option.map_some] at hfind
  split at hfind
  · cases hfind
  · next hkept =>
    obtain ⟨e, he, hbare⟩ := Option.map_eq_some_iff.mp hfind.symm
    exact ⟨hkept, e, he, (tx_of_bare hbare).symm⟩

/-! ## Entries are added -/

theorem addNewTransaction_ok (h : pool.addNewTransaction k set = .ok pool') (hfind : pool.find k = some e) : ∃ pool1 e1,
    Framed (pool.withSpent k e) pool1 ∧ pool1.find k = some e1 ∧ pool' = { pool1 with
      mapTx := pool1.mapTx.insert k (e1.placed pool.txnsRandomized.length)
      saturated := pool1.saturated || e1.saturated
      txnsRandomized := pool.txnsRandomized ++ [k]
      totalTxSize := pool1.totalTxSize + e.getTxSize
      totalFee := pool1.totalFee + e.nFee
      mapUsedSPK := e.mapSPK.entries.foldl (claimSPK k) pool.mapUsedSPK } := by
  obtain ⟨_, pool1, _, pool3, _, -, hlinks, hrelatives, hsums, hplace, rfl⟩ := addNewTransaction_steps h hfind
  have hframed := ((foldlM_framed (fun _ _ _ => updateParent_framed) hlinks).trans
    (updateAncestorsOf_framed hrelatives)).trans (updateEntryForAncestors_framed hsums)
  obtain ⟨e1, _, he1, hplaced, rfl⟩ := modify_ok hplace
  cases hplaced
  have hrandomized : pool3.txnsRandomized = pool.txnsRandomized := hframed.txnsRandomized
  have hused : pool3.mapUsedSPK = pool.mapUsedSPK := hframed.mapUsedSPK
  refine ⟨pool3, e1, hframed, he1, ?_⟩
  simp only [hrandomized, hused]
  rfl

section

variable (h : (pool.insertEntry entry).addNewTransaction entry.tx.hash set = .ok pool')
include h

theorem add_find (j : Uint256) :
    (pool'.find j).map bare = if j = entry.tx.hash then some entry.bare else (pool.find j).map bare := by
  obtain ⟨pool1, _, hframed, he1, rfl⟩ := addNewTransaction_ok h (by rw [find_insertEntry, if_pos rfl])
  have hbare : (pool1.find j).map bare = ((pool.insertEntry entry).find j).map bare := hframed.sameBare j
  rw [find_insertEntry] at hbare
  refine (congrArg (Option.map bare) (find_insert pool1 entry.tx.hash j _ pool1.saturated)).trans ?_
  split
  · next hj =>
    rw [if_pos hj, hj, he1] at hbare
    exact hbare
  · next hj => rwa [if_neg hj] at hbare

theorem add_new :
    ∃ e', pool'.find entry.tx.hash = some e' ∧ e'.bare = entry.bare := by
  have hfind := add_find h entry.tx.hash
  rw [if_pos rfl, map_eq_some_iff] at hfind
  exact hfind

theorem add_old
    (hj : j ≠ entry.tx.hash) (he : pool.find j = some e) : ∃ e', pool'.find j = some e' ∧ e'.bare = e.bare := by
  have hfind := add_find h j
  rw [if_neg hj, he, map_some, map_eq_some_iff] at hfind
  exact hfind

theorem add_found
    (he' : pool'.find j = some e') : j = entry.tx.hash ∧ e'.bare = entry.bare ∨ j ≠ entry.tx.hash ∧ ∃ e,
      pool.find j = some e ∧ e'.bare = e.bare := by
  have hfind := add_find h j
  rw [he', map_some] at hfind
  split at hfind
  · next hj => exact .inl ⟨hj, some.inj hfind⟩
  · next hj =>
    obtain ⟨e, he, hbare⟩ := map_eq_some_iff.mp hfind.symm
    exact .inr ⟨hj, e, he, hbare.symm⟩

end

/-- The entries are added in turn, each with its ancestors. -/
inductive Enters : CTxMemPool → List CTxMemPoolEntry → CTxMemPool → Prop
  | nil (pool : CTxMemPool) : Enters pool [] pool
  | cons {pool pool1 pool' : CTxMemPool} {entry : CTxMemPoolEntry} {entries : List CTxMemPoolEntry} {set : List Uint256}
      (hfresh : pool.find entry.tx.hash = none)
      (hadd : (pool.insertEntry entry).addNewTransaction entry.tx.hash set = .ok pool1)
      (hrest : Enters pool1 entries pool') : Enters pool (entry :: entries) pool'

theorem applyNext_enters (h : pool.applyNext entry = .ok pool') : pool.find entry.tx.hash = none ∧
    ∃ set, (pool.insertEntry entry).addNewTransaction entry.tx.hash set = .ok pool' := by
  unfold applyNext at h
  obtain ⟨⟨⟩, hfresh, h⟩ := bind_ok.mp h
  obtain ⟨ancestors, -, h⟩ := bind_ok.mp h
  rw [check_ok, Bool.not_eq_true', existsTxid, isSome_eq_false_iff, isNone_iff_eq_none] at hfresh
  exact ⟨hfresh, ancestors, h⟩

theorem applyAll_enters (h : entries.foldlM applyNext pool = .ok pool') : Enters pool entries pool' := by
  induction entries generalizing pool with
  | nil =>
    cases h
    exact .nil _
  | cons entry entries ih =>
    obtain ⟨_, hfirst, hrest⟩ := bind_ok.mp h
    obtain ⟨hfresh, _, hadd⟩ := applyNext_enters hfirst
    exact .cons hfresh hadd (ih hrest)

theorem apply_ok {cached : List Uint256} (h : pool.apply stage cached entries = .ok pool') :
    ∃ pool1, pool.removeStaged stage false = .ok pool1 ∧ Enters pool1 entries pool' := by
  unfold apply at h
  obtain ⟨pool1, hremove, h⟩ := bind_ok.mp h
  refine ⟨pool1, hremove, ?_⟩
  cases entries with
  | nil =>
    cases h
    exact .nil _
  | cons entry entries =>
    obtain ⟨⟨⟩, hfresh, h⟩ := bind_ok.mp h
    obtain ⟨_, hadd, h⟩ := bind_ok.mp h
    rw [check_ok, Bool.not_eq_true', existsTxid, isSome_eq_false_iff, isNone_iff_eq_none] at hfresh
    exact .cons hfresh hadd (applyAll_enters h)

/-! ## What every removal keeps -/

/-- Kept by every removal of a set with all its descendants. -/
structure KeptByClosed (Inv : CTxMemPool → Prop) : Prop where
  closed : ∀ {pool pool' its all}, pool.calculateAllDescendants its [] = .ok all →
      pool.removeStaged all false = .ok pool' → Inv pool → Inv pool'
  clear : ∀ {pool k}, Inv pool → Inv (pool.clearPrioritisation k)

structure KeptByRemoval (Inv : CTxMemPool → Prop) : Prop extends KeptByClosed Inv where
  confirmed : ∀ {pool pool' k}, pool.removeStaged [k] true = .ok pool' → Inv pool → Inv pool'

section

variable {Inv : CTxMemPool → Prop} (hkept : KeptByClosed Inv) {tx : CTransaction}
include hkept

theorem KeptByClosed.removeRecursive (h : pool.removeRecursive tx = .ok pool') (hinv : Inv pool) : Inv pool' := by
  unfold CTxMemPool.removeRecursive at h
  obtain ⟨-, -, h⟩ := bind_ok.mp h
  obtain ⟨_, hall, h⟩ := bind_ok.mp h
  exact hkept.closed hall h hinv

theorem KeptByClosed.removeConflict {txin : CTxIn} (h : removeConflict tx pool txin = .ok pool')
    (hinv : Inv pool) : Inv pool' := by
  unfold CTxMemPool.removeConflict at h
  split at h
  · cases h
    exact hinv
  · obtain ⟨_, -, h⟩ := bind_ok.mp h
    split at h
    · exact hkept.removeRecursive h (hkept.clear hinv)
    · cases h
      exact hinv

theorem KeptByClosed.removeConflicts (h : pool.removeConflicts tx = .ok pool') (hinv : Inv pool) : Inv pool' :=
  foldlM_keeps (P := Inv) (fun _ _ _ hstep hinv => hkept.removeConflict hstep hinv) h hinv

theorem KeptByClosed.removeForReorg {checkFinalAndMature : Uint256 → Bool}
    (h : pool.removeForReorg checkFinalAndMature = .ok pool') (hinv : Inv pool) : Inv pool' := by
  unfold CTxMemPool.removeForReorg at h
  obtain ⟨_, hall, h⟩ := bind_ok.mp h
  exact hkept.closed hall h hinv

theorem KeptByClosed.expire {time : Int} (h : pool.expire time = .ok pool') (hinv : Inv pool) : Inv pool' := by
  unfold CTxMemPool.expire at h
  obtain ⟨_, hall, h⟩ := bind_ok.mp h
  exact hkept.closed hall h hinv

theorem KeptByClosed.trimToSize {full : CTxMemPool → Bool} {its : List Uint256}
    (h : trimToSize full its pool = .ok pool') (hinv : Inv pool) : Inv pool' := by
  induction its generalizing pool with
  | nil =>
    cases h
    exact hinv
  | cons it its ih =>
    unfold trimToSize at h
    split at h
    · cases h
      exact hinv
    · obtain ⟨stage, hstage, h⟩ := bind_ok.mp h
      obtain ⟨_, hremove, h⟩ := bind_ok.mp h
      have hall : pool.calculateAllDescendants [it] [] = .ok stage := by
        unfold calculateAllDescendants
        rw [hstage, ok_bind]
        rfl
      exact ih h (hkept.closed hall hremove hinv)

end

theorem removeForBlockTx_ok (h : removeForBlockTx pool tx = .ok pool') : ∃ pool1 pool2,
    (tx.hash ∈ pool.keys ∧ pool.removeStaged [tx.hash] true = .ok pool1 ∨ tx.hash ∉ pool.keys ∧ pool1 = pool) ∧
      pool1.removeConflicts tx = .ok pool2 ∧ pool' = pool2.clearPrioritisation tx.hash := by
  unfold removeForBlockTx at h
  split at h
  · next hmem =>
    obtain ⟨pool1, hremove, h⟩ := bind_ok.mp h
    obtain ⟨pool2, hconflicts, h⟩ := bind_ok.mp h
    cases h
    exact ⟨pool1, pool2, .inl ⟨existsTxid_iff.mp hmem, hremove⟩, hconflicts, rfl⟩
  · next hmem =>
    obtain ⟨pool1, hsame, h⟩ := bind_ok.mp h
    cases hsame
    obtain ⟨pool2, hconflicts, h⟩ := bind_ok.mp h
    cases h
    exact ⟨pool, pool2, .inr ⟨fun hbad => hmem (existsTxid_iff.mpr hbad), rfl⟩, hconflicts, rfl⟩

theorem KeptByRemoval.removeForBlockTx (hkept : KeptByRemoval Inv) (h : removeForBlockTx pool tx = .ok pool')
    (hinv : Inv pool) : Inv pool' := by
  obtain ⟨_, _, hconfirmed, hconflicts, rfl⟩ := removeForBlockTx_ok h
  apply hkept.clear
  apply hkept.removeConflicts hconflicts
  rcases hconfirmed with ⟨-, hremove⟩ | ⟨-, rfl⟩
  · exact hkept.confirmed hremove hinv
  · exact hinv

theorem removeForBlock_ok (h : pool.removeForBlock vtx = .ok pool') : pool' = pool ∧ pool.mapTx.keys = [] ∨
    vtx.foldlM CTxMemPool.removeForBlockTx pool = .ok pool' := by
  unfold removeForBlock at h
  split at h
  · next hempty =>
    cases h
    exact .inl ⟨rfl, List.isEmpty_iff.mp hempty.1⟩
  · exact .inr h

theorem KeptByRemoval.removeForBlock (hkept : KeptByRemoval Inv)
    (h : pool.removeForBlock vtx = .ok pool') (hinv : Inv pool) : Inv pool' := by
  rcases removeForBlock_ok h with ⟨rfl, -⟩ | h
  · exact hinv
  · exact foldlM_keeps (P := Inv) (fun _ _ _ hstep hinv => hkept.removeForBlockTx hstep hinv) h hinv

end CTxMemPool
end FullNode.Mempool

import FullNode.MempoolGraph

/-! # Checking a pool -/

namespace FullNode.Mempool.CTxMemPool

open Worklist Ancestry List
open TxRequest (memoryBytes)
open Relation

variable {pool : CTxMemPool} {E : Uint256 → Uint256 → Prop} {k p x : Uint256} {out : List Uint256}

def reached (pool : CTxMemPool) (next : Uint256 → List Uint256) (k : Uint256) : List Uint256 :=
  match walk memoryBytes next (fun (_ : Unit) (_ : Uint256) (_ _ : List Uint256) => (.ok () : Checked Unit)) .endless
    pool.mapTx.keys.length () [k] [] with
  | .ok out => out
  | .error _ => []

def spends (pool : CTxMemPool) (k p : Uint256) : Bool :=
  (pool.find k).any (fun e => p ∈ e.tx.parentHashes) && pool.existsTxid p

def isLinked (pool : CTxMemPool) : Bool :=
  pool.mapTx.keys.all fun k =>
    (pool.parentsOf k).Nodup && (pool.childrenOf k).Nodup &&
    (pool.parentsOf k).all (· ∈ pool.mapTx.keys) && (pool.childrenOf k).all (· ∈ pool.mapTx.keys) &&
    pool.mapTx.keys.all fun p => (decide (p ∈ pool.parentsOf k) == pool.spends k p) &&
      (decide (k ∈ pool.childrenOf p) == pool.spends k p)

def isSummed (pool : CTxMemPool) : Bool :=
  pool.mapTx.entries.all fun s =>
    s.2.withAncestors = ((pool.reached pool.parentsOf s.1).map pool.own).sum &&
    s.2.withDescendants = ((pool.reached pool.childrenOf s.1).map pool.ownBelow).sum

def isIndexed (pool : CTxMemPool) : Bool :=
  (pool.mapTx.entries.all fun s =>
    s.2.tx.hash = s.1 && s.2.tx.prevouts.all fun o => pool.mapNextTx.lookup o = some s.1) &&
  (pool.mapNextTx.entries.all fun s => (pool.find s.2).any fun e => s.1 ∈ e.tx.prevouts) &&
  pool.totalTxSize = (pool.mapTx.keys.map fun k => (pool.find k).elim 0 CTxMemPoolEntry.getTxSize).sum &&
  pool.totalFee = (pool.mapTx.keys.map fun k => (pool.find k).elim 0 CTxMemPoolEntry.nFee).sum

theorem spends_iff : pool.spends k p = true ↔ pool.Spends k p := by
  unfold spends Spends
  rw [Bool.and_eq_true, existsTxid_iff]
  cases pool.find k with
  | none => simp
  | some e => simp

theorem linked_of_isLinked (h : pool.isLinked = true) : Linked pool.Spends pool := by
  unfold isLinked at h
  rw [all_eq_true] at h
  have hkeys : ∀ {x}, x ∈ pool.keys ↔ x ∈ pool.mapTx.keys := mem_toFinset
  have hall : ∀ k ∈ pool.mapTx.keys, ((((pool.parentsOf k).Nodup ∧ (pool.childrenOf k).Nodup) ∧
      ∀ p ∈ pool.parentsOf k, p ∈ pool.mapTx.keys) ∧ ∀ c ∈ pool.childrenOf k, c ∈ pool.mapTx.keys) ∧
        ∀ p ∈ pool.mapTx.keys, decide (p ∈ pool.parentsOf k) = pool.spends k p ∧
          decide (k ∈ pool.childrenOf p) = pool.spends k p := by
    intro k hk
    simpa only [Bool.and_eq_true, all_eq_true, decide_eq_true_eq, beq_iff_eq] using h k hk
  have hparts : ∀ k ∈ pool.mapTx.keys, (∀ p ∈ pool.parentsOf k, p ∈ pool.mapTx.keys) ∧
      (∀ c ∈ pool.childrenOf k, c ∈ pool.mapTx.keys) ∧ ∀ p ∈ pool.mapTx.keys,
        (p ∈ pool.parentsOf k ↔ pool.Spends k p) ∧ (k ∈ pool.childrenOf p ↔ pool.Spends k p) := by
    intro k hk
    obtain ⟨⟨⟨-, hparents⟩, hchildren⟩, hspends⟩ := hall k hk
    refine ⟨hparents, hchildren, fun p hp => ?_⟩
    obtain ⟨hparent, hchild⟩ := hspends p hp
    rw [← spends_iff]
    constructor
    · rw [← hparent, decide_eq_true_eq]
    · rw [← hchild, decide_eq_true_eq]
  have hspends : ∀ {k p}, pool.Spends k p → k ∈ pool.mapTx.keys ∧ p ∈ pool.mapTx.keys := by
    rintro k p ⟨_, hfind, -, hp⟩
    exact ⟨hkeys.mp (mem_keys_of_find hfind), hkeys.mp hp⟩
  constructor
  · intro k p
    constructor
    · intro hp
      have hk := hkeys.mp (mem_keys_of_mem_parentsOf hp)
      exact ((hparts k hk).2.2 p ((hparts k hk).1 p hp)).1.mp hp
    · intro hkp
      obtain ⟨hk, hp⟩ := hspends hkp
      exact ((hparts k hk).2.2 p hp).1.mpr hkp
  · intro k p
    constructor
    · intro hk
      have hp := hkeys.mp (mem_keys_of_mem_childrenOf hk)
      exact ((hparts k ((hparts p hp).2.1 k hk)).2.2 p hp).2.mp hk
    · intro hkp
      obtain ⟨hk, hp⟩ := hspends hkp
      exact ((hparts k hk).2.2 p hp).2.mpr hkp
  · intro k
    by_cases hk : k ∈ pool.keys
    · exact (hall k (hkeys.mp hk)).1.1.1.1
    · rw [parentsOf_of_notMem hk]
      exact nodup_nil
  · intro k
    by_cases hk : k ∈ pool.keys
    · exact (hall k (hkeys.mp hk)).1.1.1.2
    · rw [childrenOf_of_notMem hk]
      exact nodup_nil

theorem mem_reached {next : Uint256 → List Uint256} (hnext : ∀ x ∈ pool.mapTx.keys, ∀ y ∈ next x, y ∈ pool.mapTx.keys)
    (hk : k ∈ pool.mapTx.keys) : (pool.reached next k).Nodup ∧ ∀ x, x ∈ pool.reached next k ↔ Leads next k x := by
  unfold reached
  cases hwalk : walk memoryBytes next (fun (_ : Unit) (_ : Uint256) (_ _ : List Uint256) =>
      (.ok () : Checked Unit)) .endless pool.mapTx.keys.length () [k] [] with
  | ok out =>
    refine ⟨walk_nodup hwalk nodup_nil, fun x => ?_⟩
    rw [mem_walk hwalk (fun a ha => by cases ha)]
    simp
  | error e =>
    obtain ⟨_, _, _, _, _, hvisit⟩ := walk_error hwalk hnext (by simpa using hk) (by simp) nodup_nil
      (nodup_singleton k) (by rw [toFinset_card_of_nodup pool.mapTx.keys_nodup]; exact Nat.le_add_left _ _)
    cases hvisit

theorem ancestors_eq_reached (hlinked : Linked pool.Spends pool) (hk : k ∈ pool.keys) :
    (pool.reached pool.parentsOf k).Nodup ∧
      ancestors pool.Spends pool.keys k = (pool.reached pool.parentsOf k).toFinset := by
  obtain ⟨hnodup, hmem⟩ := mem_reached (fun x _ y hy => hlinked.parentsOf_mem hy) (mem_toFinset.mp hk)
  refine ⟨hnodup, ?_⟩
  ext x
  rw [mem_ancestors, mem_toFinset, hmem, hlinked.leads_parentsOf]
  exact and_iff_right_of_imp fun hreach => hlinked.reaches_mem hreach hk

theorem summed_of_isSummed (hlinked : Linked pool.Spends pool) (h : pool.isSummed = true) :
    Summed pool.Spends pool := by
  unfold isSummed at h
  rw [all_eq_true] at h
  have hkeys : ∀ {x}, x ∈ pool.keys ↔ x ∈ pool.mapTx.keys := mem_toFinset
  have hentry : ∀ {k e}, pool.find k = some e → e.withAncestors = ((pool.reached pool.parentsOf k).map pool.own).sum ∧
      e.withDescendants = ((pool.reached pool.childrenOf k).map pool.ownBelow).sum := by
    intro k e hfind
    have hs := h ⟨k, e⟩ (AList.mem_lookup_iff.mp hfind)
    simpa only [Bool.and_eq_true, decide_eq_true_eq] using hs
  constructor
  · intro k e hfind
    obtain ⟨hnodup, hset⟩ := ancestors_eq_reached hlinked (mem_keys_of_find hfind)
    rw [(hentry hfind).1, hset, sum_toFinset _ hnodup]
  · intro k e hfind
    have hk := mem_keys_of_find hfind
    obtain ⟨hnodup, hmem⟩ := mem_reached (fun x _ y hy => hlinked.childrenOf_mem hy) (hkeys.mp hk)
    have hset : descendants pool.Spends pool.keys k = (pool.reached pool.childrenOf k).toFinset := by
      ext x
      rw [mem_descendants, mem_toFinset, hmem, hlinked.leads_childrenOf]
      exact and_iff_right_of_imp fun hreach => hlinked.mem_of_reaches hreach hk
    rw [(hentry hfind).2, hset, sum_toFinset _ hnodup]

theorem indexed_of_isIndexed (h : pool.isIndexed = true) : Indexed pool := by
  unfold isIndexed at h
  simp only [Bool.and_eq_true, all_eq_true, decide_eq_true_eq] at h
  obtain ⟨⟨⟨hentries, hnext⟩, hsize⟩, hfee⟩ := h
  have hentry : ∀ {k e}, pool.find k = some e → e.tx.hash = k ∧ ∀ o ∈ e.tx.prevouts, pool.mapNextTx.lookup o = some k :=
    fun hfind => hentries ⟨_, _⟩ (AList.mem_lookup_iff.mp hfind)
  refine ⟨fun hfind => (hentry hfind).1, ?_, ?_, ?_⟩
  · intro o k
    constructor
    · intro hlookup
      have hany := hnext ⟨o, k⟩ (AList.mem_lookup_iff.mp hlookup)
      simp only at hany
      cases hfind : pool.find k with
      | none => simp [hfind] at hany
      | some e => exact ⟨e, rfl, by simpa [hfind] using hany⟩
    · rintro ⟨e, hfind, ho⟩
      exact (hentry hfind).2 o ho
  · rw [hsize, keys, sum_toFinset _ pool.mapTx.keys_nodup]
  · rw [hfee, keys, sum_toFinset _ pool.mapTx.keys_nodup]

def isExact (pool : CTxMemPool) : Bool := pool.isLinked && pool.isSummed && pool.isIndexed

theorem exact_of_isExact (h : pool.isExact = true) : Exact pool := by
  unfold isExact at h
  simp only [Bool.and_eq_true] at h
  have hlinked := linked_of_isLinked h.1.1
  exact ⟨hlinked, summed_of_isSummed hlinked h.1.2, indexed_of_isIndexed h.2⟩

def isAcyclic (pool : CTxMemPool) : Bool :=
  pool.mapTx.keys.all fun k => (pool.parentsOf k).all fun p => k ∉ pool.reached pool.parentsOf p

theorem acyclic_of_isAcyclic (hlinked : Linked pool.Spends pool) (h : pool.isAcyclic = true) (k : Uint256) :
    ¬TransGen pool.Spends k k := by
  intro hloop
  obtain ⟨p, hspends, hreach⟩ := TransGen.head'_iff.mp hloop
  have hk := mem_toFinset.mp (hlinked.child_mem hspends)
  have hp := hlinked.parent_mem hspends
  have hmem : k ∈ ancestors pool.Spends pool.keys p := mem_ancestors.mpr ⟨hlinked.child_mem hspends, hreach⟩
  rw [(ancestors_eq_reached hlinked hp).2, mem_toFinset] at hmem
  unfold isAcyclic at h
  rw [all_eq_true] at h
  have hparents := all_eq_true.mp (h k hk) p ((hlinked.parents).mpr hspends)
  exact of_decide_eq_true hparents hmem

end FullNode.Mempool.CTxMemPool

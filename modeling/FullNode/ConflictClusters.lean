import FullNode.FeeDiagrams
import FullNode.MempoolGraph
import Mathlib.Algebra.BigOperators.Pi

/-! # Clusters of conflicts -/

namespace FullNode.Mempool

open FeeDiagrams (add compareChunks sub)
open MiniMiner (FeeFrac)
open Ancestry Finset
open Relation

/-! ## The code -/

def CTxMemPool.deref (pool : CTxMemPool) (k : Uint256) : Checked CTxMemPoolEntry :=
  match pool.find k with
  | none => .error .badIterator
  | some e => .ok e

def CTxMemPool.derefFirst (pool : CTxMemPool) : List Uint256 → Checked CTxMemPoolEntry
  | [] => .error .badIterator
  | k :: _ => pool.deref k

/-- A conflict in the loop of `CheckConflictTopology`. -/
def CTxMemPool.checkConflict (pool : CTxMemPool) (direct_conflict : Uint256) : Checked (Option String) := do
  let e ← pool.deref direct_conflict
  let ancestor_count := e.countWithAncestors
  let descendant_count := e.countWithDescendants
  let txid_string := e.tx.hash.toHex
  if ancestor_count > 2 then return some (txid_string ++ " has " ++ toString (ancestor_count - 1) ++
    " ancestors, max 1 allowed")
  else if descendant_count > 2 then
    return some (txid_string ++ " has " ++ toString (descendant_count - 1) ++ " descendants, max 1 allowed")
  else if ancestor_count > 1 ∧ descendant_count > 1 then
    return some (txid_string ++ " has both ancestor and descendant, exceeding cluster limit of 2")
  else if descendant_count > 1 then do
    let our_child ← pool.derefFirst e.children
    if our_child.countWithAncestors > 2 then
      return some (txid_string ++ " is not the only parent of child " ++ our_child.tx.hash.toHex)
    else return none
  else if ancestor_count > 1 then do
    let our_parent ← pool.derefFirst e.parents
    if our_parent.countWithDescendants > 2 then
      return some (txid_string ++ " is not the only child of parent " ++ our_parent.tx.hash.toHex)
    else return none
  else return none

def CTxMemPool.checkConflictTopology (pool : CTxMemPool) : List Uint256 → Checked (Option String)
  | [] => .ok none
  | direct_conflict :: direct_conflicts => do
    match ← pool.checkConflict direct_conflict with
    | some error => return some error
    | none => pool.checkConflictTopology direct_conflicts

/-- The staged entries as added, and the conflicts by hash. -/
structure ChangeSet where
  entries : List CTxMemPoolEntry
  m_to_remove : List Uint256

def entryFrac (e : CTxMemPoolEntry) : FeeFrac := ⟨e.modifiedFee, e.getTxSize⟩

def sumFracs (fracs : List FeeFrac) : FeeFrac := fracs.foldl add ⟨0, 0⟩

/-- `individual >> package`. -/
def higherFeerate (a b : FeeFrac) : Bool := a.fee * b.size > b.fee * a.size

def oldChunks (e : CTxMemPoolEntry) : List FeeFrac :=
  if e.countWithDescendants > 1 then []
  else
    let individual := entryFrac e
    if e.countWithAncestors > 1 then
      let package : FeeFrac := ⟨e.modFeesWithAncestors, int32 e.sizeWithAncestors⟩
      if higherFeerate individual package then [package] else [sub package individual, individual]
    else [individual]

def CTxMemPool.survivor (pool : CTxMemPool) (m_to_remove : List Uint256)
    (e : CTxMemPoolEntry) : Checked (List FeeFrac) :=
  match e.parents with
  | [] => .ok []
  | parent :: _ =>
    if parent ∈ m_to_remove then .ok []
    else do
      let parent ← pool.deref parent
      return [entryFrac parent]

def CTxMemPool.chunksOf (pool : CTxMemPool) (chunks : CTxMemPoolEntry → Checked (List FeeFrac)) :
    List Uint256 → Checked (List FeeFrac)
  | [] => .ok []
  | k :: ks => do
    let e ← pool.deref k
    let first ← chunks e
    let rest ← pool.chunksOf chunks ks
    return first ++ rest

/-- `std::greater`, with equal elements in any order. -/
def notWorse (a b : FeeFrac) : Prop := a.lt b = false

instance : DecidableRel notWorse := fun a b => inferInstanceAs (Decidable (a.lt b = false))

def CTxMemPool.calculateChunksForRBF (pool : CTxMemPool)
    (changes : ChangeSet) : Checked (Except String (List FeeFrac × List FeeFrac)) := do
  let replacement_feerate := sumFracs (changes.entries.map entryFrac)
  match ← pool.checkConflictTopology changes.m_to_remove with
  | some err_string => return .error err_string
  | none => do
    let old_chunks ← pool.chunksOf (fun e => .ok (oldChunks e)) changes.m_to_remove
    let new_chunks ← pool.chunksOf (pool.survivor changes.m_to_remove) changes.m_to_remove
    return .ok (old_chunks.insertionSort notWorse, (new_chunks ++ [replacement_feerate]).insertionSort notWorse)

inductive DiagramCheckError where
  | uncalculable
  | failure
  deriving DecidableEq

def CTxMemPool.improvesFeerateDiagram (pool : CTxMemPool)
    (changes : ChangeSet) : Checked (Option (DiagramCheckError × String)) := do
  match ← pool.calculateChunksForRBF changes with
  | .error error => return some (.uncalculable, error)
  | .ok (old_chunks, new_chunks) =>
    if compareChunks new_chunks old_chunks = .greater then return none
    else return some (.failure, "insufficient feerate: does not improve feerate diagram")

/-! ## Small clusters -/

namespace CTxMemPool

variable {pool : CTxMemPool} {k p c x : Uint256} {e : CTxMemPoolEntry} {removed : List Uint256}

structure Alone (pool : CTxMemPool) (k : Uint256) : Prop where
  above : ∀ x, ¬ pool.Spends k x
  below : ∀ x, ¬ pool.Spends x k

structure Pair (pool : CTxMemPool) (p c : Uint256) : Prop where
  spends : pool.Spends c p
  ne : p ≠ c
  onlyParent : ∀ x, pool.Spends c x → x = p
  onlyChild : ∀ x, pool.Spends x p → x = c
  above : ∀ x, ¬ pool.Spends p x
  below : ∀ x, ¬ pool.Spends x c

theorem deref_ok (h : pool.find k = some e) : pool.deref k = .ok e := by
  unfold deref
  rw [h]

theorem derefFirst_spec {ks : List Uint256} (h : pool.derefFirst ks = .ok e) : ∃ k ∈ ks, pool.find k = some e := by
  cases ks with
  | nil => cases h
  | cons k ks =>
    refine ⟨k, List.mem_cons_self, ?_⟩
    unfold derefFirst deref at h
    dsimp only at h
    split at h
    · cases h
    · next e' hfind => rw [hfind, Except.ok.inj h]

theorem withAncestors_count (e : CTxMemPoolEntry) : e.withAncestors.1 = e.countWithAncestors := rfl

theorem own_count (h : k ∈ pool.keys) : (pool.own k).1 = 1 := by
  obtain ⟨_, he⟩ := mem_keys.mp h
  unfold own
  rw [he]
  rfl

theorem ownBelow_count (h : k ∈ pool.keys) : (pool.ownBelow k).1 = 1 := by
  obtain ⟨_, he⟩ := mem_keys.mp h
  unfold ownBelow
  rw [he]
  rfl

theorem countWithAncestors_eq (h : pool.Exact) (he : pool.find k = some e) :
    e.countWithAncestors = (ancestors pool.Spends pool.keys k).card := by
  have hsum := congrArg Prod.fst (h.summed.ancestors he)
  rw [withAncestors_count, Prod.fst_sum, sum_congr rfl fun a ha => own_count (mem_ancestors.mp ha).1] at hsum
  rw [hsum]
  simp

theorem countWithDescendants_eq (h : pool.Exact) (he : pool.find k = some e) :
    e.countWithDescendants = (descendants pool.Spends pool.keys k).card := by
  have hsum := congrArg Prod.fst (h.summed.descendants he)
  rw [Prod.fst_sum, sum_congr rfl fun a ha => ownBelow_count (mem_descendants.mp ha).1] at hsum
  rw [show e.countWithDescendants = e.withDescendants.1 from rfl, hsum]
  simp

structure Sound (pool : CTxMemPool) : Prop where
  exact : pool.Exact
  acyclic : ∀ k, ¬ TransGen pool.Spends k k

theorem self_mem_ancestors (hk : k ∈ pool.keys) : k ∈ ancestors pool.Spends pool.keys k := mem_ancestors.mpr ⟨hk, .refl⟩

theorem self_mem_descendants (hk : k ∈ pool.keys) : k ∈ descendants pool.Spends pool.keys k :=
  mem_descendants.mpr ⟨hk, .refl⟩

variable (hsound : Sound pool)
include hsound

theorem spends_ne (h : pool.Spends k p) : p ≠ k := by
  rintro rfl
  exact hsound.acyclic p (.single h)

theorem mem_of_spends (h : pool.Spends k p) : k ∈ pool.keys ∧ p ∈ pool.keys :=
  ⟨hsound.exact.linked.child_mem h, hsound.exact.linked.parent_mem h⟩

theorem parent_mem_ancestors (h : pool.Spends k p) : p ∈ ancestors pool.Spends pool.keys k :=
  mem_ancestors.mpr ⟨(mem_of_spends hsound h).2, .single h⟩

theorem child_mem_descendants (h : pool.Spends c k) : c ∈ descendants pool.Spends pool.keys k :=
  mem_descendants.mpr ⟨(mem_of_spends hsound h).1, .single h⟩

theorem noParents (hk : k ∈ pool.keys) (hcard : (ancestors pool.Spends pool.keys k).card ≤ 1) (x : Uint256) :
    ¬ pool.Spends k x := by
  intro h
  exact spends_ne hsound h (card_le_one.mp hcard x (parent_mem_ancestors hsound h) k (self_mem_ancestors hk))

theorem noChildren (hk : k ∈ pool.keys) (hcard : (descendants pool.Spends pool.keys k).card ≤ 1) (x : Uint256) :
    ¬ pool.Spends x k := by
  intro h
  exact spends_ne hsound h (card_le_one.mp hcard k (self_mem_descendants hk) x (child_mem_descendants hsound h))

theorem ancestors_pair (h : pool.Spends k p) (hcard : (ancestors pool.Spends pool.keys k).card ≤ 2) :
    ancestors pool.Spends pool.keys k = {p, k} := by
  have hmem := mem_of_spends hsound h
  symm
  apply eq_of_subset_of_card_le
  · intro x hx
    rcases mem_insert.mp hx with rfl | hx
    · exact parent_mem_ancestors hsound h
    · rw [mem_singleton.mp hx]
      exact self_mem_ancestors hmem.1
  · rw [card_pair (spends_ne hsound h)]
    exact hcard

theorem descendants_pair (h : pool.Spends c k) (hcard : (descendants pool.Spends pool.keys k).card ≤ 2) :
    descendants pool.Spends pool.keys k = {k, c} := by
  have hmem := mem_of_spends hsound h
  symm
  apply eq_of_subset_of_card_le
  · intro x hx
    rcases mem_insert.mp hx with rfl | hx
    · exact self_mem_descendants hmem.2
    · rw [mem_singleton.mp hx]
      exact child_mem_descendants hsound h
  · rw [card_pair (spends_ne hsound h)]
    exact hcard

theorem pair_of_counts (h : pool.Spends c p) (habove : (ancestors pool.Spends pool.keys c).card ≤ 2)
    (hbelow : (descendants pool.Spends pool.keys p).card ≤ 2) : Pair pool p c := by
  have hancestors := ancestors_pair hsound h habove
  have hdescendants := descendants_pair hsound h hbelow
  have hup : ∀ x, x ∈ pool.keys → ReflTransGen pool.Spends c x → x = p ∨ x = c := by
    intro x hx hreach
    have hmem : x ∈ ancestors pool.Spends pool.keys c := mem_ancestors.mpr ⟨hx, hreach⟩
    rw [hancestors] at hmem
    simpa using hmem
  have hdown : ∀ x, x ∈ pool.keys → ReflTransGen pool.Spends x p → x = p ∨ x = c := by
    intro x hx hreach
    have hmem : x ∈ descendants pool.Spends pool.keys p := mem_descendants.mpr ⟨hx, hreach⟩
    rw [hdescendants] at hmem
    simpa using hmem
  refine ⟨h, spends_ne hsound h, ?_, ?_, ?_, ?_⟩
  · intro x hx
    exact (hup x (mem_of_spends hsound hx).2 (.single hx)).resolve_right (spends_ne hsound hx)
  · intro x hx
    exact (hdown x (mem_of_spends hsound hx).1 (.single hx)).resolve_left (spends_ne hsound hx).symm
  · intro x hx
    rcases hup x (mem_of_spends hsound hx).2 (.head h (.single hx)) with rfl | rfl
    · exact spends_ne hsound hx rfl
    · exact hsound.acyclic x (.head h (.single hx))
  · intro x hx
    rcases hdown x (mem_of_spends hsound hx).1 (.head hx (.single h)) with rfl | rfl
    · exact hsound.acyclic x (.head hx (.single h))
    · exact spends_ne hsound hx rfl

theorem checkConflict_none (he : pool.find k = some e) (h : pool.checkConflict k = .ok none) :
    (Alone pool k ∧ e.countWithAncestors = 1 ∧ e.countWithDescendants = 1) ∨
      (∃ p, Pair pool p k ∧ e.countWithAncestors = 2 ∧ e.countWithDescendants = 1) ∨
        ∃ c, Pair pool k c ∧ e.countWithDescendants = 2 := by
  have hk := mem_keys_of_find he
  have hancestors := countWithAncestors_eq hsound.exact he
  have hdescendants := countWithDescendants_eq hsound.exact he
  have hpos : 0 < (ancestors pool.Spends pool.keys k).card := card_pos.mpr ⟨k, self_mem_ancestors hk⟩
  have hpos' : 0 < (descendants pool.Spends pool.keys k).card := card_pos.mpr ⟨k, self_mem_descendants hk⟩
  unfold checkConflict at h
  rw [deref_ok he, ok_bind] at h
  dsimp only at h
  split at h
  · cases h
  next hfew =>
  split at h
  · cases h
  next hfew' =>
  split at h
  · cases h
  next hnotBoth =>
  split at h
  · next hchildren =>
    obtain ⟨our_child, hfirst, hcount⟩ : ∃ our_child, pool.derefFirst e.children = .ok our_child ∧
        ¬ our_child.countWithAncestors > 2 := by
      obtain ⟨our_child, hfirst, hrest⟩ := bind_ok.mp h
      refine ⟨our_child, hfirst, fun hmany => ?_⟩
      rw [if_pos hmany] at hrest
      cases hrest
    obtain ⟨c, hc, hfind⟩ := derefFirst_spec hfirst
    rw [← childrenOf_eq he] at hc
    have hspends := hsound.exact.linked.children.mp hc
    have hcard := countWithAncestors_eq hsound.exact hfind
    exact .inr (.inr ⟨c, pair_of_counts hsound hspends (by omega) (by omega), by omega⟩)
  · split at h
    · obtain ⟨our_parent, hfirst, hcount⟩ : ∃ our_parent, pool.derefFirst e.parents = .ok our_parent ∧
          ¬ our_parent.countWithDescendants > 2 := by
        obtain ⟨our_parent, hfirst, hrest⟩ := bind_ok.mp h
        refine ⟨our_parent, hfirst, fun hmany => ?_⟩
        rw [if_pos hmany] at hrest
        cases hrest
      obtain ⟨p, hp, hfind⟩ := derefFirst_spec hfirst
      rw [← parentsOf_eq he] at hp
      have hspends := hsound.exact.linked.parents.mp hp
      have hcard := countWithDescendants_eq hsound.exact hfind
      exact .inr (.inl ⟨p, pair_of_counts hsound hspends (by omega) (by omega), by omega, by omega⟩)
    · exact .inl ⟨⟨noParents hsound hk (by omega), noChildren hsound hk (by omega)⟩, by omega, by omega⟩

end CTxMemPool

end FullNode.Mempool

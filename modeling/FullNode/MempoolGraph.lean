import FullNode.Mempool

/-! # The graph of spends -/

namespace FullNode.Mempool.CTxMemPool

open OrderedIndex Worklist Ancestry List Limits
open TxRequest (memoryBytes)
open Relation

def Spends (pool : CTxMemPool) (k p : Uint256) : Prop :=
  ∃ e, pool.find k = some e ∧ p ∈ e.tx.parentHashes ∧ p ∈ pool.keys

def AncestorOf (pool : CTxMemPool) (tx : CTransaction) (a : Uint256) : Prop :=
  ∃ p ∈ tx.parentHashes, p ∈ pool.keys ∧ ReflTransGen pool.Spends p a

/-- The sets of parents and children are the edges of `E`. -/
structure Linked (E : Uint256 → Uint256 → Prop) (pool : CTxMemPool) : Prop where
  parents : ∀ {k p}, p ∈ pool.parentsOf k ↔ E k p
  children : ∀ {k p}, k ∈ pool.childrenOf p ↔ E k p
  parents_nodup : ∀ k, (pool.parentsOf k).Nodup
  children_nodup : ∀ k, (pool.childrenOf k).Nodup

def own (pool : CTxMemPool) (k : Uint256) : Int × Int × Int × Int := (pool.find k).elim 0 CTxMemPoolEntry.own
def ownBelow (pool : CTxMemPool) (k : Uint256) : Int × Int × Int := (pool.find k).elim 0 CTxMemPoolEntry.ownBelow

/-- The sums of every entry are over its relatives in `E`. -/
structure Summed (E : Uint256 → Uint256 → Prop) (pool : CTxMemPool) : Prop where
  ancestors : ∀ {k e}, pool.find k = some e → e.withAncestors = ∑ a ∈ ancestors E pool.keys k, pool.own a
  descendants : ∀ {k e}, pool.find k = some e → e.withDescendants = ∑ d ∈ descendants E pool.keys k, pool.ownBelow d

structure Indexed (pool : CTxMemPool) : Prop where
  hash : ∀ {k e}, pool.find k = some e → e.tx.hash = k
  nextTx : ∀ {o k}, pool.mapNextTx.lookup o = some k ↔ ∃ e, pool.find k = some e ∧ o ∈ e.tx.prevouts
  totalTxSize : pool.totalTxSize = ∑ k ∈ pool.keys, (pool.find k).elim 0 CTxMemPoolEntry.getTxSize
  totalFee : pool.totalFee = ∑ k ∈ pool.keys, (pool.find k).elim 0 CTxMemPoolEntry.nFee

structure Exact (pool : CTxMemPool) : Prop where
  linked : Linked pool.Spends pool
  summed : Summed pool.Spends pool
  indexed : Indexed pool

variable {pool : CTxMemPool} {E : Uint256 → Uint256 → Prop} {k p x : Uint256} {its set out staged : List Uint256}

/-! ## Keys -/

theorem mem_keys : k ∈ pool.keys ↔ ∃ e, pool.find k = some e := by
  unfold keys find
  rw [mem_toFinset, ← AList.mem_keys, ← AList.lookup_isSome, Option.isSome_iff_exists]

variable {e entry : CTxMemPoolEntry} {limits : Limits} {vin : List CTxIn} {entryCount : Nat} {ancestors : List Uint256}

theorem mem_keys_of_find (h : pool.find k = some e) : k ∈ pool.keys := mem_keys.mpr ⟨e, h⟩

theorem keys_length : pool.keys.card = pool.mapTx.keys.length := toFinset_card_of_nodup pool.mapTx.nodupKeys

theorem parentsOf_eq (h : pool.find k = some e) : pool.parentsOf k = e.parents := by
  simp [parentsOf, h]

theorem childrenOf_eq (h : pool.find k = some e) : pool.childrenOf k = e.children := by
  simp [childrenOf, h]

theorem find_of_notMem (h : k ∉ pool.keys) : pool.find k = none := by
  rw [mem_keys] at h
  exact Option.eq_none_iff_forall_ne_some.mpr fun e he => h ⟨e, he⟩

theorem parentsOf_of_notMem (h : k ∉ pool.keys) : pool.parentsOf k = [] := by
  simp [parentsOf, find_of_notMem h]

theorem childrenOf_of_notMem (h : k ∉ pool.keys) : pool.childrenOf k = [] := by
  simp [childrenOf, find_of_notMem h]

theorem mem_keys_of_mem_parentsOf (h : p ∈ pool.parentsOf k) : k ∈ pool.keys := by
  by_contra hk
  simp [parentsOf_of_notMem hk] at h

theorem mem_keys_of_mem_childrenOf (h : k ∈ pool.childrenOf p) : p ∈ pool.keys := by
  by_contra hp
  simp [childrenOf_of_notMem hp] at h

theorem getIter_eq_some : pool.getIter k = some x ↔ x = k ∧ k ∈ pool.keys := by
  unfold getIter
  rw [mem_keys]
  cases pool.find k with
  | none => simp
  | some e => simp [eq_comm]

theorem existsTxid_iff : pool.existsTxid k = true ↔ k ∈ pool.keys := by
  unfold existsTxid
  rw [mem_keys, Option.isSome_iff_exists]

theorem calculateDescendants_nodup (h : pool.calculateDescendants k set = .ok out) (hset : set.Nodup) : out.Nodup :=
  walk_nodup h hset

theorem calculateAllDescendants_nodup (h : pool.calculateAllDescendants its set = .ok out) (hset : set.Nodup) :
    out.Nodup := by
  induction its generalizing set with
  | nil =>
    cases h
    exact hset
  | cons k its ih =>
    unfold calculateAllDescendants at h
    obtain ⟨_, hfirst, hrest⟩ := bind_ok.mp h
    exact ih hrest (calculateDescendants_nodup hfirst hset)

theorem mem_calculateAllDescendants (h : pool.calculateAllDescendants its set = .ok out) (hx : x ∈ its ∨ x ∈ set) :
    x ∈ out := by
  induction its generalizing set with
  | nil =>
    cases h
    exact hx.resolve_left not_mem_nil
  | cons k its ih =>
    unfold calculateAllDescendants at h
    obtain ⟨all, hfirst, hrest⟩ := bind_ok.mp h
    unfold calculateDescendants at hfirst
    have hkept : x ∈ set → x ∈ all := fun hx => mem_walk_of_mem hfirst (.inr hx)
    rcases hx with hx | hx
    · rcases mem_cons.mp hx with rfl | hx
      · apply ih hrest
        by_cases hin : x ∈ set
        · exact .inr (hkept hin)
        · rw [if_neg hin] at hfirst
          exact .inr (mem_walk_of_mem hfirst (.inl mem_cons_self))
      · exact ih hrest (.inl hx)
    · exact ih hrest (.inr (hkept hx))

namespace Linked

variable (hlinked : Linked E pool)
include hlinked

theorem child_mem (h : E k p) : k ∈ pool.keys := mem_keys_of_mem_parentsOf (hlinked.parents.mpr h)

theorem parent_mem (h : E k p) : p ∈ pool.keys := mem_keys_of_mem_childrenOf (hlinked.children.mpr h)

theorem reaches_mem (h : ReflTransGen E k p) (hk : k ∈ pool.keys) : p ∈ pool.keys := by
  rcases ReflTransGen.cases_tail h with rfl | ⟨_, -, hlast⟩
  · exact hk
  · exact hlinked.parent_mem hlast

theorem mem_of_reaches (h : ReflTransGen E k p) (hp : p ∈ pool.keys) : k ∈ pool.keys := by
  rcases ReflTransGen.cases_head h with rfl | ⟨_, hfirst, -⟩
  · exact hp
  · exact hlinked.child_mem hfirst

theorem leads_parentsOf : Leads pool.parentsOf k p ↔ ReflTransGen E k p := by
  have hrel : (fun x y => y ∈ pool.parentsOf x) = E := by
    funext x y
    exact propext hlinked.parents
  unfold Leads
  rw [hrel]

theorem leads_childrenOf : Leads pool.childrenOf p k ↔ ReflTransGen E k p := by
  have hrel : (fun x y => y ∈ pool.childrenOf x) = Function.swap E := by
    funext x y
    exact propext hlinked.children
  unfold Leads
  rw [hrel, reflTransGen_swap]

theorem childrenOf_mem (h : k ∈ pool.childrenOf p) : k ∈ pool.mapTx.keys :=
  mem_toFinset.mp (hlinked.child_mem (hlinked.children.mp h))

theorem parentsOf_mem (h : p ∈ pool.parentsOf k) : p ∈ pool.mapTx.keys :=
  mem_toFinset.mp (hlinked.parent_mem (hlinked.parents.mp h))

/-! ## Descendants -/

theorem calculateDescendants_spec (hset : ∀ a ∈ set, ∀ b, E b a → b ∈ set)
    (h : pool.calculateDescendants k set = .ok out) : x ∈ out ↔ x ∈ set ∨ ReflTransGen E x k := by
  unfold calculateDescendants at h
  have hcovered : Covered pool.childrenOf set (if k ∈ set then [] else [k]) := by
    intro a ha b hb
    exact .inl (hset a ha b (hlinked.children.mp hb))
  rw [mem_walk h hcovered]
  split
  · next hk =>
    constructor
    · rintro (hx | ⟨_, hy, -⟩)
      · exact .inl hx
      · cases hy
    · rintro (hx | hx)
      · exact .inl hx
      · -- everything below `k` is in the set with it
        left
        induction hx using ReflTransGen.head_induction_on with
        | refl => exact hk
        | head hstep hrest ih => exact hset _ ih _ hstep
  · simp [hlinked.leads_childrenOf]

theorem calculateDescendants_ok (hk : k ∈ pool.keys) (hset : ∀ a ∈ set, a ∈ pool.keys) (hnodup : set.Nodup) :
    ∃ out, pool.calculateDescendants k set = .ok out := by
  unfold calculateDescendants
  cases hwalk : walk memoryBytes pool.childrenOf pool.visitDescendant .endless pool.mapTx.keys.length ()
      (if k ∈ set then [] else [k]) set with
  | ok out => exact ⟨out, rfl⟩
  | error e =>
    have hstage : ∀ x ∈ (if k ∈ set then [] else [k]), x ∈ pool.mapTx.keys ∧ x ∉ set := by
      intro x hx
      split at hx
      · cases hx
      · next hnot =>
        rw [mem_singleton] at hx
        subst hx
        exact ⟨mem_toFinset.mp hk, hnot⟩
    have hstageNodup : (if k ∈ set then [] else [k]).Nodup := by
      split <;> simp
    obtain ⟨_, x, hx, _, _, hvisit⟩ :=
        walk_error hwalk (U := pool.mapTx.keys) (fun x _ y hy => hlinked.childrenOf_mem hy) hstage
      (fun x hx => mem_toFinset.mp (hset x hx)) hnodup hstageNodup (by rw [← keys_length]; exact Nat.le_add_left _ _)
    unfold visitDescendant at hvisit
    rw [if_pos (existsTxid_iff.mpr (mem_toFinset.mpr hx))] at hvisit
    cases hvisit

theorem calculateAllDescendants_spec (hset : ∀ a ∈ set, ∀ b, E b a → b ∈ set)
    (h : pool.calculateAllDescendants its set = .ok out) : x ∈ out ↔ x ∈ set ∨ ∃ k ∈ its, ReflTransGen E x k := by
  induction its generalizing set with
  | nil =>
    cases h
    simp
  | cons k its ih =>
    unfold calculateAllDescendants at h
    obtain ⟨all, hfirst, hrest⟩ := bind_ok.mp h
    have hall : ∀ y, y ∈ all ↔ y ∈ set ∨ ReflTransGen E y k := fun y => hlinked.calculateDescendants_spec hset hfirst
    rw [ih _ hrest, hall, or_assoc]
    · simp only [mem_cons, exists_eq_or_imp]
    intro a ha b hb
    rw [hall] at ha ⊢
    rcases ha with ha | ha
    · exact .inl (hset a ha b hb)
    · exact .inr (.head hb ha)

/-! ## Ancestors -/

theorem calculateAncestorsAndCheckLimits_spec {entrySize : Int} {entryCount : Nat} {limits : Limits}
    (h : pool.calculateAncestorsAndCheckLimits entrySize entryCount staged limits = .ok out) :
    x ∈ out ↔ ∃ p ∈ staged, ReflTransGen E p x := by
  unfold calculateAncestorsAndCheckLimits at h
  rw [mem_walk h (fun a ha => by cases ha)]
  simp [hlinked.leads_parentsOf]

end Linked

theorem stageParents_spec (h : pool.stageParents limits vin staged = .ok out) :
    x ∈ out ↔ x ∈ staged ∨ x ∈ vin.map (fun txin => txin.prevout.hash) ∧ x ∈ pool.keys := by
  induction vin generalizing staged with
  | nil =>
    cases h
    simp
  | cons txin vin ih =>
    unfold stageParents at h
    rw [map_cons, mem_cons]
    cases hiter : pool.getIter txin.prevout.hash with
    | none =>
      rw [hiter] at h
      rw [ih h]
      have hnot : txin.prevout.hash ∉ pool.keys := by
        intro hmem
        rw [getIter_eq_some.mpr ⟨rfl, hmem⟩] at hiter
        cases hiter
      constructor
      · rintro (hx | ⟨hx, hkey⟩)
        · exact .inl hx
        · exact .inr ⟨.inr hx, hkey⟩
      · rintro (hx | ⟨rfl | hx, hkey⟩)
        · exact .inl hx
        · exact absurd hkey hnot
        · exact .inr ⟨hx, hkey⟩
    | some piter =>
      simp only [hiter] at h
      obtain ⟨rfl, hkey⟩ := getIter_eq_some.mp hiter
      split at h
      · cases h
      · rw [ih h, mem_insertNew]
        constructor
        · rintro ((rfl | hx) | ⟨hx, hx'⟩)
          · exact .inr ⟨.inl rfl, hkey⟩
          · exact .inl hx
          · exact .inr ⟨.inr hx, hx'⟩
        · rintro (hx | ⟨rfl | hx, hx'⟩)
          · exact .inl (.inr hx)
          · exact .inl (.inl rfl)
          · exact .inr ⟨hx, hx'⟩

/-! ## No limits -/

@[simp] theorem checkStaged_noLimits
    {parents : List Uint256} : checkStaged noLimits entryCount ancestors parents staged = .ok () := by
  induction parents generalizing staged with
  | nil => rfl
  | cons parent parents ih =>
    unfold checkStaged
    simp [noLimits] at ih ⊢
    exact ih

theorem visitAncestor_noLimits {entrySize total : Int} (h : pool.find k = some e) :
    pool.visitAncestor noLimits entrySize entryCount total k staged ancestors = .ok (total + e.getTxSize) := by
  unfold visitAncestor
  simp only [h]
  rw [checkStaged_noLimits]
  rfl

theorem stageParents_noLimits (h : pool.stageParents limits vin staged = .ok out) :
    pool.stageParents noLimits vin staged = .ok out := by
  induction vin generalizing staged with
  | nil => exact h
  | cons txin vin ih =>
    unfold stageParents at h ⊢
    cases hiter : pool.getIter txin.prevout.hash with
    | none =>
      simp only [hiter] at h ⊢
      exact ih h
    | some piter =>
      simp only [hiter] at h ⊢
      split at h
      · cases h
      · exact ih h

theorem calculateMemPoolAncestors_noLimits (h : pool.calculateMemPoolAncestors entry limits = .ok out) :
    pool.calculateMemPoolAncestors entry noLimits = .ok out := by
  unfold calculateMemPoolAncestors at h ⊢
  obtain ⟨_, hstaged, hwalk⟩ := bind_ok.mp h
  rw [stageParents_noLimits hstaged, ok_bind]
  unfold calculateAncestorsAndCheckLimits at hwalk ⊢
  refine walk_of_visits (fun s s' t x stage done hvisit => ?_) hwalk
  unfold visitAncestor at hvisit
  cases hfind : pool.find x with
  | none =>
    rw [hfind] at hvisit
    cases hvisit
  | some e => exact ⟨_, visitAncestor_noLimits hfind⟩

theorem Linked.calculateAncestors_noLimits (hlinked : Linked E pool) {entrySize : Int}
    (hstaged : ∀ p ∈ staged, p ∈ pool.keys) (hnodup : staged.Nodup) :
    ∃ out, pool.calculateAncestorsAndCheckLimits entrySize entryCount staged noLimits = .ok out ∧ out.Nodup := by
  unfold calculateAncestorsAndCheckLimits
  cases hwalk : walk memoryBytes pool.parentsOf (pool.visitAncestor noLimits entrySize entryCount) (.fault .endless)
      pool.mapTx.keys.length entrySize staged [] with
  | ok out => exact ⟨out, rfl, walk_nodup hwalk nodup_nil⟩
  | error e =>
    obtain ⟨_, x, hx, _, _, hvisit⟩ :=
        walk_error hwalk (U := pool.mapTx.keys) (fun x _ y hy => hlinked.parentsOf_mem hy)
      (fun x hx => ⟨mem_toFinset.mp (hstaged x hx), not_mem_nil⟩) (by simp) nodup_nil hnodup
      (by rw [← keys_length]; exact Nat.le_add_left _ _)
    obtain ⟨e, hfind⟩ := mem_keys.mp (mem_toFinset.mpr hx)
    rw [visitAncestor_noLimits hfind] at hvisit
    cases hvisit

theorem Linked.linkedAncestors_spec (hlinked : Linked E pool) (hfind : pool.find k = some e) :
    ∃ out, pool.linkedAncestors e = .ok out ∧ out.Nodup ∧ ∀ x, x ∈ out ↔ TransGen E k x := by
  have hparents : ∀ p, p ∈ e.parents ↔ E k p := by
    intro p
    rw [← parentsOf_eq hfind]
    exact hlinked.parents
  have hnodup : e.parents.Nodup := by
    rw [← parentsOf_eq hfind]
    exact hlinked.parents_nodup k
  obtain ⟨out, hwalk, hout⟩ :
      ∃ out, pool.calculateAncestorsAndCheckLimits e.getTxSize 1 e.parents noLimits = .ok out ∧ out.Nodup :=
    hlinked.calculateAncestors_noLimits (fun p hp => hlinked.parent_mem ((hparents p).mp hp)) hnodup
  refine ⟨out, ?_, hout, fun x => ?_⟩
  · unfold linkedAncestors
    rw [hwalk]
  · rw [hlinked.calculateAncestorsAndCheckLimits_spec hwalk, TransGen.head'_iff]
    constructor
    · rintro ⟨p, hp, hx⟩
      exact ⟨p, (hparents p).mp hp, hx⟩
    · rintro ⟨p, hp, hx⟩
      exact ⟨p, (hparents p).mpr hp, hx⟩

theorem Linked.calculateMemPoolAncestors_spec (hlinked : Linked E pool)
    (h : pool.calculateMemPoolAncestors entry limits = .ok out) :
    x ∈ out ↔ ∃ p ∈ entry.tx.parentHashes, p ∈ pool.keys ∧ ReflTransGen E p x := by
  unfold calculateMemPoolAncestors at h
  obtain ⟨_, hstaged, hwalk⟩ := bind_ok.mp h
  rw [hlinked.calculateAncestorsAndCheckLimits_spec hwalk]
  constructor
  · rintro ⟨p, hp, hx⟩
    rcases (stageParents_spec hstaged).mp hp with hp | ⟨hp, hkey⟩
    · cases hp
    · exact ⟨p, hp, hkey, hx⟩
  · rintro ⟨p, hp, hkey, hx⟩
    exact ⟨p, (stageParents_spec hstaged).mpr (.inr ⟨hp, hkey⟩), hx⟩

end FullNode.Mempool.CTxMemPool

import FullNode.MempoolEntering
import FullNode.Lib.Loop

/-! # Links of entries -/

namespace FullNode.Mempool

open OrderedIndex List CTxMemPoolEntry
open TxRequest (memoryBytes)

def CTxMemPoolEntry.placed (idx : Nat) (e : CTxMemPoolEntry) : CTxMemPoolEntry := { e with idxRandomized := idx }

def CTxMemPoolEntry.core (e : CTxMemPoolEntry) : CTxMemPoolEntry × Nat := (e.bare, e.idxRandomized)

namespace CTxMemPool

variable {pool pool' pool1 pool2 : CTxMemPool} {k p x : Uint256} {e e' : CTxMemPoolEntry}
  {f : CTxMemPoolEntry → Checked CTxMemPoolEntry} {ks set stage : List Uint256} {P C E : Uint256 → Uint256 → Prop}

/-! ## Usage -/

def totalUsage (pool : CTxMemPool) : Int := ∑ k ∈ pool.keys, (pool.find k).elim 0 entryUsage

theorem keys_insert_of_find (he : pool.find k = some e) (e' : CTxMemPoolEntry) (saturated : Bool) :
    ({ pool with mapTx := pool.mapTx.insert k e', saturated } : CTxMemPool).keys = pool.keys := by
  ext j
  rw [mem_keys, mem_keys, find_insert]
  split
  · next hj => exact iff_of_true ⟨e', rfl⟩ ⟨e, hj ▸ he⟩
  · rfl

theorem totalUsage_insert (he : pool.find k = some e) (e' : CTxMemPoolEntry) (saturated : Bool) :
    ({ pool with mapTx := pool.mapTx.insert k e', saturated } : CTxMemPool).totalUsage =
      pool.totalUsage + (entryUsage e' - entryUsage e) := by
  have hk := mem_keys_of_find he
  have hothers : ∑ j ∈ pool.keys.erase k,
      (({ pool with mapTx := pool.mapTx.insert k e', saturated } : CTxMemPool).find j).elim 0 entryUsage =
      ∑ j ∈ pool.keys.erase k, (pool.find j).elim 0 entryUsage := by
    apply Finset.sum_congr rfl
    intro j hj
    rw [find_insert, if_neg (Finset.ne_of_mem_erase hj)]
  unfold totalUsage
  rw [keys_insert_of_find he, ← Finset.add_sum_erase _ _ hk, ← Finset.add_sum_erase
    (f := fun j => (pool.find j).elim 0 entryUsage) _ hk, hothers,
    find_insert, if_pos rfl, he, Option.elim_some, Option.elim_some]
  omega

theorem linkUsage_eq (add : Bool) (k : Uint256) (set : List Uint256) : linkUsage add (k ∈ set) =
    SET_NODE_USAGE * (((if add then insertNew memoryBytes k set else set.erase k).length : Int) - set.length) := by
  unfold linkUsage SET_NODE_USAGE
  cases add with
  | true =>
    by_cases hk : k ∈ set
    · simp [hk, insertNew]
    · simp [hk, insertNew_length hk]
  | false =>
    by_cases hk : k ∈ set
    · have hlength := length_erase_of_mem hk
      have hpos := length_pos_of_mem hk
      simp only [Bool.false_and, Bool.not_false, Bool.true_and, decide_eq_true hk, Bool.false_eq_true, if_false,
        if_true, hlength]
      omega
    · simp [hk, erase_of_not_mem hk]

theorem entryUsage_withChild (child : Uint256) (add : Bool) :
    entryUsage (e.withChild child add) = entryUsage e + linkUsage add (child ∈ e.children) := by
  rw [linkUsage_eq]
  unfold entryUsage withChild
  simp only [SET_NODE_USAGE]
  omega

theorem entryUsage_withParent (parent : Uint256) (add : Bool) :
    entryUsage (e.withParent parent add) = entryUsage e + linkUsage add (parent ∈ e.parents) := by
  rw [linkUsage_eq]
  unfold entryUsage withParent
  simp only [SET_NODE_USAGE]
  omega

/-! ## What is left alone -/

theorem modify_ok (h : pool.modify k f = .ok pool') : ∃ e e', pool.find k = some e ∧ f e = .ok e' ∧
    pool' = { pool with mapTx := pool.mapTx.insert k e', saturated := pool.saturated || e'.saturated } := by
  unfold modify at h
  obtain ⟨e, hentry, h⟩ := bind_ok.mp h
  obtain ⟨e', he', h⟩ := bind_ok.mp h
  cases h
  exact ⟨e, e', entryAt_ok.mp hentry, he', rfl⟩

variable {child parent : Uint256} {add updateDescendants : Bool} {set ps : List Uint256}

theorem updateChild_ok (h : pool.updateChild k child add = .ok pool') : ∃ e, pool.find k = some e ∧
    pool' = ({ pool with
      mapTx := pool.mapTx.insert k (e.withChild child add), saturated := pool.saturated || e.saturated } :
      CTxMemPool).charge (linkUsage add (child ∈ e.children)) := by
  unfold updateChild at h
  obtain ⟨_, hentry, h⟩ := bind_ok.mp h
  obtain ⟨_, hmodify, h⟩ := bind_ok.mp h
  cases h
  obtain ⟨e, _, he, hstep, rfl⟩ := modify_ok hmodify
  cases hstep
  rw [entryAt_ok, he] at hentry
  cases hentry
  exact ⟨_, he, rfl⟩

theorem updateParent_ok (h : pool.updateParent k parent add = .ok pool') : ∃ e, pool.find k = some e ∧
    pool' = ({ pool with
      mapTx := pool.mapTx.insert k (e.withParent parent add), saturated := pool.saturated || e.saturated } :
      CTxMemPool).charge (linkUsage add (parent ∈ e.parents)) := by
  unfold updateParent at h
  obtain ⟨_, hentry, h⟩ := bind_ok.mp h
  obtain ⟨_, hmodify, h⟩ := bind_ok.mp h
  cases h
  obtain ⟨e, _, he, hstep, rfl⟩ := modify_ok hmodify
  cases hstep
  rw [entryAt_ok, he] at hentry
  cases hentry
  exact ⟨_, he, rfl⟩

/-- Entries and indices are the same, and the usage follows the sets. -/
structure Framed (pool pool' : CTxMemPool) : Prop where
  find : ∀ k, (pool'.find k).map CTxMemPoolEntry.core = (pool.find k).map CTxMemPoolEntry.core
  mapNextTx : pool'.mapNextTx = pool.mapNextTx
  mapUsedSPK : pool'.mapUsedSPK = pool.mapUsedSPK
  txnsRandomized : pool'.txnsRandomized = pool.txnsRandomized
  usage : pool'.cachedInnerUsage - pool'.totalUsage = pool.cachedInnerUsage - pool.totalUsage

theorem Framed.refl (pool : CTxMemPool) : Framed pool pool := ⟨fun _ => rfl, rfl, rfl, rfl, rfl⟩

theorem Framed.trans (h : Framed pool pool1) (h' : Framed pool1 pool2) : Framed pool pool2 :=
  ⟨fun k => (h'.find k).trans (h.find k), h'.mapNextTx.trans h.mapNextTx, h'.mapUsedSPK.trans h.mapUsedSPK,
    h'.txnsRandomized.trans h.txnsRandomized, h'.usage.trans h.usage⟩

theorem foldlM_framed {α : Type} {step : CTxMemPool → α → Checked CTxMemPool} {xs : List α}
    (hstep : ∀ pool x pool', step pool x = .ok pool' → Framed pool pool') (h : xs.foldlM step pool = .ok pool') :
    Framed pool pool' :=
  foldlM_keeps (P := Framed pool) (fun _ _ _ hnext hframed => hframed.trans (hstep _ _ _ hnext)) h (.refl pool)

theorem insert_framed (he : pool.find k = some e) (hcore : e'.core = e.core) (saturated : Bool) :
    Framed pool (({ pool with mapTx := pool.mapTx.insert k e', saturated } : CTxMemPool).charge
      (entryUsage e' - entryUsage e)) := by
  refine ⟨fun j => ?_, rfl, rfl, rfl, ?_⟩
  · refine (congrArg (Option.map core) (find_insert pool k j e' saturated)).trans ?_
    split
    · next hj => rw [hj, he, Option.map_some, Option.map_some, hcore]
    · rfl
  · have htotal := totalUsage_insert he e' saturated
    change pool.cachedInnerUsage + (entryUsage e' - entryUsage e) -
      ({ pool with mapTx := pool.mapTx.insert k e', saturated } : CTxMemPool).totalUsage = _
    rw [htotal]
    omega

structure SumsOnly (e e' : CTxMemPoolEntry) : Prop where
  core : e'.core = e.core
  parents : e'.parents = e.parents
  children : e'.children = e.children

theorem SumsOnly.usage (h : SumsOnly e e') : entryUsage e' = entryUsage e := by
  have hown : e'.nUsageSize = e.nUsageSize := congrArg (fun core => core.1.nUsageSize) h.core
  unfold entryUsage
  rw [hown, h.parents, h.children]

theorem modify_framed (hf : ∀ e e', f e = .ok e' → SumsOnly e e') (h : pool.modify k f = .ok pool') :
    Framed pool pool' := by
  obtain ⟨e, e', he, hstep, rfl⟩ := modify_ok h
  have hsame := hf e e' hstep
  have hframed := insert_framed he hsame.core (pool.saturated || e'.saturated)
  rw [hsame.usage, sub_self] at hframed
  unfold charge at hframed
  rwa [add_zero] at hframed

theorem modifyAll_framed (hf : ∀ e e', f e = .ok e' → SumsOnly e e') (h : modifyAll f ks pool = .ok pool') :
    Framed pool pool' :=
  foldlM_framed (fun _ _ _ => modify_framed hf) h

theorem updateChild_framed (h : pool.updateChild k child add = .ok pool') : Framed pool pool' := by
  obtain ⟨e, he, rfl⟩ := updateChild_ok h
  have hframed := insert_framed he (show (e.withChild child add).core = e.core from rfl) (pool.saturated || e.saturated)
  rwa [entryUsage_withChild, add_sub_cancel_left] at hframed

theorem updateParent_framed (h : pool.updateParent k parent add = .ok pool') : Framed pool pool' := by
  obtain ⟨e, he, rfl⟩ := updateParent_ok h
  have hframed := insert_framed he (show (e.withParent parent add).core = e.core from rfl)
      (pool.saturated || e.saturated)
  rwa [entryUsage_withParent, add_sub_cancel_left] at hframed

theorem updateDescendantState_same {modifySize modifyFee modifyCount : Int}
    (h : e.updateDescendantState modifySize modifyFee modifyCount = .ok e') : SumsOnly e e' := by
  unfold updateDescendantState at h
  obtain ⟨-, -, h⟩ := bind_ok.mp h
  obtain ⟨-, -, h⟩ := bind_ok.mp h
  cases h
  exact ⟨rfl, rfl, rfl⟩

theorem updateAncestorState_same {modifySize modifyFee modifyCount modifySigOps : Int}
    (h : e.updateAncestorState modifySize modifyFee modifyCount modifySigOps = .ok e') : SumsOnly e e' := by
  unfold updateAncestorState at h
  iterate 3 obtain ⟨-, -, h⟩ := bind_ok.mp h
  cases h
  exact ⟨rfl, rfl, rfl⟩

theorem updateAncestorsOf_framed (h : pool.updateAncestorsOf add k set = .ok pool') : Framed pool pool' := by
  unfold updateAncestorsOf at h
  obtain ⟨_, -, h⟩ := bind_ok.mp h
  obtain ⟨_, hchildren, h⟩ := bind_ok.mp h
  obtain ⟨_, -, h⟩ := bind_ok.mp h
  exact (foldlM_framed (fun _ _ _ => updateChild_framed) hchildren).trans
    (modifyAll_framed (fun _ _ => updateDescendantState_same) h)

theorem updateEntryForAncestors_framed (h : pool.updateEntryForAncestors k set = .ok pool') : Framed pool pool' := by
  unfold updateEntryForAncestors at h
  obtain ⟨⟨_, _, _⟩, -, h⟩ := bind_ok.mp h
  exact modify_framed (fun _ _ => updateAncestorState_same) h

theorem severFromAncestors_framed (h : pool.severFromAncestors k = .ok pool') : Framed pool pool' := by
  unfold severFromAncestors at h
  obtain ⟨_, -, h⟩ := bind_ok.mp h
  obtain ⟨_, -, h⟩ := bind_ok.mp h
  exact updateAncestorsOf_framed h

theorem updateDescendantsOf_framed (h : pool.updateDescendantsOf k = .ok pool') : Framed pool pool' := by
  unfold updateDescendantsOf at h
  obtain ⟨_, -, h⟩ := bind_ok.mp h
  obtain ⟨_, -, h⟩ := bind_ok.mp h
  obtain ⟨_, -, h⟩ := bind_ok.mp h
  exact modifyAll_framed (fun _ _ => updateAncestorState_same) h

theorem updateChildrenForRemoval_framed (h : pool.updateChildrenForRemoval k = .ok pool') : Framed pool pool' := by
  unfold updateChildrenForRemoval at h
  obtain ⟨_, -, h⟩ := bind_ok.mp h
  exact foldlM_framed (fun _ _ _ => updateParent_framed) h

section

variable (h : pool.updateForRemoveFromMempool ks updateDescendants = .ok pool')
include h

theorem updateForRemoveFromMempool_ok :
    ∃ pool1 pool2, (if updateDescendants then ks.foldlM updateDescendantsOf pool else .ok pool) = .ok pool1 ∧
      ks.foldlM severFromAncestors pool1 = .ok pool2 ∧ ks.foldlM updateChildrenForRemoval pool2 = .ok pool' := by
  unfold updateForRemoveFromMempool at h
  cases updateDescendants with
  | true =>
    obtain ⟨pool1, hsums, h⟩ := bind_ok.mp h
    obtain ⟨pool2, hsever, h⟩ := bind_ok.mp h
    exact ⟨pool1, pool2, hsums, hsever, h⟩
  | false =>
    obtain ⟨pool1, hsame, h⟩ := bind_ok.mp h
    obtain ⟨pool2, hsever, h⟩ := bind_ok.mp h
    exact ⟨pool1, pool2, hsame, hsever, h⟩

theorem updateForRemoveFromMempool_framed : Framed pool pool' := by
  obtain ⟨pool1, _, hsums, hsever, hunlink⟩ := updateForRemoveFromMempool_ok h
  have hfirst : Framed pool pool1 := by
    split at hsums
    · exact foldlM_framed (fun _ _ _ => updateDescendantsOf_framed) hsums
    · cases hsums
      exact .refl pool
  exact (hfirst.trans (foldlM_framed (fun _ _ _ => severFromAncestors_framed) hsever)).trans
    (foldlM_framed (fun _ _ _ => updateChildrenForRemoval_framed) hunlink)

end

/-! ## Links -/

structure Links (P C : Uint256 → Uint256 → Prop) (pool : CTxMemPool) : Prop where
  parents : ∀ {k p}, p ∈ pool.parentsOf k ↔ P k p
  children : ∀ {k p}, k ∈ pool.childrenOf p ↔ C k p
  parents_nodup : ∀ k, (pool.parentsOf k).Nodup
  children_nodup : ∀ k, (pool.childrenOf k).Nodup

theorem Linked.links (h : Linked E pool) : Links E E pool := ⟨h.parents, h.children, h.parents_nodup, h.children_nodup⟩

theorem Links.linked (h : Links E E pool) : Linked E pool := ⟨h.parents, h.children, h.parents_nodup, h.children_nodup⟩

theorem Links.congr {P' C' : Uint256 → Uint256 → Prop} (h : Links P C pool) (hP : ∀ k p, P k p ↔ P' k p)
    (hC : ∀ k p, C k p ↔ C' k p) : Links P' C' pool :=
  ⟨h.parents.trans (hP _ _), h.children.trans (hC _ _), h.parents_nodup, h.children_nodup⟩

theorem Links.of_same (h : Links P C pool) (hparents : ∀ k, pool'.parentsOf k = pool.parentsOf k)
    (hchildren : ∀ k, pool'.childrenOf k = pool.childrenOf k) : Links P C pool' := by
  refine ⟨?_, ?_, ?_, ?_⟩
  · intro k p
    rw [hparents, h.parents]
  · intro k p
    rw [hchildren, h.children]
  · intro k
    rw [hparents]
    exact h.parents_nodup k
  · intro k
    rw [hchildren]
    exact h.children_nodup k

theorem parentsOf_insert (pool : CTxMemPool) (k : Uint256) (e : CTxMemPoolEntry) (saturated : Bool) (j : Uint256) :
    ({ pool with mapTx := pool.mapTx.insert k e, saturated } : CTxMemPool).parentsOf j =
      if j = k then e.parents else pool.parentsOf j := by
  unfold parentsOf
  rw [find_insert]
  split
  · rfl
  · rfl

theorem childrenOf_insert (pool : CTxMemPool) (k : Uint256) (e : CTxMemPoolEntry) (saturated : Bool) (j : Uint256) :
    ({ pool with mapTx := pool.mapTx.insert k e, saturated } : CTxMemPool).childrenOf j =
      if j = k then e.children else pool.childrenOf j := by
  unfold childrenOf
  rw [find_insert]
  split
  · rfl
  · rfl

theorem insert_links (he : pool.find k = some e) (hparents : e'.parents = e.parents)
    (hchildren : e'.children = e.children) (saturated : Bool) (hlinks : Links P C pool) :
    Links P C { pool with mapTx := pool.mapTx.insert k e', saturated } := by
  apply hlinks.of_same
  · intro j
    rw [parentsOf_insert]
    split
    · next hj => rw [hparents, hj, parentsOf_eq he]
    · rfl
  · intro j
    rw [childrenOf_insert]
    split
    · next hj => rw [hchildren, hj, childrenOf_eq he]
    · rfl

theorem modify_links (hf : ∀ e e', f e = .ok e' → SumsOnly e e') (h : pool.modify k f = .ok pool')
    (hlinks : Links P C pool) : Links P C pool' := by
  obtain ⟨e, e', he, hstep, rfl⟩ := modify_ok h
  have hsame := hf e e' hstep
  exact insert_links he hsame.parents hsame.children _ hlinks

theorem modifyAll_links (hf : ∀ e e', f e = .ok e' → SumsOnly e e') (h : modifyAll f ks pool = .ok pool')
    (hlinks : Links P C pool) : Links P C pool' :=
  foldlM_keeps (P := Links P C) (fun _ _ _ hmodify hlinks => modify_links hf hmodify hlinks) h hlinks

theorem updateChild_sets (h : pool.updateChild p child add = .ok pool') (j : Uint256) :
    pool'.parentsOf j = pool.parentsOf j ∧ pool'.childrenOf j = if j = p then
      (if add then insertNew memoryBytes child (pool.childrenOf j) else (pool.childrenOf j).erase child)
        else pool.childrenOf j := by
  obtain ⟨e, he, rfl⟩ := updateChild_ok h
  constructor
  · refine (parentsOf_insert pool p (e.withChild child add) (pool.saturated || e.saturated) j).trans ?_
    split
    · next hj =>
      rw [hj, parentsOf_eq he]
      rfl
    · rfl
  · refine (childrenOf_insert pool p (e.withChild child add) (pool.saturated || e.saturated) j).trans ?_
    split
    · next hj =>
      rw [hj, childrenOf_eq he]
      rfl
    · rfl

theorem updateParent_sets (h : pool.updateParent k parent add = .ok pool') (j : Uint256) :
    pool'.childrenOf j = pool.childrenOf j ∧ pool'.parentsOf j = if j = k then
      (if add then insertNew memoryBytes parent (pool.parentsOf j) else (pool.parentsOf j).erase parent)
        else pool.parentsOf j := by
  obtain ⟨e, he, rfl⟩ := updateParent_ok h
  constructor
  · refine (childrenOf_insert pool k (e.withParent parent add) (pool.saturated || e.saturated) j).trans ?_
    split
    · next hj =>
      rw [hj, childrenOf_eq he]
      rfl
    · rfl
  · refine (parentsOf_insert pool k (e.withParent parent add) (pool.saturated || e.saturated) j).trans ?_
    split
    · next hj =>
      rw [hj, parentsOf_eq he]
      rfl
    · rfl

theorem mem_changed_set (hnodup : set.Nodup) :
    (x ∈ if add then insertNew memoryBytes k set else set.erase k) ↔
      if add then x = k ∨ x ∈ set else x ≠ k ∧ x ∈ set := by
  cases add with
  | true => exact mem_insertNew
  | false => exact hnodup.mem_erase_iff

theorem changed_set_nodup (hnodup : set.Nodup) : (if add then insertNew memoryBytes k set else set.erase k).Nodup := by
  cases add with
  | true => exact insertNew_nodup hnodup
  | false => exact hnodup.erase k

theorem updateChild_links (h : pool.updateChild p child add = .ok pool') (hlinks : Links P C pool) :
    Links P (fun k q => if add then C k q ∨ k = child ∧ q = p else C k q ∧ ¬(k = child ∧ q = p)) pool' := by
  have hsets := updateChild_sets h
  refine ⟨?_, ?_, ?_, ?_⟩
  · intro j q
    rw [(hsets j).1, hlinks.parents]
  · intro j q
    rw [(hsets q).2, ← hlinks.children]
    by_cases hq : q = p
    · rw [if_pos hq, mem_changed_set (hlinks.children_nodup q)]
      cases add
      · simp only [Bool.false_eq_true, if_false]
        tauto
      · simp only [if_true]
        tauto
    · rw [if_neg hq]
      cases add
      · simp [hq]
      · simp [hq]
  · intro j
    rw [(hsets j).1]
    exact hlinks.parents_nodup j
  · intro j
    rw [(hsets j).2]
    split
    · exact changed_set_nodup (hlinks.children_nodup j)
    · exact hlinks.children_nodup j

theorem updateParent_links (h : pool.updateParent k parent add = .ok pool') (hlinks : Links P C pool) :
    Links (fun j q => if add then P j q ∨ q = parent ∧ j = k else P j q ∧ ¬(q = parent ∧ j = k)) C pool' := by
  have hsets := updateParent_sets h
  refine ⟨?_, ?_, ?_, ?_⟩
  · intro j q
    rw [(hsets j).2, ← hlinks.parents]
    by_cases hj : j = k
    · rw [if_pos hj, mem_changed_set (hlinks.parents_nodup j)]
      cases add
      · simp only [Bool.false_eq_true, if_false]
        tauto
      · simp only [if_true]
        tauto
    · rw [if_neg hj]
      cases add
      · simp [hj]
      · simp [hj]
  · intro j q
    rw [(hsets q).1, hlinks.children]
  · intro j
    rw [(hsets j).2]
    split
    · exact changed_set_nodup (hlinks.parents_nodup j)
    · exact hlinks.parents_nodup j
  · intro j
    rw [(hsets j).1]
    exact hlinks.children_nodup j

theorem foldlM_erases {α : Type} {L : (Uint256 → Uint256 → Prop) → CTxMemPool → Prop}
    {step : CTxMemPool → α → Checked CTxMemPool} {R : α → Uint256 → Uint256 → Prop} {E : Uint256 → Uint256 → Prop}
    {as : List α} (h : as.foldlM step pool = .ok pool')
    (hstep : ∀ {a pool pool' E}, step pool a = .ok pool' → L E pool → L (fun c q => E c q ∧ ¬R a c q) pool')
    (hlinks : L E pool) : L (fun c q => E c q ∧ ¬∃ a ∈ as, R a c q) pool' := by
  induction as generalizing pool E with
  | nil =>
    cases h
    simpa using hlinks
  | cons a as ih =>
    obtain ⟨_, hfirst, hrest⟩ := bind_ok.mp h
    simpa [and_assoc] using ih hrest (hstep hfirst hlinks)

theorem eraseChild_links (h : ps.foldlM (fun pool p => pool.updateChild p child false) pool = .ok pool')
    (hlinks : Links P C pool) : Links P (fun k q => C k q ∧ ¬(k = child ∧ q ∈ ps)) pool' := by
  refine (foldlM_erases h updateChild_links hlinks).congr (fun _ _ => Iff.rfl) fun k q => ?_
  grind

theorem eraseParent_links {cs : List Uint256}
    (h : cs.foldlM (fun pool c => pool.updateParent c parent false) pool = .ok pool') (hlinks : Links P C pool) :
    Links (fun k q => P k q ∧ ¬(q = parent ∧ k ∈ cs)) C pool' := by
  refine (foldlM_erases (L := (Links · C)) h updateParent_links hlinks).congr (fun k q => ?_) fun _ _ => Iff.rfl
  grind

theorem severFromAncestors_links (h : pool.severFromAncestors k = .ok pool') (hlinks : Links P C pool) :
    Links P (fun c q => C c q ∧ ¬(c = k ∧ P c q)) pool' := by
  unfold severFromAncestors updateAncestorsOf at h
  obtain ⟨_, -, h⟩ := bind_ok.mp h
  obtain ⟨_, -, h⟩ := bind_ok.mp h
  obtain ⟨it, hit, h⟩ := bind_ok.mp h
  obtain ⟨_, hchildren, h⟩ := bind_ok.mp h
  obtain ⟨_, -, h⟩ := bind_ok.mp h
  have hmem : ∀ q, q ∈ it.parents ↔ P k q := fun q => by rw [← parentsOf_eq (entryAt_ok.mp hit), hlinks.parents]
  refine (modifyAll_links (fun _ _ => updateDescendantState_same) h (eraseChild_links hchildren hlinks)).congr
    (fun _ _ => Iff.rfl) fun c q => ?_
  rw [hmem]
  constructor
  all_goals
    rintro ⟨hC, hnot⟩
    exact ⟨hC, fun ⟨hc, hP⟩ => hnot ⟨hc, hc ▸ hP⟩⟩

theorem sever_links (h : ks.foldlM severFromAncestors pool = .ok pool') (hlinks : Links P C pool) :
    Links P (fun c q => C c q ∧ ¬(c ∈ ks ∧ P c q)) pool' := by
  refine (foldlM_erases h severFromAncestors_links hlinks).congr (fun _ _ => Iff.rfl) fun c q => ?_
  grind

theorem updateChildrenForRemoval_links (h : pool.updateChildrenForRemoval k = .ok pool') (hlinks : Links P C pool) :
    Links (fun c q => P c q ∧ ¬(q = k ∧ C c q)) C pool' := by
  unfold updateChildrenForRemoval at h
  obtain ⟨it, hit, h⟩ := bind_ok.mp h
  have hmem : ∀ c, c ∈ it.children ↔ C c k := fun c => by rw [← childrenOf_eq (entryAt_ok.mp hit), hlinks.children]
  refine (eraseParent_links h hlinks).congr (fun c q => ?_) fun _ _ => Iff.rfl
  rw [hmem]
  constructor
  all_goals
    rintro ⟨hP, hnot⟩
    exact ⟨hP, fun ⟨hq, hC⟩ => hnot ⟨hq, hq ▸ hC⟩⟩

theorem unlinkChildren_links (h : ks.foldlM updateChildrenForRemoval pool = .ok pool') (hlinks : Links P C pool) :
    Links (fun c q => P c q ∧ ¬(q ∈ ks ∧ C c q)) C pool' := by
  refine (foldlM_erases (L := (Links · C)) h updateChildrenForRemoval_links hlinks).congr
    (fun c q => ?_) fun _ _ => Iff.rfl
  grind

theorem updateDescendantsOf_links (h : pool.updateDescendantsOf k = .ok pool') (hlinks : Links P C pool) :
    Links P C pool' := by
  unfold updateDescendantsOf at h
  obtain ⟨_, -, h⟩ := bind_ok.mp h
  obtain ⟨_, -, h⟩ := bind_ok.mp h
  obtain ⟨_, -, h⟩ := bind_ok.mp h
  exact modifyAll_links (fun _ _ => updateAncestorState_same) h hlinks

theorem updateForRemoveFromMempool_links (h : pool.updateForRemoveFromMempool ks updateDescendants = .ok pool')
    (hlinked : Linked E pool) : Links (fun c q => E c q ∧ ¬(c ∉ ks ∧ q ∈ ks)) (fun c q => E c q ∧ c ∉ ks) pool' := by
  obtain ⟨pool1, _, hsums, hsever, hunlink⟩ := updateForRemoveFromMempool_ok h
  have hfirst : Links E E pool1 := by
    split at hsums
    · exact foldlM_keeps (P := Links E E) (fun _ _ _ hstep hlinks => updateDescendantsOf_links hstep hlinks) hsums
        hlinked.links
    · cases hsums
      exact hlinked.links
  refine (unlinkChildren_links hunlink (sever_links hsever hfirst)).congr (fun c q => ?_) fun c q => ?_
  · tauto
  · tauto

theorem addParents_links {its : List Uint256}
    (h : its.foldlM (fun pool pit => pool.updateParent k pit true) pool = .ok pool') (hlinks : Links P C pool) :
    Links (fun c q => P c q ∨ c = k ∧ q ∈ its) C pool' := by
  induction its generalizing pool P with
  | nil =>
    cases h
    exact hlinks.congr (fun _ _ => by simp) fun _ _ => Iff.rfl
  | cons pit its ih =>
    obtain ⟨_, hfirst, hrest⟩ := bind_ok.mp h
    refine (ih hrest (updateParent_links hfirst hlinks)).congr (fun c q => ?_) fun _ _ => Iff.rfl
    simp only [if_true, mem_cons]
    tauto

theorem addChild_links (h : ps.foldlM (fun pool p => pool.updateChild p k true) pool = .ok pool')
    (hlinks : Links P C pool) : Links P (fun c q => C c q ∨ c = k ∧ q ∈ ps) pool' := by
  induction ps generalizing pool C with
  | nil =>
    cases h
    exact hlinks.congr (fun _ _ => Iff.rfl) fun _ _ => by simp
  | cons p ps ih =>
    obtain ⟨_, hfirst, hrest⟩ := bind_ok.mp h
    refine (ih hrest (updateChild_links hfirst hlinks)).congr (fun _ _ => Iff.rfl) fun c q => ?_
    simp only [if_true, mem_cons]
    tauto

theorem updateEntryForAncestors_links (h : pool.updateEntryForAncestors k set = .ok pool')
    (hlinks : Links P C pool) : Links P C pool' := by
  unfold updateEntryForAncestors at h
  obtain ⟨⟨_, _, _⟩, -, h⟩ := bind_ok.mp h
  exact modify_links (fun _ _ => updateAncestorState_same) h hlinks

theorem addNewTransaction_links (h : pool.addNewTransaction k set = .ok pool') (hfind : pool.find k = some e)
    (hnone : e.parents = []) (hlinked : Linked E pool) :
    Linked (fun c q => E c q ∨ c = k ∧ q ∈ e.tx.parentHashes ∧ q ∈ pool.keys) pool' := by
  obtain ⟨_, _, _, pool3, _, hits, hparents, hrelatives, hsums, hplace, rfl⟩ := addNewTransaction_steps h hfind
  have h0 : Links E E (pool.withSpent k e) := hlinked.links.of_same (fun _ => rfl) fun _ => rfl
  have h1 := addParents_links hparents h0
  unfold updateAncestorsOf at hrelatives
  obtain ⟨it, hit, hrelatives⟩ := bind_ok.mp hrelatives
  obtain ⟨_, hchildren, hrelatives⟩ := bind_ok.mp hrelatives
  obtain ⟨_, -, hrelatives⟩ := bind_ok.mp hrelatives
  -- what the entry has for parents by now is what it has just got
  have hown : ∀ q, ¬E k q := fun q hq => by
    have hmem := hlinked.parents.mpr hq
    rw [parentsOf_eq hfind, hnone] at hmem
    cases hmem
  have hmem : ∀ q, q ∈ it.parents ↔ q ∈ e.tx.parentHashes ∧ q ∈ pool.keys := by
    intro q
    rw [← parentsOf_eq (entryAt_ok.mp hit), h1.parents, hits]
    simp [hown]
  have h2 := modifyAll_links (fun _ _ => updateDescendantState_same) hrelatives (addChild_links hchildren h1)
  obtain ⟨e3, _, he3, hplaced, rfl⟩ := modify_ok hplace
  cases hplaced
  have h3 := insert_links he3 (show (e3.placed pool3.txnsRandomized.length).parents = e3.parents from rfl) rfl
    (pool3.saturated || e3.saturated) (updateEntryForAncestors_links hsums h2)
  apply Links.linked
  refine Links.of_same (h3.congr (fun c q => ?_) fun c q => ?_) (fun _ => rfl) fun _ => rfl
  · rw [hits]
  · rw [hmem]

end CTxMemPool
end FullNode.Mempool

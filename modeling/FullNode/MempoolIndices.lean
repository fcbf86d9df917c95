import FullNode.MempoolLeaving

/-! # Indices of the pool -/

namespace FullNode.Mempool

open List Finset CTxMemPoolEntry Option

namespace CTxMemPool

variable {pool pool' pool1 pool2 : CTxMemPool} {k p x : Uint256} {e e' entry : CTxMemPoolEntry}
  {its set stage : List Uint256} {E : Uint256 → Uint256 → Prop}

/-- Spends, list of transactions and usage are those of the entries. -/
structure Coherent (pool : CTxMemPool) : Prop where
  nextTx : ∀ {o k}, pool.mapNextTx.lookup o = some k ↔ ∃ e, pool.find k = some e ∧ o ∈ e.tx.prevouts
  randomized : ∀ {i k}, pool.txnsRandomized[i]? = some k ↔ ∃ e, pool.find k = some e ∧ e.idxRandomized = i
  usage : pool.cachedInnerUsage = pool.totalUsage

/-! ## Updates of links -/

theorem SameBare.spends (h : SameBare pool pool') (o : COutPoint) (k : Uint256) :
    (∃ e', pool'.find k = some e' ∧ o ∈ e'.tx.prevouts) ↔ ∃ e, pool.find k = some e ∧ o ∈ e.tx.prevouts := by
  constructor
  · rintro ⟨e', he', ho⟩
    obtain ⟨e, he, hbare⟩ := h.find he'
    exact ⟨e, he, tx_of_bare hbare ▸ ho⟩
  · rintro ⟨e, he, ho⟩
    obtain ⟨e', he', hbare⟩ := h.symm.find he
    exact ⟨e', he', tx_of_bare hbare ▸ ho⟩

theorem Framed.place (h : Framed pool pool') (k : Uint256) (i : Nat) :
    (∃ e', pool'.find k = some e' ∧ e'.idxRandomized = i) ↔ ∃ e, pool.find k = some e ∧ e.idxRandomized = i := by
  have hplace : ∀ pool : CTxMemPool, (∃ e, pool.find k = some e ∧ e.idxRandomized = i) ↔
      ((pool.find k).map core).map Prod.snd = some i := by
    intro pool
    rw [Option.map_map, map_eq_some_iff]
    rfl
  rw [hplace, hplace, h.find]

theorem Coherent.framed (h : Coherent pool) (hframed : Framed pool pool') : Coherent pool' := by
  refine ⟨?_, ?_, ?_⟩
  · intro o k
    rw [hframed.mapNextTx, h.nextTx, hframed.sameBare.spends]
  · intro i k
    rw [hframed.txnsRandomized, h.randomized, hframed.place]
  · have husage := hframed.usage
    have hexact := h.usage
    omega

/-! ## An entry goes -/

theorem lookup_eraseInputs (vin : List CTxIn) (next : AssocMap COutPoint Uint256) (o : COutPoint) :
    (vin.foldl (fun next txin => next.erase txin.prevout) next).lookup o =
      if o ∈ vin.map CTxIn.prevout then none else next.lookup o := by
  induction vin generalizing next with
  | nil => simp
  | cons txin vin ih =>
    rw [foldl_cons, ih]
    simp only [List.map_cons, List.mem_cons]
    by_cases ho : o = txin.prevout
    · subst ho
      simp
    · simp [ho]

theorem Shuffled.totalUsage (h : Shuffled pool pool') : pool'.totalUsage = pool.totalUsage := by
  have hkeys : pool'.keys = pool.keys := by
    ext j
    have hj := congrArg isSome (h.find j)
    rw [isSome_map, isSome_map] at hj
    rw [← existsTxid_iff, ← existsTxid_iff]
    unfold existsTxid
    rw [hj]
  have hplaced : ∀ (pool : CTxMemPool) (j : Uint256),
      (pool.find j).elim 0 entryUsage = ((pool.find j).map (placed 0)).elim 0 entryUsage := by
    intro pool j
    cases pool.find j with
    | none => rfl
    | some e => rfl
  unfold CTxMemPool.totalUsage
  rw [hkeys]
  apply sum_congr rfl
  intro j _
  rw [hplaced pool', hplaced pool, h.find]

theorem totalUsage_erase (he : pool.find k = some e) :
    ({ pool with mapTx := pool.mapTx.erase k } : CTxMemPool).totalUsage = pool.totalUsage - entryUsage e := by
  have hfind := find_erase pool k
  have hkeys : ({ pool with mapTx := pool.mapTx.erase k } : CTxMemPool).keys = pool.keys.erase k := by
    ext j
    rw [mem_erase, mem_keys, mem_keys]
    change (∃ e, (pool.mapTx.erase k).lookup j = some e) ↔ _
    rw [hfind]
    split
    · next hj => simp [hj]
    · next hj => simp [hj]
  have hothers : ∑ j ∈ pool.keys.erase k, ((pool.mapTx.erase k).lookup j).elim 0 entryUsage = ∑ j ∈
      pool.keys.erase k, (pool.find j).elim 0 entryUsage := by
    apply sum_congr rfl
    intro j hj
    rw [hfind, if_neg (ne_of_mem_erase hj)]
  unfold totalUsage
  rw [hkeys]
  refine hothers.trans ?_
  rw [← add_sum_erase (f := fun j => (pool.find j).elim 0 entryUsage) _ (mem_keys_of_find he), he, elim_some]
  omega

theorem getElem?_swapRemove {α : Type} {list : List α} {i : Nat} (hi : i < list.length) (back : α) (j : Nat) :
    ((list.set i back).dropLast)[j]? =
      if j < list.length - 1 then (if j = i then some back else list[j]?) else none := by
  rw [getElem?_dropLast, length_set]
  split
  · rw [getElem?_set]
    split
    · next hj => rw [if_pos hj.symm]
    · next hj => rw [if_neg (Ne.symm hj)]
  · rfl

theorem dropRandomized_places {it : CTxMemPoolEntry}
    (hplaces : ∀ {i k}, pool.txnsRandomized[i]? = some k ↔ ∃ e, pool.find k = some e ∧ e.idxRandomized = i)
    (hit : pool.find k = some it) (h : pool.dropRandomized it = .ok pool') {i : Nat} {x : Uint256} :
    pool'.txnsRandomized[i]? = some x ↔ x ≠ k ∧ ∃ e, pool'.find x = some e ∧ e.idxRandomized = i := by
  have hk : pool.txnsRandomized[it.idxRandomized]? = some k := hplaces.mpr ⟨it, hit, rfl⟩
  rcases dropRandomized_ok h with ⟨hlength, rfl⟩ | ⟨back, _, hback, hlength, hidx, hmodify, rfl⟩
  · -- the only one goes
    constructor
    · intro hbad
      cases hbad
    · rintro ⟨hx, e, he, -⟩
      have hother := hplaces.mpr ⟨e, he, rfl⟩
      have h1 := (List.getElem?_eq_some_iff.mp hk).1
      have h2 := (List.getElem?_eq_some_iff.mp hother).1
      rw [show e.idxRandomized = it.idxRandomized by omega, hk] at hother
      exact absurd (Option.some.inj hother).symm hx
  · obtain ⟨last, _, hlast, hplaced, rfl⟩ := modify_ok hmodify
    cases hplaced
    have hfind : ∀ j, ({ pool with mapTx := pool.mapTx.insert back (last.placed it.idxRandomized) } :
        CTxMemPool).find j =
        if j = back then some (last.placed it.idxRandomized) else pool.find j :=
          fun j => find_insert pool back j _ pool.saturated
    have hlastPlace : pool.txnsRandomized[pool.txnsRandomized.length - 1]? = some back := by
      rw [← getLast?_eq_getElem?]
      exact hback
    have hlastIdx : last.idxRandomized = pool.txnsRandomized.length - 1 := by
      obtain ⟨e, he, hplace⟩ := hplaces.mp hlastPlace
      rw [hlast] at he
      cases he
      exact hplace
    change ((pool.txnsRandomized.set it.idxRandomized back).dropLast)[i]? = some x ↔
      x ≠ k ∧ ∃ e, ({ pool with mapTx := pool.mapTx.insert back (last.placed it.idxRandomized) } : CTxMemPool).find
        x = some e ∧ e.idxRandomized = i
    rw [getElem?_swapRemove hidx, hfind]
    have hsame : ∀ {j : Nat} {y : Uint256}, pool.txnsRandomized[j]? = some y → pool.find y = some it →
        j = it.idxRandomized := by
      intro j y hj hy
      obtain ⟨e, he, rfl⟩ := hplaces.mp hj
      rw [hy] at he
      cases he
      rfl
    constructor
    · intro hx
      split at hx
      · next hlt =>
        split at hx
        · next hi =>
          cases hx
          refine ⟨?_, last.placed it.idxRandomized, if_pos rfl, hi.symm⟩
          rintro rfl
          rw [hit] at hlast
          cases hlast
          omega
        · next hi =>
          obtain ⟨e, he, hplace⟩ := hplaces.mp hx
          have hne : x ≠ k := by
            rintro rfl
            exact hi (hsame hx hit)
          refine ⟨hne, e, ?_, hplace⟩
          rw [if_neg, he]
          rintro rfl
          rw [hlast] at he
          cases he
          omega
      · cases hx
    · rintro ⟨hne, e, he, hplace⟩
      split at he
      · next hx =>
        cases he
        have hi : i = it.idxRandomized := hplace.symm
        have hlt : it.idxRandomized ≠ pool.txnsRandomized.length - 1 := by
          intro hbad
          rw [hbad, hlastPlace] at hk
          exact hne (hx.trans (Option.some.inj hk))
        rw [if_pos (by omega), if_pos hi, hx]
      · next hx =>
        have hget' := hplaces.mpr ⟨e, he, hplace⟩
        have hi := (List.getElem?_eq_some_iff.mp hget').1
        have hlt : i ≠ pool.txnsRandomized.length - 1 := by
          rintro rfl
          rw [hlastPlace] at hget'
          exact hx (Option.some.inj hget').symm
        rw [if_pos (by omega), if_neg, hget']
        rintro rfl
        rw [hk] at hget'
        exact hne (Option.some.inj hget').symm

theorem Coherent.removeUnchecked (h : Coherent pool) (hremove : pool.removeUnchecked k = .ok pool') :
    Coherent pool' := by
  obtain ⟨it, pool1, hit, hdrop, hcode⟩ := removeUnchecked_ok hremove
  have hshuffled := dropRandomized_shuffled hdrop
  refine ⟨?_, ?_, ?_⟩
  · intro o j
    have hnext : pool'.mapNextTx.lookup o = if o ∈ it.tx.prevouts then none else pool.mapNextTx.lookup o := by
      rw [hcode, ← hshuffled.mapNextTx]
      exact lookup_eraseInputs it.tx.vin pool1.mapNextTx o
    rw [hnext]
    constructor
    · intro hspent
      split at hspent
      · cases hspent
      · next ho =>
        obtain ⟨e, he, hmem⟩ := h.nextTx.mp hspent
        have hj : j ≠ k := by
          rintro rfl
          rw [hit] at he
          cases he
          exact ho hmem
        obtain ⟨e', he', hbare⟩ := removeUnchecked_kept hremove hj he
        exact ⟨e', he', (tx_of_bare hbare).symm ▸ hmem⟩
    · rintro ⟨e', he', hmem⟩
      obtain ⟨hj, e, he, hbare⟩ := removeUnchecked_found hremove he'
      rw [tx_of_bare hbare] at hmem
      have hspent := h.nextTx.mpr ⟨e, he, hmem⟩
      rw [if_neg, hspent]
      intro hbad
      rw [h.nextTx.mpr ⟨it, hit, hbad⟩] at hspent
      exact hj (some.inj hspent).symm
  · intro i j
    have hlist : pool'.txnsRandomized = pool1.txnsRandomized := by rw [hcode]
    have hfind : pool'.find j = if j = k then none else pool1.find j := by
      rw [hcode]
      exact find_erase pool1 k j
    rw [hlist, hfind, dropRandomized_places h.randomized hit hdrop]
    constructor
    · rintro ⟨hj, e, he, hplace⟩
      exact ⟨e, (if_neg hj).trans he, hplace⟩
    · rintro ⟨e, he, hplace⟩
      split at he
      · cases he
      · next hj => exact ⟨hj, e, he, hplace⟩
  · have hplaced := hshuffled.find k
    rw [hit, map_some] at hplaced
    obtain ⟨it1, hit1, hsame⟩ := map_eq_some_iff.mp hplaced
    have hcost : entryUsage it1 = entryUsage it :=
        (congrArg entryUsage hsame : entryUsage (it1.placed 0) = entryUsage (it.placed 0))
    have htotal : pool'.totalUsage = pool1.totalUsage - entryUsage it1 := by
      rw [hcode]
      exact totalUsage_erase hit1
    have hcached : pool'.cachedInnerUsage = pool1.cachedInnerUsage - entryUsage it := by rw [hcode]
    rw [hcached, htotal, hshuffled.totalUsage, hshuffled.cachedInnerUsage, h.usage, hcost]

variable {updateDescendants : Bool}

theorem Coherent.removeStaged (h : Coherent pool)
    (hremove : pool.removeStaged stage updateDescendants = .ok pool') : Coherent pool' := by
  unfold CTxMemPool.removeStaged at hremove
  obtain ⟨_, hupdate, hremove⟩ := bind_ok.mp hremove
  exact foldlM_keeps (P := Coherent) (fun _ _ _ hone h => h.removeUnchecked hone) hremove
    (h.framed (updateForRemoveFromMempool_framed hupdate))

theorem coherent_kept : KeptByRemoval Coherent :=
  ⟨⟨fun _ hremove h => h.removeStaged hremove, fun h => ⟨h.nextTx, h.randomized, h.usage⟩⟩, fun hremove h =>
    h.removeStaged hremove⟩

/-! ## An entry comes -/

/-- An entry as staged, which spends nothing spent in the pool. -/
structure Enterable (pool : CTxMemPool) (entry : CTxMemPoolEntry) : Prop where
  parents : entry.parents = []
  children : entry.children = []
  unspent : ∀ o ∈ entry.tx.prevouts, pool.mapNextTx.lookup o = none

theorem totalUsage_insertEntry (hfresh : pool.find entry.tx.hash = none) :
    (pool.insertEntry entry).totalUsage = pool.totalUsage + entryUsage entry := by
  have hnot : entry.tx.hash ∉ pool.keys := by
    rw [mem_keys, hfresh]
    rintro ⟨_, he⟩
    cases he
  have hothers : ∑ j ∈ pool.keys, ((pool.insertEntry entry).find j).elim 0 entryUsage =
      ∑ j ∈ pool.keys, (pool.find j).elim 0 entryUsage := by
    apply sum_congr rfl
    intro j hj
    rw [find_insertEntry, if_neg]
    rintro rfl
    exact hnot hj
  unfold totalUsage
  rw [keys_insertEntry, sum_insert hnot, hothers, find_insertEntry, if_pos rfl, elim_some, add_comm]

theorem Coherent.add (h : Coherent pool) (hfresh : pool.find entry.tx.hash = none) (henter : Enterable pool entry)
    (hadd : (pool.insertEntry entry).addNewTransaction entry.tx.hash set = .ok pool') : Coherent pool' := by
  have hself : (pool.insertEntry entry).find entry.tx.hash = some entry := by rw [find_insertEntry, if_pos rfl]
  obtain ⟨pool1, e1, hframed, he1, hcode⟩ := addNewTransaction_ok hadd hself
  refine ⟨?_, ?_, ?_⟩
  · intro o j
    have hnext : pool'.mapNextTx = entry.tx.vin.foldl (spendInputs entry.tx.hash) pool.mapNextTx := by
      rw [hcode]
      exact hframed.mapNextTx
    rw [hnext, lookup_spendInputs]
    constructor
    · intro hspent
      cases hlookup : pool.mapNextTx.lookup o with
      | some spender =>
        rw [hlookup, some_or] at hspent
        cases hspent
        obtain ⟨e, he, ho⟩ := h.nextTx.mp hlookup
        have hj : j ≠ entry.tx.hash := by
          rintro rfl
          rw [hfresh] at he
          cases he
        obtain ⟨e', he', hbare⟩ := add_old hadd hj he
        exact ⟨e', he', (tx_of_bare hbare).symm ▸ ho⟩
      | none =>
        rw [hlookup, none_or] at hspent
        split at hspent
        · next ho =>
          cases hspent
          obtain ⟨e', he', hbare⟩ := add_new hadd
          exact ⟨e', he', (tx_of_bare hbare).symm ▸ ho⟩
        · cases hspent
    · rintro ⟨e', he', ho⟩
      rcases add_found hadd he' with ⟨rfl, hbare⟩ | ⟨-, e, he, hbare⟩
      · rw [tx_of_bare hbare] at ho
        rw [henter.unspent o ho, none_or]
        exact if_pos ho
      · rw [tx_of_bare hbare] at ho
        rw [h.nextTx.mpr ⟨e, he, ho⟩, some_or]
  · intro i j
    have hplace : ∀ j i, (∃ e, pool1.find j = some e ∧ e.idxRandomized = i) ↔
        ∃ e, (if j = entry.tx.hash then some entry else pool.find j) = some e ∧ e.idxRandomized = i := by
      intro j i
      rw [hframed.place, ← find_insertEntry]
      rfl
    have hfind : ∀ j, pool'.find j =
        if j = entry.tx.hash then some (e1.placed pool.txnsRandomized.length) else pool1.find j := by
      intro j
      rw [hcode]
      exact find_insert pool1 entry.tx.hash j _ pool1.saturated
    have hlist : pool'.txnsRandomized = pool.txnsRandomized ++ [entry.tx.hash] := by rw [hcode]; rfl
    rw [hlist, hfind]
    by_cases hj : j = entry.tx.hash
    · subst hj
      rw [if_pos rfl, getElem?_append]
      constructor
      · intro hi
        split at hi
        · obtain ⟨e, he, -⟩ := h.randomized.mp hi
          rw [hfresh] at he
          cases he
        · next hlt =>
          have hi' := (List.getElem?_eq_some_iff.mp hi).1
          rw [length_singleton] at hi'
          exact ⟨_, rfl, by simp only [placed]; omega⟩
      · rintro ⟨e, ⟨⟩, rfl⟩
        refine (if_neg (lt_irrefl pool.txnsRandomized.length)).trans ?_
        simp [placed]
    · rw [if_neg hj, hplace, if_neg hj, ← h.randomized, getElem?_append]
      split
      · rfl
      · next hlt =>
        constructor
        · intro hi
          rw [getElem?_singleton] at hi
          split at hi
          · exact absurd (Option.some.inj hi).symm hj
          · cases hi
        · intro hi
          exact absurd (List.getElem?_eq_some_iff.mp hi).1 hlt
  · have hcost : entryUsage entry = entry.nUsageSize := by
      unfold entryUsage
      rw [henter.parents, henter.children]
      simp
    have hstart := totalUsage_insertEntry hfresh
    have hframe := hframed.usage
    have hplaced : pool'.totalUsage = pool1.totalUsage := by
      have hinsert := totalUsage_insert he1 (e1.placed pool.txnsRandomized.length) (pool1.saturated || e1.saturated)
      rw [hcode]
      refine hinsert.trans ?_
      rw [show entryUsage (e1.placed pool.txnsRandomized.length) = entryUsage e1 from rfl, sub_self, add_zero]
    have hcached : pool'.cachedInnerUsage = pool1.cachedInnerUsage := by rw [hcode]
    change pool1.cachedInnerUsage - pool1.totalUsage =
      pool.cachedInnerUsage + entry.nUsageSize - (pool.insertEntry entry).totalUsage at hframe
    have hexact := h.usage
    omega

/-! ## Parents and children -/

/-- `p` is in the set of parents of `k`. -/
def Parent (pool : CTxMemPool) (k p : Uint256) : Prop := p ∈ pool.parentsOf k

def Mirrored (pool : CTxMemPool) : Prop := Linked pool.Parent pool

theorem Linked.congr {E' : Uint256 → Uint256 → Prop} (h : Linked E pool) (hE : ∀ k p, E k p ↔ E' k p) :
    Linked E' pool :=
  (h.links.congr hE hE).linked

theorem Linked.mirrored (h : Linked E pool) : Mirrored pool := h.congr fun _ _ => h.parents.symm

theorem Shuffled.sets (h : Shuffled pool pool') (j : Uint256) : pool'.parentsOf j = pool.parentsOf j ∧
    pool'.childrenOf j = pool.childrenOf j := by
  have hparents : ∀ pool : CTxMemPool, pool.parentsOf j = ((pool.find j).map (placed 0)).elim [] parents := by
    intro pool
    unfold parentsOf
    cases pool.find j with
    | none => rfl
    | some e => rfl
  have hchildren : ∀ pool : CTxMemPool, pool.childrenOf j = ((pool.find j).map (placed 0)).elim [] children := by
    intro pool
    unfold childrenOf
    cases pool.find j with
    | none => rfl
    | some e => rfl
  rw [hparents, hparents, hchildren, hchildren, h.find]
  exact ⟨rfl, rfl⟩

theorem removeUnchecked_sets (h : pool.removeUnchecked k = .ok pool') (j : Uint256) :
    pool'.parentsOf j = (if j = k then [] else pool.parentsOf j) ∧
      pool'.childrenOf j = if j = k then [] else pool.childrenOf j := by
  obtain ⟨_, pool1, -, hdrop, rfl⟩ := removeUnchecked_ok h
  obtain ⟨hparents, hchildren⟩ := (dropRandomized_shuffled hdrop).sets j
  have hfind := find_erase pool1 k j
  rw [← hparents, ← hchildren]
  unfold parentsOf childrenOf
  constructor
  · refine (congrArg (fun found : Option CTxMemPoolEntry => found.elim [] parents) hfind).trans ?_
    split
    · rfl
    · rfl
  · refine (congrArg (fun found : Option CTxMemPoolEntry => found.elim [] children) hfind).trans ?_
    split
    · rfl
    · rfl

variable {P C : Uint256 → Uint256 → Prop}

theorem removeUnchecked_links (h : pool.removeUnchecked k = .ok pool') (hlinks : Links P C pool) :
    Links (fun c q => P c q ∧ c ≠ k) (fun c q => C c q ∧ q ≠ k) pool' := by
  have hsets := removeUnchecked_sets h
  refine ⟨?_, ?_, ?_, ?_⟩
  · intro c q
    rw [(hsets c).1, ← hlinks.parents]
    split
    · next hc => simp [hc]
    · next hc => simp [hc]
  · intro c q
    rw [(hsets q).2, ← hlinks.children]
    split
    · next hq => simp [hq]
    · next hq => simp [hq]
  · intro j
    rw [(hsets j).1]
    split
    · exact nodup_nil
    · exact hlinks.parents_nodup j
  · intro j
    rw [(hsets j).2]
    split
    · exact nodup_nil
    · exact hlinks.children_nodup j

theorem removeAll_links (h : stage.foldlM CTxMemPool.removeUnchecked pool = .ok pool') (hlinks : Links P C pool) :
    Links (fun c q => P c q ∧ c ∉ stage) (fun c q => C c q ∧ q ∉ stage) pool' := by
  induction stage generalizing pool P C with
  | nil =>
    cases h
    exact hlinks.congr (fun _ _ => by simp) fun _ _ => by simp
  | cons k stage ih =>
    obtain ⟨_, hfirst, hrest⟩ := bind_ok.mp h
    refine (ih hrest (removeUnchecked_links hfirst hlinks)).congr (fun c q => ?_) fun c q => ?_
    all_goals
      rw [List.mem_cons]
      tauto

theorem removeStaged_linked (h : pool.removeStaged stage updateDescendants = .ok pool') (hlinked : Linked E pool) :
    Linked (fun c q => E c q ∧ c ∉ stage ∧ q ∉ stage) pool' := by
  unfold removeStaged at h
  obtain ⟨_, hupdate, h⟩ := bind_ok.mp h
  apply Links.linked
  refine (removeAll_links h (updateForRemoveFromMempool_links hupdate hlinked)).congr (fun c q => ?_) fun c q => ?_
  · tauto
  · tauto

theorem removeStaged_keys (h : pool.removeStaged stage updateDescendants = .ok pool') :
    x ∈ pool'.keys ↔ x ∈ pool.keys ∧ x ∉ stage := by
  have hfind := congrArg isSome (removeStaged_find h x)
  rw [isSome_map] at hfind
  rw [← existsTxid_iff, ← existsTxid_iff]
  unfold existsTxid
  rw [hfind]
  split
  · next hx => simp [hx]
  · next hx => simp [hx]

/-! ## Parents that go -/

/-- Some entries are gone, and the others have the parents they had. -/
structure Pruned (pool pool' : CTxMemPool) : Prop where
  keys : ∀ {k}, k ∈ pool'.keys → k ∈ pool.keys
  parents : ∀ {k p}, k ∈ pool'.keys → p ∈ pool'.keys → (pool'.Parent k p ↔ pool.Parent k p)

theorem Pruned.refl (pool : CTxMemPool) : Pruned pool pool := ⟨id, fun _ _ => Iff.rfl⟩

theorem Pruned.trans (h : Pruned pool pool1) (h' : Pruned pool1 pool2) : Pruned pool pool2 :=
  ⟨fun hk => h.keys (h'.keys hk), fun hk hp => (h'.parents hk hp).trans (h.parents (h'.keys hk) (h'.keys hp))⟩

structure Together (pool pool' : CTxMemPool) : Prop extends Pruned pool pool' where
  together : ∀ {k p}, pool.Parent k p → p ∉ pool'.keys → k ∉ pool'.keys

theorem Together.refl (hmirrored : Mirrored pool) : Together pool pool :=
  ⟨.refl pool, fun hparent hp => absurd (hmirrored.parent_mem hparent) hp⟩

theorem Together.trans (h : Together pool pool1) (h' : Together pool1 pool2) : Together pool pool2 := by
  refine ⟨h.toPruned.trans h'.toPruned, fun {k p} hparent hp hk => ?_⟩
  by_cases hmid : p ∈ pool1.keys
  · exact h'.together ((h.parents (h'.keys hk) hmid).mpr hparent) hp hk
  · exact h.together hparent hmid (h'.keys hk)

theorem removeStaged_pruned (hmirrored : Mirrored pool) (h : pool.removeStaged stage updateDescendants = .ok pool') :
    Mirrored pool' ∧ Pruned pool pool' := by
  have hlinked := removeStaged_linked h hmirrored
  refine ⟨hlinked.mirrored, fun hk => ((removeStaged_keys h).mp hk).1, fun {k p} hk hp => ?_⟩
  have hparents : p ∈ pool'.parentsOf k ↔ _ := hlinked.parents
  unfold Parent at hparents ⊢
  rw [hparents, and_iff_left ⟨((removeStaged_keys h).mp hk).2, ((removeStaged_keys h).mp hp).2⟩]

theorem removeStaged_together (hmirrored : Mirrored pool) (hall : pool.calculateAllDescendants its [] = .ok stage)
    (h : pool.removeStaged stage false = .ok pool') : Mirrored pool' ∧ Together pool pool' := by
  obtain ⟨hmirrored', hpruned⟩ := removeStaged_pruned hmirrored h
  have hstage : ∀ x, x ∈ stage ↔ ∃ k ∈ its, Relation.ReflTransGen pool.Parent x k := by
    intro x
    rw [hmirrored.calculateAllDescendants_spec (by simp) hall]
    simp
  refine ⟨hmirrored', hpruned, fun {k p} hparent hp hk => ?_⟩
  have hgone : p ∈ stage := by
    by_contra hnot
    exact hp ((removeStaged_keys h).mpr ⟨hmirrored.parent_mem hparent, hnot⟩)
  obtain ⟨top, htop, hreach⟩ := (hstage p).mp hgone
  exact ((removeStaged_keys h).mp hk).2 ((hstage k).mpr ⟨top, htop, .head hparent hreach⟩)

theorem together_kept (start : CTxMemPool) : KeptByClosed fun pool => Mirrored pool ∧ Together start pool := by
  refine ⟨?_, fun h => ⟨⟨h.1.parents, h.1.children, h.1.parents_nodup, h.1.children_nodup⟩,
    ⟨h.2.keys, h.2.parents⟩, h.2.together⟩⟩
  rintro pool pool' its all hall hremove ⟨hmirrored, htogether⟩
  obtain ⟨hmirrored', hstep⟩ := removeStaged_together hmirrored hall hremove
  exact ⟨hmirrored', htogether.trans hstep⟩

theorem removeForBlockTx_together {tx : CTransaction} (hmirrored : Mirrored pool)
    (h : removeForBlockTx pool tx = .ok pool') :
    Mirrored pool' ∧ Pruned pool pool' ∧ ∀ {k p}, pool.Parent k p → p ∉ pool'.keys → k ∈ pool'.keys →
      tx.hash = p ∧ p ∈ pool.keys := by
  obtain ⟨pool1, _, hconfirmed, hconflicts, rfl⟩ := removeForBlockTx_ok h
  obtain ⟨hmirrored1, hpruned1, hgone⟩ : Mirrored pool1 ∧ Pruned pool pool1 ∧ ∀ {p}, p ∈ pool.keys →
      p ∉ pool1.keys → tx.hash = p := by
    rcases hconfirmed with ⟨-, hremove⟩ | ⟨-, rfl⟩
    · obtain ⟨hmirrored1, hpruned⟩ := removeStaged_pruned hmirrored hremove
      refine ⟨hmirrored1, hpruned, fun hp hnot => ?_⟩
      rw [removeStaged_keys hremove, List.mem_singleton] at hnot
      by_contra hne
      exact hnot ⟨hp, Ne.symm hne⟩
    · exact ⟨hmirrored, .refl _, fun hp hnot => absurd hp hnot⟩
  obtain ⟨hmirrored2, htogether⟩ :=
      (together_kept pool1).clear ((together_kept pool1).removeConflicts hconflicts ⟨hmirrored1, .refl hmirrored1⟩)
  refine ⟨hmirrored2, hpruned1.trans htogether.toPruned, fun {k p} hparent hp hk => ?_⟩
  have hmem := hmirrored.parent_mem hparent
  refine ⟨hgone hmem fun hp1 => ?_, hmem⟩
  exact htogether.together ((hpruned1.parents (htogether.keys hk) hp1).mpr hparent) hp hk

/-- The transaction is in the pool when its turn in the block comes. -/
def IncludedInBlock (vtx : List CTransaction) (pool : CTxMemPool) (p : Uint256) : Prop :=
  ∃ before tx after pool1, vtx = before ++ tx :: after ∧ before.foldlM removeForBlockTx pool = .ok pool1 ∧
    tx.hash = p ∧ p ∈ pool1.keys

theorem removeForBlock_together {vtx : List CTransaction} (hmirrored : Mirrored pool)
    (h : vtx.foldlM removeForBlockTx pool = .ok pool') :
    Mirrored pool' ∧ Pruned pool pool' ∧ ∀ {k p}, pool.Parent k p → p ∉ pool'.keys → k ∈ pool'.keys →
      IncludedInBlock vtx pool p := by
  induction vtx generalizing pool with
  | nil =>
    cases h
    exact ⟨hmirrored, .refl _, fun hparent hp _ => absurd (hmirrored.parent_mem hparent) hp⟩
  | cons tx vtx ih =>
    obtain ⟨pool1, hfirst, hrest⟩ := bind_ok.mp h
    obtain ⟨hmirrored1, hpruned, hblock⟩ := removeForBlockTx_together hmirrored hfirst
    obtain ⟨hmirrored', hpruned', hlater⟩ := ih hmirrored1 hrest
    refine ⟨hmirrored', hpruned.trans hpruned', fun {k p} hparent hp hk => ?_⟩
    by_cases hp1 : p ∈ pool1.keys
    · obtain ⟨before, tx', after, pool2, rfl, hbefore, hhash, hmem⟩ :=
          hlater ((hpruned.parents (hpruned'.keys hk) hp1).mpr hparent) hp hk
      refine ⟨tx :: before, tx', after, pool2, rfl, ?_, hhash, hmem⟩
      rw [foldlM_cons, hfirst, ok_bind]
      exact hbefore
    · obtain ⟨hhash, hmem⟩ := hblock hparent hp1 (hpruned'.keys hk)
      exact ⟨[], tx, vtx, pool, rfl, rfl, hhash, hmem⟩

end CTxMemPool
end FullNode.Mempool

import FullNode.MiniMinerTemplate

/-! # The copied cluster -/

namespace FullNode.MiniMiner

open Worklist Ancestry List Option AList
open Relation

variable {pool m : MockEntryMap} {k : Uint256} {o : COutPoint} {outpoints : List COutPoint}

/-! ## What is settled -/

theorem lookup_emplace {κ v : Type} [DecidableEq κ] (m : AssocMap κ v) (k j : κ) (x : v) :
    (emplace m k x).lookup j = (m.lookup j).or (if j = k then some x else none) := by
  unfold emplace
  by_cases hj : j = k
  · subst hj
    split
    · next hmem =>
      obtain ⟨_, hy⟩ := isSome_iff_exists.mp (lookup_isSome.mpr hmem)
      rw [hy]
      rfl
    · next hmem =>
      rw [lookup_eq_none.mpr hmem]
      simp
  · split
    · simp
    · simp [lookup_insert_ne hj]

theorem lookup_emplaceAll (x : Int) (l : List COutPoint) (fees : AssocMap COutPoint Int) (o : COutPoint) :
    (l.foldl (fun fees outpoint => emplace fees outpoint x) fees).lookup o = (fees.lookup o).or
    (if o ∈ l then some x else none) := by
  induction l generalizing fees with
  | nil => simp
  | cons o' l ih =>
    rw [foldl_cons, ih, lookup_emplace]
    cases fees.lookup o with
    | some y => rfl
    | none =>
      by_cases ho : o = o'
      · simp [ho]
      · simp [ho]

def asked (outpoints : List COutPoint) (k : Uint256) : List COutPoint := outpoints.filter (·.hash = k)

theorem mem_asked : o ∈ asked outpoints k ↔ o ∈ outpoints ∧ o.hash = k := by simp [asked]

/-- What is open is still asked for. The others cost nothing. -/
structure Settled (outpoints : List COutPoint) (isOpen : Uint256 → Prop) (requested : AssocMap Uint256 (List COutPoint))
    (fees : AssocMap COutPoint Int) : Prop where
  requested : ∀ k l, requested.lookup k = some l ↔ isOpen k ∧ l = asked outpoints k ∧ l ≠ []
  fees : ∀ o x, fees.lookup o = some x ↔ x = 0 ∧ o ∈ outpoints ∧ ¬isOpen o.hash

variable {isOpen isOpen' : Uint256 → Prop} {requested : AssocMap Uint256 (List COutPoint)}
  {fees : AssocMap COutPoint Int}

variable (h : Settled outpoints isOpen requested fees)
include h

theorem Settled.mem_requested :
    o ∈ (requested.lookup k).getD [] ↔ isOpen k ∧ o ∈ outpoints ∧ o.hash = k := by
  rw [← mem_asked]
  cases hk : requested.lookup k with
  | none =>
    simp only [getD_none, not_mem_nil, false_iff, not_and]
    intro hopen ho
    have := (h.requested k _).mpr ⟨hopen, rfl, ne_nil_of_mem ho⟩
    rw [hk] at this
    cases this
  | some l =>
    obtain ⟨hopen, rfl, -⟩ := (h.requested k l).mp hk
    simp [hopen]

theorem Settled.congr (hiff : ∀ o ∈ outpoints, isOpen o.hash ↔ isOpen' o.hash) :
    Settled outpoints isOpen' requested fees := by
  refine ⟨fun k l => ?_, fun o x => ?_⟩
  · rw [h.requested]
    refine and_congr_left fun ⟨hl, hne⟩ => ?_
    obtain ⟨o, ho⟩ := exists_mem_of_ne_nil l hne
    obtain ⟨ho, rfl⟩ := mem_asked.mp (hl ▸ ho)
    exact hiff o ho
  · rw [h.fees]
    exact and_congr_right fun _ => and_congr_right fun ho => not_congr (hiff o ho)

theorem Settled.lookup_eq_none :
    fees.lookup o = none ↔ ¬(o ∈ outpoints ∧ ¬isOpen o.hash) := by
  rw [eq_none_iff_forall_ne_some]
  constructor
  · intro hno ho
    exact hno 0 ((h.fees o 0).mpr ⟨rfl, ho⟩)
  · intro hno x hx
    exact hno ((h.fees o x).mp hx).2

theorem Settled.settle (k : Uint256) :
    Settled outpoints (fun j => isOpen j ∧ j ≠ k) (requested.erase k)
      (((requested.lookup k).getD []).foldl (fun fees outpoint => emplace fees outpoint 0) fees) := by
  refine ⟨fun j l => ?_, fun o x => ?_⟩
  · by_cases hj : j = k
    · subst hj
      simp
    · rw [lookup_erase_ne hj, h.requested]
      simp [hj]
  · rw [lookup_emplaceAll, or_eq_some_iff, h.fees]
    have hmem := h.mem_requested (o := o) (k := k)
    rw [h.lookup_eq_none]
    split
    · next ho =>
      obtain ⟨hopen, hin, rfl⟩ := hmem.mp ho
      simp [hin, hopen, eq_comm]
    · next ho =>
      rw [hmem] at ho
      grind

omit h

theorem asked_append (o : COutPoint) (k : Uint256) :
    asked (outpoints ++ [o]) k = asked outpoints k ++ if o.hash = k then [o] else [] := by
  unfold asked
  rw [filter_append]
  congr 1
  by_cases hk : o.hash = k
  · simp [hk]
  · simp [hk]

variable (h : Settled outpoints isOpen requested fees)
include h

theorem Settled.lookup_open (hopen : isOpen k) :
    (requested.lookup k).getD [] = asked outpoints k := by
  cases hk : requested.lookup k with
  | none =>
    by_contra hne
    have := (h.requested k (asked outpoints k)).mpr ⟨hopen, rfl, Ne.symm hne⟩
    rw [hk] at this
    cases this
  | some l => exact ((h.requested k l).mp hk).2.1

theorem Settled.ask (hopen : isOpen o.hash) : Settled (outpoints ++ [o]) isOpen
    (requested.insert o.hash ((requested.lookup o.hash).getD [] ++ [o])) fees := by
  refine ⟨fun k l => ?_, fun o' x => ?_⟩
  · rw [h.lookup_open hopen, asked_append]
    by_cases hk : k = o.hash
    · subst hk
      rw [lookup_insert, if_pos rfl, some_inj]
      constructor
      · rintro rfl
        exact ⟨hopen, rfl, by simp⟩
      · rintro ⟨-, rfl, -⟩
        rfl
    · rw [lookup_insert_ne hk, h.requested, if_neg (Ne.symm hk), append_nil]
  · rw [h.fees, mem_append, mem_singleton]
    refine and_congr_right fun _ => ⟨fun ho => ⟨.inl ho.1, ho.2⟩, ?_⟩
    rintro ⟨ho | rfl, hno⟩
    · exact ⟨ho, hno⟩
    · exact absurd hopen hno

theorem Settled.closed (hclosed : ¬isOpen o.hash) :
    Settled (outpoints ++ [o]) isOpen requested (emplace fees o 0) := by
  refine ⟨fun k l => ?_, fun o' x => ?_⟩
  · rw [h.requested, asked_append]
    refine and_congr_right fun hopen => ?_
    rw [if_neg (by rintro rfl; exact hclosed hopen), append_nil]
  · rw [lookup_emplace, or_eq_some_iff, h.fees, h.lookup_eq_none, mem_append, mem_singleton]
    by_cases ho : o' = o
    · subst ho
      simp [hclosed, eq_comm]
      tauto
    · simp [ho]

omit h

/-! ## Clusters -/

theorem parent_mem {p : Uint256} (h : Parent pool k p) : k ∈ pool ∧ p ∈ pool := by
  obtain ⟨e, he, -, hp⟩ := mem_parentsIn.mp h
  exact ⟨mem_iff_lookup.mpr ⟨e, he⟩, hp⟩

theorem getConflictTx_mem (h : getConflictTx pool o = some k) : k ∈ pool := by
  obtain ⟨_, hs, rfl⟩ := map_eq_some_iff.mp h
  exact mem_keys.mpr (mem_map_of_mem (mem_of_find?_eq_some hs))

theorem calculateDescendants_spec (hk : k ∈ pool) : ∃ out, calculateDescendants pool k = .ok out ∧ out.Nodup ∧
    ∀ d, d ∈ out ↔ d ∈ pool ∧ ReflTransGen (Parent pool) d k := by
  have hchild : ∀ x ∈ pool, ∀ y ∈ childrenIn pool x, y ∈ pool := fun x _ y hy => mem_keys.mpr (mem_filter.mp hy).1
  obtain ⟨out, hout, hnodup, hmem⟩ := closure_spec hchild (by simpa using hk) (nodup_singleton k)
  refine ⟨out, hout, hnodup, fun d => ?_⟩
  have hleads : Leads (childrenIn pool) k d ↔ ReflTransGen (Parent pool) d k := by
    unfold Leads
    rw [← reflTransGen_swap]
    simp only [mem_childrenIn]
    exact Iff.rfl
  rw [hmem]
  simp only [mem_singleton, exists_eq_left, hleads, iff_and_self]
  intro h
  induction h using ReflTransGen.head_induction_on with
  | refl => exact hk
  | head hstep _ _ => exact (parent_mem hstep).1

structure Cluster (pool : MockEntryMap) (cluster : List Uint256) : Prop where
  nodup : cluster.Nodup
  sub : ∀ k ∈ cluster, k ∈ pool
  up : ∀ k ∈ cluster, ∀ p, Parent pool k p → p ∈ cluster
  down : ∀ p ∈ cluster, ∀ k, Parent pool k p → k ∈ cluster

theorem gatherClusters_spec (pool : MockEntryMap) {txids : List Uint256} (hnodup : txids.Nodup) :
    ∃ out, gatherClusters pool txids = .ok out ∧ (out = [] ∨ Cluster pool out ∧ ∀ k ∈ txids, k ∈ pool → k ∈ out) := by
  have hnext : ∀ x y : Uint256, y ∈ parentsIn pool x ++ childrenIn pool x ↔ Parent pool x y ∨ Parent pool y x := by
    intro x y
    rw [mem_append, mem_childrenIn]
    exact Iff.rfl
  have hin : ∀ x ∈ pool, ∀ y ∈ parentsIn pool x ++ childrenIn pool x, y ∈ pool := fun x _ y hy =>
    ((hnext x y).mp hy).elim (fun h => (parent_mem h).2) fun h => (parent_mem h).1
  have hstage : ∀ x ∈ txids.filter (· ∈ pool), x ∈ pool := fun x hx => of_decide_eq_true (mem_filter.mp hx).2
  obtain ⟨out, hout, hnodup, hmem⟩ := closure_spec hin hstage (hnodup.filter _)
  have hstep : ∀ x ∈ out, ∀ y, Parent pool x y ∨ Parent pool y x → y ∈ out := by
    intro x hx y h
    obtain ⟨z, hz, hleads⟩ := (hmem x).mp hx
    exact (hmem y).mpr ⟨z, hz, hleads.tail ((hnext x y).mpr h)⟩
  refine ⟨_, by rw [gatherClusters, hout]; rfl, ?_⟩
  split
  · exact .inl rfl
  · refine .inr ⟨⟨hnodup, ?_, fun k hk p h => hstep k hk p (.inl h), fun p hp k h => hstep p hp k (.inr h)⟩,
      fun k hk hin => ?_⟩
    · intro k hk
      obtain ⟨z, hz, hleads⟩ := (hmem k).mp hk
      induction hleads with
      | refl => exact of_decide_eq_true (mem_filter.mp hz).2
      | tail _ hlast _ => exact ((hnext _ _).mp hlast).elim (fun h => (parent_mem h).2) fun h => (parent_mem h).1
    · exact (hmem k).mpr ⟨k, mem_filter.mpr ⟨hk, decide_eq_true hin⟩, .refl⟩

/-! ## The requests -/

/-- What spends a requested outpoint goes, with descendants. -/
structure Replaced (pool : MockEntryMap) (outpoints : List COutPoint) (replaced : List Uint256) : Prop where
  spender : ∀ o ∈ outpoints, o.hash ∈ pool → ∀ k, getConflictTx pool o = some k → k ∈ replaced
  down : ∀ p ∈ replaced, ∀ k, Parent pool k p → k ∈ replaced

structure Requested (pool : MockEntryMap) (done : List COutPoint) (s : MiniMiner) : Prop where
  ready : s.m_ready_to_calculate = true
  in_block : s.m_in_block = []
  uncached : s.m_descendant_set_by_txid = ∅
  entries : s.m_entries_by_txid = ∅
  listed : s.m_entries = []
  settled : Settled done (· ∈ pool) s.m_requested_outpoints_by_txid s.m_bump_fees
  replaced : Replaced pool done s.m_to_be_replaced

variable {s : MiniMiner} {done : List Uint256}

theorem Replaced.ask {done : List COutPoint} {replaced : List Uint256} (h : Replaced pool done replaced)
    (hnone : o.hash ∈ pool → getConflictTx pool o = none) : Replaced pool (done ++ [o]) replaced := by
  refine ⟨fun o' ho' hin k hk => ?_, h.down⟩
  rcases mem_append.mp ho' with ho' | ho'
  · exact h.spender o' ho' hin k hk
  · rw [mem_singleton.mp ho'] at hin hk
    rw [hnone hin] at hk
    cases hk

theorem requestOutpoint_spec {done : List COutPoint} (h : Requested pool done s) (o : COutPoint) :
    ∃ s', requestOutpoint pool s o = .ok s' ∧ Requested pool (done ++ [o]) s' := by
  unfold requestOutpoint
  split
  · next hout => exact ⟨_, rfl, h.ready, h.in_block, h.uncached, h.entries, h.listed, h.settled.closed hout,
      h.replaced.ask fun hin => absurd hin hout⟩
  · next hin =>
    have hask := h.settled.ask (not_not.mp hin)
    dsimp only
    split
    · next hnone =>
      exact ⟨_, rfl, h.ready, h.in_block, h.uncached, h.entries, h.listed, hask, h.replaced.ask fun _ => hnone⟩
    · next ptx hconflict =>
      obtain ⟨_, hdescendants, -, hmem⟩ := calculateDescendants_spec (getConflictTx_mem hconflict)
      rw [hdescendants, ok_bind]
      refine ⟨_, rfl, h.ready, h.in_block, h.uncached, h.entries, h.listed, hask, fun o' ho' hin' k hk => ?_, ?_⟩
      · rcases mem_append.mp ho' with ho' | ho'
        · exact mem_append_left _ (h.replaced.spender o' ho' hin' k hk)
        · rw [mem_singleton.mp ho', hconflict] at hk
          cases hk
          exact mem_append_right _ ((hmem _).mpr ⟨getConflictTx_mem hconflict, .refl⟩)
      · intro p hp k hparent
        rcases mem_append.mp hp with hp | hp
        · exact mem_append_left _ (h.replaced.down p hp k hparent)
        · exact mem_append_right _ ((hmem k).mpr ⟨(parent_mem hparent).1, .head hparent ((hmem p).mp hp).2⟩)

/-! ## The entries -/

structure Added (pool : MockEntryMap) (outpoints : List COutPoint) (done : List Uint256) (s : MiniMiner) : Prop where
  ready : s.m_ready_to_calculate = true
  in_block : s.m_in_block = []
  uncached : s.m_descendant_set_by_txid = ∅
  entries : ∀ k, s.m_entries_by_txid.lookup k = if k ∈ done ∧ k ∉ s.m_to_be_replaced then pool.lookup k else none
  listed : s.m_entries = done.filter (· ∉ s.m_to_be_replaced)
  settled : Settled outpoints (fun k => k ∈ pool ∧ ¬(k ∈ done ∧ k ∈ s.m_to_be_replaced))
    s.m_requested_outpoints_by_txid s.m_bump_fees
  replaced : Replaced pool outpoints s.m_to_be_replaced

theorem Added.mem (h : Added pool outpoints done s) : k ∈ s.m_entries_by_txid ↔
    k ∈ pool ∧ k ∈ done ∧ k ∉ s.m_to_be_replaced := by
  rw [← lookup_isSome, h.entries]
  split
  · next hk => exact lookup_isSome.trans (and_iff_left hk).symm
  · next hk => simp [hk]

theorem addEntry_spec (h : Added pool outpoints done s) (hk : k ∈ pool) :
    ∃ s', addEntry pool s k = .ok s' ∧ Added pool outpoints (done ++ [k]) s' := by
  obtain ⟨_, he⟩ := mem_iff_lookup.mp hk
  unfold addEntry
  rw [he]
  dsimp only
  split
  · next hkept =>
    refine ⟨_, rfl, h.ready, h.in_block, h.uncached, fun j => ?_, ?_, h.settled.congr fun o _ => ?_, h.replaced⟩
    · rw [lookup_emplace, h.entries]
      by_cases hj : j = k
      · subst hj
        by_cases hdone : j ∈ done
        all_goals simp [hdone, hkept, he]
      · simp [hj]
    · simp [h.listed, filter_append, hkept]
    · simp only [mem_append, mem_singleton]
      grind
  · next hreplaced =>
    refine ⟨_, rfl, h.ready, h.in_block, h.uncached, fun j => ?_, ?_, (h.settled.settle k).congr fun o _ =>
      ?_, h.replaced⟩
    · rw [h.entries]
      by_cases hj : j = k
      · subst hj
        simp [not_not.mp hreplaced]
      · simp [hj]
    · simp [h.listed, filter_append, not_not.mp hreplaced]
    · simp only [mem_append, mem_singleton]
      grind

structure CachedSo (pool : MockEntryMap) (before : MiniMiner) (done : List Uint256) (s : MiniMiner) : Prop where
  same : s = { before with m_descendant_set_by_txid := s.m_descendant_set_by_txid }
  right : ∀ k l, s.m_descendant_set_by_txid.lookup k = some l → l.Nodup ∧
    ∀ d, d ∈ l ↔ (d ∈ pool ∧ ReflTransGen (Parent pool) d k) ∧ d ∉ before.m_to_be_replaced
  covers : ∀ k ∈ done, k ∉ before.m_to_be_replaced → ∃ l, s.m_descendant_set_by_txid.lookup k = some l

theorem cacheDescendants_spec {before : MiniMiner} (h : CachedSo pool before done s)
    (hk : k ∈ pool) : ∃ s', cacheDescendants pool s k = .ok s' ∧ CachedSo pool before (done ++ [k]) s' := by
  obtain ⟨_, hout, hnodup, hmem⟩ := calculateDescendants_spec hk
  have hsame : s.m_to_be_replaced = before.m_to_be_replaced := by rw [h.same]
  rw [cacheDescendants, hout, ok_bind, hsame]
  split
  · next hreplaced =>
    refine ⟨s, rfl, h.same, h.right, fun j hj hkept => ?_⟩
    rcases mem_append.mp hj with hj | hj
    · exact h.covers j hj hkept
    · rw [mem_singleton.mp hj] at hkept
      exact absurd hreplaced hkept
  · refine ⟨_, rfl, by rw [h.same], fun j l hl => ?_, fun j hj hkept => ?_⟩
    · rw [lookup_emplace, or_eq_some_iff] at hl
      rcases hl with hl | ⟨-, hl⟩
      · exact h.right j l hl
      · split at hl
        · next hj =>
          cases hl
          subst hj
          refine ⟨hnodup.filter _, fun d => ?_⟩
          rw [mem_filter, hmem, decide_eq_true_iff]
        · cases hl
    · rw [← isSome_iff_exists, lookup_emplace]
      rcases mem_append.mp hj with hj | hj
      · obtain ⟨l, hl⟩ := h.covers j hj hkept
        simp [hl]
      · simp [mem_singleton.mp hj]

/-! ## The constructor -/

structure Opened (pool : MockEntryMap) (outpoints : List COutPoint) (s : MiniMiner) : Prop where
  inv : Inv pool s
  unmined : s.m_in_block = []
  settled : s.m_ready_to_calculate = true →
      Settled outpoints (· ∈ s.m_entries_by_txid) s.m_requested_outpoints_by_txid s.m_bump_fees
  unspent : ∃ replaced, Replaced pool outpoints replaced ∧ ∀ k ∈ s.m_entries_by_txid, k ∉ replaced

theorem inv_of_empty (hentries : s.m_entries_by_txid = ∅) (hlisted : s.m_entries = [])
    (hunmined : s.m_in_block = []) : Inv pool s := by
  have hnone : ∀ k, k ∉ s.m_entries_by_txid := fun k => hentries ▸ notMem_empty k
  have hlookup : ∀ k, s.m_entries_by_txid.lookup k = none := fun k => lookup_eq_none.mpr (hnone k)
  refine ⟨fun k e he => ?_, fun k _ _ hk => absurd hk (hnone k), fun k e he => ?_, fun k hk => absurd hk (hnone k),
    hlisted ▸ nodup_nil, fun k => by simp [hlisted, hnone k], by simp [hunmined]⟩
  all_goals
    rw [hlookup k] at he
    cases he

theorem inv_of_cluster (hexact : ExactTotals pool) {cluster : List Uint256} {s' : MiniMiner}
    (hcluster : Cluster pool cluster) (hadded : Added pool outpoints cluster s)
    (hcached : CachedSo pool s cluster s') : Inv pool s' := by
  have hlookup : ∀ k, s'.m_entries_by_txid.lookup k =
      if k ∈ cluster ∧ k ∉ s.m_to_be_replaced then pool.lookup k else none := by
    rw [hcached.same]
    exact hadded.entries
  have hmem : ∀ k, k ∈ s'.m_entries_by_txid ↔ k ∈ cluster ∧ k ∉ s.m_to_be_replaced := by
    intro k
    rw [hcached.same, hadded.mem]
    exact and_iff_right_of_imp fun h => hcluster.sub k h.1
  have hpool : ∀ k e, s'.m_entries_by_txid.lookup k = some e → pool.lookup k = some e := by
    intro k e he
    rw [hlookup k] at he
    split at he
    · exact he
    · cases he
  -- a parent that is replaced would replace the child
  have hup : ∀ k n, k ∈ s'.m_entries_by_txid → ReflTransGen (Parent pool) k n → n ∈ s'.m_entries_by_txid := by
    intro k n hk hreach
    induction hreach with
    | refl => exact hk
    | tail _ hstep ih =>
      obtain ⟨hin, hkept⟩ := (hmem _).mp ih
      exact (hmem _).mpr ⟨hcluster.up _ hin _ hstep, fun hp => hkept (hadded.replaced.down _ hp _ hstep)⟩
  have hdown : ∀ d k, k ∈ cluster → ReflTransGen (Parent pool) d k → d ∈ cluster := by
    intro d k hk hreach
    induction hreach using ReflTransGen.head_induction_on with
    | refl => exact hk
    | head hstep _ ih => exact hcluster.down _ ih _ hstep
  have hlisted : s'.m_entries = cluster.filter (· ∉ s.m_to_be_replaced) := by
    rw [hcached.same]
    exact hadded.listed
  refine ⟨fun k e he => ⟨e, hpool k e he, rfl, rfl, rfl⟩, fun k n _ hk _ hkn _ => hup k n hk hkn, fun k e he => ?_,
    fun k hk => ?_, hlisted ▸ hcluster.nodup.filter _, fun k => ?_, ?_⟩
  · rw [hexact k e (hpool k e he)]
    refine Finset.sum_congr ?_ fun _ _ => rfl
    ext a
    simp only [mem_ancestors, List.mem_toFinset, AList.mem_keys.symm]
    constructor
    · rintro ⟨-, hreach⟩
      exact ⟨hup k a (mem_iff_lookup.mpr ⟨e, he⟩) hreach, hreach⟩
    · rintro ⟨ha, hreach⟩
      exact ⟨hcluster.sub a ((hmem a).mp ha).1, hreach⟩
  · obtain ⟨hin, hkept⟩ := (hmem k).mp hk
    obtain ⟨l, hl⟩ := hcached.covers k hin hkept
    obtain ⟨hnodup, hdesc⟩ := hcached.right k l hl
    refine ⟨l, hl, hnodup, fun d => ?_⟩
    rw [hdesc d, hmem d]
    constructor
    · rintro ⟨⟨-, hreach⟩, hd⟩
      exact ⟨⟨hdown d k hin hreach, hd⟩, hreach⟩
    · rintro ⟨⟨hd, hkept⟩, hreach⟩
      exact ⟨⟨hcluster.sub d hd, hreach⟩, hkept⟩
  · rw [hlisted, mem_filter, hmem k, decide_eq_true_iff]
  · have hunmined : s'.m_in_block = [] := by
      rw [hcached.same]
      exact hadded.in_block
    simp [hunmined]

theorem new_spec (hexact : ExactTotals pool) (outpoints : List COutPoint) :
    ∃ s, new pool outpoints = .ok s ∧ Opened pool outpoints s := by
  obtain ⟨s, hs, h⟩ := foldlM_rule (f := requestOutpoint pool) (l := outpoints) (I := Requested pool)
    (fun done o s _ h => requestOutpoint_spec h o)
    (s := {}) ⟨rfl, rfl, rfl, rfl, rfl, ⟨fun k l => by simp [asked], fun o x => by simp⟩, by simp, by simp⟩
  rw [new, hs, ok_bind]
  have hnothing (s' : MiniMiner) (hs' : s'.m_entries_by_txid = ∅) : ∃ replaced, Replaced pool outpoints replaced ∧
      ∀ k ∈ s'.m_entries_by_txid, k ∉ replaced := by
    refine ⟨_, h.replaced, fun k hk => ?_⟩
    rw [hs'] at hk
    exact absurd hk (notMem_empty k)
  have hkeys : ∀ o ∈ outpoints, o.hash ∈ pool → o.hash ∈ s.m_requested_outpoints_by_txid.keys := by
    intro o ho hin
    have hmem : o ∈ asked outpoints o.hash := mem_asked.mpr ⟨ho, rfl⟩
    exact mem_keys.mpr (mem_iff_lookup.mpr ⟨_, (h.settled.requested _ _).mpr ⟨hin, rfl, ne_nil_of_mem hmem⟩⟩)
  split
  · next hempty =>
    refine ⟨s, rfl, inv_of_empty h.entries h.listed h.in_block, h.in_block, fun _ => h.settled.congr fun o ho => ?_,
      hnothing s h.entries⟩
    rw [h.entries]
    refine iff_of_false (fun hin => ?_) (notMem_empty _)
    have := hkeys o ho hin
    rw [isEmpty_iff.mp hempty] at this
    cases this
  · obtain ⟨cluster, hgather, hcluster⟩ := gatherClusters_spec pool s.m_requested_outpoints_by_txid.keys_nodup
    rw [hgather, ok_bind]
    split
    · exact ⟨_, rfl, inv_of_empty h.entries h.listed h.in_block, h.in_block, (by rintro ⟨⟩), hnothing _ h.entries⟩
    · next hne =>
      obtain ⟨hcluster, hcovers⟩ := hcluster.resolve_left (mt isEmpty_iff.mpr hne)
      obtain ⟨s1, hs1, h1⟩ := foldlM_rule (f := addEntry pool) (l := cluster) (I := Added pool outpoints)
        (fun done k s hk h => addEntry_spec h (hcluster.sub k hk)) (s := s)
        ⟨h.ready, h.in_block, h.uncached, by simp [h.entries], by simp [h.listed], by simpa using h.settled, h.replaced⟩
      obtain ⟨s2, hs2, h2⟩ := foldlM_rule (f := cacheDescendants pool) (l := cluster) (I := CachedSo pool s1)
        (fun done k s hk h => cacheDescendants_spec h (hcluster.sub k hk)) (s := s1)
        ⟨rfl, by simp [h1.uncached], by simp⟩
      rw [hs1, ok_bind]
      refine ⟨s2, hs2, inv_of_cluster hexact hcluster h1 h2, ?_, fun _ => ?_, _, h1.replaced, fun k hk => ?_⟩
      · rw [h2.same]
        exact h1.in_block
      · rw [h2.same]
        refine h1.settled.congr fun o ho => ?_
        have hin := fun hin => hcovers _ (hkeys o ho hin) hin
        change _ ↔ o.hash ∈ s1.m_entries_by_txid
        rw [h1.mem]
        tauto
      · rw [h2.same] at hk
        exact (h1.mem.mp hk).2.2

end FullNode.MiniMiner

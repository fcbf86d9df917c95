import FullNode.MempoolGraph
import FullNode.MempoolUpdate

/-!
# Changed entries

`Changed` says how each entry of one pool is related to the entry of the same id in another, and that the indices are
the same.
-/

namespace FullNode.Mempool

open OrderedIndex List
open TxRequest (memoryBytes)

/-! ## What becomes of an entry -/

namespace CTxMemPoolEntry

def bare (e : CTxMemPoolEntry) : CTxMemPoolEntry :=
  { e with
    parents := []
    children := []
    countWithDescendants := 1
    sizeWithDescendants := 0
    modFeesWithDescendants := 0
    countWithAncestors := 1
    sizeWithAncestors := 0
    modFeesWithAncestors := 0
    sigOpCostWithAncestors := 0
    idxRandomized := 0
    saturated := false }

/-- New links, and what is added to the sums. The rest is the same. -/
structure Becomes (parents children : List Uint256) (above : Int × Int × Int × Int) (below : Int × Int × Int)
    (e e' : CTxMemPoolEntry) : Prop where
  bare : e'.bare = e.bare
  parents : e'.parents = parents
  children : e'.children = children
  above : e'.withAncestors = e.withAncestors + above
  below : e'.withDescendants = e.withDescendants + below

variable {e e' : CTxMemPoolEntry}

theorem Becomes.refl (e : CTxMemPoolEntry) : Becomes e.parents e.children 0 0 e e :=
  ⟨rfl, rfl, rfl, (add_zero _).symm, (add_zero _).symm⟩

theorem own_of_bare (h : e'.bare = e.bare) : e'.own = e.own := (congrArg own h : e'.bare.own = e.bare.own)

theorem ownBelow_of_bare (h : e'.bare = e.bare) : e'.ownBelow = e.ownBelow :=
  (congrArg ownBelow h : e'.bare.ownBelow = e.bare.ownBelow)

theorem tx_of_bare (h : e'.bare = e.bare) : e'.tx = e.tx := (congrArg tx h : e'.bare.tx = e.bare.tx)

theorem saturatingAdd_eq {i j : Int} (h : saturates i j = false) : saturatingAdd i j = i + j := by
  unfold saturates at h
  unfold saturatingAdd
  rw [decide_eq_false_iff_not, not_or] at h
  rw [if_neg h.1, if_neg h.2]

theorem updateDescendantState_becomes {modifySize modifyFee modifyCount : Int}
    (h : e.updateDescendantState modifySize modifyFee modifyCount = .ok e') (hsat : e'.saturated = false) :
    Becomes e.parents e.children 0 (modifyCount, modifySize, modifyFee) e e' := by
  unfold updateDescendantState at h
  obtain ⟨-, -, h⟩ := bind_ok.mp h
  obtain ⟨-, -, h⟩ := bind_ok.mp h
  cases h
  rw [Bool.or_eq_false_iff] at hsat
  refine ⟨rfl, rfl, rfl, (add_zero _).symm, ?_⟩
  simp only [withDescendants, saturatingAdd_eq hsat.2]
  rfl

theorem updateAncestorState_becomes {modifySize modifyFee modifyCount modifySigOps : Int}
    (h : e.updateAncestorState modifySize modifyFee modifyCount modifySigOps = .ok e') (hsat : e'.saturated = false) :
    Becomes e.parents e.children (modifyCount, modifySize, modifyFee, modifySigOps) 0 e e' := by
  unfold updateAncestorState at h
  iterate 3 obtain ⟨-, -, h⟩ := bind_ok.mp h
  cases h
  rw [Bool.or_eq_false_iff] at hsat
  refine ⟨rfl, rfl, rfl, ?_, (add_zero _).symm⟩
  simp only [withAncestors, saturatingAdd_eq hsat.2]
  rfl

def withChild (child : Uint256) (add : Bool) (e : CTxMemPoolEntry) : CTxMemPoolEntry :=
  { e with children := if add then insertNew memoryBytes child e.children else e.children.erase child }

def withParent (parent : Uint256) (add : Bool) (e : CTxMemPoolEntry) : CTxMemPoolEntry :=
  { e with parents := if add then insertNew memoryBytes parent e.parents else e.parents.erase parent }

end CTxMemPoolEntry

namespace CTxMemPool

structure SameIndices (pool pool' : CTxMemPool) : Prop where
  mapNextTx : pool'.mapNextTx = pool.mapNextTx
  mapDeltas : pool'.mapDeltas = pool.mapDeltas
  mapUsedSPK : pool'.mapUsedSPK = pool.mapUsedSPK
  totalTxSize : pool'.totalTxSize = pool.totalTxSize
  totalFee : pool'.totalFee = pool.totalFee

structure Changed (R : Uint256 → CTxMemPoolEntry → CTxMemPoolEntry → Prop) (pool pool' : CTxMemPool) : Prop
    extends SameIndices pool pool' where
  found : ∀ {k e}, pool.find k = some e → ∃ e', pool'.find k = some e' ∧ R k e e'
  absent : ∀ {k}, pool.find k = none → pool'.find k = none
  saturated : pool'.saturated = false → pool.saturated = false

variable {R S T : Uint256 → CTxMemPoolEntry → CTxMemPoolEntry → Prop} {pool pool' pool1 pool2 : CTxMemPool}
  {k : Uint256} {e e' : CTxMemPoolEntry} {f : CTxMemPoolEntry → Checked CTxMemPoolEntry} {ks : List Uint256}
  {add : Bool}

theorem SameIndices.refl (pool : CTxMemPool) : SameIndices pool pool := ⟨rfl, rfl, rfl, rfl, rfl⟩

theorem SameIndices.trans (h : SameIndices pool pool1) (h' : SameIndices pool1 pool2) : SameIndices pool pool2 :=
  ⟨h'.mapNextTx.trans h.mapNextTx, h'.mapDeltas.trans h.mapDeltas, h'.mapUsedSPK.trans h.mapUsedSPK,
    h'.totalTxSize.trans h.totalTxSize, h'.totalFee.trans h.totalFee⟩

theorem Changed.refl (hR : ∀ k e, R k e e) (pool : CTxMemPool) : Changed R pool pool :=
  ⟨.refl pool, fun {k e} h => ⟨e, h, hR k e⟩, id, id⟩

theorem Changed.trans (h : Changed R pool pool1) (h' : Changed S pool1 pool2)
    (hT : ∀ k a b c, R k a b → S k b c → T k a c) : Changed T pool pool2 := by
  refine ⟨h.toSameIndices.trans h'.toSameIndices, ?_, fun hk => h'.absent (h.absent hk),
    fun hsat => h.saturated (h'.saturated hsat)⟩
  intro k a ha
  obtain ⟨b, hb, hR⟩ := h.found ha
  obtain ⟨c, hc, hS⟩ := h'.found hb
  exact ⟨c, hc, hT k a b c hR hS⟩

theorem Changed.mono (h : Changed R pool pool') (hRS : ∀ k a b, R k a b → S k a b) : Changed S pool pool' := by
  refine ⟨h.toSameIndices, fun {k e} hk => ?_, h.absent, h.saturated⟩
  obtain ⟨e', he', hR⟩ := h.found hk
  exact ⟨e', he', hRS k e e' hR⟩

theorem Changed.of_some (h : Changed R pool pool') (hk : pool'.find k = some e') :
    ∃ e, pool.find k = some e ∧ R k e e' := by
  cases hfind : pool.find k with
  | none =>
    rw [h.absent hfind] at hk
    cases hk
  | some e =>
    obtain ⟨_, hx, hR⟩ := h.found hfind
    rw [hk] at hx
    cases hx
    exact ⟨e, rfl, hR⟩

/-! ## `mapTx.modify` -/

theorem entryAt_ok : pool.entryAt k = .ok e ↔ pool.find k = some e := by
  unfold entryAt
  cases pool.find k with
  | none => simp
  | some x => simp

theorem find_insert (pool : CTxMemPool) (k j : Uint256) (e : CTxMemPoolEntry) (saturated : Bool) :
    ({ pool with mapTx := pool.mapTx.insert k e, saturated } : CTxMemPool).find j =
      if j = k then some e else pool.find j := by
  unfold find
  simp only
  split
  · next hj => rw [hj, AList.lookup_insert]
  · next hj => rw [AList.lookup_insert_ne hj]

theorem modify_changed (h : pool.modify k f = .ok pool') :
    Changed (fun j e e' => if j = k then f e = .ok e' else e' = e) pool pool' ∧
    (pool'.saturated = false → ∀ e', pool'.find k = some e' → e'.saturated = false) := by
  unfold modify at h
  obtain ⟨e, hentry, h⟩ := bind_ok.mp h
  obtain ⟨e', _, h⟩ := bind_ok.mp h
  cases h
  rw [entryAt_ok] at hentry
  refine ⟨⟨⟨rfl, rfl, rfl, rfl, rfl⟩, ?_, ?_, ?_⟩, ?_⟩
  · intro j x hx
    rw [find_insert]
    by_cases hj : j = k
    · subst hj
      rw [hentry] at hx
      cases hx
      exact ⟨e', if_pos rfl, by rwa [if_pos rfl]⟩
    · exact ⟨x, by rwa [if_neg hj], by rw [if_neg hj]⟩
  · intro j hj
    rw [find_insert, if_neg]
    · exact hj
    · rintro rfl
      rw [hentry] at hj
      cases hj
  · intro hsat
    rw [Bool.or_eq_false_iff] at hsat
    exact hsat.1
  · intro hsat x hx
    rw [find_insert, if_pos rfl] at hx
    cases hx
    rw [Bool.or_eq_false_iff] at hsat
    exact hsat.2

theorem foldlM_changed {step : CTxMemPool → Uint256 → Checked CTxMemPool} {Q : CTxMemPoolEntry → CTxMemPoolEntry → Prop}
    (hstep : ∀ pool k pool', step pool k = .ok pool' →
      Changed (fun j e e' => if j = k then Q e e' else e' = e) pool pool')
    (hnodup : ks.Nodup) (h : ks.foldlM step pool = .ok pool') :
    Changed (fun j e e' => if j ∈ ks then Q e e' else e' = e) pool pool' := by
  induction ks generalizing pool with
  | nil =>
    cases h
    refine .refl (fun j e => ?_) _
    rw [if_neg not_mem_nil]
  | cons k ks ih =>
    obtain ⟨hk, hks⟩ := nodup_cons.mp hnodup
    rw [foldlM_cons] at h
    obtain ⟨_, hfirst, hrest⟩ := bind_ok.mp h
    refine (hstep _ _ _ hfirst).trans (ih hks hrest) ?_
    intro j a b c hab hbc
    by_cases hj : j = k
    · subst hj
      rw [if_pos rfl] at hab
      rw [if_neg hk] at hbc
      rw [if_pos mem_cons_self, hbc]
      exact hab
    · rw [if_neg hj] at hab
      subst hab
      simpa [hj] using hbc

theorem modifyAll_changed (hnodup : ks.Nodup) (h : modifyAll f ks pool = .ok pool') :
    Changed (fun j e e' => if j ∈ ks then f e = .ok e' else e' = e) pool pool' ∧
      (pool'.saturated = false → ∀ j ∈ ks, ∀ e', pool'.find j = some e' → e'.saturated = false) := by
  refine ⟨foldlM_changed (fun _ _ _ hmodify => (modify_changed hmodify).1) hnodup h, ?_⟩
  unfold modifyAll at h
  induction ks generalizing pool with
  | nil => exact fun _ j hj => by cases hj
  | cons k ks ih =>
    obtain ⟨hk, hks⟩ := nodup_cons.mp hnodup
    rw [foldlM_cons] at h
    obtain ⟨pool1, hfirst, hrest⟩ := bind_ok.mp h
    have hchanged : Changed (fun j e e' => if j ∈ ks then f e = .ok e' else e' = e) pool1 pool' :=
      foldlM_changed (fun _ _ _ hmodify => (modify_changed hmodify).1) hks hrest
    intro hpool j hj e' he'
    rcases mem_cons.mp hj with rfl | hj
    · obtain ⟨_, hx, hkeep⟩ := hchanged.of_some he'
      rw [if_neg hk] at hkeep
      subst hkeep
      exact (modify_changed hfirst).2 (hchanged.saturated hpool) e' hx
    · exact ih hks hrest hpool j hj e' he'

theorem modifyAll_becomes {above : Int × Int × Int × Int} {below : Int × Int × Int} (hnodup : ks.Nodup)
    (h : modifyAll f ks pool = .ok pool') (hsat : pool'.saturated = false)
    (hf : ∀ e e', f e = .ok e' → e'.saturated = false → e.Becomes e.parents e.children above below e') :
    Changed (fun j e e' => e.Becomes e.parents e.children (if j ∈ ks then above else 0)
      (if j ∈ ks then below else 0) e') pool pool' := by
  obtain ⟨hchanged, hsats⟩ := modifyAll_changed hnodup h
  refine ⟨hchanged.toSameIndices, fun {j e} he => ?_, hchanged.absent, hchanged.saturated⟩
  obtain ⟨e', he', hR⟩ := hchanged.found he
  refine ⟨e', he', ?_⟩
  split at hR
  · next hj =>
    rw [if_pos hj, if_pos hj]
    exact hf e e' hR (hsats hsat j hj e' he')
  · next hj =>
    rw [if_neg hj, if_neg hj, hR]
    exact .refl e

theorem foldlM_changedOne {α : Type} {step : CTxMemPool → α → Checked CTxMemPool}
    {g : α → CTxMemPoolEntry → CTxMemPoolEntry} {xs : List α} (hstep : ∀ pool x pool', step pool x = .ok pool' →
      Changed (fun j e e' => if j = k then e' = g x e else e' = e) pool pool')
    (h : xs.foldlM step pool = .ok pool') :
    Changed (fun j e e' => if j = k then e' = xs.foldl (fun e x => g x e) e else e' = e) pool pool' := by
  induction xs generalizing pool with
  | nil =>
    cases h
    refine .refl (fun j e => ?_) _
    split <;> rfl
  | cons x xs ih =>
    rw [foldlM_cons] at h
    obtain ⟨_, hfirst, hrest⟩ := bind_ok.mp h
    refine (hstep _ _ _ hfirst).trans (ih hrest) ?_
    intro j a b c hab hbc
    split at hab
    · next hj =>
      rw [if_pos hj] at hbc ⊢
      rw [hbc, hab]
      rfl
    · next hj =>
      subst hab
      rw [if_neg hj] at hbc ⊢
      exact hbc

/-! ## Links -/

theorem modifyTo_changed {g : CTxMemPoolEntry → CTxMemPoolEntry} (h : (pool.modify k fun e => .ok (g e)) = .ok pool') :
    Changed (fun j e e' => if j = k then e' = g e else e' = e) pool pool' := by
  refine (modify_changed h).1.mono ?_
  intro j e e' hR
  split at hR
  · next hj =>
    rw [if_pos hj]
    cases hR
    rfl
  · next hj => rwa [if_neg hj]

theorem Changed.charge (h : Changed R pool pool') (usage : Int) : Changed R pool (pool'.charge usage) :=
  ⟨⟨h.mapNextTx, h.mapDeltas, h.mapUsedSPK, h.totalTxSize, h.totalFee⟩, h.found, h.absent, h.saturated⟩

theorem updateChild_changed {child : Uint256} (h : pool.updateChild k child add = .ok pool') :
    Changed (fun j e e' => if j = k then e' = CTxMemPoolEntry.withChild child add e else e' = e) pool pool' := by
  unfold updateChild at h
  obtain ⟨_, -, h⟩ := bind_ok.mp h
  obtain ⟨_, hmodify, h⟩ := bind_ok.mp h
  cases h
  exact (modifyTo_changed hmodify).charge _

theorem updateParent_changed {parent : Uint256} (h : pool.updateParent k parent add = .ok pool') :
    Changed (fun j e e' => if j = k then e' = CTxMemPoolEntry.withParent parent add e else e' = e) pool pool' := by
  unfold updateParent at h
  obtain ⟨_, -, h⟩ := bind_ok.mp h
  obtain ⟨_, hmodify, h⟩ := bind_ok.mp h
  cases h
  exact (modifyTo_changed hmodify).charge _

end CTxMemPool
end FullNode.Mempool

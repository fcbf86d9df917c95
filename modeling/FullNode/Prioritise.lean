import FullNode.MempoolEntering

/-! # Prioritised transactions -/

namespace FullNode.Mempool

open Ancestry Finset
open Relation

namespace CTxMemPoolEntry

def feeless (e : CTxMemPoolEntry) : CTxMemPoolEntry := { e.bare with modifiedFee := 0 }

theorem eq_of_feeless {α : Type} {e e' : CTxMemPoolEntry} (h : e'.feeless = e.feeless) (g : CTxMemPoolEntry → α)
    (hg : ∀ e, g e = g e.feeless) : g e' = g e := by
  rw [hg e', hg e, h]

end CTxMemPoolEntry

namespace CTxMemPool

variable {pool pool' : CTxMemPool} {E : Uint256 → Uint256 → Prop} {hash j : Uint256} {nFeeDelta : Int}
  {e e' : CTxMemPoolEntry}

def deltaOf (pool : CTxMemPool) (hash : Uint256) : Int := (pool.mapDeltas.lookup hash).getD 0

open Classical in
/-- A call moves the fee of the transaction, and sums over it. -/
structure Moved (E : Uint256 → Uint256 → Prop) (hash : Uint256) (nFeeDelta : Int) (j : Uint256)
    (e e' : CTxMemPoolEntry) : Prop where
  rest : e'.feeless = e.feeless
  parents : e'.parents = e.parents
  children : e'.children = e.children
  fee : e'.modifiedFee = e.modifiedFee + if j = hash then nFeeDelta else 0
  above : e'.withAncestors = e.withAncestors + if ReflTransGen E j hash then (0, 0, nFeeDelta, 0) else 0
  below : e'.withDescendants = e.withDescendants + if ReflTransGen E hash j then (0, 0, nFeeDelta) else 0

structure Prioritised (hash : Uint256) (nFeeDelta : Int) (pool pool' : CTxMemPool) : Prop where
  found : ∀ {j e}, pool.find j = some e → ∃ e', pool'.find j = some e' ∧ Moved pool.Spends hash nFeeDelta j e e'
  absent : ∀ {j}, pool.find j = none → pool'.find j = none
  delta : ∀ h, pool'.deltaOf h = pool.deltaOf h + if h = hash then nFeeDelta else 0
  mapNextTx : pool'.mapNextTx = pool.mapNextTx
  mapUsedSPK : pool'.mapUsedSPK = pool.mapUsedSPK
  totalTxSize : pool'.totalTxSize = pool.totalTxSize
  totalFee : pool'.totalFee = pool.totalFee
  saturated : pool.saturated = false

/-! ## One call -/

theorem updateModifiedFee_moves (hsat : (e.updateModifiedFee nFeeDelta).saturated = false) :
    (e.updateModifiedFee nFeeDelta).feeless = e.feeless ∧
      (e.updateModifiedFee nFeeDelta).modifiedFee = e.modifiedFee + nFeeDelta ∧
      (e.updateModifiedFee nFeeDelta).withAncestors = e.withAncestors + (0, 0, nFeeDelta, 0) ∧
      (e.updateModifiedFee nFeeDelta).withDescendants = e.withDescendants + (0, 0, nFeeDelta) := by
  unfold CTxMemPoolEntry.updateModifiedFee at hsat
  simp only [Bool.or_eq_false_iff] at hsat
  obtain ⟨⟨⟨-, hbelow⟩, habove⟩, hfee⟩ := hsat
  refine ⟨rfl, CTxMemPoolEntry.saturatingAdd_eq hfee, ?_, ?_⟩
  · simp [CTxMemPoolEntry.withAncestors, CTxMemPoolEntry.updateModifiedFee, CTxMemPoolEntry.saturatingAdd_eq habove]
  · simp [CTxMemPoolEntry.withDescendants, CTxMemPoolEntry.updateModifiedFee, CTxMemPoolEntry.saturatingAdd_eq hbelow]

theorem Linked.of_links (hlinked : Linked E pool) (habsent : ∀ {j}, pool.find j = none → pool'.find j = none)
    (hfound : ∀ {j e}, pool.find j = some e → ∃ e', pool'.find j = some e' ∧ e'.parents = e.parents ∧
    e'.children = e.children) : Linked E pool' := by
  have hsame : ∀ j, pool'.parentsOf j = pool.parentsOf j ∧ pool'.childrenOf j = pool.childrenOf j := by
    intro j
    cases hfind : pool.find j with
    | none => simp [parentsOf, childrenOf, hfind, habsent hfind]
    | some e =>
      obtain ⟨e', he', hlinks⟩ := hfound hfind
      rwa [parentsOf_eq he', parentsOf_eq hfind, childrenOf_eq he', childrenOf_eq hfind]
  refine ⟨?_, ?_, ?_, ?_⟩
  · intro k p
    rw [(hsame k).1, hlinked.parents]
  · intro k p
    rw [(hsame p).2, hlinked.children]
  · intro k
    rw [(hsame k).1]
    exact hlinked.parents_nodup k
  · intro k
    rw [(hsame k).2]
    exact hlinked.children_nodup k

theorem Linked.of_changed {R : Uint256 → CTxMemPoolEntry → CTxMemPoolEntry → Prop} (hlinked : Linked E pool)
    (h : Changed R pool pool') (hR : ∀ j e e', R j e e' → e'.parents = e.parents ∧ e'.children = e.children) :
    Linked E pool' := by
  refine hlinked.of_links h.absent fun hfind => ?_
  obtain ⟨e', he', hRe⟩ := h.found hfind
  exact ⟨e', he', hR _ _ e' hRe⟩

theorem prioritiseEntry_spec (hlinked : Linked E pool) (hacyclic : ∀ x, ¬TransGen E x x)
    (h : pool.prioritiseEntry hash nFeeDelta = .ok pool') (hsat : pool'.saturated = false) :
    Changed (Moved E hash nFeeDelta) pool pool' := by
  classical
  unfold prioritiseEntry at h
  obtain ⟨pool1, hown, h⟩ := bind_ok.mp h
  obtain ⟨_, hit, h⟩ := bind_ok.mp h
  rw [entryAt_ok] at hit
  obtain ⟨setAncestors, hancestors, h⟩ := bind_ok.mp h
  obtain ⟨pool2, habove, h⟩ := bind_ok.mp h
  obtain ⟨setDescendants, hdescendants, hbelow⟩ := bind_ok.mp h
  -- the entry itself
  obtain ⟨hfirst, hfirstSat⟩ := modify_changed hown
  have hlinked1 : Linked E pool1 := by
    apply hlinked.of_changed hfirst
    intro j e e' hR
    split at hR
    · cases hR
      exact ⟨rfl, rfl⟩
    · rw [hR]
      exact ⟨rfl, rfl⟩
  -- its ancestors
  obtain ⟨_, hout, houtNodup, hmem⟩ := hlinked1.linkedAncestors_spec hit
  rw [hancestors] at hout
  cases hout
  have hdescendantsNodup : setDescendants.Nodup := calculateDescendants_nodup hdescendants List.nodup_nil
  have hthird := modifyAll_becomes (hdescendantsNodup.erase hash) hbelow hsat fun _ _ =>
      CTxMemPoolEntry.updateAncestorState_becomes
  have hsecond := modifyAll_becomes houtNodup habove (hthird.saturated hsat) fun _ _ =>
      CTxMemPoolEntry.updateDescendantState_becomes
  have hlinked2 : Linked E pool2 := hlinked1.of_changed hsecond fun _ _ _ hR => ⟨hR.parents, hR.children⟩
  -- its descendants
  have hmem' : ∀ x, x ∈ setDescendants ↔ ReflTransGen E x hash := by
    intro x
    rw [hlinked2.calculateDescendants_spec (by simp) hdescendants]
    simp
  have hall := (hfirst.trans hsecond (T := fun _ _ _ => True) fun _ _ _ _ _ _ => trivial).trans hthird
    (T := fun _ _ _ => True) fun _ _ _ _ _ _ => trivial
  refine ⟨hall.toSameIndices, ?_, hall.absent, hall.saturated⟩
  intro j e he
  obtain ⟨_, he1, h1⟩ := hfirst.found he
  obtain ⟨_, he2, h2⟩ := hsecond.found he1
  obtain ⟨e3, he3, h3⟩ := hthird.found he2
  refine ⟨e3, he3, ?_⟩
  have hfee : ∀ {a b : CTxMemPoolEntry}, b.bare = a.bare → b.modifiedFee = a.modifiedFee := fun {a b} hbare =>
    (congrArg CTxMemPoolEntry.modifiedFee hbare : b.bare.modifiedFee = a.bare.modifiedFee)
  have hrest : ∀ {a b : CTxMemPoolEntry}, b.bare = a.bare → b.feeless = a.feeless := fun {a b} hbare =>
    congrArg (fun x : CTxMemPoolEntry => { x with modifiedFee := 0 }) hbare
  by_cases hj : j = hash
  · subst hj
    rw [if_pos rfl] at h1
    cases h1
    obtain ⟨hbare, hmodified, hup, hdown⟩ :=
        updateModifiedFee_moves (hfirstSat (hsecond.saturated (hthird.saturated hsat)) _ he1)
    have hnot : j ∉ setAncestors := fun hloop => hacyclic j ((hmem j).mp hloop)
    have hnot' : j ∉ setDescendants.erase j := fun hbad => ((hdescendantsNodup.mem_erase_iff).mp hbad).1 rfl
    rw [if_neg hnot, if_neg hnot] at h2
    rw [if_neg hnot', if_neg hnot'] at h3
    refine ⟨?_, h3.parents.trans h2.parents, h3.children.trans h2.children, ?_, ?_, ?_⟩
    · exact (hrest h3.bare).trans ((hrest h2.bare).trans hbare)
    · rw [hfee h3.bare, hfee h2.bare, hmodified, if_pos rfl]
    · rw [h3.above, h2.above, hup, if_pos .refl, add_zero, add_zero]
    · rw [h3.below, h2.below, hdown, if_pos .refl, add_zero, add_zero]
  · rw [if_neg hj] at h1
    subst h1
    have hup : j ∈ setAncestors ↔ ReflTransGen E hash j := by
      rw [hmem, reflTransGen_iff_eq_or_transGen, or_iff_right hj]
    have hdown : j ∈ setDescendants.erase hash ↔ ReflTransGen E j hash := by
      rw [hdescendantsNodup.mem_erase_iff, hmem', and_iff_right hj]
    refine ⟨?_, h3.parents.trans h2.parents, h3.children.trans h2.children, ?_, ?_, ?_⟩
    · exact (hrest h3.bare).trans (hrest h2.bare)
    · rw [hfee h3.bare, hfee h2.bare, if_neg hj, add_zero]
    · rw [h3.above, h2.above, ite_self, add_zero]
      simp only [hdown]
    · rw [h3.below, h2.below, ite_self, add_zero]
      simp only [hup]

theorem deltaOf_record (pool : CTxMemPool) (hash h : Uint256) (total : Int) (saturated : Bool) :
    ({ pool with mapDeltas := if total = 0 then pool.mapDeltas.erase hash
      else pool.mapDeltas.insert hash total, saturated } : CTxMemPool).deltaOf h =
      if h = hash then total else pool.deltaOf h := by
  unfold deltaOf
  simp only
  by_cases hh : h = hash
  · subst hh
    split
    · next htotal => rw [AList.lookup_erase, if_pos rfl, htotal]; rfl
    · rw [AList.lookup_insert, if_pos rfl]
      rfl
  · rw [if_neg hh]
    split
    · rw [AList.lookup_erase_ne hh]
    · rw [AList.lookup_insert_ne hh]

theorem prioritiseTransaction_spec (hlinked : Linked pool.Spends pool) (hacyclic : ∀ x, ¬TransGen pool.Spends x x)
    (h : pool.prioritiseTransaction hash nFeeDelta = .ok pool') (hsat : pool'.saturated = false) :
    Prioritised hash nFeeDelta pool pool' := by
  unfold prioritiseTransaction at h
  simp only at h
  generalize hrecorded : ({ pool with
    mapDeltas := if saturatingAdd ((pool.mapDeltas.lookup hash).getD 0) nFeeDelta = 0 then pool.mapDeltas.erase hash
      else pool.mapDeltas.insert hash (saturatingAdd ((pool.mapDeltas.lookup hash).getD 0) nFeeDelta)
    saturated := pool.saturated || saturates ((pool.mapDeltas.lookup hash).getD 0) nFeeDelta
      } : CTxMemPool) = pool1 at h
  have hfind : ∀ j, pool1.find j = pool.find j := fun j => by rw [← hrecorded]; rfl
  have hchanged : Changed (Moved pool.Spends hash nFeeDelta) pool1 pool' := by
    split at h
    · have hlinked1 : Linked pool.Spends pool1 := by
        rw [← hrecorded]
        exact ⟨hlinked.parents, hlinked.children, hlinked.parents_nodup, hlinked.children_nodup⟩
      exact prioritiseEntry_spec hlinked1 hacyclic h hsat
    · next hout =>
      cases h
      have hkey : hash ∉ pool.keys := by
        intro hkey
        apply hout
        rw [existsTxid_iff, mem_keys, hfind]
        exact mem_keys.mp hkey
      refine ⟨.refl _, fun {j e} he => ⟨e, he, ?_⟩, id, id⟩
      rw [hfind] at he
      have hj := mem_keys_of_find he
      refine ⟨rfl, rfl, rfl, ?_, ?_, ?_⟩
      · rw [if_neg fun heq : j = hash => hkey (heq ▸ hj), add_zero]
      · rw [if_neg fun hreach => hkey (hlinked.reaches_mem hreach hj), add_zero]
      · rw [if_neg fun hreach => hkey (hlinked.mem_of_reaches hreach hj), add_zero]
  have hsat1 : pool1.saturated = false := hchanged.saturated hsat
  rw [← hrecorded] at hsat1
  simp only [Bool.or_eq_false_iff] at hsat1
  refine ⟨?_, ?_, ?_, ?_, ?_, ?_, ?_, hsat1.1⟩
  · intro j e he
    rw [← hfind] at he
    exact hchanged.found he
  · intro j hj
    rw [← hfind] at hj
    exact hchanged.absent hj
  · intro x
    have hdelta : pool'.deltaOf x = pool1.deltaOf x := by
      unfold deltaOf
      rw [hchanged.mapDeltas]
    rw [hdelta, ← hrecorded, deltaOf_record]
    split
    · next hx =>
      rw [hx, CTxMemPoolEntry.saturatingAdd_eq hsat1.2]
      rfl
    · rw [add_zero]
  all_goals rw [← hrecorded] at hchanged
  · exact hchanged.mapNextTx
  · exact hchanged.mapUsedSPK
  · exact hchanged.totalTxSize
  · exact hchanged.totalFee

/-! ## Exact fees -/

/-- The fee of every entry is its base fee with the recorded delta. -/
def Recorded (pool : CTxMemPool) : Prop := ∀ {k e}, pool.find k = some e → e.modifiedFee = e.nFee + pool.deltaOf k

/-- Exact without cycles, and fees with the recorded deltas. -/
structure Tidy (pool : CTxMemPool) : Prop where
  exact : Exact pool
  acyclic : ∀ x, ¬TransGen pool.Spends x x
  recorded : Recorded pool

variable {δ : Int}

theorem Moved.tx (h : Moved E hash δ j e e') : e'.tx = e.tx :=
  CTxMemPoolEntry.eq_of_feeless h.rest CTxMemPoolEntry.tx fun _ => rfl

variable (h : Prioritised hash δ pool pool')
include h

theorem Prioritised.of_some (hj : pool'.find j = some e') :
    ∃ e, pool.find j = some e ∧ Moved pool.Spends hash δ j e e' := by
  cases hfind : pool.find j with
  | none =>
    rw [h.absent hfind] at hj
    cases hj
  | some e =>
    obtain ⟨_, hx, hmoved⟩ := h.found hfind
    rw [hj] at hx
    cases hx
    exact ⟨e, rfl, hmoved⟩

theorem Prioritised.keys_eq : pool'.keys = pool.keys := by
  ext j
  rw [mem_keys, mem_keys]
  constructor
  · rintro ⟨e', he'⟩
    obtain ⟨e, he, -⟩ := h.of_some he'
    exact ⟨e, he⟩
  · rintro ⟨e, he⟩
    obtain ⟨e', he', -⟩ := h.found he
    exact ⟨e', he'⟩

theorem Prioritised.spends_eq : pool'.Spends = pool.Spends := by
  funext c p
  apply propext
  unfold Spends
  rw [h.keys_eq]
  constructor
  · rintro ⟨e', he', hp⟩
    obtain ⟨e, he, hmoved⟩ := h.of_some he'
    exact ⟨e, he, hmoved.tx ▸ hp⟩
  · rintro ⟨e, he, hp⟩
    obtain ⟨e', he', hmoved⟩ := h.found he
    exact ⟨e', he', by rwa [hmoved.tx]⟩

theorem Prioritised.linked (hlinked : Linked E pool) : Linked E pool' := by
  refine hlinked.of_links h.absent fun hfind => ?_
  obtain ⟨e', he', hmoved⟩ := h.found hfind
  exact ⟨e', he', hmoved.parents, hmoved.children⟩

theorem Prioritised.own_eq (hj : j ∈ pool.keys) :
    pool'.own j = pool.own j + (if j = hash then (0, 0, δ, 0) else 0) ∧
      pool'.ownBelow j = pool.ownBelow j + if j = hash then (0, 0, δ) else 0 := by
  obtain ⟨e, he⟩ := mem_keys.mp hj
  obtain ⟨e', he', hmoved⟩ := h.found he
  have hsize : e'.getTxSize = e.getTxSize :=
      CTxMemPoolEntry.eq_of_feeless hmoved.rest CTxMemPoolEntry.getTxSize fun _ => rfl
  have hsigops : e'.sigOpCost = e.sigOpCost :=
      CTxMemPoolEntry.eq_of_feeless hmoved.rest CTxMemPoolEntry.sigOpCost fun _ => rfl
  rw [own_of_find he', own_of_find he, ownBelow_of_find he', ownBelow_of_find he]
  unfold CTxMemPoolEntry.own CTxMemPoolEntry.ownBelow
  rw [hsize, hsigops, hmoved.fee]
  split
  · exact ⟨by simp, by simp⟩
  · exact ⟨by simp, by simp⟩

theorem Prioritised.exact (hexact : Exact pool) : Exact pool' := by
  classical
  refine ⟨?_, ?_, ?_⟩
  · rw [h.spends_eq]
    exact h.linked hexact.linked
  · rw [h.spends_eq]
    constructor
    · intro k e' he'
      obtain ⟨e, he, hmoved⟩ := h.of_some he'
      have hown : ∀ a ∈ ancestors pool.Spends pool.keys k,
          pool'.own a = pool.own a + if a = hash then (0, 0, δ, 0) else 0 :=
        fun a ha => (h.own_eq (mem_ancestors.mp ha).1).1
      have hreach : ReflTransGen pool.Spends k hash ↔ hash ∈ ancestors pool.Spends pool.keys k := by
        rw [mem_ancestors]
        exact ⟨fun hreach => ⟨hexact.linked.reaches_mem hreach (mem_keys_of_find he), hreach⟩, fun hmem => hmem.2⟩
      rw [hmoved.above, hexact.summed.ancestors he, h.keys_eq, sum_congr rfl hown, sum_add_distrib, sum_ite_eq']
      simp only [hreach]
    · intro k e' he'
      obtain ⟨e, he, hmoved⟩ := h.of_some he'
      have hown : ∀ d ∈ descendants pool.Spends pool.keys k,
          pool'.ownBelow d = pool.ownBelow d + if d = hash then (0, 0, δ) else 0 :=
        fun d hd => (h.own_eq (mem_descendants.mp hd).1).2
      have hreach : ReflTransGen pool.Spends hash k ↔ hash ∈ descendants pool.Spends pool.keys k := by
        rw [mem_descendants]
        exact ⟨fun hreach => ⟨hexact.linked.mem_of_reaches hreach (mem_keys_of_find he), hreach⟩, fun hmem => hmem.2⟩
      rw [hmoved.below, hexact.summed.descendants he, h.keys_eq, sum_congr rfl hown, sum_add_distrib, sum_ite_eq']
      simp only [hreach]
  · have hsum : ∀ g : CTxMemPoolEntry → Int, (∀ e e' : CTxMemPoolEntry, e'.feeless = e.feeless → g e' = g e) →
        ∑ k ∈ pool'.keys, (pool'.find k).elim 0 g = ∑ k ∈ pool.keys, (pool.find k).elim 0 g := by
      intro g hg
      rw [h.keys_eq]
      apply sum_congr rfl
      intro k hk
      obtain ⟨e, he⟩ := mem_keys.mp hk
      obtain ⟨e', he', hmoved⟩ := h.found he
      rw [he, he']
      exact hg e e' hmoved.rest
    refine ⟨?_, ?_, ?_, ?_⟩
    · intro k e' he'
      obtain ⟨e, he, hmoved⟩ := h.of_some he'
      rw [hmoved.tx]
      exact hexact.indexed.hash he
    · intro o k
      rw [h.mapNextTx, hexact.indexed.nextTx]
      constructor
      · rintro ⟨e, he, ho⟩
        obtain ⟨e', he', hmoved⟩ := h.found he
        exact ⟨e', he', by rwa [hmoved.tx]⟩
      · rintro ⟨e', he', ho⟩
        obtain ⟨e, he, hmoved⟩ := h.of_some he'
        exact ⟨e, he, hmoved.tx ▸ ho⟩
    · rw [h.totalTxSize, hexact.indexed.totalTxSize, hsum]
      exact fun e e' hrest => CTxMemPoolEntry.eq_of_feeless hrest CTxMemPoolEntry.getTxSize fun _ => rfl
    · rw [h.totalFee, hexact.indexed.totalFee, hsum]
      exact fun e e' hrest => CTxMemPoolEntry.eq_of_feeless hrest CTxMemPoolEntry.nFee fun _ => rfl

theorem Prioritised.tidy (htidy : Tidy pool) : Tidy pool' := by
  refine ⟨h.exact htidy.exact, ?_, ?_⟩
  · rw [h.spends_eq]
    exact htidy.acyclic
  · intro k e' he'
    obtain ⟨e, he, hmoved⟩ := h.of_some he'
    have hfee : e'.nFee = e.nFee := CTxMemPoolEntry.eq_of_feeless hmoved.rest CTxMemPoolEntry.nFee fun _ => rfl
    rw [hmoved.fee, h.delta, htidy.recorded he, hfee, add_assoc]

omit h

end CTxMemPool
end FullNode.Mempool

import FullNode.ConflictClusters
import Mathlib.Algebra.BigOperators.Ring.Finset

/-! # Diagrams of a replacement -/

namespace FullNode.Mempool

open Diagram FeeDiagrams List
open MiniMiner (FeeFrac)
open Relation

namespace CTxMemPool

/-! ## Groups of transactions -/

def fracOf (pool : CTxMemPool) (k : Uint256) : FeeFrac := (pool.find k).elim ⟨0, 0⟩ entryFrac

def groupFrac (pool : CTxMemPool) (group : List Uint256) : FeeFrac := sumFracs (group.map pool.fracOf)

def Affected (pool : CTxMemPool) (gone : List Uint256) (x : Uint256) : Prop := ∃ k ∈ gone, EqvGen pool.Spends k x

def rate (frac : FeeFrac) : ℚ := (toStep frac).rate

/-- Each transaction once, parents first, by the feerates. -/
structure Chunking (pool : CTxMemPool) (V : Uint256 → Prop) (groups : List (List Uint256)) : Prop where
  nodup : groups.flatten.Nodup
  mem : ∀ x, x ∈ groups.flatten ↔ V x
  topological : ∀ before after, groups = before ++ after → ∀ x ∈ before.flatten, ∀ p, pool.Spends x p →
      p ∈ before.flatten
  sorted : groups.Pairwise fun group group' => rate (pool.groupFrac group') ≤ rate (pool.groupFrac group)

/-- The chunks are of such groups, and no closed set is above the diagram. -/
structure Optimal (pool : CTxMemPool) (V : Uint256 → Prop) (chunks : List FeeFrac) : Prop where
  sized : FeeDiagrams.Sized chunks
  sorted : chunks.Pairwise fun chunk chunk' => rate chunk' ≤ rate chunk
  groups : ∃ groups, Chunking pool V groups ∧ chunks.Perm (groups.map pool.groupFrac)
  best : ∀ S : Finset Uint256, (∀ x ∈ S, V x) → (∀ x ∈ S, ∀ p, pool.Spends x p → p ∈ S) →
    ((∑ x ∈ S, (pool.fracOf x).fee : Int) : ℚ) ≤ diagram chunks ((∑ x ∈ S, (pool.fracOf x).size : Int) : ℚ)

structure Measured (pool : CTxMemPool) : Prop where
  positive : ∀ {k e}, pool.find k = some e → 0 < e.getTxSize
  package : ∀ {k e}, pool.find k = some e → e.sizeWithAncestors < 2 ^ 31

/-- The conflicts, with all their descendants. -/
structure Staged (pool : CTxMemPool) (gone : List Uint256) : Prop where
  nodup : gone.Nodup
  closed : ∀ k ∈ gone, ∀ x, pool.Spends x k → x ∈ gone

def groupsOf (pool : CTxMemPool) (k : Uint256) : List (List Uint256) :=
  match pool.find k with
  | none => []
  | some e =>
    if e.countWithDescendants > 1 then []
    else
      match e.parents with
      | [] => [[k]]
      | p :: _ => if higherFeerate (pool.fracOf k) (pool.groupFrac [p, k]) then [[p, k]] else [[p], [k]]

variable {pool : CTxMemPool} {k p c x : Uint256} {e : CTxMemPoolEntry} {gone : List Uint256}
  {a b : Uint256}

theorem fracOf_eq (he : pool.find k = some e) : pool.fracOf k = entryFrac e := by
  unfold fracOf
  rw [he]
  rfl

theorem groupFrac_singleton (pool : CTxMemPool) (k : Uint256) : pool.groupFrac [k] = pool.fracOf k := by
  unfold groupFrac sumFracs add
  simp

theorem groupFrac_pair (pool : CTxMemPool) (p k : Uint256) :
    pool.groupFrac [p, k] = add (pool.fracOf p) (pool.fracOf k) := by
  unfold groupFrac sumFracs add
  simp

theorem parents_of_alone (hsound : Sound pool) (he : pool.find k = some e) (h : Alone pool k) : e.parents = [] := by
  rw [← parentsOf_eq he, eq_nil_iff_forall_not_mem]
  intro x hx
  exact h.above x (hsound.exact.linked.parents.mp hx)

theorem parents_of_pair (hsound : Sound pool) (he : pool.find c = some e) (h : Pair pool p c) : e.parents = [p] := by
  have hnodup := hsound.exact.linked.parents_nodup c
  have hmem : ∀ x, x ∈ pool.parentsOf c ↔ x = p := fun x =>
    ⟨fun hx => h.onlyParent x (hsound.exact.linked.parents.mp hx),
      fun heq => heq ▸ hsound.exact.linked.parents.mpr h.spends⟩
  rw [parentsOf_eq he] at hnodup hmem
  exact perm_singleton.mp ((perm_ext_iff_of_nodup hnodup (nodup_singleton p)).mpr fun x => by
    rw [hmem, mem_singleton])

theorem package_of_pair (hsound : Sound pool) (hmeasured : Measured pool) (he : pool.find c = some e)
    (h : Pair pool p c) (hcount : e.countWithAncestors = 2) :
    (⟨e.modFeesWithAncestors, int32 e.sizeWithAncestors⟩ : FeeFrac) = pool.groupFrac [p, c] := by
  have hcard := countWithAncestors_eq hsound.exact he
  have hancestors := ancestors_pair hsound h.spends (by omega)
  have hsum := hsound.exact.summed.ancestors he
  rw [hancestors, Finset.sum_pair h.ne] at hsum
  obtain ⟨e', he'⟩ := mem_keys.mp (mem_of_spends hsound h.spends).2
  have hown : pool.own p + pool.own c = e'.own + e.own := by
    unfold own
    rw [he, he']
    rfl
  rw [hown] at hsum
  have hsize : e.sizeWithAncestors = e'.getTxSize + e.getTxSize := congrArg (fun sums => sums.2.1) hsum
  have hfee : e.modFeesWithAncestors = e'.modifiedFee + e.modifiedFee := congrArg (fun sums => sums.2.2.1) hsum
  have hpos := hmeasured.positive he
  have hpos' := hmeasured.positive he'
  have hfits := hmeasured.package he
  have hint32 : int32 e.sizeWithAncestors = e.sizeWithAncestors := by
    unfold int32
    rw [Int.bmod_eq_of_le (by omega) (by omega)]
  rw [groupFrac_pair, fracOf_eq he, fracOf_eq he', hint32, hsize, hfee]
  rfl

theorem sub_add_cancel_right (a b : FeeFrac) : sub (add a b) b = a := by
  unfold sub add
  simp

/-! ## What a conflict adds -/

theorem groupsOf_alone (hsound : Sound pool) (he : pool.find k = some e) (h : Alone pool k)
    (hcount : e.countWithAncestors = 1) (hcount' : e.countWithDescendants = 1) :
    groupsOf pool k = [[k]] ∧ oldChunks e = (groupsOf pool k).map pool.groupFrac := by
  have hgroups : groupsOf pool k = [[k]] := by
    unfold groupsOf
    rw [he]
    dsimp only
    rw [if_neg (by omega), parents_of_alone hsound he h]
  refine ⟨hgroups, ?_⟩
  unfold oldChunks
  rw [hgroups, if_neg (by omega), if_neg (by omega), map_singleton, groupFrac_singleton, fracOf_eq he]

theorem groupsOf_pair (hsound : Sound pool) (hmeasured : Measured pool) (he : pool.find c = some e) (h : Pair pool p c)
    (hcount : e.countWithAncestors = 2) (hcount' : e.countWithDescendants = 1) :
    groupsOf pool c = (if higherFeerate (pool.fracOf c) (pool.groupFrac [p, c]) then [[p, c]] else [[p], [c]]) ∧
      oldChunks e = (groupsOf pool c).map pool.groupFrac := by
  have hgroups : groupsOf pool c =
      if higherFeerate (pool.fracOf c) (pool.groupFrac [p, c]) then [[p, c]] else [[p], [c]] := by
    unfold groupsOf
    rw [he]
    dsimp only
    rw [if_neg (by omega), parents_of_pair hsound he h]
  refine ⟨hgroups, ?_⟩
  unfold oldChunks
  rw [hgroups, if_neg (by omega), if_pos (by omega), package_of_pair hsound hmeasured he h hcount, ← fracOf_eq he]
  dsimp only
  split
  · rfl
  · rw [map_cons, map_singleton, groupFrac_singleton, groupFrac_singleton, groupFrac_pair, sub_add_cancel_right]

theorem groupsOf_parent (he : pool.find k = some e) (hcount : e.countWithDescendants = 2) :
    groupsOf pool k = [] ∧ oldChunks e = (groupsOf pool k).map pool.groupFrac := by
  have hgroups : groupsOf pool k = [] := by
    unfold groupsOf
    rw [he]
    dsimp only
    rw [if_pos (by omega)]
  refine ⟨hgroups, ?_⟩
  unfold oldChunks
  rw [hgroups, if_pos (by omega)]
  rfl

/-- Conflicts that passed: alone, or of a pair. -/
inductive Place (pool : CTxMemPool) (k : Uint256) : Prop where
  | alone (h : Alone pool k) (hgroups : groupsOf pool k = [[k]])
  | child (p : Uint256) (h : Pair pool p k)
      (hgroups : groupsOf pool k =
        if higherFeerate (pool.fracOf k) (pool.groupFrac [p, k]) then [[p, k]] else [[p], [k]])
  | parent (c : Uint256) (h : Pair pool k c) (hgroups : groupsOf pool k = [])

theorem place_of_check (hsound : Sound pool) (hmeasured : Measured pool) (he : pool.find k = some e)
    (h : pool.checkConflict k = .ok none) :
    Place pool k ∧ oldChunks e = (groupsOf pool k).map pool.groupFrac := by
  rcases checkConflict_none hsound he h with ⟨halone, hcount, hcount'⟩ | ⟨p, hpair, hcount, hcount'⟩ | ⟨c,
      hpair, hcount⟩
  · obtain ⟨hgroups, hchunks⟩ := groupsOf_alone hsound he halone hcount hcount'
    exact ⟨.alone halone hgroups, hchunks⟩
  · obtain ⟨hgroups, hchunks⟩ := groupsOf_pair hsound hmeasured he hpair hcount hcount'
    exact ⟨.child p hpair hgroups, hchunks⟩
  · obtain ⟨hgroups, hchunks⟩ := groupsOf_parent he hcount
    exact ⟨.parent c hpair hgroups, hchunks⟩

theorem deref_spec (h : pool.deref k = .ok e) : pool.find k = some e := by
  unfold deref at h
  split at h
  · cases h
  · next e' hfind => rw [hfind, Except.ok.inj h]

theorem topology_none (h : pool.checkConflictTopology gone = .ok none) :
    ∀ k ∈ gone, (∃ e, pool.find k = some e) ∧ pool.checkConflict k = .ok none := by
  induction gone with
  | nil => exact fun k hk => absurd hk not_mem_nil
  | cons k gone ih =>
    obtain ⟨first, hfirst, hrest⟩ := bind_ok.mp h
    cases first with
    | some error => cases hrest
    | none =>
      intro k' hk'
      rcases mem_cons.mp hk' with rfl | hk'
      · refine ⟨?_, hfirst⟩
        obtain ⟨e, hderef, -⟩ := bind_ok.mp hfirst
        exact ⟨e, deref_spec hderef⟩
      · exact ih hrest k' hk'

/-! ## Every affected transaction once -/

def Adds (pool : CTxMemPool) (k x : Uint256) : Prop := x = k ∧ Alone pool k ∨ ∃ p, Pair pool p k ∧ (x = p ∨ x = k)

theorem mem_groupsOf (h : Place pool k) : x ∈ (groupsOf pool k).flatten ↔ Adds pool k x := by
  unfold Adds
  cases h with
  | alone h hgroups =>
    rw [hgroups]
    constructor
    · intro hx
      exact .inl ⟨by simpa using hx, h⟩
    · rintro (⟨rfl, -⟩ | ⟨p, hpair, -⟩)
      · simp
      · exact absurd hpair.spends (h.above p)
  | child p h hgroups =>
    have hmem : x ∈ (groupsOf pool k).flatten ↔ x = p ∨ x = k := by
      rw [hgroups]
      split <;> simp
    rw [hmem]
    constructor
    · exact fun hx => .inr ⟨p, h, hx⟩
    · rintro (⟨rfl, halone⟩ | ⟨p', hpair, hx⟩)
      · exact .inr rfl
      · rw [h.onlyParent p' hpair.spends] at hx
        exact hx
  | parent c h hgroups =>
    rw [hgroups]
    constructor
    · intro hx
      cases hx
    · rintro (⟨rfl, halone⟩ | ⟨p, hpair, -⟩)
      · exact absurd h.spends (halone.below c)
      · exact absurd h.spends (hpair.below c)

theorem nodup_groupsOf (h : Place pool k) : (groupsOf pool k).flatten.Nodup := by
  cases h with
  | alone h hgroups => simp [hgroups]
  | child p h hgroups =>
    have hne := h.ne
    rw [hgroups]
    split <;> simp [hne]
  | parent c h hgroups => simp [hgroups]

theorem adds_disjoint {k' : Uint256} (hne : k ≠ k') (h : Adds pool k x) : ¬ Adds pool k' x := by
  rintro (⟨rfl, halone'⟩ | ⟨_, hpair', hx'⟩)
  · rcases h with ⟨rfl, -⟩ | ⟨p, hpair, rfl | rfl⟩
    · exact hne rfl
    · exact halone'.below k hpair.spends
    · exact hne rfl
  · rcases h with ⟨rfl, halone⟩ | ⟨p, hpair, hx⟩
    · rcases hx' with rfl | rfl
      · exact halone.below k' hpair'.spends
      · exact hne rfl
    · rcases hx with rfl | rfl <;> rcases hx' with rfl | rfl
      · exact hne (hpair'.onlyChild k hpair.spends)
      · exact hpair'.below k hpair.spends
      · exact hpair.below k' hpair'.spends
      · exact hne rfl

def allGroups (pool : CTxMemPool) (gone : List Uint256) : List (List Uint256) := gone.flatMap (groupsOf pool)

theorem flatten_allGroups (pool : CTxMemPool) (gone : List Uint256) :
    (allGroups pool gone).flatten = gone.flatMap fun k => (groupsOf pool k).flatten := by
  unfold allGroups
  induction gone with
  | nil => rfl
  | cons k gone ih => rw [flatMap_cons, flatMap_cons, flatten_append, ih]

theorem mem_allGroups (hplace : ∀ k ∈ gone, Place pool k) : x ∈ (allGroups pool gone).flatten ↔
    ∃ k ∈ gone, Adds pool k x := by
  rw [flatten_allGroups, mem_flatMap]
  exact exists_congr fun k => and_congr_right fun hk => mem_groupsOf (hplace k hk)

theorem nodup_allGroups (hplace : ∀ k ∈ gone, Place pool k) (hnodup : gone.Nodup) :
    (allGroups pool gone).flatten.Nodup := by
  rw [flatten_allGroups, nodup_flatMap]
  refine ⟨fun k hk => nodup_groupsOf (hplace k hk), hnodup.imp_of_mem ?_⟩
  intro k k' hk hk' hne x hx hx'
  exact adds_disjoint hne ((mem_groupsOf (hplace k hk)).mp hx) ((mem_groupsOf (hplace k' hk')).mp hx')

theorem adds_connected (h : pool.Spends a b) : (∃ k ∈ gone, Adds pool k a) ↔ ∃ k ∈ gone, Adds pool k b := by
  constructor
  · rintro ⟨k, hk, ⟨rfl, halone⟩ | ⟨p, hpair, rfl | rfl⟩⟩
    · exact absurd h (halone.above b)
    · exact absurd h (hpair.above b)
    · exact ⟨a, hk, .inr ⟨p, hpair, .inl (hpair.onlyParent b h)⟩⟩
  · rintro ⟨k, hk, ⟨rfl, halone⟩ | ⟨p, hpair, rfl | rfl⟩⟩
    · exact absurd h (halone.below a)
    · exact ⟨k, hk, .inr ⟨b, hpair, .inr (hpair.onlyChild a h)⟩⟩
    · exact absurd h (hpair.below a)

theorem adds_of_eqvGen (h : EqvGen pool.Spends a b) : (∃ k ∈ gone, Adds pool k a) ↔ ∃ k ∈ gone, Adds pool k b := by
  induction h with
  | rel a b hspends => exact adds_connected hspends
  | refl a => exact Iff.rfl
  | symm a b _ ih => exact ih.symm
  | trans a b c _ _ ih ih' => exact ih.trans ih'

theorem affected_iff (hplace : ∀ k ∈ gone, Place pool k) (hstaged : Staged pool gone) :
    Affected pool gone x ↔ ∃ k ∈ gone, Adds pool k x := by
  constructor
  · rintro ⟨k, hk, hconnected⟩
    rw [← adds_of_eqvGen hconnected]
    cases hplace k hk with
    | alone h _ => exact ⟨k, hk, .inl ⟨rfl, h⟩⟩
    | child p h _ => exact ⟨k, hk, .inr ⟨p, h, .inr rfl⟩⟩
    | parent c h _ => exact ⟨c, hstaged.closed k hk c h.spends, .inr ⟨k, h, .inl rfl⟩⟩
  · rintro ⟨k, hk, ⟨rfl, -⟩ | ⟨p, hpair, rfl | rfl⟩⟩
    · exact ⟨x, hk, .refl x⟩
    · exact ⟨k, hk, .rel k x hpair.spends⟩
    · exact ⟨x, hk, .refl x⟩

/-! ## The order of feerates -/

theorem rate_le_iff {a b : FeeFrac} (ha : 0 < a.size) (hb : 0 < b.size) :
    rate a ≤ rate b ↔ a.fee * b.size ≤ b.fee * a.size := by
  unfold rate Step.rate toStep
  dsimp only
  rw [div_le_div_iff₀ (Int.cast_pos.mpr ha) (Int.cast_pos.mpr hb)]
  norm_cast

/-- Chunks with positive sizes: by rate, then the smaller first. -/
def before (a b : FeeFrac) : Prop := rate b < rate a ∨ rate a = rate b ∧ a.size ≤ b.size

instance : DecidableRel before :=
  fun a b => inferInstanceAs (Decidable (rate b < rate a ∨ rate a = rate b ∧ a.size ≤ b.size))

instance : Std.Total before := ⟨fun a b => by
  unfold before
  rcases lt_trichotomy (rate a) (rate b) with hlt | heq | hgt
  · exact .inr (.inl hlt)
  · rcases le_total a.size b.size with hle | hle
    · exact .inl (.inr ⟨heq, hle⟩)
    · exact .inr (.inr ⟨heq.symm, hle⟩)
  · exact .inl (.inl hgt)⟩

instance : IsTrans FeeFrac before := ⟨fun a b c hab hbc => by
  unfold before at hab hbc ⊢
  rcases hab with hab | ⟨hab, hab'⟩ <;> rcases hbc with hbc | ⟨hbc, hbc'⟩
  · exact .inl (hbc.trans hab)
  · exact .inl (hbc ▸ hab)
  · exact .inl (hab ▸ hbc)
  · exact .inr ⟨hab.trans hbc, hab'.trans hbc'⟩⟩

theorem notWorse_iff {a b : FeeFrac} (ha : 0 < a.size) (hb : 0 < b.size) : notWorse a b ↔ before a b := by
  have hle := rate_le_iff ha hb
  have hge := rate_le_iff hb ha
  have hlt : rate b < rate a ↔ ¬ a.fee * b.size ≤ b.fee * a.size := by rw [← not_le, hle]
  unfold notWorse before FeeFrac.lt
  rw [hlt]
  split
  · next heq =>
    have hrates : rate a = rate b := le_antisymm (hle.mpr heq.le) (hge.mpr heq.ge)
    rw [decide_eq_false_iff_not, not_lt]
    constructor
    · exact fun hsize => .inr ⟨hrates, hsize⟩
    · rintro (hlt | ⟨-, hsize⟩)
      · exact absurd heq.le hlt
      · exact hsize
  · next hne =>
    rw [decide_eq_false_iff_not]
    constructor
    · exact fun hnot => .inl fun hle' => hnot (lt_of_le_of_ne hle' hne)
    · rintro (hlt | ⟨hrates, -⟩) hlt'
      · exact hlt hlt'.le
      · have hge' := hge.mp hrates.ge
        exact hne (le_antisymm (hle.mp hrates.le) hge')

variable {chunks : List FeeFrac} {group : List Uint256} {groups : List (List Uint256)}

section

variable (h : FeeDiagrams.Sized chunks)
include h

theorem insertionSort_eq : chunks.insertionSort notWorse = chunks.insertionSort before := by
  have hmap := map_insertionSort notWorse before id chunks fun a ha b hb => notWorse_iff (h a ha) (h b hb)
  rwa [map_id, map_id] at hmap

theorem insertionSort_sorted :
    (chunks.insertionSort notWorse).Pairwise fun chunk chunk' => rate chunk' ≤ rate chunk := by
  rw [insertionSort_eq h]
  refine (pairwise_insertionSort before chunks).imp ?_
  rintro a b (hlt | ⟨heq, -⟩)
  · exact hlt.le
  · exact heq.ge

theorem insertionSort_sized : FeeDiagrams.Sized (chunks.insertionSort notWorse) :=
  fun chunk hchunk => h chunk ((mem_insertionSort _).mp hchunk)

end

/-! ## The groups in order -/

def byRate (pool : CTxMemPool) (group group' : List Uint256) : Prop :=
  rate (pool.groupFrac group') ≤ rate (pool.groupFrac group)

instance (pool : CTxMemPool) : DecidableRel pool.byRate :=
  fun group group' => inferInstanceAs (Decidable (rate (pool.groupFrac group') ≤ rate (pool.groupFrac group)))

instance (pool : CTxMemPool) : Std.Total pool.byRate := ⟨fun _ _ => le_total _ _⟩

instance (pool : CTxMemPool) : IsTrans (List Uint256) pool.byRate := ⟨fun _ _ _ h h' => le_trans h' h⟩

theorem group_cases (h : Place pool k) (hgroup : group ∈ groupsOf pool k) : (group = [k] ∧ Alone pool k) ∨
    ∃ p, Pair pool p k ∧ (group = [p, k] ∧ higherFeerate (pool.fracOf k) (pool.groupFrac [p, k]) = true ∨
      groupsOf pool k = [[p], [k]] ∧ higherFeerate (pool.fracOf k) (pool.groupFrac [p, k]) = false ∧
        (group = [p] ∨ group = [k])) := by
  cases h with
  | alone h hgroups =>
    rw [hgroups, mem_singleton] at hgroup
    exact .inl ⟨hgroup, h⟩
  | child p h hgroups =>
    right
    refine ⟨p, h, ?_⟩
    split at hgroups
    · next hhigher =>
      rw [hgroups, mem_singleton] at hgroup
      exact .inl ⟨hgroup, hhigher⟩
    · next hlower =>
      refine .inr ⟨hgroups, Bool.eq_false_iff.mpr hlower, ?_⟩
      rw [hgroups] at hgroup
      simpa using hgroup
  | parent c h hgroups =>
    rw [hgroups] at hgroup
    cases hgroup

theorem size_pos (hmeasured : Measured pool) (h : k ∈ pool.keys) : 0 < (pool.fracOf k).size := by
  obtain ⟨_, he⟩ := mem_keys.mp h
  rw [fracOf_eq he]
  exact hmeasured.positive he

theorem higher_iff (hsound : Sound pool) (hmeasured : Measured pool) (h : Pair pool p k) :
    higherFeerate (pool.fracOf k) (pool.groupFrac [p, k]) = true ↔ rate (pool.fracOf p) < rate (pool.fracOf k) := by
  have hmem := mem_of_spends hsound h.spends
  rw [← not_le, rate_le_iff (size_pos hmeasured hmem.1) (size_pos hmeasured hmem.2), groupFrac_pair]
  unfold higherFeerate add
  rw [decide_eq_true_eq, not_le]
  constructor <;> intro hlt <;> nlinarith

theorem allGroups_sized (hsound : Sound pool) (hmeasured : Measured pool)
    (hplace : ∀ k ∈ gone, (k ∈ pool.keys) ∧ Place pool k) :
    FeeDiagrams.Sized ((allGroups pool gone).map pool.groupFrac) := by
  intro chunk hchunk
  obtain ⟨_, hgroup, rfl⟩ := mem_map.mp hchunk
  obtain ⟨k, hk, hgroup⟩ := mem_flatMap.mp hgroup
  have hposk := size_pos hmeasured (hplace k hk).1
  rcases group_cases (hplace k hk).2 hgroup with ⟨rfl, -⟩ | ⟨_, hpair, hcase⟩
  · rw [groupFrac_singleton]
    exact hposk
  · have hposp := size_pos hmeasured (mem_of_spends hsound hpair.spends).2
    rcases hcase with ⟨rfl, -⟩ | ⟨-, -, rfl | rfl⟩
    · rw [groupFrac_pair]
      exact add_pos hposp hposk
    · rw [groupFrac_singleton]
      exact hposp
    · rw [groupFrac_singleton]
      exact hposk

theorem mem_of_pair_sublist {α : Type} {u v : List α} {before after : List (List α)}
    (h : [u, v].Sublist (before ++ after)) (hnodup : (before ++ after).flatten.Nodup) {y : α} (hy : y ∈ v)
    (hv : v ∈ before) : u ∈ before := by
  obtain ⟨l1, l2, heq, hl1, hl2⟩ := sublist_append_iff.mp h
  cases l1 with
  | nil =>
    have hafter : v ∈ after := hl2.subset (by rw [← nil_append l2, ← heq]; simp)
    rw [flatten_append, nodup_append] at hnodup
    exact absurd rfl (hnodup.2.2 y (mem_flatten.mpr ⟨v, hv, hy⟩) y (mem_flatten.mpr ⟨v, hafter, hy⟩))
  | cons u' l1 =>
    rw [cons_append] at heq
    obtain ⟨rfl, -⟩ := cons.inj heq
    exact hl1.subset mem_cons_self

theorem chunking_of_places (hsound : Sound pool) (hmeasured : Measured pool) (hstaged : Staged pool gone)
    (hplace : ∀ k ∈ gone, Place pool k) :
    Chunking pool (Affected pool gone) ((allGroups pool gone).insertionSort pool.byRate) := by
  have hperm := perm_insertionSort pool.byRate (allGroups pool gone)
  have hnodup : ((allGroups pool gone).insertionSort pool.byRate).flatten.Nodup :=
    hperm.flatten.nodup_iff.mpr (nodup_allGroups hplace hstaged.nodup)
  refine ⟨hnodup, ?_, ?_, pairwise_insertionSort _ _⟩
  · intro x
    rw [hperm.flatten.mem_iff, mem_allGroups hplace, affected_iff hplace hstaged]
  · intro before after hsplit x hx p hspends
    obtain ⟨group, hgroup, hx⟩ := mem_flatten.mp hx
    have hgroup' : group ∈ allGroups pool gone := hperm.subset (hsplit ▸ mem_append_left _ hgroup)
    obtain ⟨k, hk, hgroup'⟩ := mem_flatMap.mp hgroup'
    rcases group_cases (hplace k hk) hgroup' with ⟨rfl, halone⟩ | ⟨_, hpair, ⟨rfl, -⟩ | ⟨hgroups, hlower, rfl | rfl⟩⟩
    · rw [mem_singleton.mp hx] at hspends
      exact absurd hspends (halone.above p)
    · have hparent : x = k := by
        rcases mem_cons.mp hx with rfl | hx
        · exact absurd hspends (hpair.above p)
        · exact mem_singleton.mp hx
      rw [hparent] at hspends
      rw [hpair.onlyParent p hspends]
      exact mem_flatten.mpr ⟨_, hgroup, mem_cons_self⟩
    · rw [mem_singleton.mp hx] at hspends
      exact absurd hspends (hpair.above p)
    · rw [mem_singleton.mp hx] at hspends
      obtain rfl := hpair.onlyParent p hspends
      -- the parent stands before the child
      have hsub : [[p], [k]].Sublist (allGroups pool gone) := by
        rw [← hgroups]
        exact sublist_flatten_of_mem (mem_map_of_mem hk)
      have hrates : pool.byRate [p] [k] := by
        unfold byRate
        rw [groupFrac_singleton, groupFrac_singleton, ← not_lt, ← higher_iff hsound hmeasured hpair, hlower]
        exact Bool.false_ne_true
      have hsorted := pair_sublist_insertionSort hrates hsub
      rw [hsplit] at hsorted hnodup
      exact mem_flatten.mpr ⟨[p], mem_of_pair_sublist hsorted hnodup mem_cons_self hgroup, mem_cons_self⟩

/-! ## No set does better -/

variable {S : Finset Uint256}

def within (S : Finset Uint256) (f : Uint256 → Int) (group : List Uint256) : Int := ((group.filter (· ∈ S)).map f).sum

variable (f : Uint256 → Int)

theorem sum_groups (hnodup : groups.flatten.Nodup) (hS : ∀ x ∈ S, x ∈ groups.flatten) :
    ∑ x ∈ S, f x = (groups.map (within S f)).sum := by
  have hset : S = (groups.flatten.filter (· ∈ S)).toFinset := by
    ext x
    rw [mem_toFinset, mem_filter, decide_eq_true_eq]
    exact ⟨fun hx => ⟨hS x hx, hx⟩, fun hx => hx.2⟩
  have hlist : ∑ x ∈ S, f x = ((groups.flatten.filter (· ∈ S)).map f).sum := by
    rw [← sum_toFinset f (hnodup.filter _), ← hset]
  rw [hlist, filter_flatten, map_flatten, sum_flatten, List.map_map, List.map_map]
  rfl

theorem within_singleton : within S f [k] = if k ∈ S then f k else 0 := by
  unfold within
  by_cases hk : k ∈ S <;> simp [hk]

theorem within_pair : within S f [p, k] = (if p ∈ S then f p else 0) + if k ∈ S then f k else 0 := by
  unfold within
  by_cases hp : p ∈ S <;> by_cases hk : k ∈ S <;> simp [hp, hk]

theorem rate_mul {frac : FeeFrac} (h : 0 < frac.size) : rate frac * frac.size = frac.fee :=
  ((toStep frac).rise_eq (Int.cast_pos.mpr h)).symm

theorem single_bounds (hpos : 0 < (pool.fracOf k).size) : 0 ≤ within S (fun x => (pool.fracOf x).size) [k] ∧
    within S (fun x => (pool.fracOf x).size) [k] ≤ (pool.groupFrac [k]).size ∧
      (within S (fun x => (pool.fracOf x).fee) [k] : ℚ) ≤ rate (pool.groupFrac [k]) * within S
      (fun x => (pool.fracOf x).size) [k] := by
  have hrate := rate_mul hpos
  rw [within_singleton, within_singleton, groupFrac_singleton]
  split
  · exact ⟨hpos.le, le_rfl, hrate.ge⟩
  · exact ⟨le_rfl, hpos.le, by simp⟩

theorem merged_bounds (hsound : Sound pool) (hmeasured : Measured pool) (hpair : Pair pool p k)
    (hhigher : higherFeerate (pool.fracOf k) (pool.groupFrac [p, k]) = true)
    (hclosed : ∀ x ∈ S, ∀ p, pool.Spends x p → p ∈ S) :
    0 ≤ within S (fun x => (pool.fracOf x).size) [p, k] ∧
      within S (fun x => (pool.fracOf x).size) [p, k] ≤ (pool.groupFrac [p, k]).size ∧
        (within S (fun x => (pool.fracOf x).fee) [p, k] : ℚ) ≤
          rate (pool.groupFrac [p, k]) * within S (fun x => (pool.fracOf x).size) [p, k] := by
  have hmem := mem_of_spends hsound hpair.spends
  have hposk := size_pos hmeasured hmem.1
  have hposp := size_pos hmeasured hmem.2
  have hsum : 0 < (add (pool.fracOf p) (pool.fracOf k)).size := add_pos hposp hposk
  rw [within_pair, within_pair, groupFrac_pair]
  by_cases hk : k ∈ S
  · rw [if_pos (hclosed k hk p hpair.spends), if_pos (hclosed k hk p hpair.spends), if_pos hk, if_pos hk]
    exact ⟨hsum.le, le_rfl, (rate_mul hsum).ge⟩
  · rw [if_neg hk, if_neg hk, add_zero, add_zero]
    by_cases hp : p ∈ S
    · rw [if_pos hp, if_pos hp]
      refine ⟨hposp.le, le_add_of_nonneg_right hposk.le, ?_⟩
      have hlt := (higher_iff hsound hmeasured hpair).mp hhigher
      have hrates : rate (pool.fracOf p) ≤ rate (add (pool.fracOf p) (pool.fracOf k)) := by
        rw [← not_le, rate_le_iff hposk hposp] at hlt
        rw [rate_le_iff hposp hsum]
        unfold add
        dsimp only
        nlinarith
      rw [← rate_mul hposp]
      exact mul_le_mul_of_nonneg_right hrates (Int.cast_nonneg hposp.le)
    · rw [if_neg hp, if_neg hp]
      exact ⟨le_rfl, hsum.le, by simp⟩

theorem group_bounds (hsound : Sound pool) (hmeasured : Measured pool)
    (hplace : ∀ k ∈ gone, (k ∈ pool.keys) ∧ Place pool k) (hclosed : ∀ x ∈ S, ∀ p, pool.Spends x p → p ∈ S)
    (hgroup : group ∈ allGroups pool gone) :
    0 ≤ within S (fun x => (pool.fracOf x).size) group ∧
      within S (fun x => (pool.fracOf x).size) group ≤ (pool.groupFrac group).size ∧
        (within S (fun x => (pool.fracOf x).fee) group : ℚ) ≤
          rate (pool.groupFrac group) * within S (fun x => (pool.fracOf x).size) group := by
  obtain ⟨k, hk, hgroup⟩ := mem_flatMap.mp hgroup
  have hposk := size_pos hmeasured (hplace k hk).1
  rcases group_cases (hplace k hk).2 hgroup with ⟨rfl, -⟩ | ⟨p, hpair, ⟨rfl, hhigher⟩ | ⟨-, -, rfl | rfl⟩⟩
  · exact single_bounds hposk
  · exact merged_bounds hsound hmeasured hpair hhigher hclosed
  · exact single_bounds (size_pos hmeasured (mem_of_spends hsound hpair.spends).2)
  · exact single_bounds hposk

theorem fee_le_diagram (hnodup : groups.flatten.Nodup) (hS : ∀ x ∈ S, x ∈ groups.flatten)
    (hsized : FeeDiagrams.Sized (groups.map pool.groupFrac))
    (hsorted : (groups.map pool.groupFrac).Pairwise fun chunk chunk' => rate chunk' ≤ rate chunk)
    (hbounds : ∀ group ∈ groups, 0 ≤ within S (fun x => (pool.fracOf x).size) group ∧
      within S (fun x => (pool.fracOf x).size) group ≤ (pool.groupFrac group).size ∧
        (within S (fun x => (pool.fracOf x).fee) group : ℚ) ≤
          rate (pool.groupFrac group) * within S (fun x => (pool.fracOf x).size) group) :
    ((∑ x ∈ S, (pool.fracOf x).fee : Int) : ℚ) ≤ diagram (groups.map pool.groupFrac)
    ((∑ x ∈ S, (pool.fracOf x).size : Int) : ℚ) := by
  rw [sum_groups _ hnodup hS, sum_groups _ hnodup hS]
  have hparts : Parts ((groups.map pool.groupFrac).map toStep)
      (groups.map fun group => ((within S (fun x => (pool.fracOf x).size) group : Int) : ℚ)) := by
    unfold Parts
    rw [List.map_map, forall₂_map_left_iff, forall₂_map_right_iff, forall₂_same]
    intro group hgroup
    obtain ⟨hnonneg, hle, -⟩ := hbounds group hgroup
    exact ⟨Int.cast_nonneg hnonneg, Int.cast_le.mpr hle⟩
  have hrates : ((groups.map pool.groupFrac).map toStep).Pairwise fun s s' => s'.rate ≤ s.rate :=
      pairwise_map.mpr hsorted
  have hbest := parts_le_height (sized_positive hsized) hrates hparts
  have hfees : ((groups.map fun group => ((within S (fun x => (pool.fracOf x).fee) group : Int) : ℚ)).sum) ≤
      (groups.map fun group =>
        rate (pool.groupFrac group) * ((within S (fun x => (pool.fracOf x).size) group : Int) : ℚ)).sum :=
    sum_le_sum fun group hgroup => (hbounds group hgroup).2.2
  have hzip : (zipWith (fun s part => s.rate * part) ((groups.map pool.groupFrac).map toStep)
      (groups.map fun group => ((within S (fun x => (pool.fracOf x).size) group : Int) : ℚ))) =
      groups.map fun group => rate (pool.groupFrac group) *
        ((within S (fun x => (pool.fracOf x).size) group : Int) : ℚ) := by
    rw [List.map_map, zipWith_map, zipWith_self]
    rfl
  rw [hzip] at hbest
  have hcast : ∀ f : List Uint256 → Int, (((groups.map f).sum : Int) : ℚ) =
      (groups.map fun group => ((f group : Int) : ℚ)).sum := by
    intro f
    rw [Int.cast_list_sum, List.map_map]
    rfl
  rw [hcast, hcast]
  exact hfees.trans hbest

theorem optimal_of_places (hsound : Sound pool) (hmeasured : Measured pool) (hstaged : Staged pool gone)
    (hplace : ∀ k ∈ gone, (k ∈ pool.keys) ∧ Place pool k) :
    Optimal pool (Affected pool gone) (((allGroups pool gone).map pool.groupFrac).insertionSort notWorse) := by
  have hsized := allGroups_sized hsound hmeasured hplace
  have hplaces := fun k hk => (hplace k hk).2
  refine ⟨insertionSort_sized hsized, insertionSort_sorted hsized,
    ⟨_, chunking_of_places hsound hmeasured hstaged hplaces, ?_⟩, ?_⟩
  · exact (perm_insertionSort _ _).trans ((perm_insertionSort _ _).map _).symm
  · intro S hS hclosed
    have hsort : ((allGroups pool gone).map pool.groupFrac).insertionSort notWorse =
        ((allGroups pool gone).insertionSort fun group group' =>
          notWorse (pool.groupFrac group) (pool.groupFrac group')).map pool.groupFrac :=
      (map_insertionSort _ notWorse pool.groupFrac (allGroups pool gone) fun _ _ _ _ => Iff.rfl).symm
    have hsorted := insertionSort_sorted hsized
    have hsized' := insertionSort_sized hsized
    rw [hsort] at hsorted hsized' ⊢
    have hperm := perm_insertionSort (fun group group' => notWorse (pool.groupFrac group) (pool.groupFrac group'))
        (allGroups pool gone)
    apply fee_le_diagram (hperm.flatten.nodup_iff.mpr (nodup_allGroups hplaces hstaged.nodup)) _ hsized' hsorted
    · exact fun group hgroup => group_bounds hsound hmeasured hplace hclosed (hperm.subset hgroup)
    · intro x hx
      rw [hperm.flatten.mem_iff, mem_allGroups hplaces, ← affected_iff hplaces hstaged]
      exact hS x hx

end CTxMemPool

end FullNode.Mempool

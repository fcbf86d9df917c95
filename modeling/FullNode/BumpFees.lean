import FullNode.Lib.Overlap
import FullNode.MiniMinerCluster
import Mathlib.Algebra.BigOperators.Pi
import Mathlib.Algebra.BigOperators.Ring.Finset

/-! # Bump fees -/

namespace FullNode.MiniMiner

open Ancestry Overlap List AList
open Relation

variable {pool left : MockEntryMap} {k : Uint256} {o : COutPoint} {outpoints : List COutPoint} {s t : MiniMiner}
  {rate : Int}

/-! ## Each outpoint -/

variable {isOpen : Uint256 → Prop}

theorem settleMined_spec (h : Settled outpoints isOpen s.m_requested_outpoints_by_txid s.m_bump_fees) (k : Uint256) :
    Settled outpoints (fun j => isOpen j ∧ j ≠ k) (settleMined s k).m_requested_outpoints_by_txid
      (settleMined s k).m_bump_fees ∧ (settleMined s k).m_entries_by_txid = s.m_entries_by_txid := by
  have hsettle := h.settle k
  unfold settleMined
  cases hk : s.m_requested_outpoints_by_txid.lookup k with
  | none =>
    have habsent : s.m_requested_outpoints_by_txid.erase k = s.m_requested_outpoints_by_txid :=
      ext (kerase_of_notMem_keys (lookup_eq_none.mp hk))
    rw [hk, habsent] at hsettle
    exact ⟨hsettle, rfl⟩
  | some l =>
    rw [hk] at hsettle
    exact ⟨hsettle, rfl⟩

theorem settleMined_all (mined : List Uint256)
    (h : Settled outpoints isOpen s.m_requested_outpoints_by_txid s.m_bump_fees) :
    Settled outpoints (fun j => isOpen j ∧ j ∉ mined) (mined.foldl settleMined s).m_requested_outpoints_by_txid
        (mined.foldl settleMined s).m_bump_fees ∧
          (mined.foldl settleMined s).m_entries_by_txid = s.m_entries_by_txid := by
  induction mined generalizing s isOpen with
  | nil => exact ⟨h.congr fun o _ => by simp, rfl⟩
  | cons k mined ih =>
    obtain ⟨hsettle, hentries⟩ := settleMined_spec h k
    obtain ⟨hall, hsame⟩ := ih hsettle
    refine ⟨hall.congr fun o _ => ?_, hsame.trans hentries⟩
    simp only [mem_cons]
    tauto

theorem settleLeft_all (requests : List (Sigma fun _ : Uint256 => List COutPoint)) (fees : AssocMap COutPoint Int)
    (hrequests : ∀ r ∈ requests, r.1 ∈ left ∧ ∀ o ∈ r.2, o.hash = r.1) (o : COutPoint) :
    (requests.foldl (settleLeft rate left) fees).lookup o =
      (fees.lookup o).or (if requests.any (o ∈ ·.2) then (left.lookup o.hash).map (bumpFee rate) else none) := by
  induction requests generalizing fees with
  | nil => simp
  | cons r requests ih =>
    obtain ⟨hmem, hhash⟩ := hrequests r mem_cons_self
    obtain ⟨e, he⟩ := mem_iff_lookup.mp hmem
    rw [foldl_cons, ih _ fun r' hr' => hrequests r' (mem_cons_of_mem _ hr'), settleLeft, he]
    dsimp only
    rw [lookup_emplaceAll]
    by_cases ho : o ∈ r.2
    · have hlookup : left.lookup o.hash = some e := by rw [hhash o ho, he]
      cases fees.lookup o with
      | none => simp [ho, hlookup]
      | some x => simp [ho]
    · rw [if_neg ho, Option.or_none, any_cons, decide_eq_false ho, Bool.false_or]

def feeOf (rate : Int) (left : MockEntryMap) (o : COutPoint) : Int := (left.lookup o.hash).elim 0 (bumpFee rate)

theorem calculateBumpFees_spec (h : Opened pool outpoints s) (hready : s.m_ready_to_calculate = true)
    (hbuild : buildMockTemplate (some rate) s = .ok t) (hinv : Inv pool t) (hsame : SameRequests s t) :
    ∃ fees, calculateBumpFees s rate = .ok fees ∧ ∀ o ∈ outpoints,
      fees.lookup o = some (feeOf rate t.m_entries_by_txid o) := by
  have hsettled : Settled outpoints (· ∈ s.m_entries_by_txid) t.m_requested_outpoints_by_txid t.m_bump_fees := by
    rw [hsame.requested, hsame.fees]
    exact h.settled hready
  obtain ⟨hall, hentries⟩ := settleMined_all t.m_in_block hsettled
  have hleft : ∀ k, (k ∈ s.m_entries_by_txid ∧ k ∉ t.m_in_block) ↔ k ∈ t.m_entries_by_txid := by
    intro k
    have hk := hsame.mem k
    rw [h.unmined] at hk
    have := hinv.apart k
    simp only [not_mem_nil, false_or] at hk
    tauto
  have hall' := hall.congr fun o _ => hleft o.hash
  have hentry : ∀ r ∈ (t.m_in_block.foldl settleMined t).m_requested_outpoints_by_txid.entries,
      r.1 ∈ t.m_entries_by_txid ∧ r.2 = asked outpoints r.1 := by
    intro r hr
    obtain ⟨hmem, hasked, -⟩ := (hall'.requested r.1 r.2).mp (mem_lookup_iff.mpr hr)
    exact ⟨hmem, hasked⟩
  refine ⟨_, by rw [calculateBumpFees, hready, hbuild]; rfl, fun o ho => ?_⟩
  rw [hentries, settleLeft_all _ _ (fun r hr => ⟨(hentry r hr).1, fun o ho =>
    (mem_asked.mp ((hentry r hr).2 ▸ ho)).2⟩)]
  unfold feeOf
  cases hlookup : t.m_entries_by_txid.lookup o.hash with
  | none =>
    rw [(hall'.fees o 0).mpr ⟨rfl, ho, lookup_eq_none.mp hlookup⟩]
    rfl
  | some e =>
    have hopen : o.hash ∈ t.m_entries_by_txid := mem_iff_lookup.mpr ⟨e, hlookup⟩
    have hin : o ∈ asked outpoints o.hash := mem_asked.mpr ⟨ho, rfl⟩
    have hrequest := mem_lookup_iff.mp ((hall'.requested _ _).mpr ⟨hopen, rfl, ne_nil_of_mem hin⟩)
    rw [hall'.lookup_eq_none.mpr fun h => h.2 hopen, if_pos (any_eq_true.mpr ⟨_, hrequest, by simpa using hin⟩)]
    rfl

/-! ## All outpoints together -/

noncomputable def needs (pool left : MockEntryMap) (o : COutPoint) : Finset Uint256 :=
  ancestors (Parent pool) left.keys.toFinset o.hash

def leftOutpoints (left : MockEntryMap) (outpoints : List COutPoint) : List COutPoint :=
  outpoints.filter (·.hash ∈ left)

noncomputable def needed (pool left : MockEntryMap) (outpoints : List COutPoint) : Finset Uint256 :=
  cover (needs pool left) (leftOutpoints left outpoints)

theorem mem_needed : k ∈ needed pool left outpoints ↔
    k ∈ left ∧ ∃ o ∈ outpoints, o.hash ∈ left ∧ ReflTransGen (Parent pool) o.hash k := by
  simp only [needed, leftOutpoints, mem_cover, needs, mem_ancestors, mem_filter, decide_eq_true_iff, mem_toFinset,
    AList.mem_keys.symm]
  constructor
  · rintro ⟨o, ⟨ho, hleft⟩, hk, hreach⟩
    exact ⟨hk, o, ho, hleft, hreach⟩
  · rintro ⟨hk, o, ho, hleft, hreach⟩
    exact ⟨o, ⟨ho, hleft⟩, hk, hreach⟩

theorem Copied.sum_own {l : List Uint256} (h : Copied pool left) (hmem : ∀ k ∈ l, k ∈ left) :
    (((l.filterMap left.lookup).map (·.vsize_individual)).sum, ((l.filterMap left.lookup).map (·.fee_individual)).sum) =
      (l.map (own pool)).sum := by
  induction l with
  | nil => rfl
  | cons k l ih =>
    obtain ⟨_, he⟩ := mem_iff_lookup.mp (hmem k mem_cons_self)
    rw [filterMap_cons_some (f := fun k => left.lookup k) he, map_cons, map_cons, map_cons, sum_cons, sum_cons,
      sum_cons, ← ih fun k' hk' => hmem k' (mem_cons_of_mem _ hk'), h.own_eq he]
    rfl

theorem calculateTotalBumpFees_spec (h : Opened pool outpoints s) (hready : s.m_ready_to_calculate = true)
    (hbuild : buildMockTemplate (some rate) s = .ok t) (hinv : Inv pool t) (hsame : SameRequests s t) :
    calculateTotalBumpFees s rate = .ok (some
      (getFee rate (∑ k ∈ needed pool t.m_entries_by_txid outpoints, own pool k).1 -
        (∑ k ∈ needed pool t.m_entries_by_txid outpoints, own pool k).2)) := by
  have hprocess : ∀ k, k ∈ (t.m_requested_outpoints_by_txid.keys.filter fun txid =>
      txid ∉ t.m_in_block ∧ txid ∈ t.m_entries_by_txid) ↔ k ∈ t.m_entries_by_txid ∧ ∃ o ∈ outpoints, o.hash = k := by
    intro k
    have hk := hsame.mem k
    have hapart := hinv.apart k
    rw [h.unmined] at hk
    rw [mem_filter, AList.mem_keys.symm, mem_iff_lookup, hsame.requested]
    simp only [(h.settled hready).requested, decide_eq_true_iff]
    constructor
    · rintro ⟨⟨_, hin, rfl, hne⟩, -, hleft⟩
      obtain ⟨o, ho⟩ := exists_mem_of_ne_nil _ hne
      exact ⟨hleft, o, mem_asked.mp ho⟩
    · rintro ⟨hleft, o, ho⟩
      have hin : k ∈ s.m_entries_by_txid := by simpa using hk.mp (.inr hleft)
      exact ⟨⟨_, hin, rfl, ne_nil_of_mem (mem_asked.mpr ho)⟩, fun hmined => hapart hmined hleft, hleft⟩
  obtain ⟨out, hclosure, hnodup, hmem⟩ := closure_parentsIn hinv.copied hinv.convex
    (fun k hk => ((hprocess k).mp hk).1) (t.m_requested_outpoints_by_txid.keys_nodup.filter _)
  have hout : out.toFinset = needed pool t.m_entries_by_txid outpoints := by
    ext k
    rw [mem_toFinset, hmem, mem_needed]
    simp only [hprocess]
    grind
  have hsum := hinv.copied.sum_own fun k hk => ((hmem k).mp hk).1
  rw [← sum_toFinset _ hnodup, hout, Prod.mk.injEq] at hsum
  rw [calculateTotalBumpFees, hready, hbuild]
  change (closure _ _ _ >>= _) = _
  rw [hclosure, ok_bind]
  dsimp only
  rw [hsum.1, hsum.2]
  rfl

/-! ## What a mock block may leave out -/

theorem sum_surplus (rate : Int) (S : Finset Uint256) :
    ∑ k ∈ S, surplus rate (own pool k) = 1000 * (∑ k ∈ S, own pool k).2 - rate * (∑ k ∈ S, own pool k).1 := by
  simp only [surplus, Prod.fst_sum, Prod.snd_sum, Finset.mul_sum, Finset.sum_sub_distrib]

/-- Every entry of `L` falls short, alone or with its ancestors in `L`, and none descends from a
spender of a requested outpoint. -/
structure MayBeLeft (pool : MockEntryMap) (outpoints : List COutPoint) (rate : Int) (L : Finset Uint256) : Prop where
  convex : ∀ k n a, k ∈ L → a ∈ L → ReflTransGen (Parent pool) k n → ReflTransGen (Parent pool) n a → n ∈ L
  short : ∀ k ∈ L, surplus rate (own pool k) < 0 ∨ ∑ a ∈ ancestors (Parent pool) L k, surplus rate (own pool a) < 0
  unspent : ∀ o ∈ outpoints, o.hash ∈ pool → ∀ k ∈ L, ∀ p, ReflTransGen (Parent pool) k p →
      getConflictTx pool o ≠ some p

/-- Where two of the outpoints may be left out, the ancestors they share pay at most the target feerate. -/
def SharesNoSurplus (pool : MockEntryMap) (outpoints : List COutPoint) (rate : Int) : Prop :=
  ∀ L, MayBeLeft pool outpoints rate L → outpoints.Pairwise fun o o' => o.hash ∈ L → o'.hash ∈ L →
    ∀ a ∈ ancestors (Parent pool) L o.hash, a ∈ ancestors (Parent pool) L o'.hash → surplus rate (own pool a) ≤ 0

theorem Inv.sized (h : Inv pool s) (hsizes : ∀ k e, pool.lookup k = some e → 0 < e.vsize_individual)
    {e : MiniMinerMempoolEntry} (he : s.m_entries_by_txid.lookup k = some e) : Sized e := by
  have hown (a : Uint256) (ha : a ∈ s.m_entries_by_txid) : 0 < (own pool a).1 := by
    obtain ⟨e0, he0⟩ := mem_iff_lookup.mp (h.copied.mem ha)
    rw [own_of_lookup he0]
    exact hsizes a e0 he0
  have hk : k ∈ s.m_entries_by_txid := mem_iff_lookup.mpr ⟨e, he⟩
  refine ⟨?_, ?_⟩
  · have hpos := hown k hk
    rwa [h.copied.own_eq he] at hpos
  · rw [show e.vsize_with_ancestors =
      (∑ a ∈ ancestors (Parent pool) s.m_entries_by_txid.keys.toFinset k, own pool a).1
      from congrArg Prod.fst (h.totals k e he), Prod.fst_sum]
    refine Finset.sum_pos (fun a ha => hown a (mem_toFinset.mp (mem_ancestors.mp ha).1)) ⟨k, ?_⟩
    exact mem_ancestors.mpr ⟨mem_toFinset.mpr hk, .refl⟩

theorem mayBeLeft (hsizes : ∀ k e, pool.lookup k = some e → 0 < e.vsize_individual) (h : Opened pool outpoints s)
    (hinv : Inv pool t) (hsame : SameRequests s t) (hstopped : Stopped (some rate) t) :
    MayBeLeft pool outpoints rate t.m_entries_by_txid.keys.toFinset := by
  have hkeys (k : Uint256) : k ∈ t.m_entries_by_txid.keys.toFinset ↔ k ∈ t.m_entries_by_txid := mem_toFinset
  refine ⟨fun k n a => ?_, fun k hk => ?_, fun o ho hin k hk p hreach hconflict => ?_⟩
  · simpa only [hkeys] using hinv.convex k n a
  · obtain ⟨e, he⟩ := mem_iff_lookup.mp ((hkeys k).mp hk)
    have hlacks := hstopped rate rfl (fun k e he => hinv.sized hsizes he) k e he
    rw [Pays, ← hinv.copied.own_eq he, hinv.totals k e he] at hlacks
    rw [sum_surplus]
    by_contra! hpays
    exact hlacks hpays
  · obtain ⟨replaced, hreplaced, hkept⟩ := h.unspent
    have hopen : k ∈ s.m_entries_by_txid := by
      have hmem := (hsame.mem k).mp (.inr ((hkeys k).mp hk))
      simpa [h.unmined] using hmem
    have hspent : k ∈ replaced := by
      clear hk hopen
      induction hreach using ReflTransGen.head_induction_on with
      | refl => exact hreplaced.spender o ho hin _ hconflict
      | head hparent _ ih => exact hreplaced.down _ ih _ hparent
    exact hkept k hopen hspent

/-! ## The comparison -/

theorem le_bumpFee (rate : Int) (e : MiniMinerMempoolEntry) :
    -surplus rate (e.vsize_with_ancestors, e.fee_with_ancestors) ≤ 1000 * bumpFee rate e := by
  simp only [bumpFee, getFee, surplus]
  omega

theorem le_sum_feeOf (rate : Int) (hinv : Inv pool t) (outpoints : List COutPoint) :
    -((leftOutpoints t.m_entries_by_txid outpoints).map fun o =>
        ∑ k ∈ needs pool t.m_entries_by_txid o, surplus rate (own pool k)).sum ≤
      1000 * (outpoints.map (feeOf rate t.m_entries_by_txid)).sum := by
  induction outpoints with
  | nil => rfl
  | cons o outpoints ih =>
    unfold leftOutpoints at ih ⊢
    rw [map_cons, sum_cons, Int.mul_add]
    cases hlookup : t.m_entries_by_txid.lookup o.hash with
    | none =>
      have hout : o.hash ∉ t.m_entries_by_txid := lookup_eq_none.mp hlookup
      rw [filter_cons_of_neg (by simpa using hout), feeOf, hlookup]
      simpa using ih
    | some e =>
      have hin : o.hash ∈ t.m_entries_by_txid := mem_iff_lookup.mpr ⟨e, hlookup⟩
      have hfee := le_bumpFee rate e
      rw [hinv.totals _ e hlookup] at hfee
      rw [filter_cons_of_pos (by simpa using hin), map_cons, sum_cons, needs, sum_surplus, feeOf, hlookup,
        Option.elim_some]
      unfold surplus at hfee
      omega

/-- Where no surplus is shared, the total is within the single fees. -/
theorem total_le (hinv : Inv pool t) (hshares : SharesNoSurplus pool outpoints rate)
    (hleft : MayBeLeft pool outpoints rate t.m_entries_by_txid.keys.toFinset) :
    getFee rate (∑ k ∈ needed pool t.m_entries_by_txid outpoints, own pool k).1 -
        (∑ k ∈ needed pool t.m_entries_by_txid outpoints, own pool k).2 ≤
        (outpoints.map (feeOf rate t.m_entries_by_txid)).sum := by
  have hpairs : (leftOutpoints t.m_entries_by_txid outpoints).Pairwise fun o o' =>
      ∀ a ∈ needs pool t.m_entries_by_txid o, a ∈ needs pool t.m_entries_by_txid o' →
        surplus rate (own pool a) ≤ 0 := by
    unfold leftOutpoints
    rw [pairwise_filter]
    refine (hshares _ hleft).imp fun hpair ho ho' => hpair ?_ ?_
    · exact mem_toFinset.mpr (mem_keys.mp (of_decide_eq_true ho))
    · exact mem_toFinset.mpr (mem_keys.mp (of_decide_eq_true ho'))
  have hcover := sum_family_le_cover (fun k => surplus rate (own pool k)) hpairs
  have hsum := le_sum_feeOf rate hinv outpoints
  rw [← needed, sum_surplus] at hcover
  unfold getFee
  omega

end FullNode.MiniMiner

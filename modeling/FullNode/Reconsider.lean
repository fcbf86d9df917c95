import FullNode.BlockTreeRuns

/-! # Blocks that a user takes back in -/

namespace FullNode.BlockTree

open Forest

namespace Chainstate

variable {env : Env} {s s' t : Chainstate} {a b p x y z : Nat} {fuel : Nat} {k : Ptr → Prop}

/-! ## ResetBlockFailureFlags -/

/-- The flags of `k` are cleared, and candidates may change. -/
structure Clears (s s' : Chainstate) (k : Ptr → Prop) : Prop where
  tree : SameTree s s'
  tip : s'.tip = s.tip
  valid : ∀ x, s'.failedValid x = true ↔ s.failedValid x = true ∧ ¬ k x
  child : ∀ x, s'.failedChild x = true ↔ s.failedChild x = true ∧ ¬ k x

theorem Clears.failed (h : Clears s s' k) (x : Ptr) : s'.failed x = true ↔ s.failed x = true ∧ ¬ k x := by
  rw [failed_eq, failed_eq, Bool.or_eq_true, Bool.or_eq_true, h.valid, h.child, or_and_right]

variable {k' : Ptr → Prop}

theorem Clears.trans (h : Clears s s' k) (h' : Clears s' t k') : Clears s t fun x => k x ∨ k' x := by
  refine ⟨h.tree.trans h'.tree, h'.tip.trans h.tip, fun x => ?_, fun x => ?_⟩
  · rw [h'.valid, h.valid, not_or, and_assoc]
  · rw [h'.child, h.child, not_or, and_assoc]

theorem Clears.congr (h : Clears s s' k) (hk : ∀ x, s.failed x = true → (k x ↔ k' x)) : Clears s s' k' := by
  refine ⟨h.tree, h.tip, fun x => ?_, fun x => ?_⟩
  · rw [h.valid]
    refine and_congr_right fun hx => not_congr (hk x ?_)
    rw [failed_eq, hx, Bool.true_or]
  · rw [h.child]
    refine and_congr_right fun hx => not_congr (hk x ?_)
    rw [failed_eq, hx, Bool.or_true]

theorem Clears.of_block (h : Clears s s' k) (hi : t.blockIndex = s'.blockIndex) (hb : t.block = s'.block)
    (htip : t.tip = s'.tip) : Clears s t k := by
  refine ⟨h.tree.trans (sameTree_of_block hi hb), htip.trans h.tip, ?_, ?_⟩
  · rw [failedValid_of_block hb]
    exact h.valid
  · rw [failedChild_of_block hb]
    exact h.child

theorem clears_setStatusWhere (cond : Ptr → Bool) :
    Clears s (s.setStatusWhere cond .clear) fun x => x ∈ s.blockIndex ∧ cond x = true := by
  refine ⟨sameTree_setStatusWhere keepsData_clear _, rfl, fun x => ?_, fun x => ?_⟩
  · rw [failedValid_setStatusWhere]
    split
    · next hcond => simp [hcond, BlockStatus.clear]
    · next hcond => simp [hcond]
  · rw [failedChild_setStatusWhere]
    split
    · next hcond => simp [hcond, BlockStatus.clear]
    · next hcond => simp [hcond]

theorem clears_setStatus (x : Ptr) : Clears s (s.setStatus x .clear) (· = x) := by
  refine ⟨sameTree_setStatus keepsData_clear x, rfl, fun y => ?_, fun y => ?_⟩
  · rw [failedValid_setStatus]
    split
    · next hy => simp [hy, BlockStatus.clear]
    · next hy => simp [hy]
  · rw [failedChild_setStatus]
    split
    · next hy => simp [hy, BlockStatus.clear]
    · next hy => simp [hy]

theorem resets_iff (ht : Tree env s) : s.resets b x = true ↔ s.isValid x .transactions = false ∧ Above s.pprev b x := by
  unfold resets
  rw [Bool.and_eq_true, Bool.not_eq_true', beq_iff_eq, ht.getAncestor_iff]

variable (ht : Tree env s) (hb : b ∈ s.blockIndex)
include ht hb

theorem Tree.mem_of_above (h : Above s.pprev b x) : x ∈ s.blockIndex := by
  rcases h.cases with rfl | hstrict
  · exact hb
  · exact ht.mem_below hstrict

theorem clears_resetDescendants :
    Clears s (s.resetDescendants b) fun x => Above s.pprev b x := by
  have hcleared : Clears s (s.setStatusWhere (s.resets b) .clear) fun x => Above s.pprev b x := by
    refine (clears_setStatusWhere (s.resets b)).congr fun x hx => ?_
    rw [resets_iff ht]
    refine ⟨fun h => h.2.2, fun habove => ⟨ht.mem_of_above hb habove, ?_, habove⟩⟩
    rw [← Bool.not_eq_true, isValid_iff, hx]
    simp
  exact hcleared.of_block rfl rfl rfl

/-- What was not valid on `b` becomes a candidate, if it can. -/
theorem mem_resetDescendants : x ∈ (s.resetDescendants b).setBlockIndexCandidates ↔
    (Above s.pprev b x ∧ s.isValid x .transactions = false ∧ BlockValid.transactions.level ≤ s.level x ∧
      s.haveNumChainTxs x = true ∧ s.comp s.tip x = true) ∨ x ∈ s.setBlockIndexCandidates := by
  have hcleared : ∀ y, Above s.pprev b y → (s.setStatusWhere (s.resets b) .clear).failed y = false := by
    intro y hy
    rw [← Bool.not_eq_true]
    intro hfailed
    exact ((clears_resetDescendants ht hb).failed y |>.mp hfailed).2 hy
  have hlevel : ∀ y, (s.setStatusWhere (s.resets b) .clear).level y = s.level y := by
    intro y
    simp only [level, setStatusWhere]
    split <;> rfl
  unfold resetDescendants insertCandidates
  rw [List.mem_union_iff, List.mem_filter]
  simp only [Bool.and_eq_true, resets_iff ht, isValid_iff, hlevel]
  constructor
  · rintro (⟨-, ⟨⟨⟨hinvalid, habove⟩, -, hl⟩, hlinked⟩, hcomp⟩ | hold)
    · exact .inl ⟨habove, hinvalid, hl, hlinked, hcomp⟩
    · exact .inr hold
  · rintro (⟨habove, hinvalid, hl, hlinked, hcomp⟩ | hold)
    · exact .inl ⟨ht.mem_of_above hb habove, ⟨⟨⟨hinvalid, habove⟩, hcleared x habove, hl⟩, hlinked⟩, hcomp⟩
    · exact .inr hold

omit ht hb

theorem clears_resetOne : Clears s (s.resetOne x) (· = x) := by
  unfold resetOne
  split
  · exact (clears_setStatus x).of_block rfl rfl rfl
  · next hunmarked =>
    have hnone : Clears s s fun _ => False := ⟨.refl s, rfl, fun _ => by simp, fun _ => by simp⟩
    refine hnone.congr fun y hy => ⟨False.elim, ?_⟩
    rintro rfl
    exact hunmarked hy

theorem clears_resetAncestors (ht : Tree env s) (hfuel : s.nHeight b < fuel) :
    Clears s (resetAncestors fuel s (some b)) (fun x => Above s.pprev x b) ∧
      (resetAncestors fuel s (some b)).setBlockIndexCandidates = s.setBlockIndexCandidates := by
  induction fuel generalizing s b with
  | zero => omega
  | succ fuel ih =>
    have hone := clears_resetOne (s := s) (x := b)
    have hcand : (s.resetOne b).setBlockIndexCandidates = s.setBlockIndexCandidates := by
      unfold resetOne
      split <;> rfl
    change Clears s (resetAncestors fuel (s.resetOne b) ((s.resetOne b).pprev b)) _ ∧
      (resetAncestors fuel (s.resetOne b) ((s.resetOne b).pprev b)).setBlockIndexCandidates = _
    rw [hone.tree.pprev]
    cases hp : s.pprev b with
    | none =>
      have hend : resetAncestors fuel (s.resetOne b) none = s.resetOne b := by
        cases fuel <;> rfl
      rw [hend]
      exact ⟨hone.congr fun x _ => (above_root hp).symm, hcand⟩
    | some p =>
      have hheight := ht.ranked _ _ hp
      obtain ⟨hrest, hsame⟩ := ih (ht.same hone.tree) (b := p) (by rw [hone.tree.nHeight]; omega)
      refine ⟨(hone.trans hrest).congr fun x _ => ?_, hsame.trans hcand⟩
      rw [hone.tree.pprev, above_iff_of_parent hp]

theorem clears_resetBlockFailureFlags (ht : Tree env s) (hb : b ∈ s.blockIndex) :
    Clears s (s.resetBlockFailureFlags b) (fun x => Above s.pprev b x ∨ Above s.pprev x b) ∧
      ∀ x, x ∈ (s.resetBlockFailureFlags b).setBlockIndexCandidates ↔
        x ∈ (s.resetDescendants b).setBlockIndexCandidates := by
  have hdown := clears_resetDescendants ht hb
  have hfuel : (s.resetDescendants b).nHeight b < s.nHeight b + 1 := by
    rw [hdown.tree.nHeight]
    exact Nat.lt_succ_self _
  obtain ⟨hup, hsame⟩ := clears_resetAncestors (ht.same hdown.tree) hfuel
  rw [hdown.tree.pprev] at hup
  refine ⟨hdown.trans hup, fun x => ?_⟩
  unfold resetBlockFailureFlags
  rw [hsame]

/-! ## What it restores -/

structure Restored (s : Chainstate) (b : Ptr) : Prop where
  cleared : ∀ x ∈ s.blockIndex, Above s.pprev x b ∨ Above s.pprev b x → s.failed x = false
  child : ∀ x ∈ s.blockIndex, s.failedChild x = true → ∃ a, StrictlyAbove s.pprev a x ∧ s.failedValid a = true
  candidates : ∀ x ∈ s.blockIndex, (∀ a, Above s.pprev a x → s.haveData a = true) →
    (∀ a, Above s.pprev a x → s.failed a = false) → s.comp s.tip x = true → x ∈ s.setBlockIndexCandidates

/-- No branch off an ancestor has the flag of a child, and ancestors are candidates but for theirs. -/
structure Reconsiderable (s : Chainstate) (b : Ptr) : Prop where
  branches : ∀ z p, s.pprev z = some p → StrictlyAbove s.pprev p b → ¬ Above s.pprev z b → s.failedChild z = false
  ancestors : ∀ a, StrictlyAbove s.pprev a b → s.failed a = true → (∀ c, Above s.pprev c a → s.haveData c = true) →
    s.comp s.tip a = true → a ∈ s.setBlockIndexCandidates

theorem not_strictlyAbove_below (ht : Tree env s) (hp : StrictlyAbove s.pprev p b) : ¬ Above s.pprev b p := by
  intro habove
  have hlt := hp.rank_lt ht.ranked
  have hle := habove.rank_le ht.ranked
  omega

theorem Restored.reconsiderable (hs : Settled env s) (hb : b ∈ s.blockIndex)
    (h : Restored (s.resetBlockFailureFlags b) b) : Reconsiderable s b := by
  obtain ⟨hclears, hcand⟩ := clears_resetBlockFailureFlags hs.tree hb
  have hcleared := h.cleared
  have hchild := h.child
  have hcandidates := h.candidates
  rw [hclears.tree.blockIndex, hclears.tree.pprev] at hcleared hchild hcandidates
  rw [hclears.tree.haveData, hclears.tip, hclears.tree.comp] at hcandidates
  constructor
  · intro z p hp hpb hzb
    rw [← Bool.not_eq_true]
    intro hflag
    obtain ⟨hz, -, -, -⟩ := hs.tree.parent z p hp
    have hoff : ¬ (Above s.pprev b z ∨ Above s.pprev z b) := by
      rintro (hbz | hzb')
      · rcases (above_iff_of_parent hp).mp hbz with rfl | hbp
        · exact hzb (.refl _)
        · exact not_strictlyAbove_below hs.tree hpb hbp
      · exact hzb hzb'
    obtain ⟨a, haz, hvalid⟩ := hchild z hz ((hclears.child z).mpr ⟨hflag, hoff⟩)
    -- All that is above `z` is above `b`, where nothing is flagged any more.
    obtain ⟨_, hq, haq⟩ := haz
    cases hp.symm.trans hq
    have hab := haq.trans hpb.above
    have hnone := hcleared a (hs.tree.mem_above hab hb) (.inl hab)
    rw [failed_eq, hvalid, Bool.true_or] at hnone
    cases hnone
  · intro a hab hflag hdata hcomp
    have hmem := hs.tree.mem_above hab.above hb
    have hin := hcandidates a hmem hdata
      (fun c hc => hcleared c (hs.tree.mem_above hc hmem) (.inl (hc.trans hab.above))) hcomp
    rw [hcand, mem_resetDescendants hs.tree hb] at hin
    exact hin.resolve_left fun hnew => not_strictlyAbove_below hs.tree hab hnew.1

theorem Reconsiderable.restored (hs : Settled env s) (hb : b ∈ s.blockIndex) (h : Reconsiderable s b) :
    Restored (s.resetBlockFailureFlags b) b := by
  obtain ⟨hclears, hcand⟩ := clears_resetBlockFailureFlags hs.tree hb
  refine ⟨?_, ?_, ?_⟩
  · rw [hclears.tree.blockIndex, hclears.tree.pprev]
    intro x _ hx
    rw [← Bool.not_eq_true, hclears.failed]
    exact fun hflag => hflag.2 hx.symm
  · rw [hclears.tree.blockIndex, hclears.tree.pprev]
    intro x hx hflag
    obtain ⟨hold, hoff⟩ := (hclears.child x).mp hflag
    obtain ⟨hbx, hxb⟩ := not_or.mp hoff
    obtain ⟨c, hcx, hc⟩ := hs.flags.child x hx hold
    by_cases hcb : Above s.pprev c b
    · -- The mark of `c` is cleared. Where the way to `x` leaves the way to `b`, it meets a block that failed by itself.
      obtain ⟨z, p, hp, hzx, hzb, hpb, hcp⟩ := exists_branch hcx.above hcb hxb
      have hbz : ¬ Above s.pprev b z := fun hbz => hbx (hbz.trans hzx)
      have hpb' : StrictlyAbove s.pprev p b := by
        refine .of_above hpb ?_
        rintro rfl
        exact hbz (.of_parent hp)
      have hnochild := h.branches z p hp hpb' hzb
      have hzflag := hc.below z (hcp.trans (.of_parent hp))
      rw [failed_eq, hnochild, Bool.or_false] at hzflag
      refine ⟨z, .of_above hzx ?_, (hclears.valid z).mpr ⟨hzflag, not_or.mpr ⟨hbz, hzb⟩⟩⟩
      rintro rfl
      rw [hold] at hnochild
      cases hnochild
    · refine ⟨c, hcx, (hclears.valid c).mpr ⟨hc.valid, not_or.mpr ⟨fun hbc => hbx (hbc.trans hcx.above), hcb⟩⟩⟩
  · rw [hclears.tree.blockIndex, hclears.tree.pprev, hclears.tree.haveData, hclears.tip, hclears.tree.comp]
    intro x hx hdata hunmarked hcomp
    rw [hcand, mem_resetDescendants hs.tree hb]
    have hl := (hs.data.linked_iff hs.tree hx).mpr hdata
    have hbefore := comp_asymm hcomp
    by_cases hflag : s.failed x = true
    · have hself := hunmarked x (.refl x)
      have hon : Above s.pprev b x ∨ Above s.pprev x b := by
        by_contra hoff
        rw [(hclears.failed x).mpr ⟨hflag, hoff⟩] at hself
        cases hself
      by_cases hbx : Above s.pprev b x
      · refine .inl ⟨hbx, ?_, hs.data.level x hx (hs.data.of_linked x hx hl).1, hl, hcomp⟩
        rw [← Bool.not_eq_true, isValid_iff, hflag]
        simp
      · refine .inr (h.ancestors x (.of_above (hon.resolve_left hbx) ?_) hflag hdata hcomp)
        rintro rfl
        exact hbx (.refl _)
    · exact .inr (hs.candidates.complete x hx hl (by simpa using hflag) hbefore hbefore)

end Chainstate

open Chainstate

/-- It undoes an invalidation just when no branch off an ancestor is flagged, and no flagged ancestor is missing. -/
theorem resetBlockFailureFlags_restores_iff {env : Env} {s : Chainstate} (h : Reachable env s) {b : Ptr}
    (hb : b ∈ s.blockIndex) : Restored (s.resetBlockFailureFlags b) b ↔ Reconsiderable s b :=
  ⟨fun hr => hr.reconsiderable h.settled hb, fun hr => hr.restored h.settled hb⟩

/-! ## One run -/

def invalidatedRun : List Call :=
  [.block (blockOn 0 1) true true true, .header (headerOn 1 2) true true,
    .header (headerOn 1 3) true true, .activateBestChain 5, .invalidateBlock 1]

/-- Block 1 itself may be taken back in. -/
theorem invalidated_restored : ∃ s, invalidatedRun.foldlM (Call.run plainEnv) (start plainEnv) = .ok s ∧
    Restored (s.resetBlockFailureFlags 1) 1 := by
  obtain ⟨s, hrun, hfacts⟩ := of_endsIn (invalidatedRun.foldlM (Call.run plainEnv) (start plainEnv)) (fun s =>
    decide (s.blockIndex = [0, 1, 2, 3]) && s.pprev 0 == none && s.pprev 1 == some 0 && s.pprev 2 == some 1 &&
      s.pprev 3 == some 1 && !s.failed 0) (by decide)
  have hreach := Reachable.start.runs hrun
  simp only [Bool.and_eq_true, decide_eq_true_eq, beq_iff_eq, Bool.not_eq_true'] at hfacts
  obtain ⟨⟨⟨⟨⟨hindex, h0⟩, h1⟩, h2⟩, h3⟩, hgenesis⟩ := hfacts
  have honly : ∀ p, StrictlyAbove s.pprev p 1 → p = 0 := by
    rintro p ⟨_, hq, hpq⟩
    cases h1.symm.trans hq
    exact (above_root h0).mp hpq
  refine ⟨s, hrun, (resetBlockFailureFlags_restores_iff hreach (by rw [hindex]; decide)).mpr ⟨?_, ?_⟩⟩
  · intro z p hp hpb hzb
    obtain rfl := honly p hpb
    have hz := (hreach.settled.tree.parent z 0 hp).1
    rw [hindex] at hz
    simp only [List.mem_cons, List.not_mem_nil, or_false] at hz
    rcases hz with rfl | rfl | rfl | rfl
    · rw [h0] at hp
      cases hp
    · exact absurd (.refl 1) hzb
    · rw [h2] at hp
      cases hp
    · rw [h3] at hp
      cases hp
  · intro a ha hflag
    obtain rfl := honly a ha
    rw [hgenesis] at hflag
    cases hflag

/-- Block 1 has its data, no flag and more work than the tip, and is no candidate. -/
theorem ancestor_forgotten : ∃ s, invalidatedRun.foldlM (Call.run plainEnv) (start plainEnv) = .ok s ∧
    Reachable plainEnv s ∧ 2 ∈ s.blockIndex ∧ ¬ Restored (s.resetBlockFailureFlags 2) 2 := by
  obtain ⟨s, hrun, hfacts⟩ := of_endsIn (invalidatedRun.foldlM (Call.run plainEnv) (start plainEnv)) (fun s =>
    let t := s.resetBlockFailureFlags 2
    decide (2 ∈ s.blockIndex) && decide (1 ∈ t.blockIndex) && t.pprev 0 == none && t.pprev 1 == some 0 &&
      t.haveData 0 &&
      t.haveData 1 && !t.failed 0 && !t.failed 1 && t.comp t.tip 1 && !decide (1 ∈ t.setBlockIndexCandidates))
        (by decide)
  have hreach := Reachable.start.runs hrun
  simp only [Bool.and_eq_true, decide_eq_true_eq, beq_iff_eq, Bool.not_eq_true', decide_eq_false_iff_not] at hfacts
  obtain ⟨⟨⟨⟨⟨⟨⟨⟨⟨hmem, hmem1⟩, h0⟩, h1⟩, hdata0⟩, hdata1⟩, hfail0⟩, hfail1⟩, hcomp⟩, hcand⟩ := hfacts
  have hpath : ∀ a, Above (s.resetBlockFailureFlags 2).pprev a 1 → a = 1 ∨ a = 0 := by
    intro a ha
    exact ((above_iff_of_parent h1).mp ha).imp id (above_root h0).mp
  refine ⟨s, hrun, hreach, hmem, fun hrestored => hcand (hrestored.candidates 1 hmem1 ?_ ?_ hcomp)⟩
  · intro a ha
    rcases hpath a ha with rfl | rfl
    · exact hdata1
    · exact hdata0
  · intro a ha
    rcases hpath a ha with rfl | rfl
    · exact hfail1
    · exact hfail0

end FullNode.BlockTree

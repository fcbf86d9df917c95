import FullNode.BlockTreeRuns

/-! # The best valid chain -/

namespace FullNode.BlockTree

open Forest List

namespace Chainstate

variable {env : Env} {s s' t : Chainstate} {a p x y : Nat} {fuel : Nat} {bad invalid : Ptr → Prop}

/-! ## What is promised -/

def HasData (s : Chainstate) (x : Ptr) : Prop := ∀ a, Above s.pprev a x → s.haveData a = true

def Unmarked (s : Chainstate) (x : Ptr) : Prop := ∀ a, Above s.pprev a x → s.failed a = false

structure Ordered (s : Chainstate) : Prop where
  linked : ∀ x ∈ s.blockIndex, s.chainTxCount x ≠ 0 ↔ HasData s x
  tip : s.tip ∈ s.setBlockIndexCandidates
  candidates : ∀ x ∈ s.blockIndex, HasData s x → Unmarked s x → s.comp x s.tip = false → x ∈ s.setBlockIndexCandidates

/-- What holds where `ActivateBestChain` ends. -/
structure OnBestChain (env : Env) (invalid : Ptr → Prop) (s : Chainstate) : Prop where
  unmarked : ∀ x ∈ s.blockIndex, HasData s x → Unmarked s x → s.nChainWork x ≤ s.nChainWork s.tip
  valid : ∀ x ∈ s.blockIndex, HasData s x → (∀ a, Above s.pprev a x → ¬ invalid a) → s.nChainWork x ≤ s.nChainWork s.tip
  judged : ∀ a, Above s.pprev a s.tip → a = env.hashGenesisBlock ∨ env.connects a = true

theorem Usable.hasData (h : Usable s x) (ht : Tree env s) (hd : Data s []) : HasData s x :=
  (hd.linked_iff ht h.mem).mp h.self.2

theorem Settled.ordered (hs : Settled env s) : Ordered s := by
  refine ⟨fun x hx => ?_, ?_, fun x hx hdata hunmarked hc => ?_⟩
  · rw [← haveNumChainTxs_iff]
    exact hs.data.linked_iff hs.tree hx
  · have husable := hs.tip.usable
    exact hs.candidates.complete s.tip husable.mem husable.self.2 husable.self.1 (comp_irrefl _) (comp_irrefl _)
  · exact hs.candidates.complete x hx ((hs.data.linked_iff hs.tree hx).mpr hdata) (hunmarked x (.refl x)) hc hc

def Judged (invalid : Ptr → Prop) (s : Chainstate) : Prop :=
  ∀ a ∈ s.blockIndex, s.failedValid a = true → ∃ c, Above s.pprev c a ∧ invalid c

theorem Judges.judged (h : Judges bad s s') (hj : Judged invalid s) (hbad : ∀ c, bad c → invalid c) :
    Judged invalid s' := by
  intro a hmem ha
  rcases h.valid a hmem ha with ⟨hold, hv⟩ | ⟨c, hca, hc⟩
  · obtain ⟨c, hca, hc⟩ := hj a hold hv
    exact ⟨c, h.above a hold c hca, hc⟩
  · exact ⟨c, hca, hbad c hc⟩

theorem Judged.unmarked (hj : Judged invalid s) (hs : Settled env s) (hx : x ∈ s.blockIndex)
    (hvalid : ∀ a, Above s.pprev a x → ¬ invalid a) : Unmarked s x := by
  have hnone : ∀ a, Above s.pprev a x → s.failedValid a = false := by
    intro a ha
    rw [← Bool.not_eq_true]
    intro hv
    obtain ⟨c, hca, hc⟩ := hj a (hs.tree.mem_above ha hx) hv
    exact hvalid c (hca.trans ha) hc
  intro a ha
  rw [failed_eq, hnone a ha, Bool.false_or, ← Bool.not_eq_true]
  intro hchild
  obtain ⟨c, hca, hc⟩ := hs.flags.child a (hs.tree.mem_above ha hx) hchild
  have hv := hc.valid
  rw [hnone c (hca.above.trans ha)] at hv
  cases hv

theorem Settled.onBestChain (hs : Settled env s) (hbest : Best s s.tip) (hj : Judged invalid s) :
    OnBestChain env invalid s := by
  have hwork : ∀ x ∈ s.blockIndex, HasData s x → Unmarked s x → s.nChainWork x ≤ s.nChainWork s.tip := by
    intro x hx hdata hunmarked
    cases hc : s.comp x s.tip with
    | true =>
      rw [comp_iff] at hc
      omega
    | false =>
      have hnot := hbest x (hs.ordered.candidates x hx hdata hunmarked hc)
      rw [← Bool.not_eq_true, comp_iff] at hnot
      omega
  refine ⟨hwork, fun x hx hdata hvalid => hwork x hx hdata (hj.unmarked hs hx hvalid), fun a ha => ?_⟩
  refine (hs.tip.connects a ha).imp (fun hroot => ?_) id
  have hmem := hs.tree.mem_above ha hs.tip.usable.mem
  exact ((above_root hroot).mp (hs.tree.rooted a hmem)).symm

/-! ## PreciousBlock -/

/-- The call for `p` puts no block past the tip that is no candidate. -/
def Steady (s : Chainstate) (p : Ptr) : Prop :=
  p = s.tip → ∀ x ∈ s.blockIndex, HasData s x → Unmarked s x → x ∉ s.setBlockIndexCandidates →
    (s.setPrecious p).comp x p = true

theorem Settled.reorder (hs : Settled env s) (hi : t.blockIndex = s.blockIndex) (hb : t.block = (s.setPrecious p).block)
    (htip : t.tip = s.tip) (hu : t.blocksUnlinked = s.blocksUnlinked) (hf : t.failedBlocks = s.failedBlocks)
    (hlinked : ∀ x ∈ t.setBlockIndexCandidates, x ∈ s.blockIndex ∧ s.haveNumChainTxs x = true)
    (hcomplete : ∀ x ∈ s.blockIndex, s.haveNumChainTxs x = true → s.failed x = false →
      (s.setPrecious p).comp x s.tip = false →
      x ∈ t.setBlockIndexCandidates) : Settled env t ∧ Judges bad s t := by
  have hblock : t.block = (s.modify p fun b => { b with nSequenceId := s.preciousId }).block := hb
  have hp : t.pprev = s.pprev := field_modify (·.pprev) hblock fun _ => rfl
  have hl : t.haveNumChainTxs = s.haveNumChainTxs := field_modify (fun b => b.chainTxCount != 0) hblock fun _ => rfl
  have hv : t.failedValid = s.failedValid := field_modify (·.nStatus.failedValid) hblock fun _ => rfl
  have hc : t.failedChild = s.failedChild := field_modify (·.nStatus.failedChild) hblock fun _ => rfl
  have hn : t.nTx = s.nTx := field_modify (·.nTx) hblock fun _ => rfl
  have hfailed : t.failed = s.failed := field_modify (·.nStatus.failed) hblock fun _ => rfl
  have hlevel : t.level = s.level := field_modify (·.nStatus.valid.level) hblock fun _ => rfl
  have hcomp : t.comp = (s.setPrecious p).comp := by
    funext x y
    have hsame : ∀ z, SameAt (s.setPrecious p) t z := congrFun hb
    exact (hsame x).comp (hsame y)
  refine ⟨.intro (hs.tree.of_eq hi hp (field_modify (·.nHeight) hblock fun _ => rfl)
    (field_modify (·.nChainWork) hblock fun _ => rfl))
    (hs.data.of_eq hi hp hn hl (field_modify (·.nStatus.haveData) hblock fun _ => rfl) ?_ hu ?_)
    (hs.flags.of_eq hi hp hv hc hf ?_) ?_ ⟨?_, ?_⟩, .of_eq hi hp hv⟩
  · rw [hlevel]
    exact fun _ => Nat.le_refl _
  · rw [hv]
    exact fun _ ha => ha
  · rw [hn]
    exact fun _ _ htx => htx
  · rw [htip]
    exact hs.tip.of_le hi hp hfailed fun a ha => (congrFun hl a).trans ha
  · rw [hi, hl]
    exact hlinked
  · rw [hi, hl, hfailed, hcomp, htip]
    exact fun x hx hlx hfx _ hcx => hcomplete x hx hlx hfx hcx

theorem comp_setPrecious (hx : x ≠ p) (hy : y ≠ p) : (s.setPrecious p).comp x y = s.comp x y := by
  have hblock : (s.setPrecious p).block = (s.modify p fun b => { b with nSequenceId := s.preciousId }).block := rfl
  exact (sameAt_modify hblock hx).comp (sameAt_modify hblock hy)

theorem makePrecious_keeps (hs : Settled env s) (hp : p ∈ s.blockIndex) (hsteady : Steady s p)
    (hok : s.makePrecious p = .ok s') : Settled env s' ∧ Judges bad s s' := by
  have husable : (s.setPrecious p).isValid p .transactions = true ∧ (s.setPrecious p).haveNumChainTxs p = true ↔
      s.failed p = false ∧ s.haveNumChainTxs p = true := by
    have hblock : (s.setPrecious p).block = (s.modify p fun b => { b with nSequenceId := s.preciousId }).block := rfl
    have hfailed : (s.setPrecious p).failed = s.failed := field_modify (·.nStatus.failed) hblock fun _ => rfl
    have hlevel : (s.setPrecious p).level = s.level := field_modify (·.nStatus.valid.level) hblock fun _ => rfl
    have hl : (s.setPrecious p).haveNumChainTxs = s.haveNumChainTxs :=
      field_modify (fun b => b.chainTxCount != 0) hblock fun _ => rfl
    rw [isValid_iff, hfailed, hlevel, hl]
    refine ⟨fun h => ⟨h.1.1, h.2⟩, fun h => ⟨⟨h.1, ?_⟩, h.2⟩⟩
    exact hs.data.level p hp (hs.data.of_linked p hp h.2).1
  have hothers : ∀ x ∈ (s.setPrecious p).setBlockIndexCandidates, x ∈ s.blockIndex ∧ s.haveNumChainTxs x = true :=
    fun x hx => hs.candidates.linked x (mem_filter.mp hx).1
  unfold makePrecious at hok
  dsimp only at hok
  split at hok
  · next hvalid =>
    rw [Bool.and_eq_true, husable] at hvalid
    unfold pruneBlockIndexCandidates at hok
    obtain ⟨-, -, hrest⟩ := bind_ok.mp hok
    cases hrest
    refine hs.reorder rfl rfl rfl rfl rfl (fun x hx => ?_) fun x hx hl hf hc => ?_
    · rcases mem_insert_iff.mp (mem_filter.mp hx).1 with rfl | hold
      · exact ⟨hp, hvalid.2⟩
      · exact hothers x hold
    · have hkept : (!(s.setPrecious p).comp x s.tip) = true := by rw [hc]; rfl
      refine mem_filter.mpr ⟨mem_insert_iff.mpr ?_, hkept⟩
      by_cases hxp : x = p
      · exact .inl hxp
      · refine .inr (mem_filter.mpr ⟨?_, decide_eq_true hxp⟩)
        by_cases htip : s.tip = p
        · -- The order of the tip itself changes: what sorted before it may not do so any more.
          have hway := hs.flags.usable hs.data hs.tree hx hl hf
          by_contra hmissing
          have hbefore := hsteady htip.symm x hx (hway.hasData hs.tree hs.data) (fun a ha => (hway.way a ha).1) hmissing
          rw [htip, hbefore] at hc
          cases hc
        · rw [comp_setPrecious hxp htip] at hc
          exact hs.candidates.complete x hx hl hf hc hc
  · next hinvalid =>
    rw [Bool.and_eq_true, husable] at hinvalid
    cases hok
    refine hs.reorder rfl rfl rfl rfl rfl hothers fun x hx hl hf hc => ?_
    have hxp : x ≠ p := by
      rintro rfl
      exact hinvalid ⟨hf, hl⟩
    have htip : s.tip ≠ p := by
      rintro rfl
      exact hinvalid hs.tip.usable.self
    rw [comp_setPrecious hxp htip] at hc
    exact mem_filter.mpr ⟨hs.candidates.complete x hx hl hf hc hc, decide_eq_true hxp⟩

theorem preciousBlock_keeps (hs : Settled env s) (hp : p ∈ s.blockIndex) (hsteady : Steady s p)
    (hok : s.preciousBlock env p fuel = .ok s') :
    Settled env s' ∧ Judges (Rejects env) s s' ∧ (s.nChainWork s.tip ≤ s.nChainWork p → Best s' s'.tip) := by
  unfold preciousBlock at hok
  split at hok
  · next hless =>
    cases hok
    exact ⟨hs, .refl _, fun hwork => absurd hless (Nat.not_lt.mpr hwork)⟩
  · obtain ⟨_, hmake, hactivate⟩ := bind_ok.mp hok
    obtain ⟨hsettled, hjudges⟩ := makePrecious_keeps hs hp hsteady hmake
    obtain ⟨hkeeps, hnarrows, hbest⟩ := activateBestChain_keeps hsettled hactivate
    exact ⟨hkeeps, hjudges.trans hnarrows.judges, fun _ => hbest⟩

end Chainstate

open Chainstate

/-! ## Every run -/

def Op.Condemns (x : Ptr) : Op → Prop
  | .call c => c.Condemns x
  | .preciousBlock _ _ => False

/-- A block that does not connect, has invalid data, or was taken out. -/
def Invalid (env : Env) (ops : List Op) (x : Ptr) : Prop := Rejects env x ∨ ∃ op ∈ ops, op.Condemns x

def Op.Steady (s : Chainstate) : Op → Prop
  | .call _ => True
  | .preciousBlock pindex _ => Chainstate.Steady s pindex

/-- `PreciousBlock` does nothing for a block with less work than the tip. -/
def Op.Activates (s : Chainstate) : Op → Prop
  | .call (.activateBestChain _) => True
  | .preciousBlock pindex _ => pindex ∈ s.blockIndex ∧ s.nChainWork s.tip ≤ s.nChainWork pindex
  | _ => False

inductive SteadyRun (env : Env) : List Op → Chainstate → Prop
  | start : SteadyRun env [] (start env)
  | op {ops : List Op} {s s' : Chainstate} {op : Op} (h : SteadyRun env ops s) (hsteady : op.Steady s)
      (hrun : op.run env s = .ok s') : SteadyRun env (ops ++ [op]) s'

variable {env : Env} {s s' : Chainstate} {ops : List Op}

theorem Op.run_keeps {op : Op} (hs : Settled env s) (hsteady : op.Steady s)
    (hrun : op.run env s = .ok s') :
    Settled env s' ∧ Judges (fun x => Rejects env x ∨ op.Condemns x) s s' ∧ (op.Activates s → Best s' s'.tip) := by
  cases op with
  | call c =>
    obtain ⟨hsettled, hjudges⟩ := Call.run_keeps hs hrun
    refine ⟨hsettled, hjudges, fun hactivates => ?_⟩
    cases c with
    | activateBestChain fuel => exact (activateBestChain_keeps hs hrun).2.2
    | header | block | invalidateBlock => exact hactivates.elim
  | preciousBlock pindex fuel =>
    change (if pindex ∈ s.blockIndex then s.preciousBlock env pindex fuel else .ok s) = .ok s' at hrun
    split at hrun
    · next hmem =>
      obtain ⟨hsettled, hjudges, hbest⟩ := preciousBlock_keeps hs hmem hsteady hrun
      exact ⟨hsettled, hjudges.mono fun _ hc => .inl hc, fun hactivates => hbest hactivates.2⟩
    · next hunknown =>
      cases hrun
      exact ⟨hs, .refl _, fun hactivates => absurd hactivates.1 hunknown⟩

theorem SteadyRun.keeps {s : Chainstate} (h : SteadyRun env ops s) :
    Settled env s ∧ Judged (Invalid env ops) s := by
  induction h with
  | start =>
    refine ⟨start_settled, fun a hmem ha => ?_⟩
    obtain rfl := mem_singleton.mp hmem
    have hunmarked : (BlockTree.start env).failedValid env.hashGenesisBlock = false := by
      simp [failedValid, BlockTree.start]
    rw [hunmarked] at ha
    cases ha
  | @op ops s s' op _ hsteady hrun ih =>
    obtain ⟨hsettled, hjudges, -⟩ := op.run_keeps ih.1 hsteady hrun
    refine ⟨hsettled, hjudges.judged (fun a hmem ha => ?_) fun c hc => ?_⟩
    · obtain ⟨c, hca, hc⟩ := ih.2 a hmem ha
      refine ⟨c, hca, hc.imp id ?_⟩
      rintro ⟨op', hop, hcond⟩
      exact ⟨op', mem_append_left _ hop, hcond⟩
    · exact hc.imp id fun hcond => ⟨op, mem_append_right _ (mem_singleton.mpr rfl), hcond⟩

/-- After every call of a steady run activation ends on a best block. -/
theorem SteadyRun.bestChain {env : Env} {ops : List Op} {s : Chainstate} (h : SteadyRun env ops s) :
    Ordered s ∧ ∀ (op : Op) (s' : Chainstate), op.Steady s → op.Activates s → op.run env s = .ok s' →
      OnBestChain env (Invalid env (ops ++ [op])) s' := by
  refine ⟨h.keeps.1.ordered, fun op s' hsteady hactivates hrun => ?_⟩
  obtain ⟨hsettled, hjudged⟩ := (h.op hsteady hrun).keeps
  exact hsettled.onBestChain ((op.run_keeps h.keeps.1 hsteady hrun).2.2 hactivates) hjudged

/-! ## Two runs -/

def arrival (prev self : Ptr) : Op := .call (.block (blockOn prev self) true true true)

theorem SteadyRun.calls (h : SteadyRun env ops s) {calls : List Call}
    (hrun : (calls.map Op.call).foldlM (Op.run env) s = .ok s') : SteadyRun env (ops ++ calls.map Op.call) s' := by
  induction calls generalizing ops s with
  | nil =>
    cases hrun
    rwa [map_nil, append_nil]
  | cons call calls ih =>
    obtain ⟨_, hcall, hrest⟩ := bind_ok.mp hrun
    rw [map_cons, append_cons]
    exact ih (h.op trivial hcall) hrest

/-- Block 1 is the tip until block 3 arrives, and again after that. -/
def returningRun : List Call :=
  [.block (blockOn 0 1) true true true, .activateBestChain 5, .block (blockOn 0 2) true true true,
    .block (blockOn 2 3) true true true, .activateBestChain 5, .invalidateBlock 3, .activateBestChain 5]

/-- Block 2 arrived later than the tip, and is preferred. -/
theorem returning_bestChain : ∃ s s', (returningRun.map Op.call).foldlM (Op.run plainEnv) (start plainEnv) = .ok s ∧
    Ordered s ∧ s.tip = 1 ∧ (Op.preciousBlock 2 5).run plainEnv s = .ok s' ∧ s'.tip = 2 ∧
      OnBestChain plainEnv (Invalid plainEnv (returningRun.map Op.call ++ [.preciousBlock 2 5])) s' := by
  obtain ⟨s, hrun, hfacts⟩ := of_endsIn ((returningRun.map Op.call).foldlM (Op.run plainEnv) (start plainEnv)) (fun s =>
    decide (s.tip = 1) && decide (2 ∈ s.blockIndex ∧ s.nChainWork s.tip ≤ s.nChainWork 2) &&
      endsIn ((Op.preciousBlock 2 5).run plainEnv s) fun s' => decide (s'.tip = 2)) (by decide)
  simp only [Bool.and_eq_true, decide_eq_true_eq] at hfacts
  obtain ⟨⟨hbefore, hactivates⟩, hafter⟩ := hfacts
  obtain ⟨s', hprecious, htip⟩ := of_endsIn _ _ hafter
  obtain ⟨hordered, hbest⟩ := (SteadyRun.start.calls hrun).bestChain
  refine ⟨s, s', hrun, hordered, hbefore, hprecious, of_decide_eq_true htip, hbest _ s' ?_ hactivates hprecious⟩
  intro hsame
  rw [hbefore] at hsame
  cases hsame

/-- Two blocks are activated and taken out, then block 4 is preferred. -/
def passedRun : List Op :=
  [.preciousBlock 0 9, arrival 0 1, arrival 1 2, arrival 0 3, arrival 0 4, .preciousBlock 3 9,
    .call (.invalidateBlock 1), .preciousBlock 4 9, .preciousBlock 4 9]

/-- Block 3 then sorts after the tip, and is no candidate. -/
theorem passed_missing : ∃ s, passedRun.foldlM (Op.run plainEnv) (start plainEnv) = .ok s ∧ ¬ Ordered s := by
  obtain ⟨s, hrun, hfacts⟩ := of_endsIn (passedRun.foldlM (Op.run plainEnv) (start plainEnv)) (fun s =>
    decide (3 ∈ s.blockIndex) && s.pprev 0 == none && s.pprev 3 == some 0 && s.haveData 0 && s.haveData 3 &&
      !s.failed 0 && !s.failed 3 && !s.comp 3 s.tip && !decide (3 ∈ s.setBlockIndexCandidates)) (by decide)
  simp only [Bool.and_eq_true, decide_eq_true_eq, beq_iff_eq, Bool.not_eq_true', decide_eq_false_iff_not] at hfacts
  obtain ⟨⟨⟨⟨⟨⟨⟨⟨hmem, h0⟩, h3⟩, hdata0⟩, hdata3⟩, hfail0⟩, hfail3⟩, hcomp⟩, hcand⟩ := hfacts
  have hpath : ∀ a, Above s.pprev a 3 → a = 3 ∨ a = 0 :=
      fun a ha => ((above_iff_of_parent h3).mp ha).imp id (above_root h0).mp
  refine ⟨s, hrun, fun hordered => hcand (hordered.candidates 3 hmem ?_ ?_ hcomp)⟩
  · intro a ha
    rcases hpath a ha with rfl | rfl
    · exact hdata3
    · exact hdata0
  · intro a ha
    rcases hpath a ha with rfl | rfl
    · exact hfail3
    · exact hfail0

end FullNode.BlockTree

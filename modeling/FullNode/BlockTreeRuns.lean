import FullNode.BlockTreeActivation

/-! # Every run of a block tree -/

namespace FullNode.BlockTree

open Forest List

namespace Chainstate

variable {env : Env} {s s' t : Chainstate} {a p x y toMark : Nat} {fuel : Nat} {byWork : List Ptr}

/-! ## InvalidateBlock -/

/-- The invariant of the loop: blocks are off the tip and marked. -/
structure Disconnecting (s' s : Chainstate) (p toMark : Ptr) (byWork : List Ptr) : Prop where
  tree : SameTree s' s
  marks : Marks s' s
  tip : Above s'.pprev s.tip s'.tip
  valid : ∀ a, s.failedValid a = true → s'.failedValid a = true ∨ Above s'.pprev p a
  child : s.failedChild = s'.failedChild
  failedBlocks : s.failedBlocks = s'.failedBlocks
  blocksUnlinked : s.blocksUnlinked = s'.blocksUnlinked
  candidates : ∀ x ∈ s.setBlockIndexCandidates, x ∈ s'.blockIndex ∧ s'.haveNumChainTxs x = true
  byWork : ∀ x ∈ byWork, x ∈ s'.blockIndex ∧ s'.haveNumChainTxs x = true
  mark : toMark = p ∧ (Above s'.pprev p s.tip → s.failedValid p = false) ∨
      Above s'.pprev p toMark ∧ s'.pprev toMark = some s.tip

theorem Disconnecting.step (h : Disconnecting s' s p toMark byWork) (hs : Settled env s') (hp : Above s'.pprev p s.tip)
    {prev : Ptr} (hprev : s'.pprev s.tip = some prev) {t : Chainstate} (ht : SameTree s t)
    (hblock : t.block = (s.setStatus s.tip .markValid).block) (htip : t.tip = prev)
    (hcand : ∀ x ∈ t.setBlockIndexCandidates, x ∈ s.setBlockIndexCandidates ∨ x = prev ∨ x ∈ byWork)
    (hu : t.blocksUnlinked = s.blocksUnlinked) (hb : t.failedBlocks = s.failedBlocks) {rest : List Ptr}
    (hrest : ∀ x ∈ rest, x ∈ byWork) : Disconnecting s' t p s.tip rest := by
  have hvalid : ∀ y, t.failedValid y = true ↔ y = s.tip ∨ s.failedValid y = true := by
    rw [failedValid_of_block hblock]
    exact fun y => failedValid_markValid
  have hprevtip : Above s'.pprev prev s'.tip := (Above.of_parent hprev).trans h.tip
  refine ⟨h.tree.trans ht, h.marks.trans ⟨fun y hy => (hvalid y).mpr (.inr hy), ?_⟩, ?_, fun y hy => ?_, ?_,
    hb.trans h.failedBlocks, hu.trans h.blocksUnlinked, fun x hx => ?_, fun x hx => h.byWork x (hrest x hx), ?_⟩
  · rw [failedChild_of_block hblock, failedChild_markValid]
    exact fun _ hy => hy
  · rw [htip]
    exact hprevtip
  · rcases (hvalid y).mp hy with rfl | hold
    · exact .inr hp
    · exact h.valid y hold
  · rw [failedChild_of_block hblock, failedChild_markValid, h.child]
  · rcases hcand x hx with hold | rfl | hnew
    · exact h.candidates x hold
    · have husable := hs.tip.usable.above hs.tree hprevtip
      exact ⟨husable.mem, husable.self.2⟩
    · exact h.byWork x hnew
  · right
    rw [htip]
    exact ⟨hp, hprev⟩

theorem disconnectInvalid_spec (h : Disconnecting s' s p toMark byWork) (hs : Settled env s') {marked : Ptr}
    (hok : disconnectInvalid p fuel s byWork toMark = .ok (t, marked)) :
    marked = p ∧ ¬ Above s'.pprev p t.tip ∧ ∃ rest, Disconnecting s' t p p rest := by
  induction fuel generalizing s byWork toMark with
  | zero => cases hok
  | succ fuel ih =>
    unfold disconnectInvalid at hok
    have hcontains : s.contains p = true ↔ Above s'.pprev p s.tip := by
      rw [(hs.tree.same h.tree).contains_iff, h.tree.pprev]
    split at hok
    · next hnot =>
      cases hok
      have hoff : ¬ Above s'.pprev p t.tip := by
        rw [← hcontains]
        simpa using hnot
      have hmark : marked = p := by
        rcases h.mark with ⟨heq, -⟩ | ⟨habove, hparent⟩
        · exact heq
        · exact (((above_iff_of_parent hparent).mp habove).resolve_right hoff).symm
      subst hmark
      exact ⟨rfl, hoff, byWork, h⟩
    · next hon =>
      have hp : Above s'.pprev p s.tip := hcontains.mp (by simpa using hon)
      obtain ⟨u, hdisconnect, hrest⟩ := bind_ok.mp hok
      unfold disconnectTip at hdisconnect
      split at hdisconnect
      · cases hdisconnect
      · next prev hprev =>
        cases hdisconnect
        have hprev' : s'.pprev s.tip = some prev := by
          rw [← h.tree.pprev]
          exact hprev
        have hheight := hs.tree.ranked _ _ hprev'
        have hsame : SameTree s (((({ s with tip := prev }).setStatus s.tip .markValid).eraseCandidate
            s.tip).insertCandidate prev) :=
          (sameTree_setStatus keepsData_markValid s.tip).trans (sameTree_of_block rfl rfl)
        -- The mark is never turned into the mark of a child: `toMark` is above the old tip, or it is not marked.
        have hmarked : ({ s with tip := prev }).markDisconnected s.tip toMark =
            ((({ s with tip := prev }).setStatus s.tip .markValid).eraseCandidate s.tip).insertCandidate prev := by
          refine if_neg ?_
          rw [hsame.pprev, hprev]
          rintro ⟨heq, hvalid⟩
          obtain rfl := Option.some.inj heq
          rcases h.mark with ⟨rfl, hunmarked⟩ | ⟨-, hparent⟩
          · rcases failedValid_markValid.mp hvalid with htip | hvalid
            · rw [htip] at hheight
              omega
            · have hunmarked : s.failedValid prev = false := hunmarked hp
              rw [show s.failedValid prev = true from hvalid] at hunmarked
              cases hunmarked
          · have hback := hs.tree.ranked _ _ hparent
            omega
        generalize ({ s with tip := prev }).markDisconnected s.tip toMark = u at hmarked hrest
        refine ih ?_ hrest
        subst hmarked
        refine h.step hs hp hprev' ?_ ?_ ?_ ?_ ?_ ?_ fun x hx => mem_of_mem_filter hx
        · exact hsame.trans (sameTree_of_block rfl rfl)
        · rfl
        · rfl
        · intro x hx
          rcases mem_union_iff.mp hx with hnew | hold
          · exact .inr (.inr (mem_of_mem_filter hnew))
          · rcases mem_insert_iff.mp hold with rfl | hold
            · exact .inr (.inl rfl)
            · exact .inl (mem_of_mem_filter hold)
        · rfl
        · rfl

theorem mem_insertMissing : x ∈ s.insertMissing.setBlockIndexCandidates ↔
    (x ∈ s.blockIndex ∧ s.isValid x .transactions = true ∧ s.haveNumChainTxs x = true ∧ s.comp x s.tip = false) ∨
      x ∈ s.setBlockIndexCandidates := by
  unfold insertMissing insertCandidates
  rw [mem_union_iff, mem_filter]
  simp only [Bool.and_eq_true, Bool.not_eq_true', and_assoc]

theorem invalidateBlock_keeps (hs : Settled env s) (hmem : p ∈ s.blockIndex) (h : s.invalidateBlock p = .ok s') :
    Settled env s' ∧ Judges (· = p) s s' := by
  unfold invalidateBlock at h
  split at h
  · cases h
    exact ⟨hs, .refl s⟩
  · split at h
    · cases h
    · next prev hprev =>
      obtain ⟨⟨t, marked⟩, hloop, hrest⟩ := bind_ok.mp h
      have hstart : Disconnecting s s p p (s.candidateBlocksByWork prev) := by
        refine ⟨.refl s, .refl s, .refl _, fun _ ha => .inl ha, rfl, rfl, rfl, hs.candidates.linked, fun x hx => ?_,
          .inl ⟨rfl, fun habove => ?_⟩⟩
        · obtain ⟨hx, hcond⟩ := mem_filter.mp hx
          simp only [Bool.and_eq_true] at hcond
          exact ⟨hx, hcond.2⟩
        · have hunmarked := (hs.tip.usable.way p habove).1
          rw [failed_eq, Bool.or_eq_false_iff] at hunmarked
          exact hunmarked.1
      obtain ⟨rfl, hoff, _, hd⟩ := disconnectInvalid_spec hstart hs hloop
      dsimp only at hrest
      split at hrest
      · next hon =>
        refine absurd ?_ hoff
        rw [(hs.tree.same hd.tree).contains_iff, hd.tree.pprev] at hon
        exact hon
      · cases hrest
        have hi : Invalidates s ((t.markInvalid marked).insertMissing.invalidChainFound marked) marked :=
          invalidates_markInvalid hs.tree hd.tree hd.marks hmem hd.valid hd.child hd.failedBlocks
            hd.blocksUnlinked rfl rfl
            rfl rfl
        have hactive := (hs.tip.above hs.tree hd.tip).invalidate hi hoff
        have htree : SameTree s (t.markInvalid marked) := by
          refine (hd.tree.trans (sameTree_setStatus keepsData_markValid marked)).trans ?_
          exact sameTree_of_block rfl rfl
        have hjudges : Judges (· = marked) s ((t.markInvalid marked).insertMissing.invalidChainFound marked) :=
          .of_marked hi.tree.blockIndex hi.tree.pprev fun a ha =>
            (hi.valid a ha).imp id fun habove => ⟨marked, habove, rfl⟩
        refine ⟨.intro (hs.tree.same hi.tree) (hs.data.same hi.tree hi.marks hi.unlinked)
          (hs.flags.invalidate hi) hactive ⟨?_, ?_⟩, hjudges⟩
        · rw [hi.tree.blockIndex, hi.tree.haveNumChainTxs]
          intro x hx
          rcases mem_insertMissing.mp hx with ⟨hmem, -, hl, -⟩ | hold
          · rw [htree.blockIndex] at hmem
            rw [htree.haveNumChainTxs] at hl
            exact ⟨hmem, hl⟩
          · exact hd.candidates x (mem_of_mem_filter hold)
        · -- The last loop has put every usable block that does not sort before the tip among the candidates.
          rw [hi.tree.blockIndex, hi.tree.haveNumChainTxs, hi.tree.comp]
          intro x hx hl hf _ hc
          refine mem_insertMissing.mpr (.inl ⟨?_, isValid_iff.mpr ⟨?_, ?_⟩, ?_, ?_⟩)
          · rw [htree.blockIndex]
            exact hx
          · exact marks_setBlockFailureFlags.not_failed hf
          · exact Nat.le_trans (hs.data.level x hx (hs.data.of_linked x hx hl).1) (htree.level x)
          · rw [htree.haveNumChainTxs]
            exact hl
          · rw [htree.comp]
            exact hc

/-! ## Every run -/

theorem start_settled : Settled env (start env) := by
  have hroot : ∀ x, (start env).pprev x = none := by
    intro x
    simp only [pprev, start]
    split <;> rfl
  have hmem : ∀ x, x ∈ (start env).blockIndex ↔ x = env.hashGenesisBlock := fun x => mem_singleton
  have hself : (start env).block env.hashGenesisBlock =
    ⟨none, 0, env.genesisWork, ⟨.transactions, true, false, false⟩, 1, 1, 2⟩ := if_pos rfl
  have hunmarked : ∀ x, (start env).failedValid x = false ∧ (start env).failedChild x = false := by
    intro x
    simp only [failedValid, failedChild, start]
    split <;> exact ⟨rfl, rfl⟩
  have hlinked : (start env).haveNumChainTxs env.hashGenesisBlock = true := by
    rw [haveNumChainTxs_iff, chainTxCount, hself]
    exact Nat.one_ne_zero
  have hactive : Active env (start env) (start env).tip := by
    refine ⟨⟨(hmem _).mpr rfl, fun a ha => ?_⟩, fun a _ => .inl (hroot a)⟩
    obtain rfl := (above_root (hroot _)).mp ha
    exact ⟨by rw [failed_eq, (hunmarked _).1, (hunmarked _).2]; rfl, hlinked⟩
  have hnone : ∀ {x p : Ptr}, (start env).pprev x ≠ some p := by
    intro x p hp
    rw [hroot x] at hp
    cases hp
  refine .intro ⟨(hmem _).mpr rfl, fun x hx => ?_, fun x p hp => absurd hp hnone⟩ ?_ ⟨fun a _ ha => ?_,
    fun x _ hx => ?_, ?_⟩ hactive ⟨fun x hx => ?_, fun x hx _ _ _ _ => hx⟩
  · obtain rfl := (hmem x).mp hx
    exact .refl _
  · refine ⟨fun x hx => ?_, fun x hx => ?_, fun x hx _ => ?_, fun x hx _ => ?_, fun x hx _ _ => ?_, ?_, ?_,
      fun x p hp => absurd hp hnone⟩
    · obtain rfl := (hmem x).mp hx
      rw [haveData, nTx, hself]
      exact ⟨fun _ => Nat.one_ne_zero, fun _ => rfl⟩
    · obtain rfl := (hmem x).mp hx
      rw [level, hself]
      exact Nat.le_succ 2
    · obtain rfl := (hmem x).mp hx
      rw [level, hself]
    · obtain rfl := (hmem x).mp hx
      refine ⟨?_, fun p hp => absurd hp hnone⟩
      rw [nTx, hself]
      exact Nat.one_ne_zero
    · obtain rfl := (hmem x).mp hx
      exact .inl hlinked
    · intro x hx
      cases hx
    · intro e he
      cases he
  · rw [(hunmarked a).1] at ha
    cases ha
  · rw [(hunmarked x).2] at hx
    cases hx
  · intro a ha
    cases ha
  · obtain rfl := (hmem x).mp hx
    exact ⟨hx, hlinked⟩

end Chainstate

open Chainstate

/-- The calls that may mark `x`, whatever `ConnectBlock` says of it. -/
def Call.Condemns (x : Ptr) : Call → Prop
  | .block pblock _ _ _ => x = pblock.self ∧ pblock.verdict = .invalid
  | .invalidateBlock pindex => x = pindex
  | _ => False

variable {env : Env} {s : Chainstate} {s' : Chainstate}

theorem Call.run_keeps {call : Call} (hs : Settled env s) (hrun : call.run env s = .ok s') :
    Settled env s' ∧ Judges (fun x => Rejects env x ∨ call.Condemns x) s s' := by
  cases call with
  | header offered contextual minPowChecked =>
    obtain ⟨⟨_, _⟩, hheader, hrest⟩ := bind_ok.mp hrun
    cases hrest
    obtain ⟨hsettled, hjudges, -⟩ := acceptBlockHeader_keeps hs hheader
    exact ⟨hsettled, hjudges⟩
  | block pblock fRequested contextual minPowChecked =>
    obtain ⟨hsettled, hjudges⟩ := acceptBlock_keeps hs hrun
    exact ⟨hsettled, hjudges.mono fun _ hc => .inr hc⟩
  | activateBestChain fuel =>
    obtain ⟨hsettled, hnarrows, -⟩ := activateBestChain_keeps hs hrun
    exact ⟨hsettled, hnarrows.judges.mono fun _ hc => .inl hc⟩
  | invalidateBlock pindex =>
    change (if pindex ∈ s.blockIndex then s.invalidateBlock pindex else .ok s) = .ok s' at hrun
    split at hrun
    · next hmem =>
      obtain ⟨hsettled, hjudges⟩ := invalidateBlock_keeps hs hmem hrun
      exact ⟨hsettled, hjudges.mono fun _ hc => .inr hc⟩
    · cases hrun
      exact ⟨hs, .refl s⟩

theorem Reachable.settled (h : Reachable env s) : Settled env s := by
  induction h with
  | start => exact start_settled
  | call _ hrun ih => exact (Call.run_keeps ih hrun).1

/-! ## Runs of given calls -/

theorem Reachable.runs {calls : List Call} (h : Reachable env s)
    (hrun : calls.foldlM (Call.run env) s = .ok s') : Reachable env s' := by
  induction calls generalizing s with
  | nil =>
    cases hrun
    exact h
  | cons call rest ih =>
    rw [foldlM_cons] at hrun
    obtain ⟨_, hcall, hrest⟩ := bind_ok.mp hrun
    exact ih (.call h hcall) hrest

def endsIn (run : Checked Chainstate) (p : Chainstate → Bool) : Bool :=
  match run with
  | .ok s => p s
  | .error _ => false

theorem of_endsIn (run : Checked Chainstate) (p : Chainstate → Bool) (h : endsIn run p = true) :
    ∃ s, run = .ok s ∧ p s = true := by
  unfold endsIn at h
  split at h
  · next s => exact ⟨s, rfl, h⟩
  · cases h

def plainEnv : Env := ⟨0, 1, mainParams 1, 0, fun _ => true⟩

def headerOn (prev self : Ptr) : CBlockHeader := ⟨self, prev, BitVec.ofNat 256 self, mainGenesisBits⟩

def blockOn (prev self : Ptr) : CBlock := ⟨headerOn prev self, 1, .valid, fun _ => Nat.one_ne_zero⟩

end FullNode.BlockTree

import FullNode.BlockTreeInvariant

/-! # Headers and blocks arrive -/

namespace FullNode.BlockTree

open Forest List

namespace Chainstate

variable {env : Env} {s s' : Chainstate} {a p x y : Nat} {entry : CBlockIndex} {queue range : List Ptr}
  {bad : Ptr → Prop}

/-! ## Entries that stay -/

def SameAt (s s' : Chainstate) (y : Ptr) : Prop := s'.block y = s.block y

namespace SameAt

variable (h : SameAt s s' y)
include h

theorem pprev : s'.pprev y = s.pprev y := congrArg (·.pprev) h
theorem nHeight : s'.nHeight y = s.nHeight y := congrArg (·.nHeight) h
theorem nChainWork : s'.nChainWork y = s.nChainWork y := congrArg (·.nChainWork) h
theorem nSequenceId : s'.nSequenceId y = s.nSequenceId y := congrArg (·.nSequenceId) h
theorem nTx : s'.nTx y = s.nTx y := congrArg (·.nTx) h
theorem haveNumChainTxs : s'.haveNumChainTxs y = s.haveNumChainTxs y :=
  congrArg (fun b : CBlockIndex => b.chainTxCount != 0) h
theorem haveData : s'.haveData y = s.haveData y := congrArg (·.nStatus.haveData) h
theorem level : s'.level y = s.level y := congrArg (·.nStatus.valid.level) h
theorem failedValid : s'.failedValid y = s.failedValid y := congrArg (·.nStatus.failedValid) h
theorem failedChild : s'.failedChild y = s.failedChild y := congrArg (·.nStatus.failedChild) h
theorem failed : s'.failed y = s.failed y := congrArg (·.nStatus.failed) h

omit h

theorem comp (hx : SameAt s s' x) (hy : SameAt s s' y) : s'.comp x y = s.comp x y := by
  rw [Chainstate.comp, hx.nChainWork, hy.nChainWork, hx.nSequenceId, hy.nSequenceId, Chainstate.comp]

end SameAt

/-! ## A new leaf -/

theorem sameAt_addEntry (h : y ≠ x) (entry : CBlockIndex) : SameAt s (s.addEntry x entry) y := if_neg h

/-- An entry that `AddToBlockIndex` makes for a child of `p`. -/
structure NewEntry (s : Chainstate) (p : Ptr) (entry : CBlockIndex) : Prop where
  pprev : entry.pprev = some p
  nHeight : entry.nHeight = s.nHeight p + 1
  nChainWork : s.nChainWork p < entry.nChainWork
  nStatus : entry.nStatus = ⟨.tree, false, false, false⟩
  nTx : entry.nTx = 0
  chainTxCount : entry.chainTxCount = 0

/-- `x` is new and its parent `p` is known and unmarked. -/
structure NewLeaf (env : Env) (s : Chainstate) (x p : Ptr) (entry : CBlockIndex) : Prop where
  tree : Tree env s
  fresh : x ∉ s.blockIndex
  known : p ∈ s.blockIndex
  unmarked : s.failed p = false
  entry : NewEntry s p entry

namespace NewLeaf

theorem ne (h : NewLeaf env s x p entry) (hy : y ∈ s.blockIndex) : y ≠ x := by
  rintro rfl
  exact h.fresh hy

theorem same (h : NewLeaf env s x p entry) (hy : y ∈ s.blockIndex) : SameAt s (s.addEntry x entry) y :=
  sameAt_addEntry (h.ne hy) entry

theorem block_self : (s.addEntry x entry).block x = entry := if_pos rfl

variable (h : NewLeaf env s x p entry)
include h

theorem pprev : (s.addEntry x entry).pprev x = some p :=
  (congrArg (·.pprev) block_self).trans h.entry.pprev

theorem nTx : (s.addEntry x entry).nTx x = 0 :=
  (congrArg (·.nTx) block_self).trans h.entry.nTx

theorem haveNumChainTxs : (s.addEntry x entry).haveNumChainTxs x = false := by
  have hcount := (congrArg (·.chainTxCount) (block_self (s := s) (x := x))).trans h.entry.chainTxCount
  exact congrArg (· != 0) hcount

theorem nStatus : ((s.addEntry x entry).block x).nStatus = ⟨.tree, false, false, false⟩ :=
  (congrArg (·.nStatus) block_self).trans h.entry.nStatus

theorem failed : (s.addEntry x entry).failed x = false := congrArg (·.failed) h.nStatus

omit h

theorem mem (y : Ptr) : y ∈ (s.addEntry x entry).blockIndex ↔ y ∈ s.blockIndex ∨ y = x := by
  simp [addEntry]

variable (h : NewLeaf env s x p entry)
include h

theorem above (hy : y ∈ s.blockIndex) : Above (s.addEntry x entry).pprev a y ↔ Above s.pprev a y :=
  above_congr (k := (· ∈ s.blockIndex)) (fun z q hq _ => (h.tree.parent z q hq).2.1) (fun _ hz => (h.same hz).pprev) hy

theorem above_self : Above (s.addEntry x entry).pprev a x ↔ a = x ∨ Above s.pprev a p := by
  rw [above_iff_of_parent h.pprev, h.above h.known]

theorem addTree : Tree env (s.addEntry x entry) := by
  refine ⟨(mem _).mpr (.inl h.tree.genesis), fun y hy => ?_, fun y q hq => ?_⟩
  · rcases (mem _).mp hy with hy | rfl
    · exact (h.above hy).mpr (h.tree.rooted y hy)
    · exact h.above_self.mpr (.inr (h.tree.rooted p h.known))
  by_cases hy : y = x
  · subst hy
    cases h.pprev.symm.trans hq
    refine ⟨(mem _).mpr (.inr rfl), (mem _).mpr (.inl h.known), ?_, ?_⟩
    · rw [(h.same h.known).nHeight]
      exact (congrArg (·.nHeight) block_self).trans h.entry.nHeight
    · rw [(h.same h.known).nChainWork]
      exact Nat.lt_of_lt_of_eq h.entry.nChainWork (congrArg (·.nChainWork) block_self).symm
  · have hsame := sameAt_addEntry (s := s) hy entry
    rw [hsame.pprev] at hq
    obtain ⟨hmem, hqmem, hheight, hwork⟩ := h.tree.parent y q hq
    refine ⟨(mem _).mpr (.inl hmem), (mem _).mpr (.inl hqmem), ?_, ?_⟩
    · rw [hsame.nHeight, (h.same hqmem).nHeight]
      exact hheight
    · rw [hsame.nChainWork, (h.same hqmem).nChainWork]
      exact hwork

theorem addData (hd : Data s []) : Data (s.addEntry x entry) [] := by
  have hparent := fun {y q} (hq : s.pprev y = some q) => h.same (h.tree.parent y q hq).2.1
  refine ⟨fun y hy => ?_, fun y hy => ?_, fun y hy => ?_, fun y hy => ?_, fun y hy => ?_, by simp, fun e he => ?_,
    fun y q hq hy hl => ?_⟩
  · rcases (mem _).mp hy with hy | rfl
    · rw [(h.same hy).nTx, (h.same hy).haveData]
      exact hd.have_iff y hy
    · rw [h.nTx, haveData, h.nStatus]
      simp
  · rcases (mem _).mp hy with hy | rfl
    · rw [(h.same hy).level]
      exact hd.tree y hy
    · rw [level, h.nStatus]
  · rcases (mem _).mp hy with hy | rfl
    · rw [(h.same hy).nTx, (h.same hy).level]
      exact hd.level y hy
    · exact fun hnot => absurd h.nTx hnot
  · rcases (mem _).mp hy with hy | rfl
    · rw [(h.same hy).haveNumChainTxs, (h.same hy).nTx, (h.same hy).pprev]
      intro hl
      obtain ⟨htx, hq⟩ := hd.of_linked y hy hl
      exact ⟨htx, fun q hpq => (hparent hpq).haveNumChainTxs.trans (hq q hpq)⟩
    · rw [h.haveNumChainTxs]
      simp
  · rcases (mem _).mp hy with hy | rfl
    · rw [(h.same hy).haveNumChainTxs, (h.same hy).nTx, (h.same hy).pprev]
      exact fun htx hq => hd.linked y hy htx fun q hpq => (hparent hpq).haveNumChainTxs.symm.trans (hq q hpq)
    · exact fun hnot => absurd h.nTx hnot
  · obtain ⟨hq, htx, hl⟩ := hd.unlinked e he
    have hsame := h.same (h.tree.parent _ _ hq).1
    rw [hsame.pprev, hsame.nTx, (hparent hq).haveNumChainTxs]
    exact ⟨hq, htx, hl⟩
  · have hyx : y ≠ x := by
      rintro rfl
      exact hy h.nTx
    have hsame := sameAt_addEntry (s := s) hyx entry
    rw [hsame.pprev] at hq
    rw [hsame.nTx] at hy
    rw [(hparent hq).haveNumChainTxs] at hl
    rw [(hparent hq).failedValid, (hparent hq).nTx]
    exact hd.waiting y q hq hy hl

theorem addClosed (ha : Closed s a) : Closed (s.addEntry x entry) a := by
  refine ⟨(mem _).mpr (.inl ha.mem), (h.same ha.mem).failedValid.trans ha.valid, fun y hy => ?_⟩
  by_cases hyx : y = x
  · subst hyx
    rcases h.above_self.mp hy with rfl | hap
    · exact absurd ha.mem h.fresh
    · have hfailed := ha.below p hap
      rw [h.unmarked] at hfailed
      cases hfailed
  · have hmem : y ∈ s.blockIndex := by
      rcases hy.cases with rfl | hstrict
      · exact ha.mem
      · exact ((mem y).mp (h.addTree.mem_below hstrict)).resolve_right hyx
    rw [(h.same hmem).failed]
    exact ha.below y ((h.above hmem).mp hy)

theorem addFlags (hf : Flags s) : Flags (s.addEntry x entry) := by
  refine ⟨fun y hy hv hn => ?_, fun y hy hc => ?_, fun y hy => h.addClosed (hf.listed y hy)⟩
  · rcases (mem _).mp hy with hy | rfl
    · rw [(h.same hy).failedValid] at hv
      rw [(h.same hy).nTx] at hn
      exact h.addClosed (hf.closed y hy hv hn)
    · exact absurd h.nTx hn
  · rcases (mem _).mp hy with hy | rfl
    · rw [(h.same hy).failedChild] at hc
      obtain ⟨a, ⟨q, hq, haq⟩, ha⟩ := hf.child y hy hc
      exact ⟨a, ⟨q, (h.same hy).pprev.trans hq, (h.above (h.tree.parent y q hq).2.1).mpr haq⟩, h.addClosed ha⟩
    · have hfailed := h.failed
      rw [failed_eq, hc, Bool.or_true] at hfailed
      cases hfailed

theorem addActive (hy : Active env s y) : Active env (s.addEntry x entry) y := by
  have hmem := hy.usable.mem
  have hway : ∀ a, Above (s.addEntry x entry).pprev a y → Above s.pprev a y ∧ SameAt s (s.addEntry x entry) a := by
    intro a ha
    have hold := (h.above hmem).mp ha
    exact ⟨hold, h.same (h.tree.mem_above hold hmem)⟩
  refine ⟨⟨(mem _).mpr (.inl hmem), fun a ha => ?_⟩, fun a ha => ?_⟩
  · obtain ⟨hold, hsame⟩ := hway a ha
    rw [hsame.failed, hsame.haveNumChainTxs]
    exact hy.usable.way a hold
  · obtain ⟨hold, hsame⟩ := hway a ha
    rw [hsame.pprev]
    exact hy.connects a hold

theorem judges : Judges bad s (s.addEntry x entry) := by
  refine ⟨fun a ha => (mem _).mpr (.inl ha), fun a ha c hca => (h.above ha).mpr hca, fun a hmem ha => ?_⟩
  rcases (mem _).mp hmem with hold | rfl
  · rw [(h.same hold).failedValid] at ha
    exact .inl ⟨hold, ha⟩
  · have hfailed := h.failed
    rw [failed_eq, ha] at hfailed
    cases hfailed

theorem settled (hs : Settled env s) : Settled env (s.addEntry x entry) := by
  refine .intro h.addTree (h.addData hs.data) (h.addFlags hs.flags) (h.addActive hs.tip) ⟨fun y hy => ?_, ?_⟩
  · obtain ⟨hmem, hl⟩ := hs.candidates.linked y hy
    exact ⟨(mem _).mpr (.inl hmem), (h.same hmem).haveNumChainTxs.trans hl⟩
  · intro y hy hl hfailed _ hcomp
    rcases (mem _).mp hy with hy | rfl
    · have hsame := h.same hy
      rw [hsame.haveNumChainTxs] at hl
      rw [hsame.failed] at hfailed
      have hold : s.comp y s.tip = false := (hsame.comp (h.same hs.tip.usable.mem)).symm.trans hcomp
      exact hs.candidates.complete y hy hl hfailed hold hold
    · rw [h.haveNumChainTxs] at hl
      cases hl

omit h

end NewLeaf

/-! ## Headers -/

theorem getBlockProof_pos {hash : Uint256} {nBits : Uint32} {params : Params} {proof : ArithUint256}
    (hpow : checkProofOfWorkImpl hash nBits params = true) (h : getBlockProof nBits = .ok proof) : 0 < proof.toNat := by
  unfold checkProofOfWorkImpl deriveTarget at hpow
  simp only [getBlockProof] at h
  generalize ArithUint256.setCompact nBits = d at hpow h
  by_cases hbad : (d.fNegative || d.value == 0 || d.fOverflow || decide (d.value > params.powLimit)) = true
  · simp only [hbad, if_true] at hpow
    cases hpow
  · simp only [Bool.not_eq_true, Bool.or_eq_false_iff, beq_eq_false_iff_ne] at hbad
    obtain ⟨⟨⟨hneg, hzero⟩, hover⟩, -⟩ := hbad
    rw [hneg, hover, beq_eq_false_iff_ne.mpr hzero, Bool.or_false, Bool.or_false, if_neg (by simp)] at h
    unfold ArithUint256.div at h
    split at h
    · cases h
    · next hne =>
      cases h
      have hpos : d.value.toNat ≠ 0 := fun h0 => hzero (BitVec.eq_of_toNat_eq h0)
      have hsucc : (d.value + 1).toNat = d.value.toNat + 1 := by
        rw [BitVec.toNat_add]
        refine Nat.mod_eq_of_lt (Nat.lt_of_le_of_ne d.value.isLt fun hfull => hne (BitVec.eq_of_toNat_eq ?_))
        rw [BitVec.toNat_add]
        exact (congrArg (· % 2 ^ 256) hfull).trans (Nat.mod_self _)
      -- The quotient is at most half of the range, so adding one does not wrap.
      have hhalf : (~~~d.value / (d.value + 1)).toNat ≤ (2 ^ 256 - 1) / 2 := by
        rw [BitVec.toNat_udiv, hsucc, BitVec.toNat_not]
        exact Nat.le_trans (Nat.div_le_div_left (by omega) (by omega)) (Nat.div_le_div_right (by omega))
      have hone : BitVec.toNat (1 : ArithUint256) = 1 := rfl
      rw [BitVec.toNat_add, hone, Nat.mod_eq_of_lt (by omega)]
      omega

theorem failedAncestor_unmarked (ht : Tree env s) (hp : s.failed p = false) {l : List Ptr} (hl : ∀ a ∈ l, Closed s a) :
    s.failedAncestor p l = .ok (s, false) := by
  induction l with
  | nil => rfl
  | cons a l ih =>
    unfold failedAncestor
    rw [if_neg]
    · exact ih fun b hb => hl b (mem_cons_of_mem _ hb)
    · rw [beq_iff_eq, ht.getAncestor_iff]
      intro ha
      rw [(hl a mem_cons_self).below p ha] at hp
      cases hp

variable {header : CBlockHeader} {minPowChecked : Bool} {vtxSize : Nat}

section

variable (hs : Settled env s)
include hs

theorem addToBlockIndex_keeps (hfresh : header.self ∉ s.blockIndex)
    (hprev : header.hashPrevBlock ∈ s.blockIndex) (hfailed : s.failed header.hashPrevBlock = false)
    (hpow : checkBlockHeader env header = true) (h : s.addToBlockIndex header = .ok s') :
    Settled env s' ∧ Judges bad s s' ∧ header.self ∈ s'.blockIndex ∧ s'.failed header.self = false := by
  unfold addToBlockIndex at h
  rw [if_neg hfresh] at h
  obtain ⟨proof, hproof, hok⟩ := bind_ok.mp h
  simp only [hprev, if_true] at hok
  cases hok
  have hpos := getBlockProof_pos hpow hproof
  have hentry : NewEntry s header.hashPrevBlock ⟨some header.hashPrevBlock, s.nHeight header.hashPrevBlock + 1,
      s.nChainWork header.hashPrevBlock + proof.toNat, ⟨.tree, false, false, false⟩, 0, 0, SEQ_ID_INIT_FROM_DISK⟩ :=
    ⟨rfl, rfl, Nat.lt_add_of_pos_right hpos, rfl, rfl, rfl⟩
  have hleaf := NewLeaf.mk hs.tree hfresh hprev hfailed hentry
  exact ⟨hleaf.settled hs, hleaf.judges, (NewLeaf.mem _).mpr (.inr rfl), hleaf.failed⟩

theorem Settled.genesis : s.failed env.hashGenesisBlock = false ∧ s.haveData env.hashGenesisBlock = true := by
  obtain ⟨hfailed, hl⟩ := hs.tip.usable.way _ (hs.tree.rooted s.tip hs.tip.usable.mem)
  have hn := (hs.data.of_linked _ hs.tree.genesis hl).1
  exact ⟨hfailed, (hs.data.have_iff _ hs.tree.genesis).mpr hn⟩

theorem addHeader_keeps {accepted : Bool}
    (hnew : header.self = env.hashGenesisBlock ∨
      header.hashPrevBlock ∈ s.blockIndex ∧ s.failed header.hashPrevBlock = false ∧
      checkBlockHeader env header = true ∧ header.self ∉ s.blockIndex)
    (h : s.addHeader header minPowChecked = .ok (s', accepted)) :
    Settled env s' ∧ Judges bad s s' ∧
      (accepted = true → header.self ∈ s'.blockIndex ∧ s'.failed header.self = false) := by
  unfold addHeader at h
  split at h
  · cases h
    exact ⟨hs, .refl s, by simp⟩
  · obtain ⟨_, hadd, hok⟩ := bind_ok.mp h
    cases hok
    rcases hnew with hgenesis | ⟨hprev, hfailed, hpow, hfresh⟩
    · have hmem : header.self ∈ s.blockIndex := by
        rw [hgenesis]
        exact hs.tree.genesis
      unfold addToBlockIndex at hadd
      rw [if_pos hmem] at hadd
      cases hadd
      refine ⟨hs, .refl s, fun _ => ⟨hmem, ?_⟩⟩
      rw [hgenesis]
      exact hs.genesis.1
    · obtain ⟨hkeeps, hjudges, hunmarked⟩ := addToBlockIndex_keeps hs hfresh hprev hfailed hpow hadd
      exact ⟨hkeeps, hjudges, fun _ => hunmarked⟩

theorem acceptBlockHeader_keeps {contextual accepted : Bool}
    (h : s.acceptBlockHeader env header contextual minPowChecked = .ok (s', accepted)) :
    Settled env s' ∧ Judges bad s s' ∧
      (accepted = true → header.self ∈ s'.blockIndex ∧ s'.failed header.self = false) := by
  unfold acceptBlockHeader at h
  split at h
  · split at h
    · next hmem =>
      cases h
      exact ⟨hs, .refl s, fun haccepted => ⟨hmem, by simpa using haccepted⟩⟩
    · next hfresh =>
      split at h
      · cases h
        exact ⟨hs, .refl s, by simp⟩
      · next hpow =>
        split at h
        · cases h
          exact ⟨hs, .refl s, by simp⟩
        · next hprev =>
          split at h
          · cases h
            exact ⟨hs, .refl s, by simp⟩
          · next hfailed =>
            split at h
            · cases h
              exact ⟨hs, .refl s, by simp⟩
            · have hunmarked : s.failed header.hashPrevBlock = false := by simpa using hfailed
              have hloop := failedAncestor_unmarked hs.tree hunmarked hs.flags.listed
              rw [hloop, ite_self] at h
              refine addHeader_keeps hs (.inr ⟨?_, hunmarked, by simpa using hpow, hfresh⟩) h
              simpa using hprev
  · next hgenesis => exact addHeader_keeps hs (.inl (by simpa using hgenesis)) h

end

/-! ## Block data -/

section

variable {f : CBlockIndex → CBlockIndex}

theorem field_modify {β : Type} (g : CBlockIndex → β) (hb : s'.block = (s.modify x f).block) (hg : ∀ b, g (f b) = g b) :
    (fun y => g (s'.block y)) = fun y => g (s.block y) := by
  funext y
  rw [hb]
  by_cases hy : y = x
  · subst hy
    exact (congrArg g (if_pos rfl)).trans (hg _)
  · exact congrArg g (if_neg hy)

theorem sameAt_modify (hb : s'.block = (s.modify x f).block) (h : y ≠ x) : SameAt s s' y := by
  unfold SameAt
  rw [hb]
  exact if_neg h

theorem block_modify_self (hb : s'.block = (s.modify x f).block) : s'.block x = f (s.block x) := by
  rw [hb]
  exact if_pos rfl

end

theorem haveNumChainTxs_iff : s.haveNumChainTxs x = true ↔ s.chainTxCount x ≠ 0 := by
  unfold haveNumChainTxs
  exact bne_iff_ne

structure Received (s s' : Chainstate) (x : Ptr) : Prop where
  mem : x ∈ s.blockIndex
  unmarked : s.failed x = false
  noData : s.nTx x = 0
  unlinked : s.haveNumChainTxs x = false
  blockIndex : s'.blockIndex = s.blockIndex
  pprev : s'.pprev = s.pprev
  nHeight : s'.nHeight = s.nHeight
  nChainWork : s'.nChainWork = s.nChainWork
  comp : s'.comp = s.comp
  haveNumChainTxs : s'.haveNumChainTxs = s.haveNumChainTxs
  failedValid : s'.failedValid = s.failedValid
  failedChild : s'.failedChild = s.failedChild
  same : ∀ y, y ≠ x → SameAt s s' y
  nTx : s'.nTx x ≠ 0
  haveData : s'.haveData x = true
  level : BlockValid.transactions.level ≤ s'.level x
  blocksUnlinked : s'.blocksUnlinked = s.blocksUnlinked
  failedBlocks : s'.failedBlocks = s.failedBlocks
  tip : s'.tip = s.tip
  candidates : s'.setBlockIndexCandidates = s.setBlockIndexCandidates

theorem received (hs : Settled env s) (hx : x ∈ s.blockIndex) (hfailed : s.failed x = false)
    (hdata : s.haveData x = false) (hsize : vtxSize ≠ 0) : Received s (s.receiveData x vtxSize) x := by
  have hn : s.nTx x = 0 := by
    by_contra hne
    rw [(hs.data.have_iff x hx).mpr hne] at hdata
    cases hdata
  have hl : s.haveNumChainTxs x = false := by
    rw [← Bool.not_eq_true]
    exact fun hl => (hs.data.of_linked x hx hl).1 hn
  have hcount : (s.block x).chainTxCount = 0 := by
    by_contra hne
    rw [haveNumChainTxs_iff.mpr hne] at hl
    cases hl
  have hblock : (s.receiveData x vtxSize).block = (s.modify x _).block := rfl
  have hself := block_modify_self hblock
  have hwork : (s.receiveData x vtxSize).nChainWork = s.nChainWork := field_modify (·.nChainWork) hblock fun _ => rfl
  have hseq : (s.receiveData x vtxSize).nSequenceId = s.nSequenceId := field_modify (·.nSequenceId) hblock fun _ => rfl
  refine ⟨hx, hfailed, hn, hl, rfl, field_modify (·.pprev) hblock fun _ => rfl,
    field_modify (·.nHeight) hblock fun _ => rfl,
    hwork, ?_, ?_, field_modify (·.nStatus.failedValid) hblock fun b => (raiseValidity_flags _ _).1,
    field_modify (·.nStatus.failedChild) hblock fun b => (raiseValidity_flags _ _).2,
      fun y hy => sameAt_modify hblock hy, ?_, ?_, ?_,
    rfl, rfl, rfl, rfl⟩
  · funext a b
    rw [comp, hwork, hseq, comp]
  · funext y
    by_cases hy : y = x
    · subst hy
      have hstill : (s.receiveData y vtxSize).chainTxCount y = 0 := by
        rw [chainTxCount, hself]
        simp only [hcount, ite_self]
      rw [hl, ← Bool.not_eq_true, haveNumChainTxs_iff]
      exact fun hne => hne hstill
    · exact (sameAt_modify hblock hy).haveNumChainTxs
  · rw [nTx, hself]
    exact hsize
  · rw [haveData, hself]
    simp only [BlockStatus.raiseValidity]
    split
    · rfl
    · split <;> rfl
  · rw [level, hself]
    have hnot : (BlockStatus.failed { (s.block x).nStatus with haveData := true }) = false := hfailed
    unfold BlockStatus.raiseValidity
    rw [if_neg (by rw [hnot]; exact Bool.false_ne_true)]
    split
    · exact Nat.le_refl _
    · next hge => exact Nat.le_of_not_lt hge

namespace Received

variable (h : Received s s' x)
include h

theorem failed : s'.failed = s.failed := by
  funext y
  rw [failed_eq, h.failedValid, h.failedChild, failed_eq]

theorem level_parent (ht : Tree env s) (hp : s.pprev x = some p) : s'.level p = s.level p := by
  have hne : p ≠ x := by
    rintro rfl
    have hheight := (ht.parent p p hp).2.2.1
    omega
  exact (h.same p hne).level

theorem flags (hf : Flags s) : Flags s' := by
  refine hf.of_eq h.blockIndex h.pprev h.failedValid h.failedChild h.failedBlocks fun a ha hn => ?_
  have hne : a ≠ x := by
    rintro rfl
    have hunmarked := h.unmarked
    rw [failed_eq, ha] at hunmarked
    cases hunmarked
  rwa [(h.same a hne).nTx] at hn

theorem candidatesKept (hc : Candidates s s.tip) : Candidates s' s'.tip := by
  constructor
  · rw [h.candidates, h.blockIndex, h.haveNumChainTxs]
    exact hc.linked
  · rw [h.candidates, h.blockIndex, h.haveNumChainTxs, h.failed, h.comp, h.tip]
    exact hc.complete

theorem dataKept (hd : Data s []) {unlinked : List (Ptr × Ptr)}
    (hunlinked : ∀ e ∈ unlinked, e ∈ s.blocksUnlinked ∨ s.pprev x = some e.1 ∧ e.2 = x ∧ s.haveNumChainTxs e.1 = false)
    (hkept : ∀ e ∈ s.blocksUnlinked, e ∈ unlinked)
    (hqueue : ∀ y ∈ queue, y = x ∧ ∀ p, s.pprev x = some p → s.haveNumChainTxs p = true)
    (hlink : (∀ p, s.pprev x = some p → s.haveNumChainTxs p = true) → x ∈ queue)
    (hwait : ∀ p, s.pprev x = some p → s.haveNumChainTxs p = false →
      (p, x) ∈ unlinked ∨ s.failedValid p = true ∧ s.nTx p = 0) :
      Data { s' with blocksUnlinked := unlinked } queue := by
  have hntx : ∀ y, s.nTx y ≠ 0 → s'.nTx y ≠ 0 := by
    intro y hy
    by_cases hyx : y = x
    · subst hyx
      exact h.nTx
    · rwa [(h.same y hyx).nTx]
  have hother : ∀ y, y ≠ x → s'.nTx y = s.nTx y := fun y hy => (h.same y hy).nTx
  have hpp : ∀ y, s'.pprev y = s.pprev y := fun y => congrFun h.pprev y
  have hll : ∀ y, s'.haveNumChainTxs y = s.haveNumChainTxs y := fun y => congrFun h.haveNumChainTxs y
  have hindex : ∀ y, y ∈ s'.blockIndex ↔ y ∈ s.blockIndex := fun y => by rw [h.blockIndex]
  constructor
  · intro y hy
    by_cases hyx : y = x
    · subst hyx
      exact ⟨fun _ => h.nTx, fun _ => h.haveData⟩
    · have hsame := h.same y hyx
      change s'.haveData y = true ↔ s'.nTx y ≠ 0
      rw [hsame.haveData, hsame.nTx]
      exact hd.have_iff y ((hindex y).mp hy)
  · intro y hy
    by_cases hyx : y = x
    · subst hyx
      exact Nat.le_trans (by decide) h.level
    · change _ ≤ s'.level y
      rw [(h.same y hyx).level]
      exact hd.tree y ((hindex y).mp hy)
  · intro y hy
    by_cases hyx : y = x
    · subst hyx
      exact fun _ => h.level
    · change s'.nTx y ≠ 0 → _ ≤ s'.level y
      rw [(h.same y hyx).level, hother y hyx]
      exact hd.level y ((hindex y).mp hy)
  · intro y hy hl
    change s'.haveNumChainTxs y = true at hl
    rw [hll] at hl
    obtain ⟨hn, hparent⟩ := hd.of_linked y ((hindex y).mp hy) hl
    refine ⟨hntx y hn, fun q hq => (hll q).trans (hparent q ?_)⟩
    exact (hpp y).symm.trans hq
  · intro y hy hn hparent
    have hparent' : ∀ q, s.pprev y = some q → s.haveNumChainTxs q = true :=
      fun q hq => (hll q).symm.trans (hparent q ((hpp y).trans hq))
    by_cases hyx : y = x
    · subst hyx
      exact .inr (hlink hparent')
    · have hn' : s.nTx y ≠ 0 := by
        rw [← hother y hyx]
        exact hn
      rcases hd.linked y ((hindex y).mp hy) hn' hparent' with hl | hnil
      · exact .inl ((hll y).trans hl)
      · cases hnil
  · intro y hy
    obtain ⟨rfl, hparent⟩ := hqueue y hy
    exact ⟨(hindex y).mpr h.mem, h.nTx, fun q hq => (hll q).trans (hparent q ((hpp y).symm.trans hq))⟩
  · intro e he
    rcases hunlinked e he with hold | ⟨hq, hx, hl⟩
    · obtain ⟨hq, hn, hl⟩ := hd.unlinked e hold
      exact ⟨(hpp _).trans hq, hntx _ hn, (hll _).trans hl⟩
    · rw [hx]
      exact ⟨(hpp _).trans hq, h.nTx, (hll _).trans hl⟩
  · intro y q hq hn hl
    have hq' : s.pprev y = some q := (hpp y).symm.trans hq
    have hl' : s.haveNumChainTxs q = false := (hll q).symm.trans hl
    -- A parent that failed without data did not get its data now, for `x` is not marked.
    have hfailedParent : s.failedValid q = true ∧ s.nTx q = 0 → s'.failedValid q = true ∧ s'.nTx q = 0 := by
      rintro ⟨hv, hz⟩
      have hqx : q ≠ x := by
        rintro rfl
        have hunmarked := h.unmarked
        rw [failed_eq, hv] at hunmarked
        cases hunmarked
      rw [h.failedValid, hother q hqx]
      exact ⟨hv, hz⟩
    by_cases hyx : y = x
    · subst hyx
      exact (hwait q hq' hl').imp id hfailedParent
    · have hn' : s.nTx y ≠ 0 := by
        rw [← hother y hyx]
        exact hn
      exact (hd.waiting y q hq' hn' hl').imp (hkept _) hfailedParent

omit h

end Received

/-! ## Linking -/

structure Linking (env : Env) (s : Chainstate) (queue : List Ptr) : Prop where
  tree : Tree env s
  data : Data s queue
  flags : Flags s
  tip : Active env s s.tip
  fresh : s.tip ∉ queue
  candidates : Candidates s s.tip

theorem tryAddBlockIndexCandidate_spec : s.tryAddBlockIndexCandidate x = { s with
    setBlockIndexCandidates :=
      if s.comp x s.tip then s.setBlockIndexCandidates else s.setBlockIndexCandidates.insert x } := by
  unfold tryAddBlockIndexCandidate insertCandidate
  split <;> rfl

structure Linked (s s' : Chainstate) (x : Ptr) (range : List Ptr) : Prop where
  blockIndex : s'.blockIndex = s.blockIndex
  pprev : s'.pprev = s.pprev
  nHeight : s'.nHeight = s.nHeight
  nChainWork : s'.nChainWork = s.nChainWork
  nTx : s'.nTx = s.nTx
  haveData : s'.haveData = s.haveData
  level : s'.level = s.level
  failedValid : s'.failedValid = s.failedValid
  failedChild : s'.failedChild = s.failedChild
  failedBlocks : s'.failedBlocks = s.failedBlocks
  tip : s'.tip = s.tip
  same : ∀ y, y ≠ x → SameAt s s' y
  haveNumChainTxs : s'.haveNumChainTxs x = true
  blocksUnlinked : ∀ e, e ∈ s'.blocksUnlinked ↔ e ∈ s.blocksUnlinked ∧ e.1 ≠ x
  range : ∀ y, y ∈ range ↔ (x, y) ∈ s.blocksUnlinked
  candidates : ∀ y, y ∈ s'.setBlockIndexCandidates ↔ y ∈ s.setBlockIndexCandidates ∨ y = x ∧ s'.comp x s'.tip = false

theorem block_linkBlock (x : Ptr) : (s.linkBlock x).1.block = (s.modify x fun b =>
    { b with chainTxCount := s.prevTxSum x, nSequenceId := s.nBlockSequenceId }).block := by
  unfold linkBlock
  rw [tryAddBlockIndexCandidate_spec]
  rfl

theorem linkBlock_spec (hn : s.nTx x ≠ 0) : Linked s (s.linkBlock x).1 x (s.linkBlock x).2 := by
  have hblock := block_linkBlock (s := s) x
  refine ⟨?_, field_modify (·.pprev) hblock fun _ => rfl, field_modify (·.nHeight) hblock fun _ => rfl,
    field_modify (·.nChainWork) hblock fun _ => rfl, field_modify (·.nTx) hblock fun _ => rfl,
    field_modify (·.nStatus.haveData) hblock fun _ => rfl, field_modify (·.nStatus.valid.level) hblock fun _ => rfl,
    field_modify (·.nStatus.failedValid) hblock fun _ => rfl, field_modify (·.nStatus.failedChild) hblock fun _ => rfl,
    ?_, ?_, fun y hy => sameAt_modify hblock hy, ?_, ?_, ?_, ?_⟩
  · rw [linkBlock, tryAddBlockIndexCandidate_spec]
    rfl
  · rw [linkBlock, tryAddBlockIndexCandidate_spec]
    rfl
  · rw [linkBlock, tryAddBlockIndexCandidate_spec]
    rfl
  · rw [haveNumChainTxs_iff, chainTxCount, block_modify_self hblock]
    unfold nTx at hn
    simp only [prevTxSum, nTx]
    omega
  · intro e
    simp [linkBlock]
  · intro y
    simp [linkBlock]
  · intro y
    rw [linkBlock, tryAddBlockIndexCandidate_spec]
    change y ∈ (if (s.assignChainTxs x).comp x s.tip = true then s.setBlockIndexCandidates
      else s.setBlockIndexCandidates.insert x) ↔ _ ∨ _ ∧ (s.assignChainTxs x).comp x s.tip = false
    split
    · next hcomp => simp [hcomp]
    · next hcomp => simp [hcomp, or_comm]

namespace Linked

variable (h : Linked s s' x range)
include h

theorem linked_mono (hy : s.haveNumChainTxs y = true) : s'.haveNumChainTxs y = true := by
  by_cases hyx : y = x
  · subst hyx
    exact h.haveNumChainTxs
  · rwa [(h.same y hyx).haveNumChainTxs]

theorem failed : s'.failed = s.failed := by
  funext y
  rw [failed_eq, h.failedValid, h.failedChild, failed_eq]

theorem dataKept (ht : Tree env s) (hd : Data s (x :: queue)) : Data s' (queue ++ range) := by
  obtain ⟨-, hn, hparent⟩ := hd.queued x mem_cons_self
  have hnot : ∀ y, s'.haveNumChainTxs y = false → y ≠ x ∧ s.haveNumChainTxs y = false := by
    intro y hy
    have hyx : y ≠ x := by
      rintro rfl
      rw [h.haveNumChainTxs] at hy
      cases hy
    exact ⟨hyx, (h.same y hyx).haveNumChainTxs.symm.trans hy⟩
  constructor
  · rw [h.blockIndex, h.haveData, h.nTx]
    exact hd.have_iff
  · rw [h.blockIndex, h.level]
    exact hd.tree
  · rw [h.blockIndex, h.level, h.nTx]
    exact hd.level
  · rw [h.blockIndex, h.nTx, h.pprev]
    intro y hy hl
    by_cases hyx : y = x
    · subst hyx
      exact ⟨hn, fun q hq => h.linked_mono (hparent q hq)⟩
    · rw [(h.same y hyx).haveNumChainTxs] at hl
      obtain ⟨hyn, hyparent⟩ := hd.of_linked y hy hl
      exact ⟨hyn, fun q hq => h.linked_mono (hyparent q hq)⟩
  · rw [h.blockIndex, h.nTx, h.pprev]
    intro y hy hyn hyparent
    by_cases hall : ∀ q, s.pprev y = some q → s.haveNumChainTxs q = true
    · rcases hd.linked y hy hyn hall with hl | hmem
      · exact .inl (h.linked_mono hl)
      · rcases mem_cons.mp hmem with rfl | hmem
        · exact .inl h.haveNumChainTxs
        · exact .inr (mem_append_left _ hmem)
    · -- The parent is linked just now: it is `x`, and `y` waited for it.
      obtain ⟨q, hq⟩ := not_forall.mp hall
      obtain ⟨hpq, hql⟩ := Classical.not_imp.mp hq
      have hqx : q = x := by
        by_contra hne
        exact hql ((h.same q hne).haveNumChainTxs.symm.trans (hyparent q hpq))
      subst hqx
      rcases hd.waiting y q hpq hyn (by simpa using hql) with hwait | ⟨-, hzero⟩
      · exact .inr (mem_append_right _ ((h.range y).mpr hwait))
      · exact absurd hzero hn
  · rw [h.blockIndex, h.nTx, h.pprev]
    intro y hy
    rcases mem_append.mp hy with hy | hy
    · obtain ⟨hmem, hyn, hyparent⟩ := hd.queued y (mem_cons_of_mem _ hy)
      exact ⟨hmem, hyn, fun q hq => h.linked_mono (hyparent q hq)⟩
    · obtain ⟨hp, hyn, -⟩ := hd.unlinked _ ((h.range y).mp hy)
      refine ⟨(ht.parent y x hp).1, hyn, fun q hq => ?_⟩
      cases hp.symm.trans hq
      exact h.haveNumChainTxs
  · rw [h.nTx, h.pprev]
    intro e he
    obtain ⟨hmem, hne⟩ := (h.blocksUnlinked e).mp he
    obtain ⟨hp, hen, hl⟩ := hd.unlinked e hmem
    exact ⟨hp, hen, (h.same _ hne).haveNumChainTxs.trans hl⟩
  · rw [h.nTx, h.pprev, h.failedValid]
    intro y q hq hyn hl
    obtain ⟨hqx, hql⟩ := hnot q hl
    exact (hd.waiting y q hq hyn hql).imp (fun hmem => (h.blocksUnlinked _).mpr ⟨hmem, hqx⟩) id

theorem linking (hs : Linking env s (x :: queue)) : Linking env s' (queue ++ range) := by
  have htipne : s.tip ≠ x := fun heq => hs.fresh (heq ▸ mem_cons_self)
  have hcomp : ∀ y, y ≠ x → s'.comp y s'.tip = s.comp y s.tip := by
    intro y hy
    rw [h.tip]
    exact (h.same y hy).comp (h.same _ htipne)
  refine ⟨hs.tree.of_eq h.blockIndex h.pprev h.nHeight h.nChainWork, h.dataKept hs.tree hs.data,
    hs.flags.of_eq h.blockIndex h.pprev h.failedValid h.failedChild h.failedBlocks
      (by rw [h.nTx]; exact fun _ _ hn => hn),
    ?_, ?_, ⟨?_, ?_⟩⟩
  · rw [h.tip]
    exact hs.tip.of_le h.blockIndex h.pprev h.failed fun a ha => h.linked_mono ha
  · rw [h.tip]
    intro hmem
    rcases mem_append.mp hmem with hmem | hmem
    · exact hs.fresh (mem_cons_of_mem _ hmem)
    · -- What waited for `x` was not linked, the tip was.
      obtain ⟨hp, -, hl⟩ := hs.data.unlinked _ ((h.range _).mp hmem)
      have hlinked := (hs.tip.usable.way x (.of_parent hp)).2
      rw [hl] at hlinked
      cases hlinked
  · intro y hy
    rw [h.blockIndex]
    rcases (h.candidates y).mp hy with hold | ⟨rfl, -⟩
    · obtain ⟨hmem, hl⟩ := hs.candidates.linked y hold
      exact ⟨hmem, h.linked_mono hl⟩
    · exact ⟨(hs.data.queued y mem_cons_self).1, h.haveNumChainTxs⟩
  · rw [h.blockIndex, h.failed]
    intro y hy hl hf _ hc
    rw [h.candidates]
    by_cases hyx : y = x
    · subst hyx
      exact .inr ⟨rfl, hc⟩
    · rw [hcomp y hyx] at hc
      rw [(h.same y hyx).haveNumChainTxs] at hl
      exact .inl (hs.candidates.complete y hy hl hf hc hc)

omit h

end Linked

theorem linkBlocks_keeps {fuel : Nat} (hs : Linking env s queue) (h : linkBlocks fuel s queue = .ok s') :
    Linking env s' [] ∧ Judges bad s s' := by
  induction fuel generalizing s queue with
  | zero =>
    cases queue with
    | nil =>
      cases h
      exact ⟨hs, .refl _⟩
    | cons x queue => cases h
  | succ fuel ih =>
    cases queue with
    | nil =>
      cases h
      exact ⟨hs, .refl _⟩
    | cons x queue =>
      have hlinked := linkBlock_spec (hs.data.queued x mem_cons_self).2.1
      obtain ⟨hlinking, hjudges⟩ := ih (hlinked.linking hs) h
      exact ⟨hlinking, (Judges.of_eq hlinked.blockIndex hlinked.pprev hlinked.failedValid).trans hjudges⟩

theorem Linking.settled (h : Linking env s []) : Settled env s := .intro h.tree h.data h.flags h.tip h.candidates

theorem Received.linking (h : Received s s' x) (hs : Settled env s) (hd : Data s' [x]) : Linking env s' [x] := by
  refine ⟨hs.tree.of_eq h.blockIndex h.pprev h.nHeight h.nChainWork, hd, h.flags hs.flags, ?_, ?_,
    h.candidatesKept hs.candidates⟩
  · rw [h.tip]
    exact hs.tip.of_le h.blockIndex h.pprev h.failed fun a ha => (congrFun h.haveNumChainTxs a).trans ha
  · rw [h.tip, mem_singleton]
    rintro rfl
    have hl := hs.tip.usable.self.2
    rw [h.unlinked] at hl
    cases hl

theorem Flags.failed_parent (h : Flags s) (hp : s.pprev x = some p) (hpmem : p ∈ s.blockIndex) (hx : s.failed x = false)
    (hfailed : s.failed p = true) : s.failedValid p = true ∧ s.nTx p = 0 := by
  have hnot : ∀ a, Above s.pprev a p → ¬ Closed s a := by
    intro a ha hc
    rw [hc.below x (ha.trans (.of_parent hp))] at hx
    cases hx
  rw [failed_eq, Bool.or_eq_true] at hfailed
  rcases hfailed with hv | hc
  · refine ⟨hv, ?_⟩
    by_contra hn
    exact hnot p (.refl p) (h.closed p hpmem hv hn)
  · obtain ⟨a, hap, ha⟩ := h.child p hpmem hc
    exact absurd ha (hnot a hap.above)

theorem receivedBlockTransactions_keeps (hs : Settled env s) (hx : x ∈ s.blockIndex) (hfailed : s.failed x = false)
    (hdata : s.haveData x = false) (hsize : vtxSize ≠ 0)
    (h : s.receivedBlockTransactions x vtxSize = .ok s') : Settled env s' ∧ Judges bad s s' := by
  have hr := received hs hx hfailed hdata hsize
  unfold receivedBlockTransactions at h
  generalize s.receiveData x vtxSize = t at hr h
  have hjudges : Judges bad s t := .of_eq hr.blockIndex hr.pprev hr.failedValid
  unfold linkOrWait at h
  rw [hr.pprev, hr.haveNumChainTxs] at h
  -- With a linked parent `x` is queued, else it waits.
  have hlinked : (∀ p, s.pprev x = some p → s.haveNumChainTxs p = true) →
      linkBlocks (t.blocksUnlinked.length + 1) t [x] = .ok s' → Settled env s' ∧ Judges bad s s' := by
    intro hparent hok
    have hdata : Data t [x] := by
      refine hr.dataKept hs.data (fun e he => .inl (hr.blocksUnlinked ▸ he)) (fun e he => hr.blocksUnlinked ▸ he)
        (fun y hy => ⟨mem_singleton.mp hy, hparent⟩) (fun _ => mem_singleton.mpr rfl) fun p hp hl => ?_
      rw [hparent p hp] at hl
      cases hl
    obtain ⟨hlinking, hlinks⟩ := linkBlocks_keeps (hr.linking hs hdata) hok
    exact ⟨hlinking.settled, hjudges.trans hlinks⟩
  cases hp : s.pprev x with
  | none =>
    simp only [hp] at h
    refine hlinked (fun p hp' => ?_) h
    rw [hp] at hp'
    cases hp'
  | some p =>
    have hpmem := (hs.tree.parent x p hp).2.1
    have honly : ∀ q, s.pprev x = some q → q = p := fun q hq => Option.some.inj (hq.symm.trans hp)
    simp only [hp] at h
    split at h
    · next hl => exact hlinked (fun q hq => honly q hq ▸ hl) h
    · next hnot =>
      have hl : s.haveNumChainTxs p = false := by simpa using hnot
      have hsettled : ∀ unlinked : List (Ptr × Ptr), Data { t with blocksUnlinked := unlinked } [] →
          Settled env { t with blocksUnlinked := unlinked } ∧ Judges bad s { t with blocksUnlinked := unlinked } := by
        intro unlinked hd
        refine ⟨.intro (hs.tree.of_eq hr.blockIndex hr.pprev hr.nHeight hr.nChainWork) hd
          ((hr.flags hs.flags).of_eq rfl rfl rfl rfl rfl fun _ _ hn => hn) ?_ ?_, hjudges.trans (.of_eq rfl rfl rfl)⟩
        · rw [hr.tip]
          exact hs.tip.of_le hr.blockIndex hr.pprev hr.failed fun a ha => (congrFun hr.haveNumChainTxs a).trans ha
        · exact ⟨(hr.candidatesKept hs.candidates).linked, (hr.candidatesKept hs.candidates).complete⟩
      split at h
      · cases h
        refine hsettled _ (hr.dataKept hs.data (fun e he => ?_) (fun e he => ?_) (by simp)
          (fun hall => ?_) fun q hq _ => ?_)
        · rw [hr.blocksUnlinked] at he
          rcases mem_append.mp he with he | he
          · exact .inl he
          · obtain rfl := mem_singleton.mp he
            exact .inr ⟨hp, rfl, hl⟩
        · rw [hr.blocksUnlinked]
          exact mem_append_left _ he
        · rw [hall p hp] at hl
          cases hl
        · obtain rfl := honly q hq
          exact .inl (mem_append_right _ (mem_singleton.mpr rfl))
      · next hinvalid =>
        cases h
        refine hsettled s'.blocksUnlinked (hr.dataKept hs.data (fun e he => .inl (hr.blocksUnlinked ▸ he))
          (fun e he => hr.blocksUnlinked ▸ he) (by simp) (fun hall => ?_) fun q hq _ => ?_)
        · rw [hall p hp] at hl
          cases hl
        · -- The parent is marked, or it would be valid up to the tree.
          obtain rfl := honly q hq
          refine .inr (hs.flags.failed_parent hp hpmem hfailed ?_)
          by_contra hunmarked
          refine hinvalid (isValid_iff.mpr ⟨?_, ?_⟩)
          · rw [hr.failed]
            simpa using hunmarked
          · rw [hr.level_parent hs.tree hp]
            exact hs.data.tree q hpmem

theorem markValid_keeps (hs : Settled env s) (hx : x ∈ s.blockIndex) (hdata : s.haveData x = false) :
    Settled env (s.setStatus x .markValid) := by
  have htree : SameTree s (s.setStatus x .markValid) := sameTree_setStatus keepsData_markValid x
  have hmarks : Marks s (s.setStatus x .markValid) := marks_markValid
  have hn : s.nTx x = 0 := by
    by_contra hne
    rw [(hs.data.have_iff x hx).mpr hne] at hdata
    cases hdata
  have hkeep := fun {a} (ha : Closed s a) => ha.marks htree hmarks
  refine .intro (hs.tree.same htree) (hs.data.same htree hmarks rfl) ⟨?_, ?_, ?_⟩ (hs.tip.same htree fun a ha => ?_)
    (hs.candidates.fewer htree hmarks rfl (fun _ h => h) fun _ h _ _ => h)
  · rw [htree.blockIndex, htree.nTx]
    intro a hmem ha htx
    rcases failedValid_markValid.mp ha with rfl | hold
    · exact absurd hn htx
    · exact hkeep (hs.flags.closed a hmem hold htx)
  · rw [htree.blockIndex, htree.pprev, failedChild_markValid]
    intro y hmem hy
    obtain ⟨a, hay, ha⟩ := hs.flags.child y hmem hy
    exact ⟨a, hay, hkeep ha⟩
  · exact fun a ha => hkeep (hs.flags.listed a ha)
  · -- The active chain has its data, so `x` is not on it.
    obtain ⟨hunmarked, hl⟩ := hs.tip.usable.way a ha
    have hax : a ≠ x := by
      rintro rfl
      exact (hs.data.of_linked a hx hl).1 hn
    rw [← Bool.not_eq_true, failed_eq, Bool.or_eq_true, failedValid_markValid, failedChild_markValid]
    rw [failed_eq, Bool.or_eq_false_iff] at hunmarked
    simp [hax, hunmarked]

theorem acceptBlock_keeps (hs : Settled env s) {block : CBlock} {fRequested contextual : Bool}
    (h : s.acceptBlock env block fRequested contextual minPowChecked = .ok s') :
    Settled env s' ∧ Judges (fun c => c = block.self ∧ block.verdict = .invalid) s s' := by
  unfold acceptBlock at h
  obtain ⟨⟨t, _⟩, hheader, hrest⟩ := bind_ok.mp h
  obtain ⟨hkeeps, hjudges, hself⟩ := acceptBlockHeader_keeps hs hheader
  dsimp only at hrest
  split at hrest
  · cases hrest
    exact ⟨hkeeps, hjudges⟩
  · next haccepted =>
    obtain ⟨hmem, hunmarked⟩ := hself (by simpa using haccepted)
    split at hrest
    · cases hrest
      exact ⟨hkeeps, hjudges⟩
    · next hdata =>
      have hnone : t.haveData block.self = false := by simpa using hdata
      split at hrest
      · cases hrest
        exact ⟨hkeeps, hjudges⟩
      · split at hrest
        · next hverdict =>
          cases hrest
          refine ⟨markValid_keeps hkeeps hmem hnone, hjudges.trans (.of_marked rfl ?_ fun a ha => ?_)⟩
          · exact (sameTree_setStatus keepsData_markValid block.self).pprev
          · rcases failedValid_markValid.mp ha with rfl | hold
            · exact .inr ⟨_, .refl _, rfl, hverdict⟩
            · exact .inl hold
        · cases hrest
          exact ⟨hkeeps, hjudges⟩
        · next hverdict =>
          obtain ⟨hsettled, hreceived⟩ :=
              receivedBlockTransactions_keeps hkeeps hmem hunmarked hnone (block.vtx_ne hverdict) hrest
          exact ⟨hsettled, hjudges.trans hreceived⟩

end Chainstate

end FullNode.BlockTree

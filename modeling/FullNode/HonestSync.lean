import FullNode.HeadersSyncRuns
import FullNode.Retarget

/-! # Syncing with an honest peer -/

open FullNode.ArithUint256 FullNode.CBlockIndex List

namespace FullNode

def CBlockIndex.headersAbove (b : CBlockIndex) (height count : Nat) : List CBlockHeader :=
  (List.range' (height + 1) (min count (b.nHeight - height))).map fun h => (b.ancestor h).getBlockHeader

namespace HeadersSync

def position (s : HeadersSyncState) : Nat :=
  if s.downloadState = .presync then s.currentHeight else s.redownloadBufferLastHeight

/-- Every request is answered from one chain, as far as the peer chooses. -/
def runWith (sync : HeadersSync) (b : CBlockIndex) : HeadersSyncState → List (Nat × Bool) →
    Checked (List ProcessingResult × HeadersSyncState)
  | s, [] => .ok ([], s)
  | s, (count, fullHeadersMessage) :: requests => do
    let (ret, s) ← sync.processNextHeaders s (b.headersAbove (position s) count) fullHeadersMessage
    let (rets, s) ← runWith sync b s requests
    return (ret :: rets, s)

end HeadersSync

/-! ## Bits along the chain -/

variable {hash : Uint256} {b : CBlockIndex}

theorem Produced.ancestor {params : Params} {genesisBits : Uint32} (h : Produced params genesisBits b)
    (height : Nat) : Produced params genesisBits (b.ancestor height) := by
  induction h with
  | genesis e hheight hbits =>
    rw [ancestor_self _ _ (by rw [nHeight_mk, hheight]; exact Nat.zero_le _)]
    exact .genesis e hheight hbits
  | next e pprev pskip header hprev hheight hskip htime hbits ih =>
    rcases Nat.lt_or_ge height e.nHeight with hlt | hge
    · rw [ancestor_mk _ _ _ _ hlt]
      exact ih
    · rw [ancestor_self _ _ hge]
      exact .next e pprev pskip header hprev hheight hskip htime hbits

theorem Produced.main_permitted (h : Produced (mainParams hash) mainGenesisBits b) {height : Nat}
    (hlt : height < b.nHeight) :
    permittedDifficultyTransition (mainParams hash) ((height + 1 : Nat) : Int) (b.ancestor height).nBits
      (b.ancestor (height + 1)).nBits = .ok true := by
  induction h with
  | genesis e hheight _ =>
    rw [nHeight_mk, hheight] at hlt
    omega
  | next e pprev pskip header hprev hheight _ _ hbits ih =>
    rw [nHeight_mk] at hlt
    rw [ancestor_mk _ _ _ _ hlt]
    rcases Nat.lt_or_ge (height + 1) e.nHeight with hbelow | htop
    · rw [ancestor_mk _ _ _ _ hbelow]
      exact ih (by omega)
    · rw [ancestor_self (mk e pprev pskip) _ htop, ancestor_self pprev _ (by omega), nBits_mk]
      obtain ⟨nBits, heq, -, hpermitted⟩ := main_next_spec header hprev.isNull hprev.main_compactBelow
      rw [heq] at hbits
      rw [← Except.ok.inj hbits, show height = pprev.nHeight by omega]
      exact hpermitted

theorem getBlockProof_ok {limit : ArithUint256} {nBits : Uint32} (h : CompactBelow limit nBits)
    (hlimit : limit.toNat + 1 < 2 ^ 256) : ∃ proof, getBlockProof nBits = .ok proof := by
  have hle := h.value_le
  have hne : (setCompact nBits).value + 1 ≠ 0 := by
    intro hzero
    have := congrArg BitVec.toNat hzero
    rw [BitVec.toNat_add, Nat.mod_eq_of_lt (by simp; omega)] at this
    simp at this
  unfold getBlockProof
  simp only
  split
  · exact ⟨_, rfl⟩
  · rw [div, if_neg hne]
    exact ⟨_, rfl⟩

theorem Produced.main_proof (h : Produced (mainParams hash) mainGenesisBits b) :
    ∃ proof, getBlockProof b.nBits = .ok proof := by
  apply getBlockProof_ok h.main_compactBelow
  simp only [mainParams]
  decide

namespace HeadersSync

variable {sync : HeadersSync} {s : HeadersSyncState}

/-! ## One header -/

variable {permitted : Bool} {proof : ArithUint256}

theorem validateAndProcessSingleHeader_total (header : CBlockHeader)
    (hpermitted : permittedDifficultyTransition sync.consensusParams (s.currentHeight + 1 : Nat)
      s.lastHeaderReceived.nBits header.nBits = .ok permitted)
    (hproof : getBlockProof header.nBits = .ok proof) :
    ∃ abort s', sync.validateAndProcessSingleHeader s header = .ok (abort, s') := by
  unfold validateAndProcessSingleHeader
  simp only [hpermitted, hproof, bind, Except.bind]
  split
  · exact ⟨_, _, rfl⟩
  split
  · exact ⟨_, _, rfl⟩
  split
  · exact ⟨_, _, rfl⟩
  · exact ⟨_, _, rfl⟩

theorem validateAndStoreRedownloadedHeader_total (header : CBlockHeader)
    (hpermitted : permittedDifficultyTransition sync.consensusParams (s.redownloadBufferLastHeight + 1 : Nat)
      (sync.previousBits s) header.nBits = .ok permitted)
    (hproof : getBlockProof header.nBits = .ok proof) :
    ∃ abort s', sync.validateAndStoreRedownloadedHeader s header = .ok (abort, s') := by
  unfold validateAndStoreRedownloadedHeader
  simp only [hpermitted, hproof, bind, Except.bind]
  split
  · exact ⟨_, _, rfl⟩
  split
  · exact ⟨_, _, rfl⟩
  split
  · exact ⟨_, _, rfl⟩
  split
  · exact ⟨_, _, rfl⟩
  · exact ⟨_, _, rfl⟩

/-! ## The loops -/

/-- On the chain's headers it finds no wrong difficulty and goes on. -/
def Tolerates (good : HeadersSyncState → Prop) (res : Checked (Option SyncAbort × HeadersSyncState)) : Prop :=
  ∃ abort s', res = .ok (abort, s') ∧ abort ≠ some .invalidDifficultyTransition ∧ (abort = none → good s')

theorem forHeaders_tolerates {step : HeadersSyncState → CBlockHeader → Checked (Option SyncAbort × HeadersSyncState)}
    {good : HeadersSyncState → Prop} {reached : HeadersSyncState → Nat}
    (hstep : ∀ s, good s → reached s < b.nHeight →
      Tolerates (fun s' => good s' ∧ reached s' = reached s + 1) (step s (b.ancestor (reached s + 1)).getBlockHeader))
    (count : Nat) (h : good s) : Tolerates good (forHeaders step (b.headersAbove (reached s) count) s) := by
  unfold headersAbove
  have hcount : min count (b.nHeight - reached s) ≤ b.nHeight - reached s := Nat.min_le_right _ _
  -- From here on only the number of headers matters, and that they are on the chain.
  generalize min count (b.nHeight - reached s) = left at hcount ⊢
  induction left generalizing s with
  | zero => exact ⟨none, s, rfl, by simp, fun _ => h⟩
  | succ left ih =>
    obtain ⟨abort, t, heq, hne, hnext⟩ := hstep s h (by omega)
    rw [range'_succ, map_cons, forHeaders, heq]
    cases abort with
    | some e => exact ⟨some e, t, rfl, hne, by simp⟩
    | none =>
      obtain ⟨hgood, hreached⟩ := hnext rfl
      have := ih hgood (by omega)
      rwa [hreached] at this

/-- The first phase has last seen the chain's header at its height. -/
structure OnChainFirst (b : CBlockIndex) (s : HeadersSyncState) : Prop where
  state : s.downloadState = .presync
  bits : s.lastHeaderReceived.nBits = (b.ancestor s.currentHeight).nBits

/-- The second phase compares with the chain's bits at its height. -/
structure OnChainSecond (sync : HeadersSync) (b : CBlockIndex) (s : HeadersSyncState) : Prop where
  state : s.downloadState = .redownload
  bits : sync.previousBits s = (b.ancestor s.redownloadBufferLastHeight).nBits

section Steps

variable (hmain : sync.consensusParams = mainParams hash)
  (hproduced : Produced (mainParams hash) mainGenesisBits b)

include hmain hproduced

theorem validateAndProcessSingleHeader_tolerates (h : OnChainFirst b s) (hlt : s.currentHeight < b.nHeight) :
    Tolerates (fun s' => OnChainFirst b s' ∧ s'.currentHeight = s.currentHeight + 1)
      (sync.validateAndProcessSingleHeader s (b.ancestor (s.currentHeight + 1)).getBlockHeader) := by
  have hpermitted := hproduced.main_permitted hlt
  rw [← h.bits, ← hmain] at hpermitted
  obtain ⟨_, hproof⟩ := (hproduced.ancestor (s.currentHeight + 1)).main_proof
  obtain ⟨abort, t, heq⟩ := validateAndProcessSingleHeader_total
    (b.ancestor (s.currentHeight + 1)).getBlockHeader hpermitted hproof
  refine ⟨abort, t, heq, ?_⟩
  obtain ⟨rfl, _, rfl⟩ | ⟨hne, -, hreason⟩ := validateAndProcessSingleHeader_cases heq
  · refine ⟨by simp, fun _ => ⟨⟨?_, rfl⟩, rfl⟩⟩
    rw [addCommitment_eq]
    exact h.state
  · refine ⟨fun hinvalid => ?_, fun hnone => absurd hnone hne⟩
    have hfalse := hpermitted.symm.trans (hreason hinvalid)
    cases hfalse

theorem validateAndStoreRedownloadedHeader_tolerates (h : OnChainSecond sync b s)
    (hlt : s.redownloadBufferLastHeight < b.nHeight) : Tolerates (fun s' => OnChainSecond sync b s' ∧
        s'.redownloadBufferLastHeight = s.redownloadBufferLastHeight + 1)
      (sync.validateAndStoreRedownloadedHeader s
        (b.ancestor (s.redownloadBufferLastHeight + 1)).getBlockHeader) := by
  have hpermitted := hproduced.main_permitted hlt
  rw [← h.bits, ← hmain] at hpermitted
  obtain ⟨_, hproof⟩ := (hproduced.ancestor (s.redownloadBufferLastHeight + 1)).main_proof
  obtain ⟨abort, t, heq⟩ := validateAndStoreRedownloadedHeader_total
    (b.ancestor (s.redownloadBufferLastHeight + 1)).getBlockHeader hpermitted hproof
  refine ⟨abort, t, heq, ?_⟩
  obtain ⟨rfl, -, _, -, rfl⟩ | ⟨hne, -, -, hreason⟩ := validateAndStoreRedownloadedHeader_cases heq
  · refine ⟨by simp, fun _ => ⟨⟨h.state, ?_⟩, rfl⟩⟩
    unfold previousBits
    simp only [getLast?_concat]
    rfl
  · refine ⟨fun hinvalid => ?_, fun hnone => absurd hnone hne⟩
    have hfalse := hpermitted.symm.trans (hreason hinvalid)
    cases hfalse

end Steps

/-! ## Batches -/

theorem popHeaders_getLast (flag : Bool) (buffer : List CompressedHeader) (prev : Uint256) :
    (sync.popHeaders flag buffer prev).2.1.getLast? = buffer.getLast? ∨
      ((sync.popHeaders flag buffer prev).2.1 = [] ∧ flag = true) := by
  induction buffer generalizing prev with
  | nil => exact .inl rfl
  | cons first buffer ih =>
    unfold popHeaders
    split
    · next hready =>
      rcases ih (sync.getHash (first.getFullHeader prev)) with hlast | hall
      · cases buffer with
        | nil =>
          rw [Bool.or_eq_true, decide_eq_true_iff] at hready
          rcases hready with hmany | hflag
          · exact absurd hmany (by simp [REDOWNLOAD_BUFFER_SIZE])
          · exact .inr ⟨rfl, hflag⟩
        | cons second buffer =>
          rw [getLast?_cons_cons]
          exact .inl hlast
      · exact .inr hall
    · exact .inl rfl

inductive OnChain (sync : HeadersSync) (b : CBlockIndex) (s : HeadersSyncState) : Prop
  | presync (h : OnChainFirst b s)
  | redownload (h : OnChainSecond sync b s)
  | final (h : s.downloadState = .final)

section Batches

variable (hmain : sync.consensusParams = mainParams hash)
  (hproduced : Produced (mainParams hash) mainGenesisBits b)
  (hstart : b.ancestor sync.chainStart.nHeight = sync.chainStart)

include hmain hproduced

include hstart in
theorem processPresync_onChain (h : OnChainFirst b s) (count : Nat) (full : Bool) :
    ∃ ret s', sync.processPresync s (b.headersAbove s.currentHeight count) full = .ok (ret, s') ∧
      ret.abort ≠ some .invalidDifficultyTransition ∧ (ret.success = true → OnChain sync b s') := by
  unfold processPresync validateAndStoreHeadersCommitments
  cases hheaders : b.headersAbove s.currentHeight count with
  | nil => exact ⟨_, _, rfl, by simp, fun _ => .presync h⟩
  | cons first headers =>
    simp only [ne_eq, h.state, not_true_eq_false, if_false]
    split
    · exact ⟨_, _, rfl, by simp, by simp⟩
    · obtain ⟨abort, _, heq, hne, hgood⟩ := forHeaders_tolerates
        (fun s hs hlt => validateAndProcessSingleHeader_tolerates hmain hproduced hs hlt) count h
      rw [← hheaders, heq]
      cases abort with
      | some e => exact ⟨_, _, rfl, hne, by simp⟩
      | none =>
        refine ⟨_, _, rfl, by simp, fun _ => ?_⟩
        have ht := hgood rfl
        simp only
        split
        · refine .redownload ⟨rfl, ?_⟩
          rw [startRedownload, hstart]
          rfl
        · exact .presync ht

theorem processRedownload_onChain (h : OnChainSecond sync b s) (count : Nat) (full : Bool) :
    ∃ ret s', sync.processRedownload s (b.headersAbove s.redownloadBufferLastHeight count) full = .ok (ret, s') ∧
      ret.abort ≠ some .invalidDifficultyTransition ∧
        (ret.success = true → ret.requestMore = true → OnChain sync b s') := by
  unfold processRedownload
  obtain ⟨abort, t, heq, hne, hgood⟩ := forHeaders_tolerates
    (fun s hs hlt => validateAndStoreRedownloadedHeader_tolerates hmain hproduced hs hlt) count h
  rw [heq]
  cases abort with
  | some e => exact ⟨_, _, rfl, hne, by simp⟩
  | none =>
    have ht := hgood rfl
    have hpop : sync.popHeadersReadyForAcceptance t = _ := if_neg (not_not.mpr ht.state)
    simp only [bind, Except.bind, hpop]
    refine ⟨_, _, rfl, by simp, fun _ hmore => ?_⟩
    rcases sync.popHeaders_getLast t.processAllRemainingHeaders t.redownloadedHeaders
      t.redownloadBufferFirstPrevHash with hlast | ⟨hempty, hflag⟩
    · refine .redownload ⟨ht.state, ?_⟩
      rw [← ht.bits]
      unfold previousBits
      simp only [hlast]
    · -- Everything was handed out, so nothing more is requested.
      rw [hempty, hflag] at hmore
      cases hmore

include hstart in
theorem processNextHeaders_onChain (h : OnChain sync b s) (count : Nat) (full : Bool) :
    ∃ ret s', sync.processNextHeaders s (b.headersAbove (position s) count) full = .ok (ret, s') ∧
      ret.abort ≠ some .invalidDifficultyTransition ∧ OnChain sync b s' := by
  unfold processNextHeaders
  split
  · exact ⟨_, _, rfl, by simp, h⟩
  next hactive =>
  rw [Bool.or_eq_true, not_or, beq_iff_eq] at hactive
  have hstate : ∃ ret t, sync.processInState s (b.headersAbove (position s) count) full = .ok (ret, t) ∧
      ret.abort ≠ some .invalidDifficultyTransition ∧
        (ret.success = true → ret.requestMore = true → OnChain sync b t) := by
    unfold processInState position
    rcases h with hpresync | hredownload | hfinal
    · rw [if_pos hpresync.state, if_pos hpresync.state]
      obtain ⟨ret, t, heq, hne, honChain⟩ := processPresync_onChain hmain hproduced hstart hpresync count full
      exact ⟨ret, t, heq, hne, fun hsuccess _ => honChain hsuccess⟩
    · have hne : s.downloadState ≠ .presync := by
        rw [hredownload.state]
        simp
      rw [if_neg hne, if_neg hne]
      exact processRedownload_onChain hmain hproduced hredownload count full
    · exact absurd hfinal hactive.2
  obtain ⟨ret, t, heq, hne, honChain⟩ := hstate
  rw [heq]
  refine ⟨_, _, rfl, hne, ?_⟩
  split
  · next hmore =>
    obtain ⟨hsuccess, hmore⟩ := Bool.and_eq_true_iff.mp hmore
    exact honChain hsuccess hmore
  · exact .final rfl

include hstart in
theorem runWith_onChain (h : OnChain sync b s) (requests : List (Nat × Bool)) :
    ∃ results s', sync.runWith b s requests = .ok (results, s') ∧ ∀ ret ∈ results,
      ret.abort ≠ some .invalidDifficultyTransition := by
  induction requests generalizing s with
  | nil => exact ⟨[], s, rfl, by simp⟩
  | cons request requests ih =>
    obtain ⟨ret, _, heq, hne, ht⟩ := processNextHeaders_onChain hmain hproduced hstart h request.1 request.2
    obtain ⟨results, s', hrun, hresults⟩ := ih ht
    refine ⟨ret :: results, s', ?_, ?_⟩
    · rw [runWith, heq]
      simp only [bind, Except.bind, hrun]
      rfl
    · rintro r hr
      rcases mem_cons.mp hr with rfl | hr
      · exact hne
      · exact hresults r hr

end Batches

theorem initial_onChain (hstart : b.ancestor sync.chainStart.nHeight = sync.chainStart) :
    OnChainFirst b sync.initial := by
  refine ⟨rfl, ?_⟩
  change sync.chainStart.nBits = (b.ancestor sync.chainStart.nHeight).nBits
  rw [hstart]

/-- On the main network bits of the rule are permitted, and no honest sync is given up for them. -/
theorem main_rule_permitted (hproduced : Produced (mainParams hash) mainGenesisBits b) :
    (∀ header, ∃ nBits, getNextWorkRequired b header (mainParams hash) = .ok nBits ∧
      permittedDifficultyTransition (mainParams hash) ((b.nHeight : Int) + 1) b.nBits nBits = .ok true) ∧
    ∀ sync : HeadersSync, sync.consensusParams = mainParams hash →
      b.ancestor sync.chainStart.nHeight = sync.chainStart →
      ∀ requests, ∃ results s, sync.runWith b sync.initial requests = .ok (results, s) ∧
        ∀ ret ∈ results, ret.abort ≠ some .invalidDifficultyTransition := by
  constructor
  · intro header
    obtain ⟨nBits, heq, -, hpermitted⟩ := main_next_spec header hproduced.isNull hproduced.main_compactBelow
    exact ⟨nBits, heq, hpermitted⟩
  · intro sync hmain hstart requests
    exact runWith_onChain hmain hproduced hstart (.presync (initial_onChain hstart)) requests

def smallTip : CBlockIndex :=
  .mk ⟨2, 1, 131072, 1, 0, 30, mainGenesisBits, 2⟩ smallSync.chainStart smallSync.chainStart

theorem smallTip_permitted : permittedDifficultyTransition (mainParams 1) 2 mainGenesisBits mainGenesisBits = .ok true ∧
    ∃ results s, smallSync.runWith smallTip smallSync.initial [(1, true), (2000, false)] = .ok (results, s) ∧
      ∀ ret ∈ results, ret.abort ≠ some .invalidDifficultyTransition := by
  have hproduced : Produced (mainParams 1) mainGenesisBits smallTip :=
    .next _ _ _ ⟨1, 1, 0, 30, 0, 0⟩ (.genesis _ rfl rfl) rfl rfl rfl (by decide)
  obtain ⟨hnext, hsync⟩ := main_rule_permitted hproduced
  obtain ⟨nBits, hbits, hpermitted⟩ := hnext ⟨1, 2, 0, 60, 0, 0⟩
  have hsame : getNextWorkRequired smallTip ⟨1, 2, 0, 60, 0, 0⟩ (mainParams 1) = .ok mainGenesisBits := by
    decide
  obtain rfl : nBits = mainGenesisBits := Except.ok.inj (hbits.symm.trans hsame)
  exact ⟨hpermitted, hsync smallSync rfl rfl _⟩

end HeadersSync

end FullNode

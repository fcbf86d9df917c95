import FullNode.HeadersSync

/-! # What headers sync hands to validation -/

namespace FullNode.HeadersSync

open List

variable {sync : HeadersSync} {s s' : HeadersSyncState} {header : CBlockHeader}
  {headers returned : List CBlockHeader} {abort : Option SyncAbort}

/-! ## Chains of headers -/

/-- Each header names the hash of the one before it, from `prev` on. -/
def Connected (sync : HeadersSync) : Uint256 → List CBlockHeader → Prop
  | _, [] => True
  | prev, header :: headers => header.hashPrevBlock = prev ∧ Connected sync (sync.getHash header) headers

def tipHash (sync : HeadersSync) (prev : Uint256) (headers : List CBlockHeader) : Uint256 :=
  (headers.getLast?.map sync.getHash).getD prev

theorem tipHash_cons (prev : Uint256) (header : CBlockHeader) (headers : List CBlockHeader) :
    sync.tipHash prev (header :: headers) = sync.tipHash (sync.getHash header) headers := by
  unfold tipHash
  cases headers with
  | nil => rfl
  | cons next headers =>
    rw [getLast?_cons_cons]
    cases hlast : (next :: headers).getLast? with
    | none => simp at hlast
    | some last => rfl

theorem tipHash_append (prev : Uint256) (headers later : List CBlockHeader) :
    sync.tipHash prev (headers ++ later) = sync.tipHash (sync.tipHash prev headers) later := by
  induction headers generalizing prev with
  | nil => rfl
  | cons header headers ih => rw [cons_append, tipHash_cons, ih, tipHash_cons]

variable {prev : Uint256} {full : Bool} {ret : ProcessingResult}

theorem connected_append {headers later : List CBlockHeader} : sync.Connected prev (headers ++ later) ↔
      sync.Connected prev headers ∧ sync.Connected (sync.tipHash prev headers) later := by
  induction headers generalizing prev with
  | nil => exact ⟨fun h => ⟨trivial, h⟩, fun h => h.2⟩
  | cons header headers ih =>
    rw [cons_append, tipHash_cons, Connected, Connected, ih, and_assoc]

/-! ## Work -/

def proofOf (header : CBlockHeader) : ArithUint256 :=
  match getBlockProof header.nBits with
  | .ok proof => proof
  | .error _ => 0

def workOf (sync : HeadersSync) (headers : List CBlockHeader) : ArithUint256 :=
  headers.foldl (fun work header => work + proofOf header) sync.chainStart.entry.nChainWork

theorem workOf_append (headers : List CBlockHeader) (header : CBlockHeader) :
    sync.workOf (headers ++ [header]) = sync.workOf headers + proofOf header := by
  unfold workOf
  rw [foldl_append]
  rfl

def Reached (sync : HeadersSync) (headers : List CBlockHeader) : Prop :=
  ∃ n, n < headers.length ∧ sync.minimumRequiredWork ≤ sync.workOf (headers.take (n + 1))

theorem reached_append (headers : List CBlockHeader) (header : CBlockHeader) : sync.Reached (headers ++ [header]) ↔
      sync.Reached headers ∨ sync.minimumRequiredWork ≤ sync.workOf (headers ++ [header]) := by
  unfold Reached
  constructor
  · rintro ⟨n, hn, hwork⟩
    rw [length_append, length_singleton] at hn
    rcases Nat.lt_or_ge n headers.length with hlt | hge
    · rw [take_append_of_le_length (by omega)] at hwork
      exact .inl ⟨n, hlt, hwork⟩
    · rw [take_of_length_le (by simp; omega)] at hwork
      exact .inr hwork
  · rintro (⟨n, hn, hwork⟩ | hwork)
    · refine ⟨n, by simp; omega, ?_⟩
      rwa [take_append_of_le_length (by omega)]
    · refine ⟨headers.length, by simp, ?_⟩
      rwa [take_of_length_le (by simp)]

/-! ## Commitments -/

def commitmentsAbove (sync : HeadersSync) : Nat → List CBlockHeader → List Bool
  | _, [] => []
  | height, header :: headers =>
    (if (height + 1) % HEADER_COMMITMENT_PERIOD = sync.commitOffset then [sync.commitment header] else []) ++
      commitmentsAbove sync (height + 1) headers

theorem commitmentsAbove_append (height : Nat) (headers : List CBlockHeader) (header : CBlockHeader) :
    sync.commitmentsAbove height (headers ++ [header]) = sync.commitmentsAbove height headers ++
      if (height + headers.length + 1) % HEADER_COMMITMENT_PERIOD = sync.commitOffset
        then [sync.commitment header] else [] := by
  induction headers generalizing height with
  | nil => simp [commitmentsAbove]
  | cons first headers ih =>
    rw [cons_append, commitmentsAbove, commitmentsAbove, ih, append_assoc, length_cons]
    congr 3
    rw [show height + 1 + headers.length + 1 = height + (headers.length + 1) + 1 by omega]

theorem commitmentsAbove_next {height k : Nat} {presynced : List CBlockHeader} {bit : Bool} {queue : List Bool}
    (h : sync.commitmentsAbove height (presynced.drop k) =
      (if (height + 1) % HEADER_COMMITMENT_PERIOD = sync.commitOffset then [bit] else []) ++ queue) :
    queue = sync.commitmentsAbove (height + 1) (presynced.drop (k + 1)) ∧
      ((height + 1) % HEADER_COMMITMENT_PERIOD = sync.commitOffset →
        ∃ first, presynced[k]? = some first ∧ bit = sync.commitment first) := by
  rcases Nat.lt_or_ge k presynced.length with hlt | hge
  · rw [drop_eq_getElem_cons hlt, commitmentsAbove] at h
    split at h
    · obtain ⟨hbit, hqueue⟩ := cons.inj h
      exact ⟨hqueue.symm, fun _ => ⟨_, getElem?_eq_getElem hlt, hbit.symm⟩⟩
    · next hno =>
      exact ⟨h.symm, fun hyes => absurd hyes hno⟩
  · rw [drop_of_length_le hge, commitmentsAbove] at h
    obtain ⟨hnone, hqueue⟩ := append_eq_nil_iff.mp h.symm
    rw [hqueue, drop_of_length_le (by omega)]
    refine ⟨rfl, fun hyes => ?_⟩
    rw [if_pos hyes] at hnone
    cases hnone

/-- A redownloaded header at a committed height has the bit kept. -/
def Matches (sync : HeadersSync) (presynced redownloaded : List CBlockHeader) : Prop :=
  ∀ i header, redownloaded[i]? = some header →
    (sync.chainStart.nHeight + i + 1) % HEADER_COMMITMENT_PERIOD = sync.commitOffset →
    ¬ sync.Reached (redownloaded.take (i + 1)) →
      ∃ first, presynced[i]? = some first ∧ sync.commitment header = sync.commitment first

/-! ## The invariant -/

structure Handed (sync : HeadersSync) (returned : List CBlockHeader) (s : HeadersSyncState) : Prop where
  connected : sync.Connected sync.chainStart.getBlockHash s.redownloaded
  taken : returned <+: s.redownloaded
  behind : ∀ i, i < returned.length → i + 1 + REDOWNLOAD_BUFFER_SIZE ≤ s.redownloaded.length ∨
      sync.Reached s.redownloaded
  committed : sync.Matches s.presynced s.redownloaded

structure Presyncing (sync : HeadersSync) (s : HeadersSyncState) : Prop where
  state : s.downloadState = .presync
  height : s.currentHeight = sync.chainStart.nHeight + s.presynced.length
  commitments : s.headerCommitments = sync.commitmentsAbove sync.chainStart.nHeight s.presynced
  flag : s.processAllRemainingHeaders = false
  nothing : s.redownloaded = []

structure Redownloading (sync : HeadersSync) (returned : List CBlockHeader) (s : HeadersSyncState) : Prop where
  state : s.downloadState = .redownload
  buffer : s.redownloadedHeaders = (s.redownloaded.drop returned.length).map CBlockHeader.compress
  firstPrevHash : s.redownloadBufferFirstPrevHash = sync.tipHash sync.chainStart.getBlockHash returned
  lastHash : s.redownloadBufferLastHash = sync.tipHash sync.chainStart.getBlockHash s.redownloaded
  lastHeight : s.redownloadBufferLastHeight = sync.chainStart.nHeight + s.redownloaded.length
  work : s.redownloadChainWork = sync.workOf s.redownloaded
  flag : s.processAllRemainingHeaders = true ↔ sync.Reached s.redownloaded
  commitments : s.processAllRemainingHeaders = false → s.headerCommitments =
    sync.commitmentsAbove (sync.chainStart.nHeight + s.redownloaded.length)
      (s.presynced.drop s.redownloaded.length)

theorem handed_of_nothing (h : s.redownloaded = []) : Handed sync [] s := by
  refine ⟨?_, nil_prefix, fun i hi => ?_, fun i header hi => ?_⟩
  · rw [h]
    trivial
  · cases hi
  · rw [h] at hi
    cases hi

theorem Handed.congr (h : Handed sync returned s) (hpresynced : s'.presynced = s.presynced)
    (hredownloaded : s'.redownloaded = s.redownloaded) : Handed sync returned s' := by
  obtain ⟨_, _, _, _⟩ := h
  refine ⟨?_, ?_, ?_, ?_⟩
  · rwa [hredownloaded]
  · rwa [hredownloaded]
  · rwa [hredownloaded]
  · rwa [hpresynced, hredownloaded]

theorem forHeaders_ok {step : HeadersSyncState → CBlockHeader → Checked (Option SyncAbort × HeadersSyncState)}
    {P Q : HeadersSyncState → Prop}
    (hnext : ∀ s header s', P s → step s header = .ok (none, s') → P s')
    (hstop : ∀ s header e s', P s → step s header = .ok (some e, s') → Q s')
    (h : forHeaders step headers s = .ok (abort, s')) (hs : P s) : (abort = none → P s') ∧ (abort ≠ none → Q s') := by
  induction headers generalizing s with
  | nil =>
    cases h
    exact ⟨fun _ => hs, fun hne => absurd rfl hne⟩
  | cons header headers ih =>
    unfold forHeaders at h
    rw [bind_ok] at h
    obtain ⟨⟨a, t⟩, hstep, h⟩ := h
    cases a with
    | some e =>
      cases h
      exact ⟨fun hn => (by cases hn), fun _ => hstop s header e _ hs hstep⟩
    | none => exact ih h (hnext s header t hs hstep)

/-! ## First phase -/

theorem addCommitment_eq (height : Nat) :
    sync.addCommitment s height header = { s with headerCommitments := s.headerCommitments ++
        if height % HEADER_COMMITMENT_PERIOD = sync.commitOffset then [sync.commitment header] else [] } := by
  unfold addCommitment
  split
  · rfl
  · rw [append_nil]

theorem validateAndProcessSingleHeader_cases (h : sync.validateAndProcessSingleHeader s header = .ok (abort, s')) :
      (abort = none ∧ ∃ proof, s' = { sync.addCommitment s (s.currentHeight + 1) header with
        currentChainWork := s.currentChainWork + proof
        lastHeaderReceived := header
        currentHeight := s.currentHeight + 1
        presynced := s.presynced ++ [header] }) ∨ (abort ≠ none ∧ s'.redownloaded = s.redownloaded ∧
      (abort = some .invalidDifficultyTransition → permittedDifficultyTransition sync.consensusParams
        (s.currentHeight + 1 : Nat) s.lastHeaderReceived.nBits header.nBits = .ok false)) := by
  unfold validateAndProcessSingleHeader at h
  split at h
  · cases h
    exact .inr ⟨by simp, rfl, by simp⟩
  rw [bind_ok] at h
  obtain ⟨_, hpermitted, h⟩ := h
  simp only at h
  split at h
  · next hno =>
    cases h
    refine .inr ⟨by simp, rfl, fun _ => ?_⟩
    rw [hpermitted]
    simpa using hno
  have hredownloaded : (sync.addCommitment s (s.currentHeight + 1) header).redownloaded = s.redownloaded := by
    rw [addCommitment_eq]
  by_cases hmany : (s.currentHeight + 1) % HEADER_COMMITMENT_PERIOD = sync.commitOffset ∧
      (sync.addCommitment s (s.currentHeight + 1) header).headerCommitments.length > sync.maxCommitments
  · rw [if_pos hmany] at h
    cases h
    exact .inr ⟨by simp, hredownloaded, by simp⟩
  rw [if_neg hmany, bind_ok] at h
  obtain ⟨proof, -, h⟩ := h
  cases h
  refine .inl ⟨rfl, proof, ?_⟩
  rw [addCommitment_eq]

theorem presyncing_next (h : Presyncing sync s)
    (hstep : sync.validateAndProcessSingleHeader s header = .ok (none, s')) : Presyncing sync s' := by
  obtain ⟨-, _, rfl⟩ | ⟨hne, -⟩ := validateAndProcessSingleHeader_cases hstep
  · rw [addCommitment_eq]
    refine ⟨h.state, ?_, ?_, h.flag, h.nothing⟩
    · simp only [length_append, length_singleton]
      rw [h.height]
      omega
    · simp only
      rw [commitmentsAbove_append, h.commitments, h.height]
  · exact absurd rfl hne

theorem startRedownload_spec (h : Presyncing sync s) :
    Redownloading sync [] (sync.startRedownload s) ∧ Handed sync [] (sync.startRedownload s) := by
  have hnothing : (sync.startRedownload s).redownloaded = [] := h.nothing
  refine ⟨⟨rfl, ?_, rfl, ?_, ?_, ?_, ?_, ?_⟩, handed_of_nothing hnothing⟩
  · rw [hnothing]
    rfl
  · rw [hnothing]
    rfl
  · rw [hnothing]
    rfl
  · rw [hnothing]
    rfl
  · rw [hnothing]
    have hflag : (sync.startRedownload s).processAllRemainingHeaders = false := h.flag
    rw [hflag]
    constructor
    · intro hf
      cases hf
    · rintro ⟨_, hn, -⟩
      cases hn
  · intro _
    rw [hnothing]
    exact h.commitments

/-! ## Second phase -/

theorem proofOf_eq {proof : ArithUint256} (h : getBlockProof header.nBits = .ok proof) : proofOf header = proof := by
  unfold proofOf
  rw [h]

def flagAfter (sync : HeadersSync) (s : HeadersSyncState) (header : CBlockHeader) : Bool :=
  s.processAllRemainingHeaders || decide (s.redownloadChainWork + proofOf header ≥ sync.minimumRequiredWork)

theorem validateAndStoreRedownloadedHeader_cases
    (h : sync.validateAndStoreRedownloadedHeader s header = .ok (abort, s')) :
    (abort = none ∧ header.hashPrevBlock = s.redownloadBufferLastHash ∧ ∃ queue,
      (sync.flagAfter s header = false → s.headerCommitments =
          (if (s.redownloadBufferLastHeight + 1) % HEADER_COMMITMENT_PERIOD = sync.commitOffset
            then [sync.commitment header] else []) ++ queue) ∧ s' = { s with
          headerCommitments := queue
          redownloadChainWork := s.redownloadChainWork + proofOf header
          processAllRemainingHeaders := sync.flagAfter s header
          redownloadedHeaders := s.redownloadedHeaders ++ [header.compress]
          redownloadBufferLastHeight := s.redownloadBufferLastHeight + 1
          redownloadBufferLastHash := sync.getHash header
          redownloaded := s.redownloaded ++ [header] }) ∨
            (abort ≠ none ∧ s'.presynced = s.presynced ∧ s'.redownloaded = s.redownloaded ∧
      (abort = some .invalidDifficultyTransition → permittedDifficultyTransition sync.consensusParams
        (s.redownloadBufferLastHeight + 1 : Nat) (sync.previousBits s) header.nBits = .ok false)) := by
  unfold validateAndStoreRedownloadedHeader at h
  split at h
  · cases h
    exact .inr ⟨by simp, rfl, rfl, by simp⟩
  split at h
  · cases h
    exact .inr ⟨by simp, rfl, rfl, by simp⟩
  next hprev =>
  rw [bind_ok] at h
  obtain ⟨_, hpermitted, h⟩ := h
  simp only at h
  split at h
  · next hno =>
    cases h
    refine .inr ⟨by simp, rfl, rfl, fun _ => ?_⟩
    rw [hpermitted]
    simpa using hno
  rw [bind_ok] at h
  obtain ⟨_, hproof, h⟩ := h
  rw [← proofOf_eq hproof] at h
  have hprev := not_not.mp hprev
  -- The bit is only looked at below the required work.
  by_cases hcheck : (!sync.flagAfter s header) = true ∧
      (s.redownloadBufferLastHeight + 1) % HEADER_COMMITMENT_PERIOD = sync.commitOffset
  · have hcheck' := hcheck
    unfold flagAfter at hcheck'
    rw [if_pos hcheck'] at h
    unfold checkCommitment at h
    cases hqueue : s.headerCommitments with
    | nil =>
      rw [hqueue] at h
      cases h
      exact .inr ⟨by simp, rfl, rfl, by simp⟩
    | cons bit queue =>
      rw [hqueue] at h
      by_cases hbit : sync.commitment header = bit
      · simp only [hbit, ne_eq, not_true_eq_false, if_false] at h
        cases h
        refine .inl ⟨rfl, hprev, queue, fun _ => ?_, rfl⟩
        rw [if_pos hcheck.2, hbit]
        rfl
      · simp only [ne_eq, hbit, not_false_eq_true, if_true] at h
        cases h
        exact .inr ⟨by simp, rfl, rfl, by simp⟩
  · have hcheck' := hcheck
    unfold flagAfter at hcheck'
    rw [if_neg hcheck'] at h
    cases h
    refine .inl ⟨rfl, hprev, s.headerCommitments, fun hflag => ?_, rfl⟩
    rw [hflag] at hcheck
    rw [if_neg fun hheight => hcheck ⟨rfl, hheight⟩]
    rfl

theorem Reached.append (h : sync.Reached headers) (header : CBlockHeader) :
    sync.Reached (headers ++ [header]) := (reached_append headers header).mpr (.inl h)

theorem redownloading_next (h : Redownloading sync returned s) (hhanded : Handed sync returned s)
    (hstep : sync.validateAndStoreRedownloadedHeader s header = .ok (none, s')) :
    Redownloading sync returned s' ∧ Handed sync returned s' := by
  obtain ⟨-, hprev, queue, hqueue, rfl⟩ | ⟨hne, -⟩ := validateAndStoreRedownloadedHeader_cases hstep
  swap
  · exact absurd rfl hne
  have hlength := hhanded.taken.length_le
  have hflag : sync.flagAfter s header = true ↔ sync.Reached (s.redownloaded ++ [header]) := by
    unfold flagAfter
    rw [Bool.or_eq_true, decide_eq_true_iff, h.flag, reached_append, workOf_append, h.work]
  -- Below the required work the queue loses the bit of this height.
  have hbit : sync.flagAfter s header = false →
      queue = sync.commitmentsAbove (sync.chainStart.nHeight + s.redownloaded.length + 1)
          (s.presynced.drop (s.redownloaded.length + 1)) ∧
        ((sync.chainStart.nHeight + s.redownloaded.length + 1) % HEADER_COMMITMENT_PERIOD = sync.commitOffset →
          ∃ first, s.presynced[s.redownloaded.length]? = some first ∧
            sync.commitment header = sync.commitment first) := by
    intro hlow
    have hbefore : s.processAllRemainingHeaders = false := by
      unfold flagAfter at hlow
      exact (Bool.or_eq_false_iff.mp hlow).1
    apply commitmentsAbove_next
    rw [← h.commitments hbefore, hqueue hlow, h.lastHeight]
  constructor
  · refine ⟨h.state, ?_, h.firstPrevHash, ?_, ?_, ?_, hflag, ?_⟩
    · simp only
      rw [drop_append_of_le_length hlength, map_append, h.buffer]
      rfl
    · simp only
      rw [tipHash_append]
      rfl
    · simp only [length_append, length_singleton]
      rw [h.lastHeight]
      omega
    · simp only
      rw [workOf_append, h.work]
    · intro hlow
      simp only [length_append, length_singleton]
      exact (hbit hlow).1
  · refine ⟨?_, hhanded.taken.trans (prefix_append _ _), ?_, ?_⟩
    · simp only
      rw [connected_append]
      refine ⟨hhanded.connected, ?_, trivial⟩
      rw [hprev, h.lastHash]
    · intro i hi
      simp only [length_append, length_singleton]
      rcases hhanded.behind i hi with hbehind | hreached
      · exact .inl (by omega)
      · exact .inr (hreached.append header)
    · intro i next hi hheight hlow
      simp only at hi hlow ⊢
      rcases Nat.lt_or_ge i s.redownloaded.length with hlt | hge
      · rw [getElem?_append_left hlt] at hi
        rw [take_append_of_le_length hlt] at hlow
        exact hhanded.committed i next hi hheight hlow
      · -- Only the new header is at or above the old length.
        obtain ⟨hbound, -⟩ := List.getElem?_eq_some_iff.mp hi
        rw [length_append, length_singleton] at hbound
        obtain rfl : i = s.redownloaded.length := by omega
        rw [getElem?_concat_length] at hi
        cases hi
        rw [take_of_length_le (by simp)] at hlow
        rw [← hflag, Bool.not_eq_true] at hlow
        exact (hbit hlow).2 hheight

def readyCount (processAllRemainingHeaders : Bool) (size : Nat) : Nat :=
  if processAllRemainingHeaders then size else size - REDOWNLOAD_BUFFER_SIZE

theorem popHeaders_spec {flag : Bool} (h : sync.Connected prev headers) :
    sync.popHeaders flag (headers.map CBlockHeader.compress) prev =
      (headers.take (readyCount flag headers.length),
        (headers.drop (readyCount flag headers.length)).map CBlockHeader.compress,
        sync.tipHash prev (headers.take (readyCount flag headers.length))) := by
  induction headers generalizing prev with
  | nil =>
    rw [take_nil, drop_nil]
    rfl
  | cons header headers ih =>
    obtain ⟨rfl, hconnected⟩ := h
    rw [map_cons, popHeaders]
    split
    · next hready =>
      -- The previous hash that was dropped is the one before the buffer.
      have hcount : readyCount flag (header :: headers).length = readyCount flag headers.length + 1 := by
        unfold readyCount
        rw [Bool.or_eq_true, decide_eq_true_iff, length_cons, length_map] at hready
        rw [length_cons]
        rcases hready with hmany | rfl
        · split
          · rfl
          · omega
        · rfl
      have hfull : header.compress.getFullHeader header.hashPrevBlock = header := rfl
      simp only [hfull, ih hconnected]
      rw [hcount, take_succ_cons, drop_succ_cons, tipHash_cons]
    · next hready =>
      have hcount : readyCount flag (header :: headers).length = 0 := by
        unfold readyCount
        rw [Bool.or_eq_true, not_or, decide_eq_true_iff, length_cons, length_map] at hready
        rw [if_neg hready.2, length_cons]
        omega
      rw [hcount]
      rfl

theorem popHeadersReadyForAcceptance_spec {popped : List CBlockHeader} (h : Redownloading sync returned s)
    (hhanded : Handed sync returned s) (hpop : sync.popHeadersReadyForAcceptance s = (popped, s')) :
    Redownloading sync (returned ++ popped) s' ∧ Handed sync (returned ++ popped) s' := by
  obtain ⟨rest, hrest⟩ := hhanded.taken
  have hconnected := hhanded.connected
  rw [← hrest, connected_append] at hconnected
  have hdrop : s.redownloaded.drop returned.length = rest := by
    rw [← hrest, drop_left]
  unfold popHeadersReadyForAcceptance at hpop
  rw [if_neg (not_not.mpr h.state), h.buffer, h.firstPrevHash, hdrop, popHeaders_spec hconnected.2] at hpop
  cases hpop
  constructor
  · refine ⟨h.state, ?_, ?_, h.lastHash, h.lastHeight, h.work, h.flag, h.commitments⟩
    · simp only
      rw [length_append, ← drop_drop, hdrop, length_take, readyCount]
      congr 1
      split
      · rw [Nat.min_self]
      · rw [Nat.min_eq_left (Nat.sub_le _ _)]
    · simp only
      rw [tipHash_append]
  · refine ⟨hhanded.connected, ?_, ?_, hhanded.committed⟩
    · simp only
      rw [← hrest, prefix_append_right_inj]
      exact take_prefix _ _
    · intro i hi
      simp only
      rw [length_append, length_take] at hi
      cases hflag : s.processAllRemainingHeaders with
      | true => exact .inr (h.flag.mp hflag)
      | false =>
        rcases Nat.lt_or_ge i returned.length with hlt | hge
        · exact hhanded.behind i hlt
        · unfold readyCount at hi
          rw [hflag, if_neg Bool.false_ne_true] at hi
          rw [← hrest, length_append]
          exact .inl (by omega)

/-! ## Batches -/

inductive Phase (sync : HeadersSync) (returned : List CBlockHeader) (s : HeadersSyncState) : Prop
  | presync (h : Presyncing sync s)
  | redownload (h : Redownloading sync returned s)
  | final (h : s.downloadState = .final)

theorem processPresync_spec (h : Presyncing sync s) (hok : sync.processPresync s headers full = .ok (ret, s')) :
    ret.powValidatedHeaders = [] ∧ Handed sync [] s' ∧ (ret.success = true → Phase sync [] s') := by
  unfold processPresync at hok
  rw [bind_ok] at hok
  obtain ⟨⟨_, _⟩, hstore, hok⟩ := hok
  cases hok
  refine ⟨rfl, ?_⟩
  unfold validateAndStoreHeadersCommitments at hstore
  cases headers with
  | nil =>
    cases hstore
    exact ⟨handed_of_nothing h.nothing, fun _ => .presync h⟩
  | cons first headers =>
    simp only at hstore
    split at hstore
    · cases hstore
      exact ⟨handed_of_nothing h.nothing, by simp⟩
    split at hstore
    · cases hstore
      exact ⟨handed_of_nothing h.nothing, by simp⟩
    rw [bind_ok] at hstore
    obtain ⟨⟨abort', _⟩, hloop, hstore⟩ := hstore
    obtain ⟨hnext, hstop⟩ := forHeaders_ok (Q := fun s => s.redownloaded = [])
      (fun s header s' hs => presyncing_next hs)
      (fun s header e s' hs hstep => by
        obtain ⟨hn, -⟩ | ⟨-, hlists, -⟩ := validateAndProcessSingleHeader_cases hstep
        · cases hn
        · rw [hlists, hs.nothing]) hloop h
    cases abort' with
    | some e =>
      cases hstore
      exact ⟨handed_of_nothing (hstop (by simp)), by simp⟩
    | none =>
      have ht' := hnext rfl
      cases hstore
      split
      · obtain ⟨hredownloading, hhanded⟩ := startRedownload_spec ht'
        exact ⟨hhanded, fun _ => .redownload hredownloading⟩
      · exact ⟨handed_of_nothing ht'.nothing, fun _ => .presync ht'⟩

theorem processRedownload_spec (h : Redownloading sync returned s)
    (hhanded : Handed sync returned s) (hok : sync.processRedownload s headers full = .ok (ret, s')) :
    Handed sync (returned ++ ret.powValidatedHeaders) s' ∧
      (ret.success = true → Phase sync (returned ++ ret.powValidatedHeaders) s') := by
  unfold processRedownload at hok
  rw [bind_ok] at hok
  obtain ⟨⟨abort, t⟩, hloop, hok⟩ := hok
  obtain ⟨hnext, hstop⟩ := forHeaders_ok (P := fun s => Redownloading sync returned s ∧ Handed sync returned s)
    (Q := fun s => Handed sync returned s)
    (fun s header s' hs => redownloading_next hs.1 hs.2)
    (fun s header e s' hs hstep => by
      obtain ⟨hn, -⟩ | ⟨-, hpresynced, hredownloaded, -⟩ := validateAndStoreRedownloadedHeader_cases hstep
      · cases hn
      · exact hs.2.congr hpresynced hredownloaded) hloop ⟨h, hhanded⟩
  cases abort with
  | some e =>
    cases hok
    rw [append_nil]
    exact ⟨hstop (by simp), by simp⟩
  | none =>
    obtain ⟨ht, hthanded⟩ := hnext rfl
    cases hpop : sync.popHeadersReadyForAcceptance t with
    | mk popped t' =>
      simp only [hpop] at hok
      cases hok
      obtain ⟨ht', hhanded'⟩ := popHeadersReadyForAcceptance_spec ht hthanded hpop
      exact ⟨hhanded', fun _ => .redownload ht'⟩

theorem processInState_spec (h : Phase sync returned s)
    (hhanded : Handed sync returned s) (hactive : s.downloadState ≠ .final)
    (hok : sync.processInState s headers full = .ok (ret, s')) : Handed sync (returned ++ ret.powValidatedHeaders) s' ∧
      (ret.success = true → Phase sync (returned ++ ret.powValidatedHeaders) s') := by
  unfold processInState at hok
  rcases h with hpresync | hredownload | hfinal
  · rw [if_pos hpresync.state] at hok
    obtain rfl : returned = [] := prefix_nil.mp (hpresync.nothing ▸ hhanded.taken)
    obtain ⟨hnone, hspec⟩ := processPresync_spec hpresync hok
    rw [hnone]
    exact hspec
  · rw [if_neg (by rw [hredownload.state]; simp)] at hok
    exact processRedownload_spec hredownload hhanded hok
  · exact absurd hfinal hactive

theorem processNextHeaders_spec (h : Phase sync returned s)
    (hhanded : Handed sync returned s) (hok : sync.processNextHeaders s headers full = .ok (ret, s')) :
    Handed sync (returned ++ ret.powValidatedHeaders) s' ∧ Phase sync (returned ++ ret.powValidatedHeaders) s' := by
  unfold processNextHeaders at hok
  split at hok
  · cases hok
    rw [append_nil]
    exact ⟨hhanded, h⟩
  next hactive =>
  rw [Bool.or_eq_true, not_or, beq_iff_eq] at hactive
  rw [bind_ok] at hok
  obtain ⟨⟨_, _⟩, hstate, hok⟩ := hok
  obtain ⟨hhanded', hphase'⟩ := processInState_spec h hhanded hactive.2 hstate
  cases hok
  split
  · next hmore => exact ⟨hhanded', hphase' (Bool.and_eq_true_iff.mp hmore).1⟩
  · exact ⟨hhanded'.congr rfl rfl, .final rfl⟩

theorem initial_presyncing : Presyncing sync sync.initial := ⟨rfl, rfl, rfl, rfl, rfl⟩

def handedOut (results : List ProcessingResult) : List CBlockHeader :=
  results.flatMap ProcessingResult.powValidatedHeaders

theorem run_handed {batches : List (List CBlockHeader × Bool)} {results : List ProcessingResult}
    (h : Phase sync returned s) (hhanded : Handed sync returned s)
    (hrun : sync.run s batches = .ok (results, s')) : Handed sync (returned ++ handedOut results) s' := by
  induction batches generalizing returned s results with
  | nil =>
    cases hrun
    rw [handedOut, flatMap_nil, append_nil]
    exact hhanded
  | cons batch batches ih =>
    obtain ⟨_, _⟩ := batch
    unfold run at hrun
    rw [bind_ok] at hrun
    obtain ⟨⟨_, _⟩, hstep, hrun⟩ := hrun
    rw [bind_ok] at hrun
    obtain ⟨⟨_, _⟩, hlater, hrun⟩ := hrun
    cases hrun
    obtain ⟨hhanded', hphase'⟩ := processNextHeaders_spec h hhanded hstep
    have := ih hphase' hhanded' hlater
    rwa [append_assoc] at this

/-- Two blocks of the lowest work. A hash is a nonce. -/
def smallSync : HeadersSync where
  consensusParams := mainParams 1
  getHash header := header.nNonce.setWidth 256
  hasher hash := hash.setWidth 64
  commitOffset := 1
  chainStart := .mk ⟨1, 0, 0, 1, 0, 0, mainGenesisBits, 1⟩ .null .null
  minimumRequiredWork := 200000
  maxCommitments := 1

def smallHeaders : List CBlockHeader := [⟨1, 1, 0, 30, mainGenesisBits, 2⟩, ⟨1, 2, 0, 60, mainGenesisBits, 3⟩]

def smallFinal : HeadersSyncState :=
  finalize { smallSync.initial with
    currentChainWork := 262144
    redownloadChainWork := 262144
    redownloadBufferLastHeight := 2
    presynced := smallHeaders
    redownloaded := smallHeaders }

/-- Validation gets a chain from the start, each header once enough stand on it or the work was reached. -/
theorem handedOut_checked {batches : List (List CBlockHeader × Bool)} {results : List ProcessingResult}
    (hrun : sync.run sync.initial batches = .ok (results, s)) :
    sync.Connected sync.chainStart.getBlockHash (handedOut results) ∧
      handedOut results <+: s.redownloaded ∧ (∀ i, i < (handedOut results).length →
        i + 1 + REDOWNLOAD_BUFFER_SIZE ≤ s.redownloaded.length ∨ sync.Reached s.redownloaded) ∧
      sync.Matches s.presynced s.redownloaded := by
  obtain ⟨hconnected, htaken, hbehind, hcommitted⟩ :=
    run_handed (.presync initial_presyncing) (handed_of_nothing rfl) hrun
  rw [nil_append] at htaken hbehind
  refine ⟨?_, htaken, hbehind, hcommitted⟩
  obtain ⟨_, hrest⟩ := htaken
  rw [← hrest, connected_append] at hconnected
  exact hconnected.1

theorem smallSync_handedOut : ∃ results,
    smallSync.run smallSync.initial [(smallHeaders, true), (smallHeaders, true)] = .ok (results, smallFinal) ∧
      handedOut results = smallHeaders ∧ smallSync.Connected 1 (handedOut results) ∧
      smallSync.Matches smallFinal.presynced smallFinal.redownloaded := by
  have hrun : smallSync.run smallSync.initial [(smallHeaders, true), (smallHeaders, true)] =
      .ok ([⟨[], none, true, true⟩, ⟨smallHeaders, none, true, false⟩], smallFinal) := by decide
  obtain ⟨hconnected, -, -, hmatches⟩ := handedOut_checked hrun
  exact ⟨_, hrun, rfl, hconnected, hmatches⟩

variable {headers : List CBlockHeader}

/-! ## What a peer can make us keep -/

/-- No more commitments than allowed, nor headers than fit. -/
structure Bounded (sync : HeadersSync) (s : HeadersSyncState) : Prop where
  commitments : s.headerCommitments.length ≤ sync.maxCommitments
  buffer : s.redownloadedHeaders.length ≤ REDOWNLOAD_BUFFER_SIZE

theorem validateAndProcessSingleHeader_commitments (h : s.headerCommitments.length ≤ sync.maxCommitments)
    (hstep : sync.validateAndProcessSingleHeader s header = .ok (none, s')) :
    s'.headerCommitments.length ≤ sync.maxCommitments ∧ s'.redownloadedHeaders = s.redownloadedHeaders := by
  unfold validateAndProcessSingleHeader at hstep
  split at hstep
  · cases hstep
  obtain ⟨_, -, hstep⟩ := bind_ok.mp hstep
  dsimp only at hstep
  split at hstep
  · cases hstep
  split at hstep
  · cases hstep
  next hmany =>
  obtain ⟨_, -, hstep⟩ := bind_ok.mp hstep
  cases hstep
  unfold addCommitment at hmany ⊢
  grind

theorem popHeaders_length (flag : Bool) (buffer : List CompressedHeader) (prev : Uint256) :
    (sync.popHeaders flag buffer prev).2.1.length ≤ REDOWNLOAD_BUFFER_SIZE := by
  fun_induction popHeaders sync flag buffer prev with
  | case1 => exact Nat.zero_le _
  | case2 _ _ _ _ _ _ _ _ hpop ih => rwa [hpop] at ih
  | case3 => grind

theorem checkCommitment_commitments : (sync.checkCommitment s header).2.headerCommitments.length ≤
    s.headerCommitments.length := by
  unfold checkCommitment
  split
  · exact le_rfl
  · next hqueue => simp [hqueue]

theorem validateAndStoreRedownloadedHeader_commitments
    (hstep : sync.validateAndStoreRedownloadedHeader s header = .ok (none, s')) :
    s'.headerCommitments.length ≤ s.headerCommitments.length := by
  unfold validateAndStoreRedownloadedHeader at hstep
  split at hstep
  · cases hstep
  split at hstep
  · cases hstep
  obtain ⟨_, -, hstep⟩ := bind_ok.mp hstep
  dsimp only at hstep
  split at hstep
  · cases hstep
  obtain ⟨_, -, hstep⟩ := bind_ok.mp hstep
  split at hstep
  · cases hstep
  cases hstep
  dsimp only
  split
  · exact checkCommitment_commitments
  · exact le_rfl

theorem processPresync_bounded (h : Bounded sync s) (hok : sync.processPresync s headers full = .ok (ret, s'))
    (hsuccess : ret.success = true) : Bounded sync s' := by
  unfold processPresync at hok
  obtain ⟨⟨abort, t⟩, hstore, hok⟩ := bind_ok.mp hok
  cases hok
  obtain rfl : abort = none := by simpa using hsuccess
  unfold validateAndStoreHeadersCommitments at hstore
  cases headers with
  | nil =>
    cases hstore
    exact h
  | cons first headers =>
    dsimp only at hstore
    split at hstore
    · cases hstore
    split at hstore
    · cases hstore
    obtain ⟨⟨abort', t'⟩, hloop, hstore⟩ := bind_ok.mp hstore
    obtain ⟨hnext, -⟩ := forHeaders_ok
        (P := fun t => t.headerCommitments.length ≤ sync.maxCommitments ∧ t.redownloadedHeaders = s.redownloadedHeaders)
      (Q := fun _ => True) (fun t header t' ht hstep => by
        obtain ⟨hcommitments, hbuffer⟩ := validateAndProcessSingleHeader_commitments ht.1 hstep
        exact ⟨hcommitments, hbuffer.trans ht.2⟩) (fun _ _ _ _ _ _ => trivial) hloop ⟨h.commitments, rfl⟩
    cases abort' with
    | some e => cases hstore
    | none =>
      obtain ⟨hcommitments, hbuffer⟩ := hnext rfl
      cases hstore
      split
      · exact ⟨hcommitments, Nat.zero_le _⟩
      · exact ⟨hcommitments, hbuffer ▸ h.buffer⟩

theorem processRedownload_bounded (h : Bounded sync s) (hstate : s.downloadState = .redownload)
    (hok : sync.processRedownload s headers full = .ok (ret, s')) (hsuccess : ret.success = true) :
    Bounded sync s' := by
  unfold processRedownload at hok
  obtain ⟨⟨abort, t⟩, hloop, hok⟩ := bind_ok.mp hok
  obtain ⟨hnext, -⟩ := forHeaders_ok
      (P := fun t => t.headerCommitments.length ≤ sync.maxCommitments ∧ t.downloadState = .redownload)
    (Q := fun _ => True) (fun t header t' ht hstep => by
      refine ⟨(validateAndStoreRedownloadedHeader_commitments hstep).trans ht.1, ?_⟩
      obtain ⟨-, -, _, -, rfl⟩ | ⟨hne, -⟩ := validateAndStoreRedownloadedHeader_cases hstep
      · exact ht.2
      · exact absurd rfl hne) (fun _ _ _ _ _ _ => trivial) hloop ⟨h.commitments, hstate⟩
  cases abort with
  | some e =>
    cases hok
    cases hsuccess
  | none =>
    obtain ⟨hcommitments, hredownload⟩ := hnext rfl
    unfold popHeadersReadyForAcceptance at hok
    dsimp only at hok
    rw [if_neg (not_not.mpr hredownload)] at hok
    cases hok
    exact ⟨hcommitments, popHeaders_length ..⟩

theorem processNextHeaders_bounded (h : Bounded sync s)
    (hok : sync.processNextHeaders s headers full = .ok (ret, s')) : Bounded sync s' := by
  unfold processNextHeaders at hok
  split at hok
  · cases hok
    exact h
  next hactive =>
  rw [Bool.or_eq_true, not_or, beq_iff_eq] at hactive
  obtain ⟨⟨_, _⟩, hstate, hok⟩ := bind_ok.mp hok
  cases hok
  split
  · next hmore =>
    have hsuccess := (Bool.and_eq_true_iff.mp hmore).1
    unfold processInState at hstate
    split at hstate
    · exact processPresync_bounded h hstate hsuccess
    · next hnot =>
      have hredownload : s.downloadState = .redownload := by
        cases hs : s.downloadState <;> simp_all
      exact processRedownload_bounded h hredownload hstate hsuccess
  · exact ⟨Nat.zero_le _, Nat.zero_le _⟩

/-- However many headers a peer sends, no more is kept for it. -/
theorem run_bounded {batches : List (List CBlockHeader × Bool)} {results : List ProcessingResult}
    (hrun : sync.run sync.initial batches = .ok (results, s)) : Bounded sync s := by
  have hstart : Bounded sync sync.initial := ⟨Nat.zero_le _, Nat.zero_le _⟩
  generalize sync.initial = t at hrun hstart
  induction batches generalizing t results with
  | nil =>
    cases hrun
    exact hstart
  | cons batch batches ih =>
    obtain ⟨⟨_, u⟩, hstep, hrun⟩ := bind_ok.mp hrun
    obtain ⟨⟨_, _⟩, hlater, hrun⟩ := bind_ok.mp hrun
    cases hrun
    exact ih u hlater (processNextHeaders_bounded hstart hstep)

/-- After the first batch a commitment waits for the second download. -/
theorem smallSync_bounded : ∃ results s, smallSync.run smallSync.initial [(smallHeaders, true)] = .ok (results, s) ∧
    s.downloadState = .redownload ∧ s.headerCommitments.length = 1 ∧ Bounded smallSync s := by
  have hrun : ∃ results s, smallSync.run smallSync.initial [(smallHeaders, true)] = .ok (results, s) ∧
      s.downloadState = .redownload ∧ s.headerCommitments.length = 1 := ⟨_, _, rfl, rfl, rfl⟩
  obtain ⟨results, s, hrun, hstate, hcommitments⟩ := hrun
  exact ⟨results, s, hrun, hstate, hcommitments, run_bounded hrun⟩

end FullNode.HeadersSync

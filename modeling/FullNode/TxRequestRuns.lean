import FullNode.TxRequestSteps

/-! # Every run of the tracker is sane -/

open FullNode.OrderedIndex List

namespace FullNode.TxRequest.Tracker

open MultiIndex Announcement

variable {comp : PriorityComputer} {s s' : Tracker comp} {it ann a : Announcement}

/-! ## Announcing and forgetting -/

theorem forgetTxHash_spec (h : Sane s) (txhash : Uint256) : ∃ s', s.forgetTxHash txhash = .ok s' ∧ Sane s' := by
  have hordered := s.index.bySecond_ordered
  have hmem : ∀ a, a ∈ s.byTxHash.dropWhile (byTxHashView comp · < byTxHashKey txhash .candidateDelayed 0) ↔
      a ∈ s.byTxHash ∧ byTxHashKey txhash .candidateDelayed 0 ≤ byTxHashView comp a :=
    fun a => mem_dropWhile hordered
  -- The run starts at the first announcement that is not below the hash.
  have hrun : ∀ a, a ∈ runOf txhash (s.byTxHash.dropWhile fun ann =>
      byTxHashView comp ann < byTxHashKey txhash .candidateDelayed 0) ↔ a ∈ s.group txhash := by
    intro a
    refine (mem_runOf (hordered.sublist (dropWhile_sublist _)) ?_).trans ?_
    · intro b hb a _ hhash hle
      have hlow := ((hmem b).mp hb).2
      unfold byTxHashView at hlow hle
      rw [byTxHashKey_le] at hlow hle
      rw [hhash] at hle
      rcases hlow with hlow | ⟨hlow, -⟩
      · rcases hle with hle | ⟨hle, -⟩
        · exact absurd (lt_trans hlow hle) (lt_irrefl _)
        · exact hle
      · exact hlow.symm
    · refine and_congr_left fun hhash => (hmem a).trans ⟨fun ha => mem_bySecond.mp ha.1, fun ha => ?_⟩
      refine ⟨mem_bySecond.mpr ha, ?_⟩
      unfold byTxHashView
      rw [byTxHashKey_le]
      refine .inr ⟨hhash.symm, ?_⟩
      rcases Nat.eq_zero_or_pos a.state.rank with hzero | hpos
      · exact .inr ⟨hzero.symm, Nat.zero_le _⟩
      · exact .inl hpos
  have hnodup := s.index.bySecond_nodup.sublist ((takeWhile_sublist fun ann => ann.txhash = txhash).trans
    (dropWhile_sublist fun ann => byTxHashView comp ann < byTxHashKey txhash .candidateDelayed 0))
  obtain ⟨s', heq, hsane, -⟩ := eraseGroup_spec h hnodup hrun
  exact ⟨s', heq, hsane⟩

theorem shown_getD (peer : Int) (l : List Announcement) : (shown (infoOf peer l)).getD ⟨0, 0, 0⟩ = infoOf peer l := by
  unfold shown
  split
  · next hzero =>
    have hnone : ∀ ann ∈ l, ann.peer ≠ peer := by
      intro ann hann heq
      have := countP_eq_zero.mp hzero ann hann
      simp [heq] at this
    have hcompleted : (infoOf peer l).completed = 0 := countP_eq_zero.mpr fun ann hann => by
      simp [hnone ann hann]
    have hrequested : (infoOf peer l).requested = 0 := countP_eq_zero.mpr fun ann hann => by
      simp [hnone ann hann]
    have heta : infoOf peer l = ⟨(infoOf peer l).total, (infoOf peer l).completed, (infoOf peer l).requested⟩ := rfl
    rw [heta, hzero, hcompleted, hrequested]
    rfl
  · rfl

theorem receivedInv_sane (h : Sane s) (peer : Int) (gtxid : GenTxid) (preferred : Bool) (reqtime : Int) :
    Sane (s.receivedInv peer gtxid preferred reqtime) := by
  unfold receivedInv
  split
  · exact h
  next hbest =>
  split
  · exact h
  next index hemplace =>
  rw [Option.isSome_iff_ne_none, not_not] at hbest
  generalize hann : (⟨gtxid.hash, reqtime, peer, s.currentSequence.setWidth 59, preferred, gtxid.isWtxid,
    .candidateDelayed⟩ : Announcement) = ann at hemplace
  have hstate : ann.state = .candidateDelayed := by rw [← hann]
  have hpeer : ann.peer = peer := by rw [← hann]
  have hhash : ann.txhash = gtxid.hash := by rw [← hann]
  obtain ⟨hperm, hall, hfree⟩ := emplace_some hemplace
  -- Neither of the two keys of the peer and hash was there.
  have hnew : ∀ a ∈ s.index, a.peer = ann.peer → a.txhash ≠ ann.txhash := by
    intro a ha hp hh
    cases hb : a.state == .candidateBest with
    | true =>
      refine find_none hbest ha ?_
      unfold byPeerView
      rw [hb, hp, hh, hpeer, hhash]
    | false =>
      refine hfree a ha ?_
      unfold byPeerView
      rw [hb, hp, hh, hstate]
      rfl
  have hother : Elsewhere ann.txhash s ⟨s.currentSequence + 1, index, s.peerinfo.insert peer
      { (s.peerinfo.lookup peer).getD ⟨0, 0, 0⟩ with
        total := ((s.peerinfo.lookup peer).getD ⟨0, 0, 0⟩).total + 1 }⟩ := by
    intro a ha
    refine (hall a).trans ⟨fun hmem => hmem.resolve_left ?_, .inr⟩
    rintro rfl
    exact ha rfl
  refine h.of_elsewhere ⟨fun p => ?_, ?_⟩ hother ?_
  · change _ = shown (infoOf p index.byFirst)
    rw [infoOf_perm hperm, infoOf_cons, h.counted]
    by_cases hp : p = peer
    · rw [hp, AList.lookup_insert, if_pos hpeer, shown_getD]
      simp [countAnnouncement, shown, isCompleted, isRequested, hstate, byPeer]
    · rw [AList.lookup_insert_ne hp, if_neg (by rw [hpeer]; exact Ne.symm hp), h.counted]
      rfl
  · change ∀ a ∈ index, ∀ b ∈ index, _
    intro a ha b hb hp hh
    rcases (hall a).mp ha with rfl | ha
    · rcases (hall b).mp hb with rfl | hb
      · rfl
      · exact absurd hh.symm (hnew b hb hp.symm)
    · rcases (hall b).mp hb with rfl | hb
      · exact absurd hh (hnew a ha hp)
      · exact h.unique a ha b hb hp hh
  · refine (h.groups ann.txhash).add hstate fun a => ⟨?_, ?_⟩
    · rintro ⟨ha, hh⟩
      exact ((hall a).mp ha).imp id fun ha => ⟨ha, hh⟩
    · rintro (rfl | ⟨ha, hh⟩)
      · exact ⟨(hall a).mpr (.inl rfl), rfl⟩
      · exact ⟨(hall a).mpr (.inr ha), hh⟩

/-! ## Requests and responses -/

variable {txhash : Uint256} {p : Announcement → Bool} {states : State → Prop} {l : List Announcement}
  {info : TxHashInfo}

theorem selected_ge (ha : a ∈ s.group txhash) (hsel : a.isSelected = true) :
    byTxHashKey txhash .candidateBest 0 ≤ byTxHashView comp a := by
  unfold byTxHashView
  rw [byTxHashKey_le]
  refine .inr ⟨ha.2.symm, ?_⟩
  rcases isSelected_iff.mp hsel with hstate | hstate
  · rw [hstate]
    exact .inr ⟨rfl, Nat.zero_le _⟩
  · rw [hstate]
    exact .inl (by decide)

theorem selected_first (h : Sane s) (ha : a ∈ s.group txhash) (hsel : a.isSelected = true) :
    lowerBound (byTxHashView comp) (byTxHashKey txhash .candidateBest 0) s.byTxHash = some a := by
  obtain ⟨old, hold, hle⟩ := lowerBound_le s.index.bySecond_ordered (mem_bySecond.mpr ha.1)
    (selected_ge ha hsel)
  obtain ⟨hmem, hge⟩ := lowerBound_some hold
  have hhash : old.txhash = txhash ∧ 2 ≤ old.state.rank := by
    unfold byTxHashView at hge hle
    rw [byTxHashKey_le] at hge hle
    rw [ha.2] at hle
    rcases hge with hge | ⟨hge, hrank⟩
    · rcases hle with hle | ⟨hle, -⟩
      · exact absurd (lt_trans hge hle) (lt_irrefl _)
      · rw [hle] at hge
        exact absurd hge (lt_irrefl _)
    · refine ⟨hge.symm, ?_⟩
      rcases hrank with hrank | ⟨hrank, -⟩
      · exact le_of_lt hrank
      · exact le_of_eq hrank
  have hrank := rank_le hle (hhash.1.trans ha.2.symm)
  have hhigh := (rank_of_selected hsel).2
  have holdsel : old.isSelected = true := by
    rw [isSelected_iff]
    cases hstate : old.state <;> simp_all [State.rank]
    omega
  rw [← (h.groups txhash).only ha hsel old ⟨mem_bySecond.mp hmem, hhash.1⟩ holdsel]
  exact hold

theorem unselect_spec (h : Sane s) (txhash : Uint256) : ∃ s', s.unselect txhash = .ok s' ∧ Kept s' ∧
    Elsewhere txhash s s' ∧
    (∀ a ∈ s'.group txhash, a.isSelected = false) ∧ ∀ a ∈ s.index, a.isSelected = false → a ∈ s'.index := by
  -- Demoting the selected announcement leaves none.
  have hdemote : ∀ old ∈ s.group txhash, old.isSelected = true → ∀ state, (old.setState state).isSelected = false →
      ∃ s', s.setState old state = .ok s' ∧ Kept s' ∧ Elsewhere txhash s s' ∧
        (∀ a ∈ s'.group txhash, a.isSelected = false) ∧ ∀ a ∈ s.index, a.isSelected = false → a ∈ s'.index := by
    intro old hold hsel state hnot
    obtain ⟨s', heq, hkept, hch⟩ := h.setState_spec hold.1 state
    refine ⟨s', heq, hkept, elsewhere_of_changed hch hold.2 hold.2, fun a ha => ?_, fun a ha hasel => ?_⟩
    · rcases (changed_group hch hold.2 a).mp ha with rfl | ⟨hne, ha⟩
      · exact hnot
      · rw [← Bool.not_eq_true]
        exact fun hasel => hne ((h.groups txhash).only hold hsel a ha hasel)
    · refine (hch a).mpr (.inr ⟨?_, ha⟩)
      rintro rfl
      rw [hsel] at hasel
      cases hasel
  by_cases hsome : ∃ a ∈ s.group txhash, a.isSelected = true
  · obtain ⟨old, hold, hsel⟩ := hsome
    unfold unselect
    rw [selected_first h hold hsel]
    simp only
    rw [if_neg (not_not.mpr hold.2)]
    rcases isSelected_iff.mp hsel with hstate | hstate
    · rw [if_pos hstate]
      exact hdemote old hold hsel .candidateReady rfl
    · rw [if_neg (by simp [hstate]), if_pos hstate]
      exact hdemote old hold hsel .completed rfl
  · have hnone : ∀ a ∈ s.group txhash, a.isSelected = false := by
      intro a ha
      rw [← Bool.not_eq_true]
      exact fun hsel => hsome ⟨a, ha, hsel⟩
    refine ⟨s, ?_, h.toKept, fun _ _ => Iff.rfl, hnone, fun a ha _ => ha⟩
    unfold unselect
    split
    · rfl
    next old hold =>
    obtain ⟨hmem, -⟩ := lowerBound_some hold
    split
    · rfl
    next hhash =>
    have hfalse := hnone old ⟨mem_bySecond.mp hmem, not_not.mp hhash⟩
    rw [← Bool.not_eq_true, isSelected_iff, not_or] at hfalse
    rw [if_neg hfalse.1, if_neg hfalse.2]

theorem request_spec {s1 : Tracker comp} (h : Sane s) (hkept : Kept s1) (hit : it ∈ s1.index)
    (hother : Elsewhere it.txhash s s1) (honly : ∀ a ∈ s1.group it.txhash, a.isSelected = true → a = it)
    (expiry : Int) :
    ∃ s', s1.modify it { it with state := .requested, time := expiry } = .ok s' ∧ Sane s' := by
  have hpeer : ({ it with state := .requested, time := expiry } : Announcement).peer = it.peer := rfl
  obtain ⟨s', heq, hkept', hch⟩ := hkept.modify_spec hit hpeer rfl
  refine ⟨s', heq, h.of_elsewhere hkept' (hother.trans (elsewhere_of_changed hch rfl rfl)) ?_⟩
  exact .request honly rfl (changed_group hch rfl)

theorem requestedTx_spec (h : Sane s) (peer : Int) (txhash : Uint256) (expiry : Int) :
    ∃ s', s.requestedTx peer txhash expiry = .ok s' ∧ Sane s' := by
  unfold requestedTx
  split
  · next it hfind =>
    obtain ⟨hit, hkey⟩ := find_some hfind
    obtain ⟨-, hbest, -⟩ := byPeerKey_inj.mp hkey
    have hsel := isSelected_iff.mpr (.inl (beq_iff_eq.mp hbest))
    exact request_spec h h.toKept hit (fun _ _ => Iff.rfl) ((h.groups it.txhash).only ⟨hit, rfl⟩ hsel) expiry
  split
  · exact ⟨s, rfl, h⟩
  next it hfind =>
  obtain ⟨hit, hkey⟩ := find_some hfind
  obtain ⟨-, -, rfl⟩ := byPeerKey_inj.mp hkey
  split
  · exact ⟨s, rfl, h⟩
  next hstate =>
  have hnot : it.isSelected = false := by
    rw [← Bool.not_eq_true, isSelected_iff]
    cases hs : it.state <;> simp_all
  obtain ⟨_, heq, hkept, hother, hnone, hleft⟩ := unselect_spec h it.txhash
  rw [heq, ok_bind]
  refine request_spec h hkept (hleft it hit hnot) hother (fun a ha hsel => ?_) expiry
  rw [hnone a ha] at hsel
  cases hsel

theorem receivedResponse_spec (h : Sane s) (peer : Int) (txhash : Uint256) :
    ∃ s', s.receivedResponse peer txhash = .ok s' ∧ Sane s' := by
  unfold receivedResponse
  split
  · exact ⟨s, rfl, h⟩
  next it hfind =>
  have hit : it ∈ s.index := by
    rcases Option.or_eq_some_iff.mp hfind with hfind | ⟨-, hfind⟩
    · exact (find_some hfind).1
    · exact (find_some hfind).1
  obtain ⟨_, s', heq, hdone, -, -⟩ := makeCompleted_spec h hit
  rw [heq]
  exact ⟨s', rfl, hdone.sane⟩

/-! ## Disconnecting -/

def SamePair (a b : Announcement) : Prop := b.peer = a.peer ∧ b.txhash = a.txhash

/-- Fewer have a property if each stood for another before. -/
theorem filter_length_lt (hkept : Kept s') (hit : it ∈ s.index) (hp : p it = true)
    (h : ∀ a ∈ s'.index, p a = true → ∃ b ∈ s.index, p b = true ∧ b ≠ it ∧ SamePair a b) :
    (s'.byPeer.filter p).length < (s.byPeer.filter p).length := by
  let pair := fun a : Announcement => (a.peer, a.txhash)
  have hnodup : ((s'.byPeer.filter p).map pair).Nodup := by
    refine (s'.index.byFirst_nodup.sublist filter_sublist).map_on fun a ha b hb heq => ?_
    obtain ⟨hpeer, hhash⟩ := Prod.mk.inj heq
    exact hkept.unique a (mem_of_mem_filter ha) b (mem_of_mem_filter hb) hpeer hhash
  have hmem : it ∈ s.byPeer.filter p := mem_filter.mpr ⟨hit, hp⟩
  have hsub : ((s'.byPeer.filter p).map pair) ⊆ ((s.byPeer.filter p).erase it).map pair := by
    intro q hq
    obtain ⟨a, ha, rfl⟩ := mem_map.mp hq
    obtain ⟨ha, hpa⟩ := mem_filter.mp ha
    obtain ⟨b, hb, hpb, hne, hpeer, hhash⟩ := h a ha hpa
    refine mem_map.mpr ⟨b, ?_, by simp only [pair, hpeer, hhash]⟩
    exact (mem_erase_of_ne hne).mpr (mem_filter.mpr ⟨hb, hpb⟩)
  have hle := (subperm_of_subset hnodup hsub).length_le
  rw [length_map, length_map, length_erase_of_mem hmem] at hle
  have := length_pos_of_mem hmem
  omega

theorem removed_spec (h : Sane s) (hit : it ∈ s.index) :
    ∃ left s1 s', s.makeCompleted it = .ok (left, s1) ∧ eraseAll left.toList s1 = .ok s' ∧ Sane s' ∧
      Elsewhere it.txhash s s' ∧ ∀ a ∈ s'.index, ∃ b ∈ s.index, b ≠ it ∧ SamePair a b := by
  obtain ⟨left, s1, heq, ⟨hsane, hother, horigin⟩, hleft, hnone⟩ := makeCompleted_spec h hit
  have hpair : ∀ a ∈ s1.index, a ≠ it.setState .completed → ∃ b ∈ s.index, b ≠ it ∧ SamePair a b := by
    intro a ha hnew
    obtain ⟨ha, hne⟩ | ⟨state, rfl, rfl⟩ | ⟨y, state, hy, hne, -, -, rfl⟩ := horigin a ha
    · exact ⟨a, ha, hne, rfl, rfl⟩
    · exact absurd rfl hnew
    · exact ⟨y, hy, hne, rfl, rfl⟩
  cases left with
  | none =>
    refine ⟨none, s1, s1, heq, rfl, hsane, hother, fun a ha => hpair a ha ?_⟩
    rintro rfl
    exact hnone rfl ha
  | some ann =>
    obtain ⟨hann, rfl⟩ := hleft ann rfl
    obtain ⟨s', herase, hkept, hall⟩ := hsane.erase_spec hann
    have hgroup : ∀ a, a ∈ s'.group it.txhash ↔ a ≠ it.setState .completed ∧ a ∈ s1.group it.txhash :=
      fun a => ⟨fun ha => ⟨((hall a).mp ha.1).1, ((hall a).mp ha.1).2, ha.2⟩,
        fun ha => ⟨(hall a).mpr ⟨ha.1, ha.2.1⟩, ha.2.2⟩⟩
    have helsewhere : Elsewhere it.txhash s1 s' := by
      intro a ha
      refine (hall a).trans (and_iff_right ?_)
      rintro rfl
      exact ha rfl
    refine ⟨_, s1, s', heq, ?_, hsane.of_elsewhere hkept helsewhere ?_, hother.trans helsewhere, fun a ha => ?_⟩
    · rw [Option.toList_some, eraseAll, herase]
      rfl
    · exact (hsane.groups it.txhash).drop rfl hgroup
    · exact hpair a ((hall a).mp ha).2 ((hall a).mp ha).1

theorem disconnectLoop_spec {peer : Int} (rounds : Nat) (h : Sane s) (hrounds : s.byPeer.length ≤ rounds)
    {itNext : Option Announcement} (hnext : ∀ it ∈ itNext, it ∈ s.index) :
    ∃ s', disconnectLoop peer rounds itNext s = .ok s' ∧ Sane s' := by
  induction rounds generalizing s itNext with
  | zero =>
    cases itNext with
    | none => exact ⟨s, rfl, h⟩
    | some it =>
      have := length_pos_of_mem (hnext it rfl)
      unfold byPeer at hrounds
      omega
  | succ rounds ih =>
    cases itNext with
    | none => exact ⟨s, rfl, h⟩
    | some it =>
      have hit := hnext it rfl
      unfold disconnectLoop
      split
      · exact ⟨s, rfl, h⟩
      next hpeer =>
      obtain ⟨_, _, s', heq, herase, hsane, hother, hpair⟩ := removed_spec h hit
      simp only [heq, ok_bind, herase]
      refine ih hsane ?_ ?_
      · have hlt : (s'.byPeer.filter fun _ => true).length < (s.byPeer.filter fun _ => true).length :=
          filter_length_lt hsane.toKept hit rfl fun a ha _ => by
            obtain ⟨b, hb, hne, hsame⟩ := hpair a ha
            exact ⟨b, hb, rfl, hne, hsame⟩
        rw [filter_true, filter_true] at hlt
        omega
      · -- The next one is of the same peer, so of another hash.
        intro n hn
        obtain ⟨hn, hnpeer⟩ := Option.filter_eq_some_iff.mp hn
        obtain ⟨hmem, hne, -⟩ := next_some s.index.byFirst_ordered s.index.byFirst_nodup hit hn
        refine (hother n fun hhash => hne (h.unique n hmem it hit ?_ hhash)).mpr hmem
        rw [of_decide_eq_true hnpeer, not_not.mp hpeer]

theorem disconnectedPeer_spec (h : Sane s) (peer : Int) : ∃ s', s.disconnectedPeer peer = .ok s' ∧ Sane s' :=
  disconnectLoop_spec _ h le_rfl fun _ hit => (lowerBound_some hit).1

/-! ## Time -/

theorem byTimeView_le : byTimeView a ≤ byTimeView ann ↔ (getWaitState a).rank < (getWaitState ann).rank ∨
    (getWaitState a).rank = (getWaitState ann).rank ∧ a.time ≤ ann.time := by
  unfold byTimeView
  simp only [Prod.Lex.le_iff, ofLex_toLex]

theorem waiting_iff_rank : a.isWaiting = true ↔ (getWaitState a).rank = 0 := by
  unfold getWaitState
  split
  · next hw => simp [hw, WaitState.rank]
  · next hw => split <;> simp [hw, WaitState.rank]

theorem selectable_iff_rank : a.isSelectable = true ↔ (getWaitState a).rank = 2 := by
  unfold getWaitState isWaiting isSelectable
  cases a.state <;> simp [WaitState.rank]

theorem not_waiting_of_selectable (h : a.isSelectable = true) : a.isWaiting ≠ true := by
  rw [Ne, waiting_iff_rank, selectable_iff_rank.mp h]
  decide

theorem rank_le_two (a : Announcement) : (getWaitState a).rank ≤ 2 := by
  cases getWaitState a <;> decide

theorem time_of_head (hhead : s.byTime.head? = some it) (ha : a ∈ s.index) (hwaits : a.isWaiting = true) :
    it.isWaiting = true ∧ it.time ≤ a.time := by
  obtain ⟨n, hn, hle⟩ := exists_head_le s.index.byThird_ordered (mem_byThird.mpr ha)
  have heq : some it = some n := hhead.symm.trans hn
  cases heq
  rw [waiting_iff_rank] at hwaits ⊢
  rw [byTimeView_le] at hle
  omega

theorem time_of_last (hlast : s.byTime.getLast? = some it) (ha : a ∈ s.index) (hselectable : a.isSelectable = true) :
    it.isSelectable = true ∧ a.time ≤ it.time := by
  obtain ⟨n, hn, hle⟩ := exists_getLast_le s.index.byThird_ordered (mem_byThird.mpr ha)
  have heq : some it = some n := hlast.symm.trans hn
  cases heq
  rw [selectable_iff_rank] at hselectable ⊢
  rw [byTimeView_le] at hle
  have := rank_le_two it
  omega

theorem Done.waiting (h : Done it states s s') (ha : a ∈ s'.index)
    (hwaits : a.isWaiting = true) : (a ∈ s.index ∧ a ≠ it) ∨ ∃ state, states state ∧ a = it.setState state := by
  obtain ⟨ha, hne⟩ | ⟨state, hstate, rfl⟩ | ⟨_, state, -, -, -, hnew, rfl⟩ := h.origin a ha
  · exact .inl ⟨ha, hne⟩
  · exact .inr ⟨state, hstate, rfl⟩
  · exact absurd hwaits (not_waiting_of_selectable hnew)

theorem Done.waiting_lt (h : Done it states s s') (hit : it ∈ s.index)
    (hwaits : it.isWaiting = true) (hstates : ∀ state, states state → (it.setState state).isWaiting = false) :
    (s'.byPeer.filter isWaiting).length < (s.byPeer.filter isWaiting).length := by
  refine filter_length_lt h.sane.toKept hit hwaits fun a ha hw => ?_
  rcases h.waiting ha hw with ⟨ha, hne⟩ | ⟨state, hstate, rfl⟩
  · exact ⟨a, ha, hw, hne, rfl, rfl⟩
  · rw [hstates state hstate] at hw
    cases hw

theorem expireAndPromote_spec (now : Int) (rounds : Nat) (expired : List (Int × GenTxid)) (h : Sane s)
    (hrounds : (s.byPeer.filter isWaiting).length < rounds) :
    ∃ expired' s', expireAndPromote now rounds expired s = .ok (expired', s') ∧ Sane s' ∧
      ∀ a ∈ s'.index, a.isWaiting = true → now < a.time := by
  induction rounds generalizing s expired with
  | zero => omega
  | succ rounds ih =>
    unfold expireAndPromote
    split
    · next hempty =>
      refine ⟨expired, s, rfl, h, fun a ha => ?_⟩
      have : a ∈ s.byTime := mem_byThird.mpr ha
      rw [head?_eq_none_iff.mp hempty] at this
      cases this
    next it hhead =>
    have hit : it ∈ s.index := mem_byThird.mp (mem_of_head? hhead)
    split
    · next hdelayed =>
      obtain ⟨s1, heq, hdone⟩ := promoteCandidateReady_spec h hit hdelayed.1
      have hlt := hdone.waiting_lt hit (by simp [isWaiting, hdelayed.1]) (by rintro _ (rfl | rfl) <;> rfl)
      rw [heq, ok_bind]
      exact ih expired hdone.sane (by omega)
    split
    · next hrequested =>
      obtain ⟨_, s1, heq, hdone, -, -⟩ := makeCompleted_spec h hit
      have hlt := hdone.waiting_lt hit (by simp [isWaiting, hrequested.1]) (by rintro _ rfl; rfl)
      rw [heq, ok_bind]
      exact ih _ hdone.sane (by omega)
    next hdelayed hrequested =>
    refine ⟨expired, s, rfl, h, fun a ha hwaits => ?_⟩
    obtain ⟨hitwaits, hle⟩ := time_of_head hhead ha hwaits
    have hfuture : now < it.time := by
      by_contra hpast
      simp only [isWaiting, Bool.or_eq_true, beq_iff_eq] at hitwaits
      rcases hitwaits with hstate | hstate
      · exact hrequested ⟨hstate, not_lt.mp hpast⟩
      · exact hdelayed ⟨hstate, not_lt.mp hpast⟩
    exact lt_of_lt_of_le hfuture hle

def tooEarly (now : Int) (ann : Announcement) : Bool := ann.isSelectable && decide (ann.time > now)

theorem demote_spec (now : Int) (rounds : Nat) (h : Sane s)
    (hwaiting : ∀ a ∈ s.index, a.isWaiting = true → now < a.time)
    (hrounds : (s.byPeer.filter (tooEarly now)).length < rounds) :
    ∃ s', demote now rounds s = .ok s' ∧ Sane s' ∧ (∀ a ∈ s'.index, a.isWaiting = true → now < a.time) ∧
      ∀ a ∈ s'.index, a.isSelectable = true → a.time ≤ now := by
  induction rounds generalizing s with
  | zero => omega
  | succ rounds ih =>
    unfold demote
    split
    · next hempty =>
      refine ⟨s, rfl, h, hwaiting, fun a ha => ?_⟩
      have : a ∈ s.byTime := mem_byThird.mpr ha
      rw [getLast?_eq_none_iff.mp hempty] at this
      cases this
    next it hlast =>
    have hit : it ∈ s.index := mem_byThird.mp (mem_of_getLast? hlast)
    split
    · next hearly =>
      have hback : State.Unselected .candidateDelayed := .inl rfl
      obtain ⟨s1, heq, hdone, -⟩ := changeAndReselect_spec h hit hback (by rintro ⟨⟩)
      rw [heq, ok_bind]
      refine ih hdone.sane ?_ ?_
      · intro a ha hwaits
        rcases hdone.waiting ha hwaits with ⟨ha, -⟩ | ⟨state, rfl, rfl⟩
        · exact hwaiting a ha hwaits
        · exact hearly.2
      · have hlt : (s1.byPeer.filter (tooEarly now)).length < (s.byPeer.filter (tooEarly now)).length := by
          refine filter_length_lt hdone.sane.toKept hit (by simp [tooEarly, hearly]) fun a ha hp => ?_
          obtain ⟨ha, hne⟩ | ⟨state, rfl, rfl⟩ | ⟨y, state, hy, hne, hold, -, rfl⟩ := hdone.origin a ha
          · exact ⟨a, ha, hp, hne, rfl, rfl⟩
          · cases hp
          · refine ⟨y, hy, ?_, hne, rfl, rfl⟩
            unfold tooEarly at hp ⊢
            rw [Bool.and_eq_true] at hp ⊢
            exact ⟨hold, hp.2⟩
        omega
    · next hearly =>
      refine ⟨s, rfl, h, hwaiting, fun a ha hselectable => ?_⟩
      obtain ⟨hitselectable, hle⟩ := time_of_last hlast ha hselectable
      exact le_trans hle (not_lt.mp fun hgt => hearly ⟨hitselectable, hgt⟩)

theorem setTimePoint_spec (h : Sane s) (now : Int) : ∃ expired s', s.setTimePoint now = .ok (expired, s') ∧ Sane s' ∧
    (∀ a ∈ s'.index, a.isWaiting = true → now < a.time) ∧ ∀ a ∈ s'.index, a.isSelectable = true → a.time ≤ now := by
  -- No loop runs more rounds than there are announcements.
  have hrounds : ∀ (t : Tracker comp) (p : Announcement → Bool), (t.byPeer.filter p).length < t.byTime.length + 1 := by
    intro t p
    have hlength : t.byTime.length = t.byPeer.length := t.index.byThird_perm.length_eq
    have := length_filter_le p t.byPeer
    omega
  obtain ⟨expired, s1, heq1, hsane1, hwaiting1⟩ := expireAndPromote_spec now _ [] h (hrounds s _)
  obtain ⟨s', heq', hspec⟩ := demote_spec now _ hsane1 hwaiting1 (hrounds s1 _)
  refine ⟨expired, s', ?_, hspec⟩
  unfold setTimePoint
  simp only [heq1, ok_bind, heq']
  rfl

theorem getRequestable_spec (h : Sane s) (peer now : Int) :
    ∃ requestable expired s', s.getRequestable peer now = .ok (requestable, expired, s') ∧ Sane s' ∧
      (∀ a ∈ s'.index, a.isWaiting = true → now < a.time) ∧ ∀ a ∈ s'.index, a.isSelectable = true → a.time ≤ now := by
  obtain ⟨expired, s', heq, hspec⟩ := setTimePoint_spec h now
  unfold getRequestable
  simp only [heq, ok_bind]
  exact ⟨_, expired, s', rfl, hspec⟩

/-! ## Sanity checks -/

theorem checkAll_ok {α : Type} {f : α → Checked Unit} {l : List α} (h : ∀ a ∈ l, f a = .ok ()) :
    checkAll f l = .ok () := by
  induction l with
  | nil => rfl
  | cons a l ih =>
    rw [checkAll, h a mem_cons_self, ok_bind]
    exact ih fun b hb => h b (mem_cons_of_mem _ hb)

theorem adjacentFind_nodup {l : List Int} (h : l.Nodup) : adjacentFind l = false := by
  fun_induction adjacentFind l with
  | case1 a b l ih =>
    obtain ⟨hnot, hrest⟩ := nodup_cons.mp h
    rw [ih hrest, Bool.or_false, beq_eq_false_iff_ne]
    rintro rfl
    exact hnot mem_cons_self
  | case2 => rfl

structure Collected (comp : PriorityComputer) (l : List Announcement) (info : TxHashInfo) : Prop where
  delayed : info.candidateDelayed = l.countP (·.state = .candidateDelayed)
  ready : info.candidateReady = l.countP (·.state = .candidateReady)
  best : info.candidateBest = l.countP (·.state = .candidateBest)
  requested : info.requested = l.countP (·.state = .requested)
  priorityBest : ∀ a ∈ l, a.state = .candidateBest →
      ∃ b ∈ l, b.state = .candidateBest ∧ info.priorityCandidateBest = comp.priority b
  priorityReady : info.priorityBestCandidateReady = 0 ∨ ∃ a ∈ l, a.state = .candidateReady ∧
    info.priorityBestCandidateReady = comp.priority a
  peers : info.peers = l.map Announcement.peer

theorem Collected.snoc (h : Collected comp l info)
    (ann : Announcement) : Collected comp (l ++ [ann]) (info.add comp ann) := by
  have hcount : ∀ state : State, (l ++ [ann]).countP (·.state = state) =
      l.countP (·.state = state) + (ann.state == state).toNat := by
    intro state
    rw [countP_append, countP_singleton]
    by_cases hs : ann.state = state <;> simp [hs]
  refine ⟨?_, ?_, ?_, ?_, ?_, ?_, ?_⟩
  · rw [hcount, ← h.delayed]
    rfl
  · rw [hcount, ← h.ready]
    rfl
  · rw [hcount, ← h.best]
    rfl
  · rw [hcount, ← h.requested]
    rfl
  · intro a ha hbest
    by_cases hann : ann.state = .candidateBest
    · exact ⟨ann, by simp, hann, if_pos hann⟩
    · rcases mem_append.mp ha with ha | ha
      · obtain ⟨b, hb, hstate, hprio⟩ := h.priorityBest a ha hbest
        exact ⟨b, mem_append_left _ hb, hstate, (if_neg hann).trans hprio⟩
      · rw [mem_singleton.mp ha] at hbest
        exact absurd hbest hann
  · by_cases hann : ann.state = .candidateReady ∧ info.priorityBestCandidateReady < comp.priority ann
    · exact .inr ⟨ann, by simp, hann.1, if_pos hann⟩
    · have hkeep : (info.add comp ann).priorityBestCandidateReady = info.priorityBestCandidateReady := if_neg hann
      rw [hkeep]
      rcases h.priorityReady with hzero | ⟨a, ha, hstate, hprio⟩
      · exact .inl hzero
      · exact .inr ⟨a, mem_append_left _ ha, hstate, hprio⟩
  · rw [map_append, ← h.peers]
    rfl

theorem collected_foldl (l : List Announcement) : Collected comp l (l.foldl (TxHashInfo.add comp) .new) := by
  induction l using reverseRecOn with
  | nil => exact ⟨rfl, rfl, rfl, rfl, by simp, .inl rfl, rfl⟩
  | append_singleton l ann ih =>
    rw [foldl_append]
    exact ih.snoc ann

theorem countP_selected (l : List Announcement) :
    l.countP (·.state = .candidateBest) + l.countP (·.state = .requested) = l.countP isSelected := by
  induction l with
  | nil => rfl
  | cons a l ih =>
    rw [countP_cons, countP_cons, countP_cons, ← ih]
    cases hs : a.state <;> simp [isSelected, hs] <;> omega

theorem countP_le_one {y : Announcement} (hnodup : l.Nodup) (h : ∀ a ∈ l, p a = true → a = y) : l.countP p ≤ 1 := by
  rw [countP_eq_length_filter]
  have hsub : l.filter p ⊆ [y] := by
    intro a ha
    obtain ⟨ha, hp⟩ := mem_filter.mp ha
    exact mem_singleton.mpr (h a ha hp)
  exact (subperm_of_subset (hnodup.sublist filter_sublist) hsub).length_le

theorem Collected.check_ok (h : Collected comp l info)
    (hl : l ≠ []) (hsane : GroupSane comp {a | a ∈ l}) (hnodup : l.Nodup) (hpeers : (l.map Announcement.peer).Nodup) :
    info.check = .ok () := by
  have hadjacent : adjacentFind (info.peers.insertionSort (· ≤ ·)) = false := by
    refine adjacentFind_nodup ((perm_insertionSort _ _).nodup_iff.mpr ?_)
    rw [h.peers]
    exact hpeers
  have hselected : info.candidateBest + info.requested = l.countP isSelected := by
    rw [h.best, h.requested, countP_selected]
  unfold TxHashInfo.check
  rw [hadjacent]
  rcases hsane with ⟨y, hy, hsel, honly, hbest⟩ | ⟨hwaits, hactive⟩
  · have hone : info.candidateBest + info.requested = 1 := by
      have hpos : 0 < l.countP isSelected := countP_pos_iff.mpr ⟨y, hy, hsel⟩
      have hle := countP_le_one hnodup honly
      omega
    have hprio : info.candidateBest ≠ 0 → info.priorityBestCandidateReady ≤ info.priorityCandidateBest := by
      intro hne
      rw [h.best, ← Nat.pos_iff_ne_zero, countP_pos_iff] at hne
      obtain ⟨a, ha, hstate⟩ := hne
      obtain ⟨b, hb, hbstate, hbprio⟩ := h.priorityBest a ha (of_decide_eq_true hstate)
      obtain rfl := honly b hb (isSelected_iff.mpr (.inl hbstate))
      rw [hbprio]
      rcases h.priorityReady with hzero | ⟨c, hc, hcstate, hcprio⟩
      · rw [hzero]
        exact BitVec.le_def.mpr (Nat.zero_le _)
      · rw [hcprio]
        exact hbest hbstate c hc hcstate
    have hpos : info.candidateDelayed + info.candidateReady + info.candidateBest + info.requested > 0 := by omega
    simp [hpos, hone]
    by_cases hne : info.candidateBest = 0
    · simp [hne]
    · simp [hprio hne]
  · have hnone : ∀ state : State, state ≠ .candidateDelayed → state ≠ .completed → l.countP (·.state = state) = 0 := by
      intro state hd hc
      refine countP_eq_zero.mpr fun a ha heq => ?_
      rcases hwaits a ha with hstate | hstate
      · exact hd ((of_decide_eq_true heq).symm.trans hstate)
      · exact hc ((of_decide_eq_true heq).symm.trans hstate)
    have hready : info.candidateReady = 0 := h.ready.trans (hnone _ (by simp) (by simp))
    have hbest : info.candidateBest = 0 := h.best.trans (hnone _ (by simp) (by simp))
    have hrequested : info.requested = 0 := h.requested.trans (hnone _ (by simp) (by simp))
    have hdelayed : 0 < info.candidateDelayed := by
      obtain ⟨a, ha⟩ := exists_mem_of_ne_nil l hl
      obtain ⟨b, hb, hstate⟩ := hactive a ha
      rw [h.delayed, countP_pos_iff]
      exact ⟨b, hb, decide_eq_true ((hwaits b hb).resolve_right hstate)⟩
    simp [hready, hbest, hrequested, hdelayed]

theorem Sane.sanityCheck_ok (h : Sane s) : s.sanityCheck = .ok () := by
  have hinfo : AssocMap.same s.peerinfo (recomputePeerInfo s.byPeer) = true := by
    refine AssocMap.same_of_lookup fun peer => ?_
    rw [h.counted, lookup_recomputePeerInfo]
  unfold sanityCheck
  rw [hinfo, check_true, ok_bind]
  refine checkAll_ok fun item hitem => ?_
  obtain ⟨txhash, _⟩ := item
  -- The entry of a hash is collected from its group.
  have hlookup := AList.mem_lookup_iff.mpr hitem
  unfold computeTxHashInfo at hlookup
  rw [AssocMap.lookup_collect, Option.mem_def] at hlookup
  split at hlookup
  · cases hlookup
  next hne =>
  cases hlookup
  have hgroup : {a | a ∈ s.byPeer.filter (·.txhash = txhash)} = s.group txhash := by
    ext a
    rw [Set.mem_ofPred_eq, mem_filter, decide_eq_true_iff]
    rfl
  have hnodup := s.index.byFirst_nodup.sublist (filter_sublist (p := fun a => a.txhash = txhash))
  refine (collected_foldl _).check_ok hne ?_ hnodup (hnodup.map_on fun a ha b hb hpeer => ?_)
  · rw [hgroup]
    exact h.groups txhash
  · obtain ⟨ha, hahash⟩ := mem_filter.mp ha
    obtain ⟨hb, hbhash⟩ := mem_filter.mp hb
    exact h.unique a ha b hb hpeer ((of_decide_eq_true hahash).trans (of_decide_eq_true hbhash).symm)

theorem postGetRequestableSanityCheck_ok {now : Int} (hwaiting : ∀ a ∈ s.index, a.isWaiting = true → now < a.time)
    (hselectable : ∀ a ∈ s.index, a.isSelectable = true → a.time ≤ now) :
    s.postGetRequestableSanityCheck now = .ok () := by
  unfold postGetRequestableSanityCheck
  refine checkAll_ok fun a ha => ?_
  split
  · next hw => rw [check_ok, decide_eq_true_iff]; exact hwaiting a ha hw
  split
  · next hs => rw [check_ok, decide_eq_true_iff]; exact hselectable a ha hs
  · rfl

/-! ## Runs -/

theorem initial_sane : Sane (initial : Tracker comp) := by
  refine ⟨⟨fun _ => rfl, fun a ha => by cases ha⟩, fun txhash => ?_⟩
  exact .free (fun a ha => by cases ha.1) fun a ha => by cases ha.1

theorem step_spec (h : Sane s) (op : Op) : ∃ s', s.step op = .ok s' ∧ Sane s' := by
  cases op with
  | receivedInv peer gtxid preferred reqtime => exact ⟨_, rfl, receivedInv_sane h peer gtxid preferred reqtime⟩
  | requestedTx peer txhash expiry => exact requestedTx_spec h peer txhash expiry
  | receivedResponse peer txhash => exact receivedResponse_spec h peer txhash
  | forgetTxHash txhash => exact forgetTxHash_spec h txhash
  | disconnectedPeer peer => exact disconnectedPeer_spec h peer
  | getRequestable peer now =>
    obtain ⟨_, _, s', heq, hsane, -⟩ := getRequestable_spec h peer now
    refine ⟨s', ?_, hsane⟩
    simp only [step, heq, ok_bind]
    rfl

theorem run_spec (h : Sane s) (ops : List Op) : ∃ s', run ops s = .ok s' ∧ Sane s' := by
  induction ops generalizing s with
  | nil => exact ⟨s, rfl, h⟩
  | cons op ops ih =>
    obtain ⟨_, heq, hsane⟩ := step_spec h op
    rw [run, heq, ok_bind]
    exact ih hsane

/-- Every sequence of operations returns, and its state passes the checks. -/
theorem run_sanityCheck (comp : PriorityComputer) (ops : List Op) :
    ∃ s : Tracker comp, run ops initial = .ok s ∧ s.sanityCheck = .ok () ∧
      ∀ peer now, ∃ requestable expired s', s.getRequestable peer now = .ok (requestable, expired, s') ∧
        s'.sanityCheck = .ok () ∧ s'.postGetRequestableSanityCheck now = .ok () := by
  obtain ⟨s, heq, hsane⟩ := run_spec initial_sane ops
  refine ⟨s, heq, hsane.sanityCheck_ok, fun peer now => ?_⟩
  obtain ⟨requestable, expired, s', hget, hsane', hwaiting, hselectable⟩ := getRequestable_spec hsane peer now
  exact ⟨requestable, expired, s', hget, hsane'.sanityCheck_ok, postGetRequestableSanityCheck_ok hwaiting hselectable⟩

end FullNode.TxRequest.Tracker

import FullNode.TxRequestGroups
import Mathlib.Data.List.TakeWhile

/-! # What the tracker's functions do to a group -/

open FullNode.OrderedIndex List AList

namespace FullNode.TxRequest.Tracker

open MultiIndex

variable {comp : PriorityComputer} {s s' : Tracker comp} {it ann a : Announcement}

/-! ## Statistics -/

def infoOf (peer : Int) (l : List Announcement) : PeerInfo where
  total := l.countP fun ann => ann.peer = peer
  completed := l.countP fun ann => ann.peer = peer ∧ ann.isCompleted
  requested := l.countP fun ann => ann.peer = peer ∧ ann.isRequested

variable {l : List Announcement} {txhash : Uint256}

theorem infoOf_perm {l' : List Announcement} (h : l.Perm l') (peer : Int) : infoOf peer l = infoOf peer l' := by
  unfold infoOf
  rw [h.countP_eq, h.countP_eq, h.countP_eq]

theorem infoOf_cons (peer : Int) (l : List Announcement) :
    infoOf peer (ann :: l) = if ann.peer = peer then countAnnouncement (infoOf peer l) ann else infoOf peer l := by
  unfold infoOf countAnnouncement
  split
  · next h => cases hc : ann.isCompleted <;> cases hr : ann.isRequested <;> simp [h, hc, hr]
  · next h => simp [h]

def shown (info : PeerInfo) : Option PeerInfo := if info.total = 0 then none else some info

theorem foldl_countAnnouncement (peer : Int) (l : List Announcement) (info : PeerInfo) :
    (l.filter fun ann => ann.peer = peer).foldl countAnnouncement info =
      ⟨info.total + (infoOf peer l).total, info.completed + (infoOf peer l).completed,
        info.requested + (infoOf peer l).requested⟩ := by
  induction l generalizing info with
  | nil => rfl
  | cons ann l ih =>
    rw [infoOf_cons]
    split
    · next hpeer =>
      rw [filter_cons_of_pos (by simpa using hpeer), foldl_cons, ih]
      simp only [countAnnouncement, PeerInfo.mk.injEq]
      omega
    · next hpeer => rw [filter_cons_of_neg (by simpa using hpeer), ih]

theorem lookup_recomputePeerInfo (l : List Announcement) (peer : Int) :
    (recomputePeerInfo l).lookup peer = shown (infoOf peer l) := by
  have htotal : (infoOf peer l).total = (l.filter fun ann => ann.peer = peer).length :=
    countP_eq_length_filter
  unfold recomputePeerInfo shown
  rw [AssocMap.lookup_collect, foldl_countAnnouncement]
  simp only [Nat.zero_add, htotal, length_eq_zero_iff]
  rw [← htotal]

structure Kept (s : Tracker comp) : Prop where
  counted : ∀ peer, s.peerinfo.lookup peer = shown (infoOf peer s.byPeer)
  unique : ∀ a ∈ s.index, ∀ b ∈ s.index, a.peer = b.peer → a.txhash = b.txhash → a = b

def all (s : Tracker comp) : Set Announcement := {a | a ∈ s.index}

theorem infoOf_of_mem (h : it ∈ l) (peer : Int) :
    infoOf peer l = if it.peer = peer then countAnnouncement (infoOf peer (l.erase it)) it
      else infoOf peer (l.erase it) := by
  rw [infoOf_perm (perm_cons_erase h), infoOf_cons]

theorem Kept.lookup (h : Kept s) (hit : it ∈ s.index) :
    s.peerinfo.lookup it.peer = some (countAnnouncement (infoOf it.peer (s.byPeer.erase it)) it) := by
  have hmem : it ∈ s.byPeer := hit
  rw [h.counted, infoOf_of_mem hmem, if_pos rfl]
  rfl

theorem Kept.erase_spec (h : Kept s) (hit : it ∈ s.index) :
    ∃ s', s.erase it = .ok s' ∧ Kept s' ∧ ∀ a, a ∈ s'.all ↔ a ≠ it ∧ a ∈ s.all := by
  have hmem : it ∈ s.byPeer := hit
  unfold erase
  rw [h.lookup hit]
  simp only [if_pos hit, countAnnouncement, Nat.add_sub_cancel]
  refine ⟨_, rfl, ⟨fun peer => ?_, ?_⟩, fun a => mem_erase⟩
  · change _ = shown (infoOf peer (s.byPeer.erase it))
    by_cases hpeer : peer = it.peer
    · subst hpeer
      unfold shown
      split
      · next hzero => rw [lookup_erase]
      · next hpos => rw [lookup_insert]
    · have hrest : s.peerinfo.lookup peer = shown (infoOf peer (s.byPeer.erase it)) := by
        rw [h.counted, infoOf_of_mem hmem, if_neg (Ne.symm hpeer)]
      split
      · rw [lookup_erase_ne hpeer, hrest]
      · rw [lookup_insert_ne hpeer, hrest]
  · intro a ha b hb
    exact h.unique a (mem_erase.mp ha).2 b (mem_erase.mp hb).2

theorem Kept.modify_spec (h : Kept s) (hit : it ∈ s.index) (hpeer : ann.peer = it.peer)
    (hhash : ann.txhash = it.txhash) : ∃ s', s.modify it ann = .ok s' ∧ Kept s' ∧ Changed it ann s.all s'.all := by
  have hmem : it ∈ s.byPeer := hit
  -- Another announcement with the new key would be of the same peer and hash.
  have hfree : ∀ a ∈ s.index, a ≠ it → byPeerView a ≠ byPeerView ann := by
    intro a ha hne heq
    obtain ⟨hp, -, hh⟩ := byPeerKey_inj.mp heq
    exact hne (h.unique a ha it hit (hp.trans hpeer) (hh.trans hhash))
  obtain ⟨index, hmodify, hperm, hall⟩ := modify_ok hit hfree
  unfold modify
  rw [h.lookup hit, hmodify]
  refine ⟨_, rfl, ⟨fun peer => ?_, ?_⟩, hall⟩
  · change _ = shown (infoOf peer index.byFirst)
    rw [infoOf_perm hperm, infoOf_cons, hpeer]
    by_cases hp : peer = it.peer
    · subst hp
      rw [lookup_insert, if_pos rfl]
      simp only [countAnnouncement, Nat.add_sub_cancel]
      rfl
    · rw [lookup_insert_ne hp, if_neg (Ne.symm hp), h.counted, infoOf_of_mem hmem, if_neg (Ne.symm hp)]
      rfl
  · change ∀ a ∈ index, ∀ b ∈ index, _
    intro a ha b hb hp hh
    rcases (hall a).mp ha with rfl | ⟨hane, ha⟩
    · rcases (hall b).mp hb with rfl | ⟨hbne, hb⟩
      · rfl
      · exact absurd (h.unique b hb it hit (hp ▸ hpeer) (hh ▸ hhash)) hbne
    · rcases (hall b).mp hb with rfl | ⟨-, hb⟩
      · exact absurd (h.unique a ha it hit (hp.trans hpeer) (hh.trans hhash)) hane
      · exact h.unique a ha b hb hp hh

theorem Kept.setState_spec (h : Kept s) (hit : it ∈ s.index) (state : State) :
    ∃ s', s.setState it state = .ok s' ∧ Kept s' ∧ Changed it (it.setState state) s.all s'.all :=
  h.modify_spec hit rfl rfl

/-! ## Groups -/

def group (s : Tracker comp) (txhash : Uint256) : Set Announcement := {a | a ∈ s.index ∧ a.txhash = txhash}

def Elsewhere (txhash : Uint256) (s s' : Tracker comp) : Prop :=
  ∀ a, a.txhash ≠ txhash → (a ∈ s'.index ↔ a ∈ s.index)

theorem Elsewhere.trans {s1 : Tracker comp} (h : Elsewhere txhash s s1)
    (h' : Elsewhere txhash s1 s') : Elsewhere txhash s s' :=
  fun a ha => (h' a ha).trans (h a ha)

theorem elsewhere_of_changed (h : Changed it ann s.all s'.all) (hit : it.txhash = txhash)
    (hhash : ann.txhash = txhash) : Elsewhere txhash s s' := by
  intro a ha
  refine (h a).trans ⟨?_, fun hmem => .inr ⟨?_, hmem⟩⟩
  · rintro (rfl | ⟨-, hmem⟩)
    · exact absurd hhash ha
    · exact hmem
  · rintro rfl
    exact ha hit

theorem changed_group (h : Changed it ann s.all s'.all)
    (hhash : ann.txhash = txhash) : Changed it ann (s.group txhash) (s'.group txhash) := by
  intro a
  constructor
  · rintro ⟨hmem, ha⟩
    rcases (h a).mp hmem with rfl | ⟨hne, hmem⟩
    · exact .inl rfl
    · exact .inr ⟨hne, hmem, ha⟩
  · rintro (rfl | ⟨hne, hmem, ha⟩)
    · exact ⟨(h _).mpr (.inl rfl), hhash⟩
    · exact ⟨(h a).mpr (.inr ⟨hne, hmem⟩), ha⟩

structure Sane (s : Tracker comp) : Prop extends Kept s where
  groups : ∀ txhash, GroupSane comp (s.group txhash)

theorem Sane.of_elsewhere (h : Sane s) (hkept : Kept s') (hother : Elsewhere txhash s s')
    (hgroup : GroupSane comp (s'.group txhash)) : Sane s' := by
  refine ⟨hkept, fun txhash' => ?_⟩
  by_cases heq : txhash' = txhash
  · rw [heq]
    exact hgroup
  · have hsame : s'.group txhash' = s.group txhash' := by
      ext a
      constructor
      · rintro ⟨hmem, rfl⟩
        exact ⟨(hother a heq).mp hmem, rfl⟩
      · rintro ⟨hmem, rfl⟩
        exact ⟨(hother a heq).mpr hmem, rfl⟩
    rw [hsame]
    exact h.groups txhash'

/-! ## Where announcements come from -/

/-- It was there, or is the one in work, or ready or best. -/
inductive Origin (s : Tracker comp) (it : Announcement) (states : State → Prop) (a : Announcement) : Prop
  | same (ha : a ∈ s.index) (hne : a ≠ it)
  | changed (state : State) (hstate : states state) (ha : a = it.setState state)
  | swapped (y : Announcement) (state : State) (hy : y ∈ s.index) (hne : y ≠ it)
      (hold : y.isSelectable = true) (hnew : (y.setState state).isSelectable = true) (ha : a = y.setState state)

structure Done (it : Announcement) (states : State → Prop) (s s' : Tracker comp) : Prop where
  sane : Sane s'
  elsewhere : Elsewhere it.txhash s s'
  origin : ∀ a ∈ s'.index, Origin s it states a

theorem Kept.not_mem (h : Kept s) (hit : it ∈ s.index) (hpeer : ann.peer = it.peer) (hhash : ann.txhash = it.txhash)
    (hstate : ann.state ≠ it.state) : ann ∉ s.index := by
  intro hann
  rw [h.unique ann hann it hit hpeer hhash] at hstate
  exact hstate rfl

theorem changed_trans {x y z : Announcement} {G G1 G2 : Set Announcement} (hy : y ∉ G) (h1 : Changed x y G G1)
    (h2 : Changed y z G1 G2) : Changed x z G G2 := by
  intro a
  rw [h2 a, h1 a]
  constructor
  · rintro (rfl | ⟨hne, rfl | ⟨hx, ha⟩⟩)
    · exact .inl rfl
    · exact absurd rfl hne
    · exact .inr ⟨hx, ha⟩
  · rintro (rfl | ⟨hx, ha⟩)
    · exact .inl rfl
    · refine .inr ⟨?_, .inr ⟨hx, ha⟩⟩
      rintro rfl
      exact hy ha

/-! ## Promotion -/

def Promoted (state : State) : Prop := state = .candidateReady ∨ state = .candidateBest

section Promote

variable {s1 : Tracker comp} (h : Sane s) (hit : it ∈ s.index) (hstate : it.state = .candidateDelayed)
  (hchanged : Changed it (it.setState .candidateReady) s.all s1.all) {n : Announcement}

include hstate hchanged in
theorem none_selected (hnext : ∀ n, next (it.setState .candidateReady) s1.byTxHash = some n →
    n.txhash ≠ it.txhash ∨ n.state = .completed) : ∀ a ∈ s.group it.txhash, a.isSelected = false := by
  rintro a ⟨hmem, hhash⟩
  by_contra hsel
  rw [Bool.not_eq_false, isSelected_iff] at hsel
  have hready : it.setState .candidateReady ∈ s1.byTxHash :=
    mem_bySecond.mpr ((hchanged _).mpr (.inl rfl))
  have ha : a ∈ s1.byTxHash := by
    refine mem_bySecond.mpr ((hchanged a).mpr (.inr ⟨?_, hmem⟩))
    rintro rfl
    simp [hstate] at hsel
  have hrank : 2 ≤ a.state.rank ∧ a.state.rank ≤ 3 := by
    rcases hsel with hsel | hsel <;> rw [hsel] <;> decide
  rcases next_le s1.index.bySecond_ordered hready ha with hle | ⟨n, hn, hle⟩
  · have : a.state.rank ≤ 1 := rank_le hle hhash
    omega
  · -- The neighbour stands between two announcements of the hash.
    obtain ⟨-, -, hge⟩ := next_some s1.index.bySecond_ordered s1.index.bySecond_nodup hready hn
    have hnhash := (txhash_between hge hle hhash.symm).trans hhash
    rcases hnext n hn with hne | hcompleted
    · exact hne hnhash
    · have := rank_le hle (hnhash.trans hhash.symm)
      rw [hcompleted, State.rank] at this
      omega

include h hstate hchanged in
theorem queued (hn : next (it.setState .candidateReady) s1.byTxHash = some n)
    (hhash : n.txhash = it.txhash) (hactive : n.state ≠ .completed)
    (hworse : ¬ (n.state = .candidateBest ∧ comp.priority it > comp.priority n)) :
    GroupSane comp (s1.group it.txhash) := by
  have hready : it.setState .candidateReady ∈ s1.byTxHash :=
    mem_bySecond.mpr ((hchanged _).mpr (.inl rfl))
  obtain ⟨hmem, hne, hge⟩ := next_some s1.index.bySecond_ordered s1.index.bySecond_nodup hready hn
  have hgroup : n ∈ s.group it.txhash :=
    ⟨(((hchanged n).mp (mem_bySecond.mp hmem)).resolve_left hne).2, hhash⟩
  have hrank : 1 ≤ n.state.rank := rank_le hge hhash.symm
  have hsane := h.groups it.txhash
  by_cases hsel : n.isSelected = true
  · refine hsane.queue hstate ⟨n, hgroup, hsel⟩ ?_ (changed_group hchanged rfl)
    intro a ha hbest
    obtain rfl := hsane.only hgroup hsel a ha (isSelected_iff.mpr (.inl hbest))
    exact BitVec.not_lt.mp fun hlt => hworse ⟨hbest, hlt⟩
  · have hnready : n.state = .candidateReady := by
      rw [isSelected_iff, not_or] at hsel
      cases hn : n.state <;> simp_all [State.rank]
    obtain ⟨y, hy, hselected, honly, hbest⟩ | ⟨hwaits, -⟩ := hsane
    · refine (h.groups it.txhash).queue hstate ⟨y, hy, hselected⟩ ?_ (changed_group hchanged rfl)
      intro a ha hstate'
      obtain rfl := honly a ha (isSelected_iff.mpr (.inl hstate'))
      -- The neighbour is better than the new one, and the best one is better than that.
      have hle : comp.priority (it.setState .candidateReady) ≤ comp.priority n :=
        priority_le hge hhash.symm rfl hnready
      exact BitVec.le_trans hle (hbest hstate' n hgroup hnready)
    · rcases hwaits n hgroup with hwait | hwait <;> rw [hwait] at hnready <;> cases hnready

include h hit hstate hchanged in
theorem becomes_best (hkept : Kept s1)
    (hnext : ∀ n, next (it.setState .candidateReady) s1.byTxHash = some n →
      n.txhash ≠ it.txhash ∨ n.state = .completed) :
    ∃ s', s1.setState (it.setState .candidateReady) .candidateBest = .ok s' ∧ Done it Promoted s s' := by
  obtain ⟨s', heq, hkept', hbest⟩ := hkept.setState_spec ((hchanged _).mpr (.inl rfl)) .candidateBest
  have hfresh : it.setState .candidateReady ∉ s.all := h.not_mem hit rfl rfl (by simp [hstate])
  have hboth : Changed it (it.setState .candidateBest) s.all s'.all := changed_trans hfresh hchanged hbest
  have hother := elsewhere_of_changed hboth rfl rfl
  refine ⟨s', heq, h.of_elsewhere hkept' hother ?_, hother, fun a ha => ?_⟩
  · exact (h.groups it.txhash).first (none_selected hstate hchanged hnext) (changed_group hboth rfl)
  · rcases (hboth a).mp ha with rfl | ⟨hne, ha⟩
    · exact .changed .candidateBest (.inr rfl) rfl
    · exact .same ha hne

include h hchanged in
theorem overtakes (hkept : Kept s1) (hn : n ∈ s1.index) (hne : n ≠ it.setState .candidateReady)
    (hhash : n.txhash = it.txhash) (hbest : n.state = .candidateBest)
    (hbetter : comp.priority it > comp.priority n) : ∃ s2 s', s1.setState n .candidateReady = .ok s2 ∧
      s2.setState (it.setState .candidateReady) .candidateBest = .ok s' ∧ Done it Promoted s s' := by
  obtain ⟨hnit, hmem⟩ := ((hchanged n).mp hn).resolve_left hne
  obtain ⟨s2, heq2, hkept2, hch2⟩ := hkept.setState_spec hn .candidateReady
  have hready : it.setState .candidateReady ∈ s2.index :=
    (hch2 _).mpr (.inr ⟨Ne.symm hne, (hchanged _).mpr (.inl rfl)⟩)
  obtain ⟨s', heq', hkept', hch'⟩ := hkept2.setState_spec hready .candidateBest
  have hother : Elsewhere it.txhash s s' :=
    ((elsewhere_of_changed hchanged rfl rfl).trans (elsewhere_of_changed hch2 hhash hhash)).trans
      (elsewhere_of_changed hch' rfl rfl)
  refine ⟨s2, s', heq2, heq', h.of_elsewhere hkept' hother ?_, hother, fun a ha => ?_⟩
  · exact (h.groups it.txhash).overtake ⟨hmem, hhash⟩ hbest (BitVec.le_of_lt hbetter)
      (changed_group hchanged rfl) (changed_group hch2 hhash) (changed_group hch' rfl)
  · rcases (hch' a).mp ha with rfl | ⟨hane, ha⟩
    · exact .changed .candidateBest (.inr rfl) rfl
    rcases (hch2 a).mp ha with rfl | ⟨-, ha⟩
    · exact .swapped n .candidateReady hmem hnit (by simp [Announcement.isSelectable, hbest]) rfl rfl
    rcases (hchanged a).mp ha with rfl | ⟨hne, ha⟩
    · exact absurd rfl hane
    · exact .same ha hne

end Promote

theorem promoteCandidateReady_spec (h : Sane s) (hit : it ∈ s.index) (hstate : it.state = .candidateDelayed) :
    ∃ s', s.promoteCandidateReady it = .ok s' ∧ Done it Promoted s s' := by
  obtain ⟨s1, heq, hkept, hchanged⟩ := h.setState_spec hit .candidateReady
  have hready : it.setState .candidateReady ∈ s1.byTxHash :=
    mem_bySecond.mpr ((hchanged _).mpr (.inl rfl))
  unfold promoteCandidateReady
  rw [hstate, beq_self_eq_true, check_true, ok_bind, heq, ok_bind]
  simp only
  split
  · next hnone =>
    exact becomes_best h hit hstate hchanged hkept fun n hn => by rw [hnone] at hn; cases hn
  · next n hn =>
    obtain ⟨hmem, hne, -⟩ := next_some s1.index.bySecond_ordered s1.index.bySecond_nodup hready hn
    split
    · next hlast =>
      refine becomes_best h hit hstate hchanged hkept fun n' hn' => ?_
      rw [hn] at hn'
      cases hn'
      exact hlast
    · next hinside =>
      rw [not_or, not_not] at hinside
      split
      · next hbetter =>
        obtain ⟨_, s', heq2, heq', hdone⟩ :=
          overtakes h hchanged hkept (mem_bySecond.mp hmem) hne hinside.1 hbetter.1 hbetter.2
        rw [heq2, ok_bind, heq']
        exact ⟨s', rfl, hdone⟩
      · next hworse =>
        have hother := elsewhere_of_changed hchanged rfl rfl
        refine ⟨s1, rfl, h.of_elsewhere hkept hother ?_, hother, fun a ha => ?_⟩
        · exact queued h hstate hchanged hn hinside.1 hinside.2 hworse
        · rcases (hchanged a).mp ha with rfl | ⟨hne, ha⟩
          · exact .changed .candidateReady (.inl rfl) rfl
          · exact .same ha hne

/-! ## Reselection -/

section Reselect

variable (h : Sane s) (hit : it ∈ s.index) (hselected : it.isSelected = true)

include hselected in
theorem rank_of_selected : 2 ≤ it.state.rank ∧ it.state.rank ≤ 3 := by
  rcases isSelected_iff.mp hselected with hstate | hstate <;> rw [hstate] <;> decide

include hit hselected in
theorem ready_le_prev (ha : a ∈ s.group it.txhash) (hready : a.state = .candidateReady) :
    ∃ p, prev it s.byTxHash = some p ∧ byTxHashView comp a ≤ byTxHashView comp p := by
  rcases le_prev s.index.bySecond_ordered (mem_bySecond.mpr hit) (mem_bySecond.mpr ha.1)
    with hle | hprev
  · have hrank := rank_le hle ha.2.symm
    have := (rank_of_selected hselected).1
    rw [hready, State.rank] at hrank
    omega
  · exact hprev

include h hit hselected in
theorem no_ready_of_prev
    (hprev : ∀ p, prev it s.byTxHash = some p → ¬ (p.txhash = it.txhash ∧ p.state = .candidateReady)) :
    ∀ a ∈ s.group it.txhash, a.state ≠ .candidateReady := by
  intro a ha hready
  obtain ⟨p, hp, hle⟩ := ready_le_prev hit hselected ha hready
  obtain ⟨hmem, hne, hge⟩ :=
    prev_some s.index.bySecond_ordered s.index.bySecond_nodup (mem_bySecond.mpr hit) hp
  have hhash : p.txhash = it.txhash := txhash_between hle hge ha.2
  have hlow := rank_le hle (ha.2.trans hhash.symm)
  have hhigh := rank_le hge hhash
  have := (rank_of_selected hselected).2
  have hnot : p.isSelected ≠ true := fun hsel =>
    hne ((h.groups it.txhash).only ⟨hit, rfl⟩ hselected p ⟨mem_bySecond.mp hmem, hhash⟩ hsel)
  rw [Ne, isSelected_iff, not_or] at hnot
  have hpready : p.state = .candidateReady := by
    rw [hready] at hlow
    cases hstate : p.state <;> simp_all [State.rank]
    omega
  exact hprev p hp ⟨hhash, hpready⟩

end Reselect

theorem reselect_none (hcond : ∀ p, prev it s.byTxHash = some p →
    ¬ (it.isSelected = true ∧ p.txhash = it.txhash ∧ p.state = .candidateReady)) : s.reselect it = .ok s := by
  unfold reselect
  split
  · rfl
  · next p hp => exact if_neg (hcond p hp)

theorem changeAndReselect_spec {newState : State} (h : Sane s) (hit : it ∈ s.index) (hnew : newState.Unselected)
    (hactive : KeepsActive (s.group it.txhash) it newState) :
    ∃ s', s.changeAndReselect it newState = .ok s' ∧ Done it (· = newState) s s' ∧ it.setState newState ∈ s'.index := by
  have hcheck : (newState == .completed || newState == .candidateDelayed) = true := by
    rcases hnew with rfl | rfl <;> rfl
  unfold changeAndReselect
  rw [hcheck, check_true, ok_bind]
  by_cases hswap : ∃ p, prev it s.byTxHash = some p ∧
      (it.isSelected = true ∧ p.txhash = it.txhash ∧ p.state = .candidateReady)
  · obtain ⟨p, hp, hcond⟩ := hswap
    obtain ⟨hselected, hhash, hready⟩ := hcond
    obtain ⟨hmem, hne, -⟩ :=
      prev_some s.index.bySecond_ordered s.index.bySecond_nodup (mem_bySecond.mpr hit) hp
    have hp' := mem_bySecond.mp hmem
    obtain ⟨s1, heq1, hkept1, hch1⟩ := h.setState_spec hp' .candidateBest
    obtain ⟨s', heq', hkept', hch'⟩ := hkept1.setState_spec ((hch1 it).mpr (.inr ⟨Ne.symm hne, hit⟩)) newState
    have hres : s.reselect it = .ok s1 := by
      unfold reselect
      rw [hp]
      simp only
      rw [if_pos ⟨hselected, hhash, hready⟩, heq1]
    have hother := (elsewhere_of_changed hch1 hhash hhash).trans (elsewhere_of_changed hch' rfl rfl)
    rw [hres, ok_bind, heq']
    refine ⟨s', rfl, ⟨h.of_elsewhere hkept' hother ?_, hother, fun a ha => ?_⟩, (hch' _).mpr (.inl rfl)⟩
    · refine (h.groups it.txhash).succeed ⟨hit, rfl⟩ hselected (fun a ha hstate => ?_) hnew
        (changed_group hch1 hhash) (changed_group hch' rfl) ?_
      · obtain ⟨_, hp', hle⟩ := ready_le_prev hit hselected ha hstate
        rw [hp] at hp'
        cases hp'
        exact priority_le hle (ha.2.trans hhash.symm) hstate hready
      · rintro rfl
        exact hne (h.unique p hp' _ hit rfl rfl)
    · rcases (hch' a).mp ha with rfl | ⟨hane, ha⟩
      · exact .changed newState rfl rfl
      rcases (hch1 a).mp ha with rfl | ⟨-, ha⟩
      · exact .swapped p .candidateBest hp' hne (by simp [Announcement.isSelectable, hready]) rfl rfl
      · exact .same ha hane
  · rw [reselect_none fun p hp hcond => hswap ⟨p, hp, hcond⟩, ok_bind]
    obtain ⟨s', heq', hkept', hch'⟩ := h.setState_spec hit newState
    have hother := elsewhere_of_changed hch' rfl rfl
    rw [heq']
    refine ⟨s', rfl, ⟨h.of_elsewhere hkept' hother ?_, hother, fun a ha => ?_⟩, (hch' _).mpr (.inl rfl)⟩
    · by_cases hselected : it.isSelected = true
      · exact (h.groups it.txhash).release ⟨hit, rfl⟩ hselected
          (no_ready_of_prev h hit hselected fun p hp hcond => hswap ⟨p, hp, hselected, hcond⟩) hnew hactive
          (changed_group hch' rfl)
      · exact (h.groups it.txhash).putBack (Bool.not_eq_true _ ▸ hselected) hnew hactive (changed_group hch' rfl)
    · rcases (hch' a).mp ha with rfl | ⟨hane, ha⟩
      · exact .changed newState rfl rfl
      · exact .same ha hane

/-! ## Deletion -/

theorem Kept.eraseAll_spec (h : Kept s) (hnodup : l.Nodup) (hl : ∀ a ∈ l, a ∈ s.index) :
    ∃ s', eraseAll l s = .ok s' ∧ Kept s' ∧ ∀ a, a ∈ s'.all ↔ a ∉ l ∧ a ∈ s.all := by
  induction l generalizing s with
  | nil => exact ⟨s, rfl, h, by simp⟩
  | cons it l ih =>
    obtain ⟨hnot, hnodup⟩ := nodup_cons.mp hnodup
    obtain ⟨s1, heq1, hkept1, hall1⟩ := h.erase_spec (hl it mem_cons_self)
    have hrest : ∀ a ∈ l, a ∈ s1.index := by
      intro a ha
      refine (hall1 a).mpr ⟨?_, hl a (mem_cons_of_mem _ ha)⟩
      rintro rfl
      exact hnot ha
    obtain ⟨s', heq', hkept', hall'⟩ := ih hkept1 hnodup hrest
    refine ⟨s', ?_, hkept', fun a => ?_⟩
    · rw [eraseAll, heq1, ok_bind, heq']
    · rw [hall' a, hall1 a, mem_cons, not_or]
      tauto

theorem eraseGroup_spec (h : Sane s) (hnodup : l.Nodup)
    (hl : ∀ a, a ∈ l ↔ a ∈ s.group txhash) : ∃ s', eraseAll l s = .ok s' ∧ Sane s' ∧ Elsewhere txhash s s' ∧
      ∀ a ∈ s'.index, a ∈ s.index ∧ a.txhash ≠ txhash := by
  obtain ⟨s', heq, hkept, hall⟩ := h.eraseAll_spec hnodup fun a ha => ((hl a).mp ha).1
  have hgone : ∀ a ∈ s'.index, a ∈ s.index ∧ a.txhash ≠ txhash := by
    intro a ha
    obtain ⟨hnot, hmem⟩ := (hall a).mp ha
    exact ⟨hmem, fun hhash => hnot ((hl a).mpr ⟨hmem, hhash⟩)⟩
  have hother : Elsewhere txhash s s' := fun a hne =>
    ⟨fun ha => (hgone a ha).1, fun ha => (hall a).mpr ⟨fun hmem => hne ((hl a).mp hmem).2, ha⟩⟩
  refine ⟨s', heq, h.of_elsewhere hkept hother ?_, hother, hgone⟩
  exact .free (fun a ha => absurd ha.2 (hgone a ha.1).2) fun a ha => absurd ha.2 (hgone a ha.1).2

theorem mem_runOf (hl : Ordered (byTxHashView comp) l)
    (hlow : ∀ b ∈ l, ∀ a ∈ l, a.txhash = txhash → byTxHashView comp b ≤ byTxHashView comp a →
      b.txhash = txhash) : a ∈ runOf txhash l ↔ a ∈ l ∧ a.txhash = txhash := by
  constructor
  · intro ha
    exact ⟨(takeWhile_sublist _).subset ha, by simpa using mem_takeWhile_imp ha⟩
  · rintro ⟨ha, hhash⟩
    exact mem_takeWhile hl ha fun b hb hle => by simpa using hlow b hb a ha hhash hle

section Complete

variable (h : Sane s) (hit : it ∈ s.index) (hstate : it.state ≠ .completed)

include hit hstate in
theorem isOnlyNonCompleted_spec : ∃ only, s.isOnlyNonCompleted it = .ok only ∧
    (only = false → ∃ b ∈ s.group it.txhash, b ≠ it ∧ b.state ≠ .completed) ∧
    (only = true → ∀ p, prev it s.byTxHash = some p → p.txhash ≠ it.txhash) := by
  have hmem := mem_bySecond.mpr hit
  have hcheck : (it.state != .completed) = true := bne_iff_ne.mpr hstate
  unfold isOnlyNonCompleted
  rw [hcheck, check_true, ok_bind]
  refine ⟨_, rfl, fun hfalse => ?_, fun htrue p hp hhash => ?_⟩
  · rw [Bool.and_eq_false_iff, Bool.not_eq_false', Bool.not_eq_false', Option.any_eq_true, Option.any_eq_true] at hfalse
    rcases hfalse with ⟨p, hp, hhash⟩ | ⟨n, hn, hhash⟩
    · obtain ⟨hpmem, hne, hle⟩ := prev_some s.index.bySecond_ordered s.index.bySecond_nodup hmem hp
      have hhash := beq_iff_eq.mp hhash
      refine ⟨p, ⟨mem_bySecond.mp hpmem, hhash⟩, hne, fun hcompleted => ?_⟩
      have hrank := rank_le hle hhash
      rw [hcompleted] at hrank
      cases hs : it.state <;> simp_all [State.rank]
    · obtain ⟨hnmem, hne, -⟩ := next_some s.index.bySecond_ordered s.index.bySecond_nodup hmem hn
      rw [Bool.and_eq_true, beq_iff_eq, bne_iff_ne] at hhash
      exact ⟨n, ⟨mem_bySecond.mp hnmem, hhash.1⟩, hne, hhash.2⟩
  · simp [hp, hhash] at htrue

include hit in
theorem mem_runOf_from (hfirst : ∀ p, prev it s.byTxHash = some p → p.txhash ≠ it.txhash) :
    a ∈ runOf it.txhash (s.byTxHash.dropWhile (· ≠ it)) ↔ a ∈ s.group it.txhash := by
  have hmem := mem_bySecond.mpr hit
  obtain ⟨hordered, hfrom, hbefore⟩ := dropWhile_ne s.index.bySecond_ordered hmem
  refine (mem_runOf hordered fun b hb a _ hhash hle =>
    (txhash_between (hfrom b hb).2 hle hhash.symm).trans hhash).trans ?_
  constructor
  · rintro ⟨ha, hhash⟩
    exact ⟨mem_bySecond.mp (hfrom a ha).1, hhash⟩
  · rintro ⟨ha, hhash⟩
    refine ⟨?_, hhash⟩
    by_contra hnot
    -- An announcement of the group before it would put one right before it.
    obtain ⟨p, hp, hle⟩ := hbefore a (mem_bySecond.mpr ha) hnot
    obtain ⟨-, -, hge⟩ := prev_some s.index.bySecond_ordered s.index.bySecond_nodup hmem hp
    exact hfirst p hp (txhash_between hle hge hhash)

theorem setState_self {state : State} (hstate : a.state = state) : a.setState state = a := by
  rw [← hstate]
  rfl

end Complete

theorem makeCompleted_spec (h : Sane s) (hit : it ∈ s.index) :
    ∃ left s', s.makeCompleted it = .ok (left, s') ∧ Done it (· = .completed) s s' ∧
      (∀ ann ∈ left, ann ∈ s'.index ∧ ann = it.setState .completed) ∧
        (left = none → it.setState .completed ∉ s'.index) := by
  unfold makeCompleted
  split
  · next hstate =>
    refine ⟨_, _, rfl, ⟨h, fun _ _ => Iff.rfl, fun a ha => ?_⟩, ?_, by simp⟩
    · by_cases hne : a = it
      · exact .changed .completed rfl (by rw [setState_self hstate, hne])
      · exact .same ha hne
    · rintro ann ⟨⟩
      exact ⟨hit, (setState_self hstate).symm⟩
  · next hstate =>
    obtain ⟨only, honly, hfalse, htrue⟩ := isOnlyNonCompleted_spec hit hstate
    rw [honly, ok_bind]
    cases only with
    | true =>
      have hrun := fun a => mem_runOf_from (a := a) hit (htrue rfl)
      have hnodup : (runOf it.txhash (s.byTxHash.dropWhile (· ≠ it))).Nodup :=
        s.index.bySecond_nodup.sublist ((takeWhile_sublist _).trans (dropWhile_sublist _))
      obtain ⟨s', heq, hsane, hother, hgone⟩ := eraseGroup_spec h hnodup hrun
      rw [if_pos rfl, heq]
      refine ⟨_, _, rfl, ⟨hsane, hother, fun a ha => .same (hgone a ha).1 ?_⟩, by simp, ?_⟩
      · rintro rfl
        exact (hgone a ha).2 rfl
      · exact fun _ hmem => (hgone _ hmem).2 rfl
    | false =>
      obtain ⟨s', heq, hdone, hnew⟩ := changeAndReselect_spec h hit (.inr rfl) fun _ => hfalse rfl
      rw [if_neg (by simp), heq]
      refine ⟨_, _, rfl, hdone, ?_, by simp⟩
      rintro ann ⟨⟩
      exact ⟨hnew, rfl⟩

end FullNode.TxRequest.Tracker

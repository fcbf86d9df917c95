import FullNode.TxDownload
import FullNode.TxRequestRuns

/-! # Who announces what -/

open FullNode.OrderedIndex List

namespace FullNode.TxRequest.Tracker

variable {comp : PriorityComputer} {s s' s1 : Tracker comp} {it ann a : Announcement} {peer : Int} {txhash : Uint256}

def Announces (s : Tracker comp) (peer : Int) (txhash : Uint256) : Prop :=
  ∃ a ∈ s.index, a.peer = peer ∧ a.txhash = txhash

def NoMore (s s' : Tracker comp) : Prop := ∀ peer txhash, s'.Announces peer txhash → s.Announces peer txhash

theorem NoMore.refl (s : Tracker comp) : NoMore s s := fun _ _ h => h

theorem NoMore.trans (h : NoMore s s1) (h' : NoMore s1 s') : NoMore s s' :=
  fun peer txhash ha => h peer txhash (h' peer txhash ha)

/-! ## Each function -/

theorem erase_noMore (h : s.erase it = .ok s') : NoMore s s' := by
  unfold erase at h
  split at h
  · cases h
  split at h
  · cases h
    rintro peer txhash ⟨a, ha, hpeer, hhash⟩
    exact ⟨a, (MultiIndex.mem_erase.mp ha).2, hpeer, hhash⟩
  · cases h

theorem modify_noMore (h : s.modify it ann = .ok s') (hpeer : ann.peer = it.peer)
    (hhash : ann.txhash = it.txhash) : NoMore s s' := by
  unfold modify at h
  split at h
  · next info index _ hmodify =>
    cases h
    obtain ⟨hit, hall⟩ := MultiIndex.modify_some hmodify
    rintro _ _ ⟨a, ha, rfl, rfl⟩
    rcases (hall a).mp ha with rfl | ⟨-, ha⟩
    · exact ⟨it, hit, hpeer.symm, hhash.symm⟩
    · exact ⟨a, ha, rfl, rfl⟩
  · cases h

variable {state : State} {now : Int} {rounds : Nat} {expired : List (Int × GenTxid)}
  {requestable : List GenTxid}

theorem setState_noMore (h : s.setState it state = .ok s') : NoMore s s' := modify_noMore h rfl rfl

theorem promoteCandidateReady_noMore (h : s.promoteCandidateReady it = .ok s') : NoMore s s' := by
  unfold promoteCandidateReady at h
  obtain ⟨_, -, h⟩ := bind_ok.mp h
  obtain ⟨_, hready, h⟩ := bind_ok.mp h
  refine (setState_noMore hready).trans ?_
  dsimp only at h
  split at h
  · exact setState_noMore h
  split at h
  · exact setState_noMore h
  split at h
  · obtain ⟨_, hswap, h⟩ := bind_ok.mp h
    exact (setState_noMore hswap).trans (setState_noMore h)
  · cases h
    exact .refl _

theorem reselect_noMore (h : s.reselect it = .ok s') : NoMore s s' := by
  unfold reselect at h
  split at h
  · cases h
    exact .refl _
  split at h
  · exact setState_noMore h
  · cases h
    exact .refl _

theorem changeAndReselect_noMore (h : s.changeAndReselect it state = .ok s') : NoMore s s' := by
  unfold changeAndReselect at h
  obtain ⟨_, -, h⟩ := bind_ok.mp h
  obtain ⟨_, hreselect, h⟩ := bind_ok.mp h
  exact (reselect_noMore hreselect).trans (setState_noMore h)

theorem eraseAll_noMore {l : List Announcement} (h : eraseAll l s = .ok s') : NoMore s s' := by
  induction l generalizing s with
  | nil =>
    cases h
    exact .refl _
  | cons it l ih =>
    obtain ⟨_, herase, h⟩ := bind_ok.mp h
    exact (erase_noMore herase).trans (ih h)

theorem makeCompleted_noMore {left : Option Announcement} (h : s.makeCompleted it = .ok (left, s')) : NoMore s s' := by
  unfold makeCompleted at h
  split at h
  · cases h
    exact .refl _
  obtain ⟨_, -, h⟩ := bind_ok.mp h
  split at h
  · obtain ⟨s1, herase, h⟩ := bind_ok.mp h
    cases h
    exact eraseAll_noMore herase
  · obtain ⟨s1, hchange, h⟩ := bind_ok.mp h
    cases h
    exact changeAndReselect_noMore hchange

theorem expireAndPromote_noMore {expired' : List (Int × GenTxid)}
    (h : expireAndPromote now rounds expired s = .ok (expired', s')) : NoMore s s' := by
  induction rounds generalizing s expired with
  | zero => cases h
  | succ rounds ih =>
    unfold expireAndPromote at h
    split at h
    · cases h
      exact .refl _
    split at h
    · obtain ⟨s1, hpromote, h⟩ := bind_ok.mp h
      exact (promoteCandidateReady_noMore hpromote).trans (ih h)
    split at h
    · obtain ⟨⟨_, s1⟩, hcomplete, h⟩ := bind_ok.mp h
      exact (makeCompleted_noMore hcomplete).trans (ih h)
    · cases h
      exact .refl _

theorem demote_noMore (h : demote now rounds s = .ok s') : NoMore s s' := by
  induction rounds generalizing s with
  | zero => cases h
  | succ rounds ih =>
    unfold demote at h
    split at h
    · cases h
      exact .refl _
    split at h
    · obtain ⟨_, hchange, h⟩ := bind_ok.mp h
      exact (changeAndReselect_noMore hchange).trans (ih h)
    · cases h
      exact .refl _

theorem getRequestable_noMore
    (h : s.getRequestable peer now = .ok (requestable, expired, s')) : NoMore s s' := by
  unfold getRequestable setTimePoint at h
  obtain ⟨⟨_, _⟩, htime, h⟩ := bind_ok.mp h
  obtain ⟨⟨_, _⟩, hexpire, htime⟩ := bind_ok.mp htime
  obtain ⟨_, hdemote, htime⟩ := bind_ok.mp htime
  cases htime
  cases h
  exact (expireAndPromote_noMore hexpire).trans (demote_noMore hdemote)

theorem forgetTxHash_noMore (h : s.forgetTxHash txhash = .ok s') : NoMore s s' := eraseAll_noMore h

theorem unselect_noMore (h : s.unselect txhash = .ok s') : NoMore s s' := by
  unfold unselect at h
  split at h
  · cases h
    exact .refl _
  split at h
  · cases h
    exact .refl _
  split at h
  · exact setState_noMore h
  split at h
  · exact setState_noMore h
  · cases h
    exact .refl _

theorem requestedTx_noMore {expiry : Int} (h : s.requestedTx peer txhash expiry = .ok s') : NoMore s s' := by
  unfold requestedTx at h
  split at h
  · exact modify_noMore h rfl rfl
  split at h
  · cases h
    exact .refl _
  split at h
  · cases h
    exact .refl _
  · obtain ⟨_, hunselect, h⟩ := bind_ok.mp h
    exact (unselect_noMore hunselect).trans (modify_noMore h rfl rfl)

theorem receivedResponse_noMore (h : s.receivedResponse peer txhash = .ok s') : NoMore s s' := by
  unfold receivedResponse at h
  split at h
  · cases h
    exact .refl _
  · obtain ⟨⟨_, _⟩, hcomplete, h⟩ := bind_ok.mp h
    cases h
    exact makeCompleted_noMore hcomplete

/-! ## Counts -/

theorem Kept.count_eq (h : Kept s) (peer : Int) :
    s.count peer = (s.byPeer.filter fun ann => ann.peer = peer).length := by
  rw [count, h.counted, ← countP_eq_length_filter]
  unfold shown infoOf
  split
  · next hzero => exact hzero.symm
  · rfl

theorem count_le (hkept : Kept s) (hkept' : Kept s') (h : NoMore s s') (peer : Int) : s'.count peer ≤ s.count peer := by
  have hnodup : ((s'.byPeer.filter fun ann => ann.peer = peer).map Announcement.txhash).Nodup := by
    refine (s'.index.byFirst_nodup.sublist filter_sublist).map_on fun a ha b hb heq => ?_
    obtain ⟨ha, hap⟩ := mem_filter.mp ha
    obtain ⟨hb, hbp⟩ := mem_filter.mp hb
    exact hkept'.unique a ha b hb ((of_decide_eq_true hap).trans (of_decide_eq_true hbp).symm) heq
  have hsub : (s'.byPeer.filter fun ann => ann.peer = peer).map Announcement.txhash ⊆
      (s.byPeer.filter fun ann => ann.peer = peer).map Announcement.txhash := by
    intro txhash hmem
    obtain ⟨a, ha, rfl⟩ := mem_map.mp hmem
    obtain ⟨ha, hpeer⟩ := mem_filter.mp ha
    obtain ⟨b, hb, hbpeer, hbhash⟩ := h peer a.txhash ⟨a, ha, of_decide_eq_true hpeer, rfl⟩
    exact mem_map.mpr ⟨b, mem_filter.mpr ⟨hb, decide_eq_true hbpeer⟩, hbhash⟩
  have hle := (subperm_of_subset hnodup hsub).length_le
  rw [length_map, length_map] at hle
  rwa [hkept.count_eq, hkept'.count_eq]

theorem count_zero_iff (h : Kept s) : s.count peer = 0 ↔ ∀ txhash, ¬s.Announces peer txhash := by
  rw [h.count_eq, length_eq_zero_iff, filter_eq_nil_iff]
  constructor
  · rintro hnone txhash ⟨a, ha, hpeer, -⟩
    exact hnone a ha (decide_eq_true hpeer)
  · intro hnone a ha hpeer
    exact hnone a.txhash ⟨a, ha, of_decide_eq_true hpeer, rfl⟩

theorem receivedInv_spec (h : Sane s) (peer : Int) (gtxid : GenTxid) (preferred : Bool) (reqtime : Int) :
    Sane (s.receivedInv peer gtxid preferred reqtime) ∧
      (∀ p txhash, (s.receivedInv peer gtxid preferred reqtime).Announces p txhash → p = peer ∨ s.Announces p txhash) ∧
      ∀ p, (s.receivedInv peer gtxid preferred reqtime).count p ≤ s.count p + if p = peer then 1 else 0 := by
  refine ⟨receivedInv_sane h peer gtxid preferred reqtime, ?_⟩
  unfold receivedInv
  split
  · exact ⟨fun _ _ => .inr, fun p => Nat.le_add_right _ _⟩
  split
  · exact ⟨fun _ _ => .inr, fun p => Nat.le_add_right _ _⟩
  next index hemplace =>
  obtain ⟨-, hall, -⟩ := MultiIndex.emplace_some hemplace
  constructor
  · rintro p txhash ⟨a, ha, rfl, rfl⟩
    rcases (hall a).mp ha with rfl | ha
    · exact .inl rfl
    · exact .inr ⟨a, ha, rfl, rfl⟩
  · intro p
    unfold count
    by_cases hp : p = peer
    · subst hp
      rw [if_pos rfl, AList.lookup_insert]
      cases s.peerinfo.lookup p with
      | none => exact le_refl 1
      | some info => exact le_refl _
    · rw [if_neg hp, AList.lookup_insert_ne hp]
      exact le_refl _

/-! ## Disconnecting -/

theorem peer_le_of_key {hash : Uint256} {best : Bool} (h : byPeerKey peer best hash ≤ byPeerView a) :
    peer ≤ a.peer := by
  rcases Prod.Lex.le_iff.mp h with hlt | ⟨heq, -⟩
  · exact le_of_lt hlt
  · exact le_of_eq heq

theorem zero_le_bytes (l : List Nat) (f : Nat → Nat) : (l.map fun _ => 0) ≤ l.map f := by
  induction l with
  | nil => exact le_refl _
  | cons i l ih =>
    rw [map_cons, map_cons]
    rcases Nat.eq_zero_or_pos (f i) with hzero | hpos
    · rw [hzero]
      rcases ih.lt_or_eq with hlt | heq
      · exact le_of_lt (List.Lex.cons hlt)
      · rw [heq]
    · exact le_of_lt (List.Lex.rel hpos)

theorem key_le_of_peer (h : a.peer = peer) : byPeerKey peer false 0 ≤ byPeerView a := by
  have hbytes : memoryBytes 0 ≤ memoryBytes a.txhash := by
    have hzero : memoryBytes 0 = (range 32).map fun _ => 0 := by decide
    rw [hzero]
    exact zero_le_bytes _ _
  refine Prod.Lex.le_iff.mpr (.inr ⟨h.symm, Prod.Lex.le_iff.mpr ?_⟩)
  cases hbest : a.state == .candidateBest with
  | false => exact .inr ⟨hbest.symm, hbytes⟩
  | true =>
    refine .inl ?_
    change false < (a.state == .candidateBest)
    rw [hbest]
    decide

theorem peer_le_of_view {b : Announcement} (h : byPeerView a ≤ byPeerView b) : a.peer ≤ b.peer := peer_le_of_key h

theorem disconnectLoop_gone {itNext : Option Announcement} (h : Sane s)
    (hmem : ∀ it ∈ itNext, it ∈ s.index ∧ peer ≤ it.peer)
    (hfirst : ∀ a ∈ s.index, a.peer = peer → ∃ it ∈ itNext, byPeerView it ≤ byPeerView a)
    (heq : disconnectLoop peer rounds itNext s = .ok s') : NoMore s s' ∧ ∀ a ∈ s'.index, a.peer ≠ peer := by
  induction rounds generalizing s itNext with
  | zero =>
    cases itNext with
    | none =>
      cases heq
      refine ⟨.refl _, fun a ha hpeer => ?_⟩
      obtain ⟨it, hit, -⟩ := hfirst a ha hpeer
      cases hit
    | some it => cases heq
  | succ rounds ih =>
    cases itNext with
    | none =>
      cases heq
      refine ⟨.refl _, fun a ha hpeer => ?_⟩
      obtain ⟨it, hit, -⟩ := hfirst a ha hpeer
      cases hit
    | some it =>
      obtain ⟨hit, _⟩ := hmem it rfl
      unfold disconnectLoop at heq
      split at heq
      · next hne =>
        cases heq
        refine ⟨.refl _, fun a ha hpeer => ?_⟩
        obtain ⟨_, hsome, hview⟩ := hfirst a ha hpeer
        cases hsome
        have := peer_le_of_view hview
        omega
      next hpeer =>
      obtain ⟨left, _, s2, hcomplete, herase, hsane, hother, hpair⟩ := removed_spec h hit
      simp only [hcomplete, ok_bind, herase] at heq
      -- what is left of the peer is of other hashes, so it stands where it stood
      have hkept : ∀ a ∈ s2.index, a.peer = peer → a ∈ s.index ∧ a ≠ it := by
        intro a ha hap
        obtain ⟨b, hb, hne, hbpeer, hbhash⟩ := hpair a ha
        have hhash : a.txhash ≠ it.txhash := fun hhash =>
          hne (h.unique b hb it hit (hbpeer.trans (hap.trans (not_not.mp hpeer).symm)) (hbhash.trans hhash))
        refine ⟨(hother a hhash).mp ha, ?_⟩
        rintro rfl
        exact hhash rfl
      have hnoMore := (makeCompleted_noMore hcomplete).trans (eraseAll_noMore herase)
      have hnext : ∀ n ∈ (next it s.byPeer).filter fun ann => ann.peer = peer, n ∈ s2.index ∧ peer ≤ n.peer := by
        intro n hn
        obtain ⟨hn, hnpeer⟩ := Option.filter_eq_some_iff.mp hn
        have hnpeer := of_decide_eq_true hnpeer
        obtain ⟨hmem, hne, -⟩ := next_some s.index.byFirst_ordered s.index.byFirst_nodup hit hn
        refine ⟨(hother n fun hhash => hne (h.unique n hmem it hit ?_ hhash)).mpr hmem, hnpeer.ge⟩
        rw [hnpeer, not_not.mp hpeer]
      have hfirst' : ∀ a ∈ s2.index, a.peer = peer →
          ∃ n ∈ (next it s.byPeer).filter fun ann => ann.peer = peer, byPeerView n ≤ byPeerView a := by
        intro a ha hap
        obtain ⟨hin, hne⟩ := hkept a ha hap
        obtain ⟨_, hsome, hview⟩ := hfirst a hin hap
        cases hsome
        rcases next_le s.index.byFirst_ordered hit hin with hge | ⟨n, hn, hnle⟩
        · -- a key stands once in the index
          have hsame := inj_on_of_nodup_map s.index.byFirst_unique hin hit (le_antisymm hge hview)
          exact absurd hsame hne
        · obtain ⟨-, -, hitle⟩ := next_some s.index.byFirst_ordered s.index.byFirst_nodup hit hn
          have hlow := peer_le_of_view hitle
          have hhigh := peer_le_of_view hnle
          exact ⟨n, Option.filter_eq_some_iff.mpr ⟨hn, decide_eq_true (by omega)⟩, hnle⟩
      obtain ⟨hrest, hgone⟩ := ih hsane hnext hfirst' heq
      exact ⟨hnoMore.trans hrest, hgone⟩

theorem disconnectedPeer_gone (h : Sane s) (heq : s.disconnectedPeer peer = .ok s') :
    NoMore s s' ∧ ∀ a ∈ s'.index, a.peer ≠ peer := by
  refine disconnectLoop_gone h (fun it hit => ?_) (fun a ha hpeer => ?_) heq
  · obtain ⟨hmem, hle⟩ := lowerBound_some hit
    exact ⟨hmem, peer_le_of_key hle⟩
  · exact lowerBound_le s.index.byFirst_ordered ha (key_le_of_peer hpeer)

/-! ## Whom to ask -/

theorem best_key_le (hpeer : a.peer = peer) (hbest : a.state = .candidateBest) :
    byPeerKey peer true 0 ≤ byPeerView a := by
  have hbytes : memoryBytes 0 ≤ memoryBytes a.txhash := by
    rw [show memoryBytes 0 = (range 32).map fun _ => 0 by decide]
    exact zero_le_bytes _ _
  unfold byPeerView
  rw [hpeer, hbest]
  exact Prod.Lex.le_iff.mpr (.inr ⟨rfl, Prod.Lex.le_iff.mpr (.inr ⟨rfl, hbytes⟩)⟩)

theorem best_of_key_le (h : byPeerKey peer true 0 ≤ byPeerView a) (hpeer : a.peer ≤ peer) :
    a.peer = peer ∧ a.state = .candidateBest := by
  rcases Prod.Lex.le_iff.mp h with hlt | ⟨heq, hle⟩
  · exact absurd hpeer (not_le.mpr hlt)
  · refine ⟨heq.symm, ?_⟩
    rcases Prod.Lex.le_iff.mp hle with hlt | ⟨hbest, -⟩
    · exact absurd hlt (by simp [byPeerKey, byPeerView])
    · exact beq_iff_eq.mp hbest.symm

theorem mem_getRequestable {gtxid : GenTxid}
    (h : s.getRequestable peer now = .ok (requestable, expired, s')) :
    gtxid ∈ requestable ↔ ∃ a ∈ s'.index, a.peer = peer ∧ a.state = .candidateBest ∧ a.toGenTxid = gtxid := by
  unfold getRequestable at h
  obtain ⟨⟨_, _⟩, -, h⟩ := bind_ok.mp h
  cases h
  have hl := s'.index.byFirst_ordered
  simp only [mem_map, mem_insertionSort]
  constructor
  · rintro ⟨a, ha, rfl⟩
    have hbest := mem_takeWhile_imp ha
    rw [decide_eq_true_eq] at hbest
    exact ⟨a, ((takeWhile_sublist _).trans (dropWhile_sublist _)).mem ha, hbest.1, hbest.2, rfl⟩
  · rintro ⟨a, ha, hpeer, hbest, rfl⟩
    refine ⟨a, mem_takeWhile (hl.sublist (dropWhile_sublist _))
      ((mem_dropWhile hl).mpr ⟨ha, best_key_le hpeer hbest⟩) fun b hb hle => ?_, rfl⟩
    obtain ⟨-, hkey⟩ := (mem_dropWhile hl).mp hb
    exact decide_eq_true (best_of_key_le hkey (hpeer ▸ peer_le_of_view hle))

/-- `getRequestable` says to ask `peer` for `txhash`. -/
def Asks (s : Tracker comp) (peer now : Int) (txhash : Uint256) (s' : Tracker comp) : Prop :=
  ∃ requestable expired, s.getRequestable peer now = .ok (requestable, expired, s') ∧
    txhash ∈ requestable.map GenTxid.hash

theorem getRequestable_ok (h : s.setTimePoint now = .ok (expired, s')) (peer : Int) :
    ∃ requestable expired, s.getRequestable peer now = .ok (requestable, expired, s') := by
  unfold getRequestable
  rw [h, ok_bind]
  exact ⟨_, _, rfl⟩

theorem asks_iff (h : s.setTimePoint now = .ok (expired, s')) : s.Asks peer now txhash s' ↔
    ∃ a ∈ s'.index, a.peer = peer ∧ a.txhash = txhash ∧ a.state = .candidateBest := by
  constructor
  · rintro ⟨_, _, heq, hmem⟩
    obtain ⟨_, hgtxid, rfl⟩ := mem_map.mp hmem
    obtain ⟨a, ha, hpeer, hbest, rfl⟩ := (mem_getRequestable heq).mp hgtxid
    exact ⟨a, ha, hpeer, rfl, hbest⟩
  · rintro ⟨a, ha, hpeer, rfl, hbest⟩
    obtain ⟨_, _, heq⟩ := getRequestable_ok h peer
    exact ⟨_, _, heq, mem_map_of_mem ((mem_getRequestable heq).mpr ⟨a, ha, hpeer, hbest, rfl⟩)⟩

/-- A transaction has a best candidate unless a request is under way or all wait or are completed. -/
theorem Sane.best_spec (h : Sane s) (txhash : Uint256) :
    (∀ a ∈ s.index, ∀ b ∈ s.index, a.txhash = txhash → b.txhash = txhash → a.state = .candidateBest →
      b.state = .candidateBest ∨ b.state = .requested → a = b) ∧
    ((∃ a ∈ s.index, a.txhash = txhash ∧ a.state = .candidateBest) ∨
      (∃ a ∈ s.index, a.txhash = txhash ∧ a.state = .requested) ∨
      ∀ a ∈ s.index, a.txhash = txhash → a.state = .candidateDelayed ∨ a.state = .completed) := by
  rcases h.groups txhash with ⟨y, hy, hselected, honly, -⟩ | ⟨hwaits, -⟩
  · refine ⟨fun a ha b hb hhash hhash' hbest hstate => ?_, ?_⟩
    · rw [honly a ⟨ha, hhash⟩ (isSelected_iff.mpr (.inl hbest)), honly b ⟨hb, hhash'⟩ (isSelected_iff.mpr hstate)]
    · rcases isSelected_iff.mp hselected with hbest | hrequested
      · exact .inl ⟨y, hy.1, hy.2, hbest⟩
      · exact .inr (.inl ⟨y, hy.1, hy.2, hrequested⟩)
  · refine ⟨fun a ha b hb hhash _ hbest _ => ?_, .inr (.inr fun a ha hhash => hwaits a ⟨ha, hhash⟩)⟩
    rcases hwaits a ⟨ha, hhash⟩ with hstate | hstate <;> rw [hbest] at hstate <;> cases hstate

/-- Asked of one peer at most, and of one unless none may be asked yet or a request is under way. -/
theorem asks_one (comp : PriorityComputer) (ops : List Op) (now : Int) : ∃ s s' : Tracker comp,
    run ops initial = .ok s ∧
    (∀ peer, ∃ requestable expired, s.getRequestable peer now = .ok (requestable, expired, s')) ∧ ∀ txhash,
      (∀ p q, s.Asks p now txhash s' → s.Asks q now txhash s' → p = q) ∧
        ((∃ p, s.Asks p now txhash s') ↔
          (∃ a ∈ s'.index, a.txhash = txhash ∧ a.state ≠ .completed ∧ a.time ≤ now) ∧
            ∀ a ∈ s'.index, a.txhash = txhash → a.state ≠ .requested) := by
  obtain ⟨s, hrun, hsane⟩ := run_spec (initial_sane : Sane (initial : Tracker comp)) ops
  obtain ⟨_, s', htime, hsane', hwaiting, hselectable⟩ := setTimePoint_spec hsane now
  refine ⟨s, s', hrun, getRequestable_ok htime, fun txhash => ?_⟩
  obtain ⟨hone, hsome⟩ := hsane'.best_spec txhash
  simp only [asks_iff htime]
  refine ⟨?_, ?_, ?_⟩
  · rintro p q ⟨a, ha, rfl, hhash, hbest⟩ ⟨b, hb, rfl, hhash', hbest'⟩
    rw [hone a ha b hb hhash hhash' hbest (.inl hbest')]
  · rintro ⟨p, a, ha, rfl, hhash, hbest⟩
    refine ⟨⟨a, ha, hhash, by simp [hbest], hselectable a ha (by simp [Announcement.isSelectable, hbest])⟩,
      fun b hb hhash' hrequested => ?_⟩
    rw [hone a ha b hb hhash hhash' hbest (.inr hrequested), hrequested] at hbest
    cases hbest
  · rintro ⟨⟨a, ha, hhash, hnot, hdue⟩, hnone⟩
    rcases hsome with ⟨b, hb, hhash', hbest⟩ | ⟨b, hb, hhash', hrequested⟩ | hwaits
    · exact ⟨b.peer, b, hb, rfl, hhash', hbest⟩
    · exact absurd hrequested (hnone b hb hhash')
    · have hdelayed := (hwaits a ha hhash).resolve_right hnot
      exact absurd hdue (not_le.mpr (hwaiting a ha (by simp [Announcement.isWaiting, hdelayed])))

end FullNode.TxRequest.Tracker

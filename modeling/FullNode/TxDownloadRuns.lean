import FullNode.TxOrphanagePeers
import FullNode.TxRequestPeers

/-!
# Runs of the download manager

Whatever stands under a peer's number was put there while the peer was connected: both ways in ask for its connection
first.
-/

namespace FullNode.TxDownload

open Orphanage List AssocMap TxOrphanage AList
open TxRequest (GenTxid PriorityComputer Tracker)
open TxRequest.Tracker (NoMore Sane)

namespace TxDownloadManagerImpl

variable {comp : PriorityComputer} {F : Type} (filter : Filtering F) (sha256 : List Uint256 → Uint256)
  (env : Surroundings) {s s' : TxDownloadManagerImpl comp F}

structure Inv (s : TxDownloadManagerImpl comp F) : Prop where
  sane : Sane s.m_txrequest
  consistent : Consistent s.m_orphanage
  within : Within (· ∈ s.m_peer_info) s.m_orphanage
  announced : ∀ peer txhash, s.m_txrequest.Announces peer txhash → peer ∈ s.m_peer_info
  bounded : ∀ peer info, s.m_peer_info.lookup peer = some info → info.m_relay_permissions = false →
    s.m_txrequest.count peer ≤ MAX_PEER_TX_ANNOUNCEMENTS
  wtxid : s.m_num_wtxid_peers = BitVec.ofNat 32 (AssocMap.sumBy (·.m_wtxid_relay.toNat) s.m_peer_info)

structure Goes (s s' : TxDownloadManagerImpl comp F) : Prop where
  inv : Inv s'
  peers : s'.m_peer_info = s.m_peer_info

theorem Goes.trans {s1 : TxDownloadManagerImpl comp F} (h : Goes s s1) (h' : Goes s1 s') : Goes s s' :=
  ⟨h'.inv, h'.peers.trans h.peers⟩

theorem Inv.goes (h : Inv s) : Goes s s := ⟨h, rfl⟩

variable {m_txrequest : Tracker comp}

section

variable (h : Inv s)
include h

theorem Inv.tracker (hsane : Sane m_txrequest)
    (hmore : NoMore s.m_txrequest m_txrequest) : Goes s { s with m_txrequest } := by
  refine ⟨⟨hsane, h.consistent, h.within, fun peer txhash ha => h.announced peer txhash (hmore peer txhash ha), ?_,
    h.wtxid⟩, rfl⟩
  intro peer info hlookup hrelay
  exact (TxRequest.Tracker.count_le h.sane.toKept hsane.toKept hmore peer).trans (h.bounded peer info hlookup hrelay)

theorem Inv.orphanage {m_orphanage : TxOrphanage} (hcons : Consistent m_orphanage)
    (hwithin : Within (· ∈ s.m_peer_info) m_orphanage) : Goes s { s with m_orphanage } :=
  ⟨⟨h.sane, hcons, hwithin, h.announced, h.bounded, h.wtxid⟩, rfl⟩

theorem Inv.filters (rejects reconsiderable confirmed : F) : Goes s { s with
    m_recent_rejects := rejects
    m_recent_rejects_reconsiderable := reconsiderable
    m_recent_confirmed_transactions := confirmed } :=
  ⟨⟨h.sane, h.consistent, h.within, h.announced, h.bounded, h.wtxid⟩, rfl⟩

/-! ## Forgetting -/

theorem forgetTxHash_spec (txhash : Uint256) : ∃ s', s.forgetTxHash txhash = .ok s' ∧ Goes s s' := by
  obtain ⟨tracker, heq, hsane⟩ := TxRequest.Tracker.forgetTxHash_spec h.sane txhash
  exact ⟨_, by rw [forgetTxHash, heq]; rfl, h.tracker hsane (TxRequest.Tracker.forgetTxHash_noMore heq)⟩

theorem forgetBoth_spec (txid wtxid : Uint256) :
    ∃ s', (s.forgetTxHash txid >>= fun s => s.forgetTxHash wtxid) = .ok s' ∧ Goes s s' := by
  obtain ⟨_, heq1, hgoes1⟩ := forgetTxHash_spec h txid
  obtain ⟨s', heq, hgoes⟩ := forgetTxHash_spec hgoes1.inv wtxid
  exact ⟨s', by rw [heq1, ok_bind, heq], hgoes1.trans hgoes⟩

theorem receivedResponse_spec (nodeid : Int) (txhash : Uint256) :
    ∃ s', receivedResponse nodeid s txhash = .ok s' ∧ Goes s s' := by
  obtain ⟨tracker, heq, hsane⟩ := TxRequest.Tracker.receivedResponse_spec h.sane nodeid txhash
  exact ⟨_, by rw [receivedResponse, heq]; rfl, h.tracker hsane (TxRequest.Tracker.receivedResponse_noMore heq)⟩

theorem receivedNotFound_spec (nodeid : Int) (txhashes : List Uint256) :
    ∃ s', s.receivedNotFound nodeid txhashes = .ok s' ∧ Goes s s' := by
  refine foldlM_rule (I := fun _ t => Goes s t) (fun done txhash t _ ht => ?_) h.goes
  obtain ⟨t', heq, hgoes⟩ := receivedResponse_spec ht.inv nodeid txhash
  exact ⟨t', heq, ht.trans hgoes⟩

theorem confirm_spec (ptx : CTransactionRef) : ∃ s', s.confirm filter ptx = .ok s' ∧ Goes s s' := by
  have hfilters := h.filters s.m_recent_rejects s.m_recent_rejects_reconsiderable
  obtain ⟨s', heq, hgoes⟩ := forgetBoth_spec (hfilters _).inv ptx.hash ptx.witnessHash
  exact ⟨s', heq, (hfilters _).trans hgoes⟩

theorem blockConnected_spec (vtx : List CTransactionRef) : ∃ s', s.blockConnected filter vtx = .ok s' ∧ Goes s s' := by
  obtain ⟨orphanage, heq, hcons, -⟩ := h.consistent.eraseForBlock (vtx.map (·.toCTransaction))
  have hgoes := h.orphanage hcons (h.within.eraseForBlock heq)
  rw [blockConnected, heq, ok_bind]
  refine foldlM_rule (I := fun _ t => Goes s t) (fun done ptx t _ ht => ?_) hgoes
  obtain ⟨t', heq, hgoes⟩ := confirm_spec filter ht.inv ptx
  exact ⟨t', heq, ht.trans hgoes⟩

/-! ## Peers -/

theorem connectedPeer_inv (nodeid : Int) (info : TxDownloadConnectionInfo) : Inv (s.connectedPeer nodeid info) := by
  unfold connectedPeer
  split
  · exact h
  next hnew =>
  have hgrows : ∀ peer, peer ∈ s.m_peer_info → peer ∈ s.m_peer_info.insert nodeid info := fun peer hpeer =>
    (mem_insert _).mpr (.inr hpeer)
  refine ⟨h.sane, h.consistent, h.within.mono hgrows, fun peer txhash ha =>
    hgrows peer (h.announced peer txhash ha), ?_, ?_⟩
  · intro peer info' hlookup hrelay
    by_cases hpeer : peer = nodeid
    · -- a peer that is new has announced nothing
      have hzero : s.m_txrequest.count peer = 0 := by
        rw [TxRequest.Tracker.count_zero_iff h.sane.toKept]
        intro txhash ha
        exact hnew (hpeer ▸ h.announced peer txhash ha)
      change s.m_txrequest.count peer ≤ _
      rw [hzero]
      exact Nat.zero_le _
    · rw [lookup_insert_ne hpeer] at hlookup
      exact h.bounded peer info' hlookup hrelay
  · have hsum : sumBy (·.m_wtxid_relay.toNat) (s.m_peer_info.insert nodeid info) =
        info.m_wtxid_relay.toNat + sumBy (·.m_wtxid_relay.toNat) s.m_peer_info := by
      rw [sumBy_insert, sumBy_erase_of_none _ (lookup_eq_none.mpr hnew)]
    simp only [hsum, BitVec.ofNat_add, ← h.wtxid]
    cases info.m_wtxid_relay with
    | true => exact BitVec.add_comm _ _
    | false => exact (BitVec.zero_add _).symm

theorem disconnectedPeer_spec (nodeid : Int) :
    ∃ s', s.disconnectedPeer nodeid = .ok s' ∧ Inv s' ∧ s'.m_peer_info = s.m_peer_info.erase nodeid := by
  obtain ⟨_, horphanage, hcons, -, -⟩ := h.consistent.eraseForPeer nodeid
  obtain ⟨tracker, htracker, hsane⟩ := TxRequest.Tracker.disconnectedPeer_spec h.sane nodeid
  obtain ⟨hmore, hgone⟩ := TxRequest.Tracker.disconnectedPeer_gone h.sane htracker
  have hwithin := h.within.eraseForPeer h.consistent horphanage
  have hleft : ∀ peer, peer ∈ s.m_peer_info ∧ peer ≠ nodeid → peer ∈ s.m_peer_info.erase nodeid := fun peer hpeer =>
    (mem_erase).mpr ⟨hpeer.2, hpeer.1⟩
  have hannounced : ∀ peer txhash, tracker.Announces peer txhash → peer ∈ s.m_peer_info.erase nodeid := by
    rintro peer txhash ⟨a, ha, rfl, rfl⟩
    exact hleft a.peer ⟨h.announced a.peer a.txhash (hmore _ _ ⟨a, ha, rfl, rfl⟩), hgone a ha⟩
  have hbounded : ∀ peer info, (s.m_peer_info.erase nodeid).lookup peer = some info → info.m_relay_permissions = false →
      tracker.count peer ≤ MAX_PEER_TX_ANNOUNCEMENTS := by
    intro peer info hlookup hrelay
    by_cases hpeer : peer = nodeid
    · rw [hpeer, lookup_erase] at hlookup
      cases hlookup
    · rw [lookup_erase_ne hpeer] at hlookup
      exact (TxRequest.Tracker.count_le h.sane.toKept hsane.toKept hmore peer).trans
        (h.bounded peer info hlookup hrelay)
  unfold disconnectedPeer
  rw [horphanage, ok_bind, htracker, ok_bind]
  cases hlookup : s.m_peer_info.lookup nodeid with
  | none =>
    have hsame : s.m_peer_info.erase nodeid = s.m_peer_info :=
      ext (kerase_of_notMem_keys (lookup_eq_none.mp hlookup))
    refine ⟨_, rfl, ⟨hsane, hcons, ?_, ?_, ?_, h.wtxid⟩, hsame.symm⟩
    · exact hsame ▸ hwithin.mono hleft
    · exact hsame ▸ hannounced
    · exact hsame ▸ hbounded
  | some info =>
    refine ⟨_, rfl, ⟨hsane, hcons, hwithin.mono hleft, hannounced, hbounded, ?_⟩, rfl⟩
    have hsum := sumBy_of_lookup (·.m_wtxid_relay.toNat) hlookup
    have hwtxid := h.wtxid
    rw [hsum, BitVec.ofNat_add] at hwtxid
    simp only [hwtxid]
    cases info.m_wtxid_relay with
    | true => exact (BitVec.add_comm _ _).symm ▸ BitVec.add_sub_cancel _ _
    | false => exact BitVec.zero_add _

end

/-! ## Announcements -/

theorem receivedInvs_spec {tracker : Tracker comp} (h : Sane tracker) (peer : Int) (txids : List Uint256)
    (preferred : Bool) (reqtime : Int) {tracker' : Tracker comp}
    (heq : txids.foldl (fun tracker txid => tracker.receivedInv peer ⟨false, txid⟩ preferred reqtime) tracker =
      tracker') :
    Sane tracker' ∧ (∀ p txhash, tracker'.Announces p txhash → p = peer ∨ tracker.Announces p txhash) ∧
      ∀ p, tracker'.count p ≤ tracker.count p + if p = peer then txids.length else 0 := by
  induction txids generalizing tracker with
  | nil =>
    cases heq
    exact ⟨h, fun _ _ => .inr, fun p => Nat.le_add_right _ _⟩
  | cons txid txids ih =>
    obtain ⟨hsane, hannounced, hcount⟩ := TxRequest.Tracker.receivedInv_spec h peer ⟨false, txid⟩ preferred reqtime
    obtain ⟨hsane', hannounced', hcount'⟩ := ih hsane heq
    refine ⟨hsane', fun p txhash ha => ?_, fun p => ?_⟩
    · rcases hannounced' p txhash ha with hp | ha
      · exact .inl hp
      · exact hannounced p txhash ha
    · have h1 := hcount p
      have h2 := hcount' p
      rw [length_cons]
      split at h1
      · next hp =>
        rw [if_pos hp] at h2 ⊢
        omega
      · next hp =>
        rw [if_neg hp] at h2 ⊢
        omega

theorem Inv.announce (h : Inv s) {peer : Int} {info : TxDownloadConnectionInfo} {room : Nat}
    (hpeer : s.m_peer_info.lookup peer = some info)
    (hroom : info.m_relay_permissions = false → s.m_txrequest.count peer + room ≤ MAX_PEER_TX_ANNOUNCEMENTS)
    (hsane : Sane m_txrequest)
    (hannounced : ∀ p txhash, m_txrequest.Announces p txhash → p = peer ∨ s.m_txrequest.Announces p txhash)
    (hcount : ∀ p, m_txrequest.count p ≤ s.m_txrequest.count p + if p = peer then room else 0) :
    Goes s { s with m_txrequest } := by
  refine ⟨⟨hsane, h.consistent, h.within, fun p txhash ha => ?_, fun p info' hlookup hrelay => ?_, h.wtxid⟩, rfl⟩
  · rcases hannounced p txhash ha with rfl | ha
    · exact lookup_isSome.mp (Option.isSome_of_mem hpeer)
    · exact h.announced p txhash ha
  · have hle := hcount p
    split at hle
    · next hp =>
      subst hp
      have hsame := hlookup.symm.trans hpeer
      cases hsame
      exact hle.trans (hroom hrelay)
    · exact hle.trans (h.bounded p info' hlookup hrelay)

theorem maybeAdd_spec (h : Inv s) (unique_parents : List Uint256) (wtxid : Uint256) (nodeid now : Int) {added : Bool}
    (heq : s.maybeAddOrphanResolutionCandidate unique_parents wtxid nodeid now = (added, s')) :
    Goes s s' ∧ (added = true → nodeid ∈ s'.m_peer_info) := by
  unfold maybeAddOrphanResolutionCandidate at heq
  split at heq
  · cases heq
    exact ⟨h.goes, fun h => by cases h⟩
  next info hpeer =>
  split at heq
  · cases heq
    exact ⟨h.goes, fun h => by cases h⟩
  split at heq
  · cases heq
    exact ⟨h.goes, fun h => by cases h⟩
  next hroom =>
  cases heq
  obtain ⟨hsane, hannounced, hcount⟩ := receivedInvs_spec h.sane nodeid unique_parents info.m_preferred
    (now + s.requestDelay nodeid info true) rfl
  refine ⟨h.announce hpeer (fun hrelay => ?_) hsane hannounced hcount, fun _ => ?_⟩
  · simpa [hrelay] using hroom
  · exact lookup_isSome.mp (Option.isSome_of_mem hpeer)

theorem addTxAnnouncement_spec (h : Inv s) (peer : Int) (gtxid : GenTxid) (now : Int) :
    ∃ r s', s.addTxAnnouncement filter env peer gtxid now = .ok (r, s') ∧ Goes s s' := by
  unfold addTxAnnouncement
  split
  · next orphan_tx _ =>
    dsimp only
    split
    · exact ⟨_, _, rfl, h.goes⟩
    · generalize hmaybe : s.maybeAddOrphanResolutionCandidate _ gtxid.hash peer now = result
      obtain ⟨_, _⟩ := result
      obtain ⟨hgoes, hpeer⟩ := maybeAdd_spec h _ _ _ _ hmaybe
      split
      · next hadded =>
        obtain ⟨_, orphanage, heq, hcons, -⟩ := hgoes.inv.consistent.addAnnouncer orphan_tx.witnessHash peer
        rw [heq]
        have hannounce := hgoes.inv.orphanage hcons (hgoes.inv.within.addAnnouncer (hpeer hadded) heq)
        exact ⟨_, _, rfl, hgoes.trans hannounce⟩
      · exact ⟨_, _, rfl, hgoes⟩
  split
  · exact ⟨_, _, rfl, h.goes⟩
  split
  · exact ⟨_, _, rfl, h.goes⟩
  next info hpeer =>
  split
  · exact ⟨_, _, rfl, h.goes⟩
  next hroom =>
  obtain ⟨hsane, hannounced, hcount⟩ := TxRequest.Tracker.receivedInv_spec h.sane peer gtxid info.m_preferred
    (now + s.requestDelay peer info !gtxid.isWtxid)
  refine ⟨_, _, rfl, h.announce hpeer (fun hrelay => ?_) hsane hannounced hcount⟩
  have : s.m_txrequest.count peer < MAX_PEER_TX_ANNOUNCEMENTS := by simpa [hrelay] using hroom
  omega

theorem sendRequest_spec {acc : List GenTxid × TxDownloadManagerImpl comp F} (h : Inv acc.2) (nodeid current_time : Int)
    (gtxid : GenTxid) : ∃ acc', sendRequest filter env nodeid current_time acc gtxid = .ok acc' ∧
      Goes acc.2 acc'.2 := by
  unfold sendRequest
  split
  · obtain ⟨tracker, heq, hsane⟩ := TxRequest.Tracker.requestedTx_spec h.sane nodeid gtxid.hash
      (current_time + GETDATA_TX_INTERVAL)
    rw [heq]
    exact ⟨_, rfl, h.tracker hsane (TxRequest.Tracker.requestedTx_noMore heq)⟩
  · obtain ⟨_, heq, hgoes⟩ := forgetTxHash_spec h gtxid.hash
    rw [heq]
    exact ⟨_, rfl, hgoes⟩

theorem getRequestsToSend_spec (h : Inv s) (nodeid current_time : Int) :
    ∃ r s', s.getRequestsToSend filter env nodeid current_time = .ok (r, s') ∧ Goes s s' := by
  obtain ⟨requestable, _, tracker, heq, hsane, -, -⟩ :=
    TxRequest.Tracker.getRequestable_spec h.sane nodeid current_time
  have hgoes := h.tracker hsane (TxRequest.Tracker.getRequestable_noMore heq)
  obtain ⟨⟨r, s'⟩, hfold, hgoes'⟩ := foldlM_rule (f := sendRequest filter env nodeid current_time) (l := requestable)
    (I := fun _ acc => Goes s acc.2) (s := ([], { s with m_txrequest := tracker }))
    (fun done gtxid acc _ hacc => by
      obtain ⟨acc', heq, hgoes⟩ := sendRequest_spec filter env hacc.inv nodeid current_time gtxid
      exact ⟨acc', heq, hacc.trans hgoes⟩) hgoes
  refine ⟨r, s', ?_, hgoes'⟩
  rw [getRequestsToSend, heq, ok_bind]
  exact hfold

/-! ## Packages -/

theorem getChildrenFromSamePeer_ok (h : Inv s) (address : Uint256 → Nat) (parent : CTransaction) (nodeid : Int) :
    ∃ children, s.m_orphanage.getChildrenFromSamePeer address parent nodeid = .ok children := by
  have hderef : ∀ l : List Uint256, (∀ w ∈ l, (s.m_orphanage.orphans.lookup w).isSome) →
      ∃ found, l.mapM s.m_orphanage.deref = .ok found := by
    intro l hl
    induction l with
    | nil => exact ⟨[], rfl⟩
    | cons w l ih =>
      obtain ⟨orphan, hlookup⟩ := Option.isSome_iff_exists.mp (hl w mem_cons_self)
      obtain ⟨found, heq⟩ := ih fun w hw => hl w (mem_cons_of_mem _ hw)
      exact ⟨(w, orphan) :: found, by rw [mapM_cons, deref, hlookup, heq]; rfl⟩
  obtain ⟨found, heq⟩ := hderef (s.m_orphanage.children parent) fun w hw => by
    obtain ⟨_, -, hw⟩ := mem_flatMap.mp hw
    exact h.consistent.spender_known hw
  exact ⟨_, by rw [getChildrenFromSamePeer, heq]; rfl⟩

theorem find1P1CPackage_ok (h : Inv s) (ptx : TransactionRef) (nodeid : Int) :
    ∃ package, s.find1P1CPackage filter sha256 env ptx nodeid = .ok package := by
  obtain ⟨_, heq⟩ := getChildrenFromSamePeer_ok h env.address ptx.toCTransaction nodeid
  exact ⟨_, by rw [find1P1CPackage, heq]; rfl⟩

theorem receivedTx_spec (h : Inv s) (nodeid : Int) (ptx : CTransactionRef) :
    ∃ r s', s.receivedTx filter sha256 env nodeid ptx = .ok (r, s') ∧ Goes s s' := by
  obtain ⟨s1, heq1, hgoes1⟩ := receivedResponse_spec h nodeid ptx.hash
  have hboth : ∃ s2, (if ptx.hasWitness then receivedResponse nodeid s1 ptx.witnessHash else .ok s1) = .ok s2 ∧
      Goes s s2 := by
    split
    · obtain ⟨s2, heq2, hgoes2⟩ := receivedResponse_spec hgoes1.inv nodeid ptx.witnessHash
      exact ⟨s2, heq2, hgoes1.trans hgoes2⟩
    · exact ⟨s1, rfl, hgoes1⟩
  obtain ⟨s2, heq2, hgoes2⟩ := hboth
  rw [receivedTx, heq1, ok_bind, heq2, ok_bind]
  split
  · exact ⟨_, _, rfl, hgoes2⟩
  split
  · obtain ⟨_, hpackage⟩ := find1P1CPackage_ok filter sha256 env hgoes2.inv ptx.toTransactionRef nodeid
    rw [hpackage]
    exact ⟨_, _, rfl, hgoes2⟩
  · exact ⟨_, _, rfl, hgoes2⟩

/-! ## Verdicts -/

variable (h : Inv s)
include h

theorem mempoolAcceptedTx_spec (tx : CTransactionRef) : ∃ s', s.mempoolAcceptedTx env tx = .ok s' ∧ Goes s s' := by
  obtain ⟨_, heq1, hgoes1⟩ := forgetTxHash_spec h tx.hash
  obtain ⟨s2, heq2, hgoes2⟩ := forgetTxHash_spec hgoes1.inv tx.witnessHash
  obtain ⟨_, hchildren, hconsistent1, -⟩ := hgoes2.inv.consistent.addChildrenToWorkSet tx.toCTransaction env.m_rng
  obtain ⟨_, o2, herase, hconsistent2, -⟩ := hconsistent1.eraseTx tx.witnessHash
  have hwithin := (hgoes2.inv.within.addChildrenToWorkSet hchildren).eraseTx herase
  refine ⟨{ s2 with m_orphanage := o2 }, ?_, (hgoes1.trans hgoes2).trans (hgoes2.inv.orphanage hconsistent2 hwithin)⟩
  rw [mempoolAcceptedTx, heq1, ok_bind, heq2, ok_bind, hchildren, ok_bind, herase]
  rfl

variable (ptx : CTransactionRef) (unique_parents : List Uint256) (result : Verdict) (nodeid : Int)
  (first_time_failure : Bool)

theorem addCandidate_spec (candidate : Int × Nat) :
    ∃ s', addCandidate env ptx unique_parents s candidate = .ok s' ∧ Goes s s' := by
  unfold addCandidate
  generalize hmaybe : s.maybeAddOrphanResolutionCandidate unique_parents ptx.witnessHash candidate.1 env.now = result
  obtain ⟨_, _⟩ := result
  obtain ⟨hgoes, hpeer⟩ := maybeAdd_spec h _ _ _ _ hmaybe
  dsimp only
  split
  · next hadded =>
    obtain ⟨_, orphanage, heq, hcons, -⟩ := hgoes.inv.consistent.addTx ptx.toTransactionRef candidate.1
      (env.clock candidate.2)
    rw [heq]
    exact ⟨_, rfl, hgoes.trans (hgoes.inv.orphanage hcons (hgoes.inv.within.addTx (hpeer hadded) heq))⟩
  · exact ⟨_, rfl, hgoes⟩

theorem limitOrphans_spec (maxOrphans : Nat) (nNow : Int) :
    ∃ orphanage, s.m_orphanage.limitOrphans maxOrphans nNow env.m_rng = .ok orphanage ∧
      Goes s { s with m_orphanage := orphanage } := by
  obtain ⟨orphanage, heq, hcons, -⟩ := h.consistent.limitOrphans maxOrphans nNow env.m_rng
  exact ⟨orphanage, heq, h.orphanage hcons (h.within.limitOrphans heq)⟩

theorem keepOrphan_spec :
    ∃ s', s.keepOrphan env ptx unique_parents nodeid = .ok s' ∧ Goes s s' := by
  unfold keepOrphan
  dsimp only
  generalize [nodeid] ++ s.m_txrequest.getCandidatePeers ptx.hash ++ _ = candidates
  obtain ⟨_, hfold, hgoes1⟩ := foldlM_rule (f := addCandidate env ptx unique_parents) (l := candidates.zipIdx)
    (I := fun _ t => Goes s t) (s := s) (fun done candidate t _ ht => by
      obtain ⟨t', heq, hgoes⟩ := addCandidate_spec env ht.inv ptx unique_parents candidate
      exact ⟨t', heq, ht.trans hgoes⟩) h.goes
  obtain ⟨_, hforget, hgoes2⟩ := forgetTxHash_spec hgoes1.inv ptx.hash
  obtain ⟨s3, hforget', hgoes3⟩ := forgetTxHash_spec hgoes2.inv ptx.witnessHash
  obtain ⟨_, hlimit, hgoes4⟩ := limitOrphans_spec env hgoes3.inv s3.m_max_orphan_txs (env.clock candidates.length)
  rw [hfold, ok_bind, hforget, ok_bind, hforget', ok_bind, hlimit]
  exact ⟨_, rfl, ((hgoes1.trans hgoes2).trans hgoes3).trans hgoes4⟩

theorem rejectOrphan_spec : ∃ s', s.rejectOrphan filter ptx = .ok s' ∧ Goes s s' := by
  have hfilters := h.filters (filter.insert (filter.insert s.m_recent_rejects ptx.hash) ptx.witnessHash)
    s.m_recent_rejects_reconsiderable s.m_recent_confirmed_transactions
  obtain ⟨s', heq, hgoes⟩ := forgetBoth_spec hfilters.inv ptx.hash ptx.witnessHash
  exact ⟨s', heq, hfilters.trans hgoes⟩

theorem rejectMissingInputs_spec :
    ∃ r s', s.rejectMissingInputs filter env ptx nodeid first_time_failure = .ok (r, s') ∧ Goes s s' := by
  unfold rejectMissingInputs
  split
  · split
    · obtain ⟨s', heq, hgoes⟩ := keepOrphan_spec env h ptx (s.missingParents filter env ptx.toCTransaction) nodeid
      dsimp only
      rw [heq]
      exact ⟨_, s', rfl, hgoes⟩
    · obtain ⟨s', heq, hgoes⟩ := rejectOrphan_spec filter h ptx
      rw [heq]
      exact ⟨_, s', rfl, hgoes⟩
  · exact ⟨_, s, rfl, h.goes⟩

theorem rejectOther_spec :
    ∃ r s', s.rejectOther filter sha256 env ptx result nodeid first_time_failure = .ok (r, s') ∧ Goes s s' := by
  unfold rejectOther
  dsimp only
  generalize hs1 : (if result = .reconsiderable then _ else _ : TxDownloadManagerImpl comp F) = s1
  have hgoes1 : Goes s s1 := by
    rw [← hs1]
    split
    · exact h.filters _ _ _
    · exact h.filters _ _ _
  have hpackage : ∃ package, (if result = .reconsiderable ∧ first_time_failure then
      s1.find1P1CPackage filter sha256 env ptx.toTransactionRef nodeid else .ok none) = .ok package := by
    split
    · exact find1P1CPackage_ok filter sha256 env hgoes1.inv ptx.toTransactionRef nodeid
    · exact ⟨none, rfl⟩
  obtain ⟨package, hpackage⟩ := hpackage
  obtain ⟨s2, hforget, hgoes2⟩ := forgetTxHash_spec hgoes1.inv ptx.witnessHash
  rw [hpackage, ok_bind, hforget, ok_bind]
  split
  · obtain ⟨s3, hforget', hgoes3⟩ := forgetTxHash_spec (hgoes2.inv.filters (filter.insert s2.m_recent_rejects ptx.hash)
      s2.m_recent_rejects_reconsiderable s2.m_recent_confirmed_transactions).inv ptx.hash
    rw [hforget']
    exact ⟨_, s3, rfl, (hgoes1.trans hgoes2).trans ⟨hgoes3.inv, hgoes3.peers⟩⟩
  · exact ⟨_, s2, rfl, hgoes1.trans hgoes2⟩

theorem rejectFor_spec :
    ∃ r s', s.rejectFor filter sha256 env ptx result nodeid first_time_failure = .ok (r, s') ∧ Goes s s' := by
  unfold rejectFor
  split
  · exact rejectMissingInputs_spec filter env h ptx nodeid first_time_failure
  split
  · exact ⟨_, s, rfl, h.goes⟩
  · exact rejectOther_spec filter sha256 env h ptx result nodeid first_time_failure

theorem mempoolRejectedTx_spec :
    ∃ r s', s.mempoolRejectedTx filter sha256 env ptx result nodeid first_time_failure = .ok (r, s') ∧ Goes s s' := by
  obtain ⟨todo, s1, heq, hgoes⟩ := rejectFor_spec filter sha256 env h ptx result nodeid first_time_failure
  rw [mempoolRejectedTx, heq, ok_bind]
  dsimp only
  split
  · exact ⟨todo, s1, rfl, hgoes⟩
  · obtain ⟨_, orphanage, herase, hcons, -⟩ := hgoes.inv.consistent.eraseTx ptx.witnessHash
    rw [herase]
    exact ⟨todo, _, rfl, hgoes.trans (hgoes.inv.orphanage hcons (hgoes.inv.within.eraseTx herase))⟩

omit h

end TxDownloadManagerImpl

/-! ## Runs -/

open TxDownloadManagerImpl

variable {comp : PriorityComputer} {F : Type} (filter : Filtering F) (sha256 : List Uint256 → Uint256)
  {s s' : TxDownloadManagerImpl comp F}

def peersAfter (peers : AssocMap Int TxDownloadConnectionInfo) : Event → AssocMap Int TxDownloadConnectionInfo
  | .connectedPeer nodeid info => if nodeid ∈ peers then peers else peers.insert nodeid info
  | .disconnectedPeer nodeid => peers.erase nodeid
  | _ => peers

def connected (events : List (Surroundings × Event)) : AssocMap Int TxDownloadConnectionInfo :=
  events.foldl (fun peers event => peersAfter peers event.2) ∅

def numWtxidPeers (peers : AssocMap Int TxDownloadConnectionInfo) : Nat := AssocMap.sumBy (·.m_wtxid_relay.toNat) peers

def initial (comp : PriorityComputer) (rejects reconsiderable confirmed : F) (max_orphan_txs : Nat) :
    TxDownloadManagerImpl comp F where
  m_max_orphan_txs := max_orphan_txs
  m_recent_rejects := rejects
  m_recent_rejects_reconsiderable := reconsiderable
  m_recent_confirmed_transactions := confirmed

theorem initial_inv (comp : PriorityComputer) (rejects reconsiderable confirmed : F) (max_orphan_txs : Nat) :
    Inv (initial comp rejects reconsiderable confirmed max_orphan_txs) := by
  refine ⟨TxRequest.Tracker.initial_sane, consistent_empty, ⟨?_, ?_⟩, ?_, ?_, rfl⟩
  · intro w o ho
    cases ho
  · intro p hp
    cases hp
  · rintro peer txhash ⟨_, ha, -⟩
    cases ha
  · intro peer info hlookup
    cases hlookup

theorem step_spec (env : Surroundings) (h : Inv s) (event : Event) :
    ∃ s', step filter sha256 env s event = .ok s' ∧ Inv s' ∧ s'.m_peer_info = peersAfter s.m_peer_info event := by
  have hsnd : ∀ {α : Type} {x : Checked (α × TxDownloadManagerImpl comp F)},
      (∃ r s', x = .ok (r, s') ∧ Goes s s') →
        ∃ s', (Prod.snd <$> x) = .ok s' ∧ Inv s' ∧ s'.m_peer_info = s.m_peer_info := by
    rintro α x ⟨r, s', rfl, hgoes⟩
    exact ⟨s', rfl, hgoes.inv, hgoes.peers⟩
  have hgo : ∀ {x : Checked (TxDownloadManagerImpl comp F)},
      (∃ s', x = .ok s' ∧ Goes s s') → ∃ s', x = .ok s' ∧ Inv s' ∧ s'.m_peer_info = s.m_peer_info := by
    rintro x ⟨s', rfl, hgoes⟩
    exact ⟨s', rfl, hgoes.inv, hgoes.peers⟩
  cases event with
  | activeTipChange tweak => exact hgo ⟨_, rfl, h.filters _ _ _⟩
  | blockConnected vtx => exact hgo (blockConnected_spec filter h vtx)
  | blockDisconnected tweak => exact hgo ⟨_, rfl, h.filters _ _ _⟩
  | connectedPeer nodeid info =>
    refine ⟨_, rfl, connectedPeer_inv h nodeid info, ?_⟩
    by_cases hold : nodeid ∈ s.m_peer_info
    all_goals simp [connectedPeer, peersAfter, hold]
  | disconnectedPeer nodeid => exact disconnectedPeer_spec h nodeid
  | addTxAnnouncement peer gtxid now => exact hsnd (addTxAnnouncement_spec filter env h peer gtxid now)
  | getRequestsToSend nodeid current_time => exact hsnd (getRequestsToSend_spec filter env h nodeid current_time)
  | receivedNotFound nodeid txhashes => exact hgo (receivedNotFound_spec h nodeid txhashes)
  | receivedTx nodeid ptx => exact hsnd (receivedTx_spec filter sha256 env h nodeid ptx)
  | mempoolAcceptedTx tx => exact hgo (mempoolAcceptedTx_spec env h tx)
  | mempoolRejectedTx ptx result nodeid first_time_failure =>
    exact hsnd (mempoolRejectedTx_spec filter sha256 env h ptx result nodeid first_time_failure)
  | mempoolRejectedPackage package => exact hgo ⟨_, rfl, h.filters _ _ _⟩
  | getTxToReconsider nodeid =>
    exact hgo ⟨_, rfl, h.orphanage (h.consistent.getTxToReconsider nodeid).1 (h.within.getTxToReconsider nodeid)⟩
  | setMaxOrphanTxs max_orphan_txs =>
    obtain ⟨orphanage, heq, hgoes⟩ := limitOrphans_spec env h max_orphan_txs (env.clock 0)
    refine hgo ⟨{ s with m_max_orphan_txs := max_orphan_txs, m_orphanage := orphanage }, ?_, ?_⟩
    · change setMaxOrphanTxs env s max_orphan_txs = _
      rw [setMaxOrphanTxs, heq]
      rfl
    · exact ⟨⟨hgoes.inv.sane, hgoes.inv.consistent, hgoes.inv.within, hgoes.inv.announced, hgoes.inv.bounded,
        hgoes.inv.wtxid⟩, rfl⟩

theorem run_spec (h : Inv s) (events : List (Surroundings × Event)) :
    ∃ s', run filter sha256 s events = .ok s' ∧ Inv s' ∧
    s'.m_peer_info = events.foldl (fun peers event => peersAfter peers event.2) s.m_peer_info := by
  induction events generalizing s with
  | nil => exact ⟨s, rfl, h, rfl⟩
  | cons event events ih =>
    obtain ⟨_, hstep, h1, hpeers1⟩ := step_spec filter sha256 event.1 h event.2
    obtain ⟨s', hrun, h', hpeers⟩ := ih h1
    refine ⟨s', ?_, h', ?_⟩
    · unfold run at hrun ⊢
      rw [foldlM_cons, hstep, ok_bind, hrun]
    · rw [hpeers, hpeers1, foldl_cons]

/-! ## What is left of a peer -/

structure Released (s : TxDownloadManagerImpl comp F) (peer : Int) : Prop where
  announcements : ∀ a ∈ s.m_txrequest.index, a.peer ≠ peer
  entry : s.m_orphanage.peerOrphanageInfo.lookup peer = none
  announcers : ∀ w o, s.m_orphanage.orphans.lookup w = some o → peer ∉ o.announcers
  work : s.m_orphanage.haveTxToReconsider peer = false
  empty : s.checkIsEmptyFor peer = .ok ()

theorem released_of_gone (h : Inv s) {peer : Int} (hgone : peer ∉ s.m_peer_info) : Released s peer := by
  have hnone : s.m_orphanage.peerOrphanageInfo.lookup peer = none := by
    rw [← Option.not_isSome_iff_eq_none]
    exact fun hentry => hgone (h.within.entries peer hentry)
  have hcount : s.m_txrequest.count peer = 0 := by
    rw [TxRequest.Tracker.count_zero_iff h.sane.toKept]
    exact fun txhash ha => hgone (h.announced peer txhash ha)
  refine ⟨?_, hnone, fun w o ho hpeer => hgone (h.within.announced w o ho peer hpeer), ?_, ?_⟩
  · rintro a ha rfl
    exact hgone (h.announced a.peer a.txhash ⟨a, ha, rfl, rfl⟩)
  · rw [haveTxToReconsider, hnone]
    rfl
  · rw [checkIsEmptyFor, hcount, usageByPeer, hnone]
    rfl

theorem checkIsEmpty_ok (h : Inv s) (hgone : ∀ peer, peer ∉ s.m_peer_info) : s.checkIsEmpty = .ok () := by
  have horphans : s.m_orphanage.orphans.entries = [] := by
    rw [eq_nil_iff_forall_not_mem]
    intro e he
    have hlookup : s.m_orphanage.orphans.lookup e.1 = some e.2 := mem_lookup_iff.mpr he
    obtain ⟨hne, -⟩ := h.consistent.attended e.1 e.2 hlookup
    obtain ⟨peer, hpeer⟩ := exists_mem_of_ne_nil _ hne
    exact hgone peer (h.within.announced e.1 e.2 hlookup peer hpeer)
  have hpeers : s.m_peer_info.entries = [] := by
    rw [eq_nil_iff_forall_not_mem]
    exact fun e he => hgone e.1 (mem_keys.mpr (mem_map_of_mem he))
  have husage : s.m_orphanage.totalOrphanUsage = 0 := by
    rw [h.consistent.counted.usage, usage, sumBy, horphans]
    rfl
  have hrequests : s.m_txrequest.byPeer = [] := by
    rw [eq_nil_iff_forall_not_mem]
    exact fun a ha => hgone a.peer (h.announced a.peer a.txhash ⟨a, ha, rfl, rfl⟩)
  have hwtxid : s.m_num_wtxid_peers = 0 := by
    rw [h.wtxid, sumBy, hpeers]
    rfl
  rw [checkIsEmpty, husage, horphans, TxRequest.Tracker.size, hrequests, hwtxid]
  rfl

/-- Every run goes through, its peers bounded and released. -/
theorem run_released (comp : PriorityComputer) (rejects reconsiderable confirmed : F) (max_orphan_txs : Nat)
    (events : List (Surroundings × Event)) :
    ∃ s, run filter sha256 (initial comp rejects reconsiderable confirmed max_orphan_txs) events = .ok s ∧
      (∀ peer, peer ∉ connected events → Released s peer) ∧ s.m_num_wtxid_peers.toNat = numWtxidPeers
      (connected events) % 2 ^ 32 ∧ (∀ peer info, (connected events).lookup peer = some info →
        info.m_relay_permissions = false →
        s.m_txrequest.count peer ≤ MAX_PEER_TX_ANNOUNCEMENTS) ∧
          ((∀ peer, peer ∉ connected events) → s.checkIsEmpty = .ok ()) := by
  obtain ⟨s, hrun, h, hpeers⟩ := run_spec filter sha256
    (initial_inv comp rejects reconsiderable confirmed max_orphan_txs) events
  have hconnected : connected events = s.m_peer_info := hpeers.symm
  rw [hconnected]
  refine ⟨s, hrun, fun peer hgone => released_of_gone h hgone, ?_, h.bounded, checkIsEmpty_ok h⟩
  rw [h.wtxid, BitVec.toNat_ofNat, numWtxidPeers]

end FullNode.TxDownload

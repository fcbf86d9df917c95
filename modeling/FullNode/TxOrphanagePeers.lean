import FullNode.Lib.Loop
import FullNode.TxOrphanageRuns

/-! # The peers in the orphanage -/

namespace FullNode.Orphanage

open OrderedIndex AList
open TxOrphanage

variable {s s' : TxOrphanage} {wtxid : Uint256} {peer : Int} {connected : Int → Prop} {added : Bool}

def AnnouncedBy (connected : Int → Prop) (s : TxOrphanage) : Prop :=
  ∀ w o, s.orphans.lookup w = some o → ∀ p ∈ o.announcers, connected p

def EntriesOf (connected : Int → Prop) (s : TxOrphanage) : Prop :=
  ∀ p, (s.peerOrphanageInfo.lookup p).isSome → connected p

structure Within (connected : Int → Prop) (s : TxOrphanage) : Prop where
  announced : AnnouncedBy connected s
  entries : EntriesOf connected s

theorem Within.mono {known : Int → Prop} (h : Within connected s) (hsub : ∀ p, connected p → known p) :
    Within known s :=
  ⟨fun w o ho p hp => hsub p (h.announced w o ho p hp), fun p hp => hsub p (h.entries p hp)⟩

theorem AnnouncedBy.insert (h : AnnouncedBy connected s) {o : OrphanTx} (ho : ∀ p ∈ o.announcers, connected p)
    (horphans : s'.orphans = s.orphans.insert wtxid o) : AnnouncedBy connected s' := by
  intro w o' ho'
  rw [horphans] at ho'
  rcases AssocMap.lookup_insert_cases ho' with ⟨-, rfl⟩ | ⟨-, ho'⟩
  · exact ho
  · exact h w o' ho'

theorem EntriesOf.insert (h : EntriesOf connected s) (hpeer : connected peer) {info : PeerOrphanInfo}
    (hinfos : s'.peerOrphanageInfo = s.peerOrphanageInfo.insert peer info) : EntriesOf connected s' := by
  intro p hp
  rw [hinfos] at hp
  by_cases heq : p = peer
  · rwa [heq]
  · rw [lookup_insert_ne heq] at hp
    exact h p hp

/-! ## Announcements -/

theorem Within.addAnnouncer (h : Within connected s) (hpeer : connected peer)
    (heq : s.addAnnouncer wtxid peer = .ok (added, s')) : Within connected s' := by
  unfold TxOrphanage.addAnnouncer at heq
  split at heq
  · cases heq
    exact h
  next orphan hlookup =>
  obtain ⟨_, -, heq⟩ := bind_ok.mp heq
  split at heq
  · cases heq
    exact h
  · cases heq
    refine ⟨h.announced.insert (fun p hp => ?_) rfl, h.entries.insert hpeer rfl⟩
    rcases mem_insertNew.mp hp with rfl | hp
    · exact hpeer
    · exact h.announced wtxid orphan hlookup p hp

theorem Within.addTx (h : Within connected s) (hpeer : connected peer) {tx : TransactionRef} {now : Int}
    (heq : s.addTx tx peer now = .ok (added, s')) : Within connected s' := by
  unfold TxOrphanage.addTx at heq
  split at heq
  · obtain ⟨⟨_, _⟩, hannounce, heq⟩ := bind_ok.mp heq
    cases heq
    exact h.addAnnouncer hpeer hannounce
  split at heq
  · cases heq
    exact h
  · cases heq
    refine ⟨h.announced.insert (fun p hp => ?_) rfl, h.entries.insert hpeer rfl⟩
    rw [List.mem_singleton.mp hp]
    exact hpeer

/-! ## Erasure -/

theorem subPeerUsage_peers {txSize : Uint32} {announcers : List Int} (heq : subPeerUsage txSize announcers s = .ok s') :
    s'.orphans = s.orphans ∧ s'.orphanList = s.orphanList ∧ (EntriesOf connected s → EntriesOf connected s') := by
  induction announcers generalizing s with
  | nil =>
    cases heq
    exact ⟨rfl, rfl, id⟩
  | cons q announcers ih =>
    unfold subPeerUsage at heq
    split at heq
    · cases heq
    next info hlookup =>
    obtain ⟨horphans, hlist, hentries⟩ := ih heq
    refine ⟨horphans, hlist, fun h => hentries (EntriesOf.insert h ?_ rfl)⟩
    exact h q (Option.isSome_of_mem hlookup)

theorem moveLast_peers {oldPos : Nat} (heq : s.moveLast oldPos = .ok s') :
    s'.peerOrphanageInfo = s.peerOrphanageInfo ∧ (AnnouncedBy connected s → AnnouncedBy connected s') := by
  unfold moveLast at heq
  split at heq
  · split at heq
    · cases heq
    split at heq
    · cases heq
    next orphan hlookup =>
    cases heq
    exact ⟨rfl, fun h => h.insert (o := { orphan with listPos := oldPos }) (h _ orphan hlookup) rfl⟩
  · cases heq
    exact ⟨rfl, id⟩

theorem eraseTx_peers {n : Nat} (heq : s.eraseTx wtxid = .ok (n, s')) :
    (AnnouncedBy connected s → AnnouncedBy connected s') ∧ (EntriesOf connected s → EntriesOf connected s') := by
  unfold eraseTx at heq
  split at heq
  · cases heq
    exact ⟨id, id⟩
  next orphan hlookup =>
  obtain ⟨s1, hsub, heq⟩ := bind_ok.mp heq
  obtain ⟨_, -, heq⟩ := bind_ok.mp heq
  obtain ⟨s2, hmove, heq⟩ := bind_ok.mp heq
  cases heq
  obtain ⟨horphans, -, hentries⟩ := subPeerUsage_peers hsub
  obtain ⟨hinfos, hannounced⟩ := moveLast_peers hmove
  constructor
  · intro h w o ho
    have hstart : AnnouncedBy connected s1 := by
      intro w o ho
      rw [horphans] at ho
      exact h w o ho
    by_cases hw : w = wtxid
    · rw [hw, lookup_erase] at ho
      cases ho
    · rw [lookup_erase_ne hw] at ho
      exact hannounced hstart w o ho
  · intro h p hp
    change (s2.peerOrphanageInfo.lookup p).isSome at hp
    rw [hinfos] at hp
    exact hentries h p hp

theorem Within.eraseTx (h : Within connected s) {n : Nat} (heq : s.eraseTx wtxid = .ok (n, s')) : Within connected s' :=
  ⟨(eraseTx_peers heq).1 h.announced, (eraseTx_peers heq).2 h.entries⟩

theorem Within.eraseAll (h : Within connected s) {wtxids : List Uint256} (heq : eraseAll wtxids s = .ok s') :
    Within connected s' := by
  induction wtxids generalizing s with
  | nil =>
    cases heq
    exact h
  | cons wtxid wtxids ih =>
    obtain ⟨⟨_, _⟩, herase, heq⟩ := bind_ok.mp heq
    exact ih (h.eraseTx herase) heq

theorem Within.eraseForBlock (h : Within connected s) {vtx : List CTransaction} (heq : s.eraseForBlock vtx = .ok s') :
    Within connected s' := by
  unfold TxOrphanage.eraseForBlock at heq
  split at heq
  · cases heq
    exact h
  · obtain ⟨_, -, heq⟩ := bind_ok.mp heq
    exact h.eraseAll heq

variable {nNow : Int} {rng : Nat → Nat}

theorem Within.sweepOne {acc acc' : Int × TxOrphanage} (h : Within connected acc.2)
    (heq : sweepOne nNow acc wtxid = .ok acc') : Within connected acc'.2 := by
  unfold TxOrphanage.sweepOne at heq
  split at heq
  · cases heq
  split at heq
  · obtain ⟨⟨_, _⟩, herase, heq⟩ := bind_ok.mp heq
    cases heq
    exact h.eraseTx herase
  · cases heq
    exact h

section

variable (h : Within connected s)
include h

theorem Within.sweep (heq : s.sweep nNow = .ok s') : Within connected s' := by
  unfold TxOrphanage.sweep at heq
  split at heq
  · obtain ⟨⟨_, s1⟩, hfold, heq⟩ := bind_ok.mp heq
    cases heq
    have hswept : Within connected s1 :=
      foldlM_keeps (P := fun acc : Int × TxOrphanage => Within connected acc.2)
        (fun _ _ _ hone hacc => hacc.sweepOne hone) hfold h
    exact ⟨hswept.announced, hswept.entries⟩
  · cases heq
    exact h

theorem Within.evict {maxOrphans rounds : Nat}
    (heq : evict maxOrphans rng rounds s = .ok s') : Within connected s' := by
  induction rounds generalizing s with
  | zero => cases heq
  | succ rounds ih =>
    unfold evict at heq
    split at heq
    · obtain ⟨_, -, heq⟩ := bind_ok.mp heq
      split at heq
      · cases heq
      · obtain ⟨⟨_, _⟩, herase, heq⟩ := bind_ok.mp heq
        exact ih (h.eraseTx herase) heq
    · cases heq
      exact h

theorem Within.limitOrphans {maxOrphans : Nat}
    (heq : s.limitOrphans maxOrphans nNow rng = .ok s') : Within connected s' := by
  obtain ⟨_, hsweep, heq⟩ := bind_ok.mp heq
  exact (h.sweep hsweep).evict heq

/-! ## Work sets -/

theorem Within.assignWork {raw : Nat} (heq : assignWork raw s wtxid = .ok s') : Within connected s' := by
  unfold TxOrphanage.assignWork at heq
  split at heq
  · cases heq
  next orphan hlookup =>
  obtain ⟨_, -, heq⟩ := bind_ok.mp heq
  obtain ⟨_, -, heq⟩ := bind_ok.mp heq
  split at heq
  · cases heq
  · next announcer hget =>
    cases heq
    refine ⟨h.announced, h.entries.insert ?_ rfl⟩
    exact h.announced wtxid orphan hlookup announcer (List.mem_of_getElem? hget)

theorem Within.addChildrenToWorkSet {tx : CTransaction}
    (heq : s.addChildrenToWorkSet tx rng = .ok s') : Within connected s' :=
  foldlM_keeps (P := Within connected) (fun _ _ _ hone hacc => hacc.assignWork hone) heq h

theorem Within.getTxToReconsider (peer : Int) : Within connected (s.getTxToReconsider peer).2 := by
  unfold TxOrphanage.getTxToReconsider
  split
  · exact h
  · next info hlookup => exact ⟨h.announced, h.entries.insert (h.entries peer (Option.isSome_of_mem hlookup)) rfl⟩

end

/-! ## Disconnecting -/

theorem forgetAnnouncer_peers (heq : forgetAnnouncer peer s wtxid = .ok s') :
    (AnnouncedBy connected s → AnnouncedBy connected s') ∧ (EntriesOf connected s → EntriesOf connected s') := by
  unfold forgetAnnouncer at heq
  split at heq
  · cases heq
  next orphan hlookup =>
  split at heq
  · have hless : AnnouncedBy connected s → AnnouncedBy connected (withoutAnnouncer peer s wtxid orphan) := fun h =>
      h.insert (fun p hp => h wtxid orphan hlookup p (List.mem_of_mem_erase hp)) rfl
    dsimp only at heq
    split at heq
    · obtain ⟨⟨_, _⟩, herase, heq⟩ := bind_ok.mp heq
      cases heq
      exact ⟨fun h => (eraseTx_peers herase).1 (hless h), (eraseTx_peers herase).2⟩
    · cases heq
      exact ⟨hless, id⟩
  · cases heq
    exact ⟨id, id⟩

theorem Within.eraseForPeer (h : Within connected s) (hconsistent : Consistent s)
    (heq : s.eraseForPeer peer = .ok s') : Within (fun p => connected p ∧ p ≠ peer) s' := by
  obtain ⟨_, heq1, -, -, hgone⟩ := hconsistent.eraseForPeer peer
  rw [heq] at heq1
  cases heq1
  constructor
  · have hannounced : AnnouncedBy connected s' :=
      foldlM_keeps (P := AnnouncedBy connected) (fun _ _ _ hone hacc => (forgetAnnouncer_peers hone).1 hacc)
        heq h.announced
    intro w o ho p hp
    refine ⟨hannounced w o ho p hp, ?_⟩
    rintro rfl
    exact hgone w o ho hp
  · refine foldlM_keeps (P := EntriesOf fun p => connected p ∧ p ≠ peer)
      (fun _ _ _ hone hacc => (forgetAnnouncer_peers hone).2 hacc) heq fun p hp => ?_
    by_cases hpeer : p = peer
    · rw [hpeer, lookup_erase] at hp
      cases hp
    · rw [lookup_erase_ne hpeer] at hp
      exact ⟨h.entries p hp, hpeer⟩

end FullNode.Orphanage

import FullNode.TxOrphanageExact

/-! # Runs of the orphanage -/

namespace FullNode.Orphanage

open OrderedIndex List AssocMap AList
open TxOrphanage

variable {s s' : TxOrphanage} {wtxid w : Uint256} {orphan : OrphanTx} {peer : Int} {keys : List Uint256}

/-! ## Erasing a peer -/

structure Forgetting (peer : Int) (keys : List Uint256) (s : TxOrphanage) : Prop where
  indexed : s.Indexed
  counted : s.Counted
  dropped : s.peerOrphanageInfo.lookup peer = none
  known : ∀ w ∈ keys, (s.orphans.lookup w).isSome
  announced : ∀ w o, s.orphans.lookup w = some o → o.announcers ≠ []
  infos : ∀ w o, s.orphans.lookup w = some o → ∀ q ∈ o.announcers, q ≠ peer → (s.peerOrphanageInfo.lookup q).isSome
  later : ∀ w o, s.orphans.lookup w = some o → peer ∈ o.announcers → w ∈ keys

def withoutAnnouncer (peer : Int) (s : TxOrphanage) (wtxid : Uint256) (orphan : OrphanTx) : TxOrphanage :=
  { s with
    orphans := s.orphans.insert wtxid { orphan with announcers := orphan.announcers.erase peer }
    totalAnnouncements := s.totalAnnouncements - 1
    underflowed := s.underflowed || s.totalAnnouncements < 1 }

theorem TxOrphanage.Indexed.announcers (h : s.Indexed) (hlookup : s.orphans.lookup wtxid = some orphan)
    {announcers : List Int} (hnodup : announcers.Nodup) (hlist : s'.orphanList = s.orphanList)
    (hindex : s'.outpointToOrphanIt = s.outpointToOrphanIt)
    (horphans : s'.orphans = s.orphans.insert wtxid { orphan with announcers }) : s'.Indexed := by
  have hlook : ∀ w o, s'.orphans.lookup w = some o →
      (w = wtxid ∧ o = { orphan with announcers }) ∨ (w ≠ wtxid ∧ s.orphans.lookup w = some o) := by
    intro w o ho
    rw [horphans] at ho
    by_cases hw : w = wtxid
    · rw [hw, lookup_insert] at ho
      exact .inl ⟨hw, (Option.some.inj ho).symm⟩
    · rw [lookup_insert_ne hw] at ho
      exact .inr ⟨hw, ho⟩
  constructor
  · intro w o ho
    rcases hlook w o ho with ⟨rfl, rfl⟩ | ⟨-, ho⟩
    · exact h.keyed w orphan hlookup
    · exact h.keyed w o ho
  · intro w o ho
    rcases hlook w o ho with ⟨rfl, rfl⟩ | ⟨-, ho⟩
    · exact hnodup
    · exact h.nodup w o ho
  · rw [hlist, horphans]
    exact h.placed.update hlookup rfl
  · rw [hindex]
    exact h.tidy
  · intro p w
    rw [hindex, h.spends, horphans]
    by_cases hw : w = wtxid
    · rw [hw, hlookup, lookup_insert]
      simp
    · rw [lookup_insert_ne hw]

theorem withoutAnnouncer_usage (hlookup : s.orphans.lookup wtxid = some orphan) :
    (withoutAnnouncer peer s wtxid orphan).usage = s.usage := by
  have hweight : OrphanTx.getUsage { orphan with announcers := orphan.announcers.erase peer } = orphan.getUsage := rfl
  unfold usage withoutAnnouncer
  exact sumBy_insert_same hlookup (by rw [hweight])

theorem withoutAnnouncer_announcements (hlookup : s.orphans.lookup wtxid = some orphan)
    (hpeer : peer ∈ orphan.announcers) :
    s.announcements = 1 + (withoutAnnouncer peer s wtxid orphan).announcements := by
  unfold withoutAnnouncer announcements
  rw [sumBy_insert, sumBy_of_lookup _ hlookup, length_erase_of_mem hpeer]
  have hpos := length_pos_of_mem hpeer
  omega

theorem withoutAnnouncer_counted (hcounted : s.Counted) (hlookup : s.orphans.lookup wtxid = some orphan)
    (hpeer : peer ∈ orphan.announcers) (hdropped : s.peerOrphanageInfo.lookup peer = none) :
    (withoutAnnouncer peer s wtxid orphan).Counted := by
  refine ⟨?_, ?_, ?_⟩
  · rw [withoutAnnouncer_usage hlookup]
    exact hcounted.usage
  · have htotal := withoutAnnouncer_announcements hlookup hpeer
    change s.totalAnnouncements - BitVec.ofNat 32 1 = _
    rw [hcounted.announcements, htotal]
    exact ofNat_sub
  · intro q info hq
    have hne : q ≠ peer := by
      rintro rfl
      rw [show (withoutAnnouncer q s wtxid orphan).peerOrphanageInfo.lookup q = none from hdropped] at hq
      cases hq
    refine (hcounted.peers q info hq).trans ?_
    unfold usageBy withoutAnnouncer
    congr 1
    refine (sumBy_insert_same hlookup ?_).symm
    unfold usageFor
    simp only [mem_erase_of_ne hne]
    rfl

theorem withoutAnnouncer_quiet (hcounted : s.Counted) (hlookup : s.orphans.lookup wtxid = some orphan)
    (hpeer : peer ∈ orphan.announcers) (hfits : s.Fits) :
    (withoutAnnouncer peer s wtxid orphan).Fits ∧
      (withoutAnnouncer peer s wtxid orphan).underflowed = s.underflowed := by
  have htotal := withoutAnnouncer_announcements hlookup hpeer
  have husage : (withoutAnnouncer peer s wtxid orphan).usage = s.usage := withoutAnnouncer_usage hlookup
  obtain ⟨_, hfitsAnnounced⟩ := hfits
  refine ⟨⟨by omega, by omega⟩, ?_⟩
  have hnot : ¬ s.totalAnnouncements < 1 := by
    rw [hcounted.announcements]
    exact not_lt_of_fits hfitsAnnounced (by omega : 1 ≤ s.announcements)
  unfold withoutAnnouncer
  simp only
  rw [decide_eq_false hnot, Bool.or_false]

theorem forgetAnnouncer_spec (hnot : wtxid ∉ keys) (h : Forgetting peer (wtxid :: keys) s) :
    ∃ s', forgetAnnouncer peer s wtxid = .ok s' ∧ Forgetting peer keys s' ∧
      (s.Fits → s'.Fits ∧ s'.underflowed = s.underflowed) := by
  obtain ⟨orphan, hlookup⟩ := Option.isSome_iff_exists.mp (h.known wtxid mem_cons_self)
  unfold forgetAnnouncer
  simp only [hlookup]
  split
  · next hpeer =>
    have hindexed : (withoutAnnouncer peer s wtxid orphan).Indexed :=
      h.indexed.announcers hlookup ((h.indexed.nodup wtxid orphan hlookup).erase peer) rfl rfl rfl
    have hcounted := withoutAnnouncer_counted h.counted hlookup hpeer h.dropped
    have hquiet := withoutAnnouncer_quiet h.counted hlookup hpeer
    have hlook : ∀ w, (withoutAnnouncer peer s wtxid orphan).orphans.lookup w =
        if w = wtxid then some { orphan with announcers := orphan.announcers.erase peer } else s.orphans.lookup w := by
      intro w
      unfold withoutAnnouncer
      split
      · next hw => rw [hw, AList.lookup_insert]
      · next hw => rw [AList.lookup_insert_ne hw]
    split
    · next hempty =>
      -- The last announcer is gone, so the orphan goes too.
      rw [List.isEmpty_iff] at hempty
      have hself := hlook wtxid
      rw [if_pos rfl] at hself
      obtain ⟨s', heq, hindexed', hcounted', herased⟩ := eraseTx_spec hindexed hcounted hself (by
        intro q hq
        simp only [hempty] at hq
        cases hq)
      have hold : ∀ w o, s'.orphans.lookup w = some o → w ≠ wtxid ∧ ∃ pos,
          s.orphans.lookup w = some { o with listPos := pos } := by
        intro w o ho
        have hw : w ≠ wtxid := by
          rintro rfl
          rw [herased.gone] at ho
          cases ho
        obtain ⟨pos, hpos⟩ := herased.old w o ho
        rw [hlook, if_neg hw] at hpos
        exact ⟨hw, pos, hpos⟩
      have hinfos : ∀ q, (s'.peerOrphanageInfo.lookup q).isSome = (s.peerOrphanageInfo.lookup q).isSome := herased.infos
      refine ⟨s', ?_, ⟨hindexed', hcounted', ?_, ?_, ?_, ?_, ?_⟩, ?_⟩
      · rw [h.indexed.keyed wtxid orphan hlookup]
        change (withoutAnnouncer peer s wtxid orphan).eraseTx wtxid >>= _ = _
        rw [heq]
        rfl
      · have hnone := hinfos peer
        rw [h.dropped] at hnone
        exact Option.not_isSome_iff_eq_none.mp (by simp [hnone])
      · intro w hw
        have hne : w ≠ wtxid := fun heq => hnot (heq ▸ hw)
        obtain ⟨o, ho⟩ := Option.isSome_iff_exists.mp (h.known w (mem_cons_of_mem _ hw))
        obtain ⟨pos, hpos⟩ := herased.kept w hne o (by rw [hlook, if_neg hne, ho])
        rw [hpos]
        rfl
      · intro w o ho
        obtain ⟨-, pos, hs⟩ := hold w o ho
        have hne := h.announced w _ hs
        exact hne
      · intro w o ho q hq hne
        obtain ⟨-, pos, hs⟩ := hold w o ho
        rw [hinfos]
        exact h.infos w _ hs q hq hne
      · intro w o ho hmem
        obtain ⟨hw, pos, hs⟩ := hold w o ho
        exact (mem_cons.mp (h.later w _ hs hmem)).resolve_left hw
      · intro hfits
        obtain ⟨hfits', heq'⟩ := hquiet hfits
        exact ⟨herased.fits hfits', (herased.quiet hfits').trans heq'⟩
    · next hmore =>
      refine ⟨withoutAnnouncer peer s wtxid orphan, rfl, ⟨hindexed, hcounted, h.dropped, ?_, ?_, ?_, ?_⟩, hquiet⟩
      · intro w hw
        have hne : w ≠ wtxid := fun heq => hnot (heq ▸ hw)
        rw [hlook, if_neg hne]
        exact h.known w (mem_cons_of_mem _ hw)
      · intro w o ho
        rw [hlook] at ho
        split at ho
        · cases ho
          simpa using hmore
        · exact h.announced w o ho
      · intro w o ho q hq hne
        rw [hlook] at ho
        split at ho
        · cases ho
          exact h.infos wtxid orphan hlookup q (mem_of_mem_erase hq) hne
        · exact h.infos w o ho q hq hne
      · intro w o ho hmem
        rw [hlook] at ho
        split at ho
        · cases ho
          exact absurd hmem ((h.indexed.nodup wtxid orphan hlookup).not_mem_erase)
        · next hw => exact (mem_cons.mp (h.later w o ho hmem)).resolve_left hw
  · next hpeer =>
    refine ⟨s, rfl, ⟨h.indexed, h.counted, h.dropped, fun w hw => h.known w (mem_cons_of_mem _ hw), h.announced,
      h.infos, ?_⟩, fun hfits => ⟨hfits, rfl⟩⟩
    intro w o ho hmem
    refine (mem_cons.mp (h.later w o ho hmem)).resolve_left ?_
    rintro rfl
    rw [hlookup] at ho
    cases ho
    exact hpeer hmem

theorem forgetAnnouncer_fold (hnodup : keys.Nodup) (h : Forgetting peer keys s) :
    ∃ s', keys.foldlM (forgetAnnouncer peer) s = .ok s' ∧ Forgetting peer [] s' ∧
      (s.Fits → s'.Fits ∧ s'.underflowed = s.underflowed) := by
  induction keys generalizing s with
  | nil => exact ⟨s, rfl, h, fun hfits => ⟨hfits, rfl⟩⟩
  | cons wtxid keys ih =>
    obtain ⟨hnot, hnodup⟩ := nodup_cons.mp hnodup
    obtain ⟨_, heq, hs1, hquiet⟩ := forgetAnnouncer_spec hnot h
    obtain ⟨s', heq', hs', hquiet'⟩ := ih hnodup hs1
    refine ⟨s', ?_, hs', ?_⟩
    · rw [foldlM_cons, heq, ok_bind]
      exact heq'
    · intro hfits
      obtain ⟨hfits1, heq1⟩ := hquiet hfits
      obtain ⟨hfits2, heq2⟩ := hquiet' hfits1
      exact ⟨hfits2, heq2.trans heq1⟩

theorem Consistent.eraseForPeer (h : Consistent s) (peer : Int) :
    ∃ s', s.eraseForPeer peer = .ok s' ∧ Consistent s' ∧ (s.Fits → s'.Fits ∧ s'.underflowed = s.underflowed) ∧
      ∀ w o, s'.orphans.lookup w = some o → peer ∉ o.announcers := by
  have hstart : Forgetting peer s.orphanKeys { s with peerOrphanageInfo := s.peerOrphanageInfo.erase peer } := by
    have hlook : ∀ q, q ≠ peer → (s.peerOrphanageInfo.erase peer).lookup q = s.peerOrphanageInfo.lookup q :=
      fun q hq => lookup_erase_ne hq
    have hnone : (s.peerOrphanageInfo.erase peer).lookup peer = none := lookup_erase _ _
    refine ⟨⟨h.indexed.keyed, h.indexed.nodup, h.indexed.placed, h.indexed.tidy, h.indexed.spends⟩,
      ⟨h.counted.usage, h.counted.announcements, ?_⟩, hnone, fun w hw => mem_orphanKeys.mp hw,
      fun w o ho => (h.attended w o ho).1, ?_, ?_⟩
    · intro q info hq
      have hne : q ≠ peer := by
        rintro rfl
        rw [hnone] at hq
        cases hq
      rw [hlook q hne] at hq
      exact h.counted.peers q info hq
    · intro w o ho q hq hne
      rw [hlook q hne]
      exact (h.attended w o ho).2 q hq
    · intro w o ho _
      rw [mem_orphanKeys]
      exact Option.isSome_of_mem ho
  obtain ⟨s', heq, hs', hquiet⟩ := forgetAnnouncer_fold (orphanKeys_nodup s) hstart
  have hgone : ∀ w o, s'.orphans.lookup w = some o → peer ∉ o.announcers := fun w o ho hmem =>
    absurd (hs'.later w o ho hmem) not_mem_nil
  refine ⟨s', heq, ⟨hs'.indexed, hs'.counted, fun w o ho => ⟨hs'.announced w o ho, fun q hq => ?_⟩⟩, hquiet, hgone⟩
  refine hs'.infos w o ho q hq ?_
  rintro rfl
  exact hgone w o ho hq

/-! ## Additions -/

theorem addPeerUsage_lookup (s : TxOrphanage) (peer q : Int) (usage : Uint32) :
    (s.addPeerUsage peer usage).peerOrphanageInfo.lookup q =
    if q = peer then some { (s.peerOrphanageInfo.lookup peer).getD {} with
      totalUsage := ((s.peerOrphanageInfo.lookup peer).getD {}).totalUsage + usage }
      else s.peerOrphanageInfo.lookup q := by
  unfold addPeerUsage
  split
  · next hq => rw [hq, lookup_insert]
  · next hq => rw [lookup_insert_ne hq]

theorem addPeerUsage_known (s : TxOrphanage) (peer : Int) {q : Int} (usage : Uint32)
    (h : (s.peerOrphanageInfo.lookup q).isSome) :
    ((s.addPeerUsage peer usage).peerOrphanageInfo.lookup q).isSome := by
  rw [addPeerUsage_lookup]
  split
  · rfl
  · exact h

variable (h : Consistent s)
include h

theorem Consistent.usageBy_of_none (hnone : s.peerOrphanageInfo.lookup peer = none) : s.usageBy peer = 0 := by
  unfold usageBy sumBy
  rw [sum_eq_zero_iff]
  intro n hn
  obtain ⟨e, he, rfl⟩ := mem_map.mp hn
  have hlookup : s.orphans.lookup e.1 = some e.2 := mem_lookup_iff.mpr he
  unfold usageFor
  rw [if_neg]
  intro hpeer
  have hsome := (h.attended e.1 e.2 hlookup).2 peer hpeer
  rw [hnone] at hsome
  cases hsome

theorem Consistent.peers_add {orphans : OrphanMap} {usage : Uint32} {list : List Uint256}
    {index : OutpointIndex} {totalUsage totalAnnouncements : Uint32}
    (hown : sumBy (usageFor peer) orphans = s.usageBy peer + usage.toNat)
    (hother : ∀ q, q ≠ peer → sumBy (usageFor q) orphans = s.usageBy q) (q : Int) (info : PeerOrphanInfo)
    (hq : (addPeerUsage { s with
      orphans, orphanList := list, outpointToOrphanIt := index, totalOrphanUsage := totalUsage, totalAnnouncements }
      peer usage).peerOrphanageInfo.lookup q = some info) :
        info.totalUsage = BitVec.ofNat 32 (sumBy (usageFor q) orphans) := by
  rw [addPeerUsage_lookup] at hq
  split at hq
  · next heq =>
    cases hq
    rw [heq, hown, BitVec.ofNat_add, BitVec.ofNat_toNat, BitVec.setWidth_eq]
    simp only
    cases hlookup : s.peerOrphanageInfo.lookup peer with
    | none =>
      rw [h.usageBy_of_none hlookup]
      rfl
    | some info' =>
      rw [Option.getD_some, h.counted.peers peer info' hlookup]
  · next hne =>
    rw [hother q hne]
    exact h.counted.peers q info hq

theorem Consistent.addTx_new {tx : TransactionRef} (hnew : s.orphans.lookup tx.witnessHash = none)
    (hsmall : ¬ tx.weight.toNat > MAX_STANDARD_TX_WEIGHT) (peer now : Int) :
    ∃ s', s.addTx tx peer now = .ok (true, s') ∧ Consistent s' ∧ s'.underflowed = s.underflowed ∧
      s'.usage = s.usage + tx.weight.toNat ∧
      ∃ o, o.getUsage = tx.weight ∧ s'.orphans = s.orphans.insert tx.witnessHash o := by
  have herase : ∀ f : OrphanTx → Nat, sumBy f (s.orphans.erase tx.witnessHash) = sumBy f s.orphans :=
    fun f => sumBy_erase_of_none f hnew
  obtain ⟨htidy, hspends⟩ := indexOutpoints_spec h.indexed.tidy tx.witnessHash tx.prevouts
  have hlook : ∀ o w, w ≠ tx.witnessHash → (s.orphans.insert tx.witnessHash o).lookup w = s.orphans.lookup w :=
    fun o w hw => lookup_insert_ne hw
  unfold addTx
  simp only [hnew, if_neg hsmall]
  refine ⟨_, rfl, ⟨⟨?_, ?_, h.indexed.placed.push hnew rfl, htidy, ?_⟩, ⟨?_, ?_, ?_⟩, ?_⟩, rfl, ?_, _, rfl, rfl⟩
  · intro w o ho
    simp only [addPeerUsage] at ho
    rcases lookup_insert_cases ho with ⟨hw, rfl⟩ | ⟨-, ho⟩
    · exact hw.symm
    · exact h.indexed.keyed w o ho
  · intro w o ho
    simp only [addPeerUsage] at ho
    rcases lookup_insert_cases ho with ⟨-, rfl⟩ | ⟨-, ho⟩
    · exact nodup_singleton _
    · exact h.indexed.nodup w o ho
  · intro p w
    refine (hspends p w).trans ?_
    rw [h.indexed.spends]
    simp only [addPeerUsage]
    by_cases hw : w = tx.witnessHash
    · rw [hw, hnew, lookup_insert]
      simp
    · rw [hlook _ w hw]
      simp [hw]
  · simp only [addPeerUsage, usage]
    rw [sumBy_insert, herase, h.counted.usage, BitVec.add_comm, BitVec.ofNat_add]
    simp [OrphanTx.getUsage, usage]
  · simp only [addPeerUsage, announcements]
    rw [sumBy_insert, herase, h.counted.announcements, BitVec.add_comm, BitVec.ofNat_add]
    rfl
  · refine h.peers_add ?_ ?_
    · rw [sumBy_insert, herase, Nat.add_comm]
      simp [usageFor, OrphanTx.getUsage, usageBy]
    · intro q hq
      rw [sumBy_insert, herase, usageFor, if_neg (by simpa using hq), Nat.zero_add]
      rfl
  · intro w o ho
    simp only [addPeerUsage] at ho
    rcases lookup_insert_cases ho with ⟨-, rfl⟩ | ⟨-, ho⟩
    · refine ⟨cons_ne_nil _ _, ?_⟩
      intro q hq
      rw [addPeerUsage_lookup, if_pos (mem_singleton.mp hq)]
      rfl
    · obtain ⟨hne, hinfo⟩ := h.attended w o ho
      exact ⟨hne, fun q hq => addPeerUsage_known s peer _ (hinfo q hq)⟩
  · simp only [addPeerUsage, usage]
    rw [sumBy_insert, herase, Nat.add_comm]
    rfl

theorem Consistent.addAnnouncer (wtxid : Uint256) (peer : Int) :
    ∃ b s', s.addAnnouncer wtxid peer = .ok (b, s') ∧ Consistent s' ∧ s'.underflowed = s.underflowed := by
  unfold TxOrphanage.addAnnouncer
  cases hlookup : s.orphans.lookup wtxid with
  | none => exact ⟨false, s, rfl, h, rfl⟩
  | some orphan =>
    obtain ⟨hne, hinfo⟩ := h.attended wtxid orphan hlookup
    have hnonempty : (!orphan.announcers.isEmpty) = true := by simpa using hne
    simp only
    rw [hnonempty, check_true, ok_bind]
    split
    · exact ⟨false, s, rfl, h, rfl⟩
    · next hpeer =>
      have hmem : ∀ q, q ∈ insertNew id peer orphan.announcers ↔ q = peer ∨ q ∈ orphan.announcers :=
        fun q => mem_insertNew
      have hlook : ∀ o w, w ≠ wtxid → (s.orphans.insert wtxid o).lookup w = s.orphans.lookup w :=
        fun o w hw => AList.lookup_insert_ne hw
      have hnodup : (insertNew id peer orphan.announcers).Nodup :=
          insertNew_nodup (h.indexed.nodup wtxid orphan hlookup)
      refine ⟨true, _, rfl, ⟨h.indexed.announcers hlookup hnodup rfl rfl rfl, ⟨?_, ?_, ?_⟩, ?_⟩, rfl⟩
      · refine h.counted.usage.trans ?_
        congr 1
        exact (sumBy_insert_same hlookup rfl).symm
      · simp only [addPeerUsage, TxOrphanage.announcements]
        rw [sumBy_insert, h.counted.announcements, TxOrphanage.announcements,
          sumBy_of_lookup _ hlookup, insertNew_length hpeer, Nat.add_right_comm]
        exact (BitVec.ofNat_add _ 1).symm
      · refine h.peers_add ?_ ?_
        · unfold TxOrphanage.usageBy
          rw [sumBy_insert, sumBy_of_lookup _ hlookup, usageFor, usageFor,
            if_pos ((hmem peer).mpr (.inl rfl)), if_neg hpeer, Nat.zero_add, Nat.add_comm]
        · intro q hq
          refine sumBy_insert_same hlookup ?_
          unfold usageFor
          simp only [hmem, hq, false_or]
          rfl
      · intro w o ho
        simp only [addPeerUsage] at ho
        by_cases hw : w = wtxid
        · rw [hw, AList.lookup_insert] at ho
          cases ho
          refine ⟨ne_nil_of_mem ((hmem peer).mpr (.inl rfl)), fun q hq => ?_⟩
          rw [addPeerUsage_lookup]
          split
          · rfl
          · next hne => exact hinfo q (((hmem q).mp hq).resolve_left hne)
        · rw [hlook _ w hw] at ho
          obtain ⟨hne, hinfo⟩ := h.attended w o ho
          exact ⟨hne, fun q hq => addPeerUsage_known s peer _ (hinfo q hq)⟩

theorem Consistent.addTx (tx : TransactionRef) (peer now : Int) :
    ∃ b s', s.addTx tx peer now = .ok (b, s') ∧ Consistent s' ∧ s'.underflowed = s.underflowed := by
  cases hlookup : s.orphans.lookup tx.witnessHash with
  | some orphan =>
    obtain ⟨b, s', heq, hs', hquiet⟩ := h.addAnnouncer tx.witnessHash peer
    refine ⟨false, s', ?_, hs', hquiet⟩
    unfold TxOrphanage.addTx
    simp only [hlookup]
    rw [heq]
    rfl
  | none =>
    by_cases hlarge : tx.weight.toNat > MAX_STANDARD_TX_WEIGHT
    · refine ⟨false, s, ?_, h, rfl⟩
      unfold TxOrphanage.addTx
      simp only [hlookup, if_pos hlarge]
    · obtain ⟨s', heq, hs', hquiet, -⟩ := h.addTx_new hlookup hlarge peer now
      exact ⟨true, s', heq, hs', hquiet⟩

omit h

/-! ## Work sets and blocks -/

theorem Consistent.workSet (h : Consistent s) {info : PeerOrphanInfo}
    (hlookup : s.peerOrphanageInfo.lookup peer = some info) (workSet : List Uint256) :
    Consistent { s with peerOrphanageInfo := s.peerOrphanageInfo.insert peer { info with workSet } } := by
  refine ⟨⟨h.indexed.keyed, h.indexed.nodup, h.indexed.placed, h.indexed.tidy, h.indexed.spends⟩,
    ⟨h.counted.usage, h.counted.announcements, ?_⟩, ?_⟩
  · intro q info' hq
    by_cases heq : q = peer
    · rw [heq, lookup_insert] at hq
      cases hq
      rw [heq]
      exact h.counted.peers peer info hlookup
    · rw [lookup_insert_ne heq] at hq
      exact h.counted.peers q info' hq
  · intro w o ho
    obtain ⟨hne, hinfo⟩ := h.attended w o ho
    refine ⟨hne, fun q hq => ?_⟩
    by_cases heq : q = peer
    · rw [heq, lookup_insert]
      rfl
    · rw [lookup_insert_ne heq]
      exact hinfo q hq

theorem Consistent.assignWork (h : Consistent s) (hlookup : s.orphans.lookup wtxid = some orphan) (raw : Nat) :
    ∃ s', assignWork raw s wtxid = .ok s' ∧ Consistent s' ∧ s'.orphans = s.orphans ∧
      s'.underflowed = s.underflowed := by
  obtain ⟨hne, hinfo⟩ := h.attended wtxid orphan hlookup
  have hnonempty : (!orphan.announcers.isEmpty) = true := by simpa using hne
  have hpos := length_pos_iff.mpr hne
  have hlt := Nat.mod_lt raw hpos
  unfold TxOrphanage.assignWork
  simp only [hlookup]
  rw [hnonempty, check_true, ok_bind, randrange_ok raw hpos, ok_bind, getElem?_eq_getElem hlt]
  obtain ⟨_, hlookup'⟩ := Option.isSome_iff_exists.mp (hinfo _ (getElem_mem hlt))
  simp only [hlookup', Option.getD_some]
  exact ⟨_, rfl, h.workSet hlookup' _, rfl, rfl⟩

theorem assignWork_fold (rng : Nat → Nat) {wtxids : List (Uint256 × Nat)} (h : Consistent s)
    (hknown : ∀ e ∈ wtxids, (s.orphans.lookup e.1).isSome) :
    ∃ s', wtxids.foldlM (fun s (wtxid, i) => TxOrphanage.assignWork (rng i) s wtxid) s = .ok s' ∧ Consistent s' ∧
      s'.underflowed = s.underflowed := by
  induction wtxids generalizing s with
  | nil => exact ⟨s, rfl, h, rfl⟩
  | cons e wtxids ih =>
    obtain ⟨wtxid, i⟩ := e
    obtain ⟨_, hlookup⟩ := Option.isSome_iff_exists.mp (hknown (wtxid, i) mem_cons_self)
    obtain ⟨_, heq, hs1, horphans, hquiet⟩ := h.assignWork hlookup (rng i)
    obtain ⟨s', heq', hs', hquiet'⟩ := ih hs1 (fun e he => by
      rw [horphans]
      exact hknown e (mem_cons_of_mem _ he))
    refine ⟨s', ?_, hs', hquiet'.trans hquiet⟩
    rw [foldlM_cons]
    simp only [heq]
    exact heq'

theorem Consistent.spender_known (h : Consistent s) {prevout : COutPoint}
    (hw : w ∈ (s.outpointToOrphanIt.lookup prevout).getD []) : (s.orphans.lookup w).isSome := by
  obtain ⟨_, ho, -⟩ := (h.indexed.spends prevout w).mp hw
  exact Option.isSome_of_mem ho

theorem Consistent.addChildrenToWorkSet (h : Consistent s) (tx : CTransaction) (rng : Nat → Nat) :
    ∃ s', s.addChildrenToWorkSet tx rng = .ok s' ∧ Consistent s' ∧ s'.underflowed = s.underflowed := by
  refine assignWork_fold rng h ?_
  intro e he
  have hchild : e.1 ∈ s.children tx := fst_mem_of_mem_zipIdx he
  obtain ⟨_, -, hw⟩ := mem_flatMap.mp hchild
  exact h.spender_known hw

theorem Consistent.getTxToReconsider (h : Consistent s) (peer : Int) :
    Consistent (s.getTxToReconsider peer).2 ∧ (s.getTxToReconsider peer).2.underflowed = s.underflowed := by
  unfold TxOrphanage.getTxToReconsider
  cases hlookup : s.peerOrphanageInfo.lookup peer with
  | none => exact ⟨h, rfl⟩
  | some info => exact ⟨h.workSet hlookup _, rfl⟩

theorem mapM_known {wtxids : List Uint256} (h : ∀ w ∈ wtxids, (s.orphans.lookup w).isSome) :
    ∃ hashes, (wtxids.mapM fun it => match s.orphans.lookup it with
      | none => (.error .badIterator : Checked Uint256)
      | some orphan => .ok orphan.tx.witnessHash) = .ok hashes := by
  induction wtxids with
  | nil => exact ⟨[], rfl⟩
  | cons w wtxids ih =>
    obtain ⟨orphan, hlookup⟩ := Option.isSome_iff_exists.mp (h w mem_cons_self)
    obtain ⟨hashes, heq⟩ := ih fun w hw => h w (mem_cons_of_mem _ hw)
    refine ⟨orphan.tx.witnessHash :: hashes, ?_⟩
    rw [mapM_cons, heq, hlookup]
    rfl

theorem Consistent.eraseForBlock (h : Consistent s) (vtx : List CTransaction) :
    ∃ s', s.eraseForBlock vtx = .ok s' ∧ Consistent s' ∧ Shrinks s s' := by
  unfold TxOrphanage.eraseForBlock
  split
  · exact ⟨s, rfl, h, .refl s⟩
  · obtain ⟨vOrphanErase, heq⟩ : ∃ vOrphanErase, s.conflicting vtx = .ok vOrphanErase := by
      refine mapM_known ?_
      intro w hw
      obtain ⟨_, -, hw⟩ := mem_flatMap.mp hw
      obtain ⟨_, -, hw⟩ := mem_flatMap.mp hw
      exact h.spender_known hw
    rw [heq, ok_bind]
    exact h.eraseAll vOrphanErase

/-! ## Every call -/

theorem consistent_empty : Consistent {} := by
  refine ⟨⟨?_, ?_, ⟨?_, ?_⟩, ?_, ?_⟩, ⟨rfl, rfl, ?_⟩, ?_⟩
  · intro w o ho
    cases ho
  · intro w o ho
    cases ho
  · intro w o ho
    cases ho
  · intro i w hi
    cases hi
  · intro p iters hp
    cases hp
  · intro p w
    simp [spenders]
  · intro q info hq
    cases hq
  · intro w o ho
    cases ho

theorem step_spec (h : Consistent s) (operation : Operation) :
    ∃ s', s.step operation = .ok s' ∧ Consistent s' ∧ (s.Fits → s'.underflowed = s.underflowed) := by
  cases operation with
  | addTx tx peer now =>
    obtain ⟨b, s', heq, hs', hquiet⟩ := h.addTx tx peer now
    exact ⟨s', by rw [step, heq]; rfl, hs', fun _ => hquiet⟩
  | addAnnouncer wtxid peer =>
    obtain ⟨b, s', heq, hs', hquiet⟩ := h.addAnnouncer wtxid peer
    exact ⟨s', by rw [step, heq]; rfl, hs', fun _ => hquiet⟩
  | eraseTx wtxid =>
    obtain ⟨_, s', heq, hs', hshrinks⟩ := h.eraseTx wtxid
    exact ⟨s', by rw [step, heq]; rfl, hs', fun hfits => (hshrinks.quiet hfits).2⟩
  | eraseForPeer peer =>
    obtain ⟨s', heq, hs', hquiet, -⟩ := h.eraseForPeer peer
    exact ⟨s', heq, hs', fun hfits => (hquiet hfits).2⟩
  | limitOrphans maxOrphans nNow rng =>
    obtain ⟨s', heq, hs', hshrinks, -⟩ := h.limitOrphans maxOrphans nNow rng
    exact ⟨s', heq, hs', fun hfits => (hshrinks.quiet hfits).2⟩
  | addChildrenToWorkSet tx rng =>
    obtain ⟨s', heq, hs', hquiet⟩ := h.addChildrenToWorkSet tx rng
    exact ⟨s', heq, hs', fun _ => hquiet⟩
  | getTxToReconsider peer =>
    obtain ⟨hs', hquiet⟩ := h.getTxToReconsider peer
    exact ⟨_, rfl, hs', fun _ => hquiet⟩
  | eraseForBlock vtx =>
    obtain ⟨s', heq, hs', hshrinks⟩ := h.eraseForBlock vtx
    exact ⟨s', heq, hs', fun hfits => (hshrinks.quiet hfits).2⟩

theorem run_concat (operations : List Operation) (operation : Operation) :
    run (operations ++ [operation]) = run operations >>= fun s => s.step operation := by
  unfold run
  rw [foldlM_append]
  congr 1
  funext s
  rw [foldlM_cons]
  exact bind_pure _

theorem run_spec (operations : List Operation) : ∃ s, run operations = .ok s ∧ Consistent s ∧
    ((∀ n < operations.length, ∀ t, run (operations.take n) = .ok t → t.Fits) → s.underflowed = false) := by
  induction operations using reverseRecOn with
  | nil => exact ⟨{}, rfl, consistent_empty, fun _ => rfl⟩
  | append_singleton operations operation ih =>
    obtain ⟨s, heq, hs, hquiet⟩ := ih
    obtain ⟨s', heq', hs', hquiet'⟩ := step_spec hs operation
    refine ⟨s', by rw [run_concat, heq, ok_bind, heq'], hs', ?_⟩
    intro hfits
    have htake : ∀ n ≤ operations.length, (operations ++ [operation]).take n = operations.take n :=
      fun n hn => take_append_of_le_length hn
    rw [hquiet' (hfits operations.length (by simp) s (by rw [htake _ le_rfl, take_length, heq]))]
    refine hquiet ?_
    intro n hn t ht
    exact hfits n (by simp; omega) t (by rw [htake n hn.le, ht])

/-! ## `SanityCheck` -/

theorem sum_ofNat {α : Type} (f : α → Nat) (l : List α) :
    (l.map fun a => BitVec.ofNat 32 (f a)).sum = BitVec.ofNat 32 (l.map f).sum := by
  induction l with
  | nil => rfl
  | cons a l ih => rw [map_cons, sum_cons, ih, map_cons, sum_cons, BitVec.ofNat_add]

theorem filter_pairs (peer : Int) (usage : Uint32) {announcers : List Int} (hnodup : announcers.Nodup) :
    (announcers.map fun q => (q, usage)).filter (·.1 = peer) = if peer ∈ announcers then [(peer, usage)] else [] := by
  induction announcers with
  | nil => rfl
  | cons q announcers ih =>
    obtain ⟨hq, hnodup⟩ := nodup_cons.mp hnodup
    rw [map_cons, filter_cons, ih hnodup]
    by_cases heq : q = peer
    · subst heq
      simp [hq]
    · simp [heq, Ne.symm heq]

theorem foldl_usage (acc : Uint32) (l : List (Int × Uint32)) :
    l.foldl (fun count pair => count + pair.2) acc = acc + (l.map Prod.snd).sum := by
  induction l generalizing acc with
  | nil => simp
  | cons pair l ih => rw [foldl_cons, ih, map_cons, sum_cons, BitVec.add_assoc]

theorem counted_usage (h : s.Indexed) (peer : Int) :
    (s.countedSizePerPeer.lookup peer).getD 0 = BitVec.ofNat 32 (s.usageBy peer) := by
  have hsum : ∀ l : List (Σ _ : Uint256, OrphanTx), (∀ e ∈ l, e.2.announcers.Nodup) →
      (((l.flatMap fun e => e.2.announcers.map fun q => (q, e.2.getUsage)).filter (·.1 = peer)).map Prod.snd).sum =
        BitVec.ofNat 32 (l.map fun e => usageFor peer e.2).sum := by
    intro l hnodup
    induction l with
    | nil => rfl
    | cons e l ih =>
      rw [flatMap_cons, filter_append, filter_pairs peer _ (hnodup e mem_cons_self), map_append,
        sum_append, ih fun e he => hnodup e (mem_cons_of_mem _ he), map_cons, sum_cons, BitVec.ofNat_add, usageFor]
      split <;> simp
  have hentries := hsum s.orphans.entries fun e he => h.nodup e.1 e.2 (mem_lookup_iff.mpr he)
  unfold countedSizePerPeer
  rw [lookup_collect]
  refine Eq.trans ?_ hentries
  split
  · next hnil =>
    rw [hnil]
    rfl
  · rw [Option.getD_some, foldl_usage]
    exact BitVec.zero_add _

theorem counted_known (h : Consistent s) {peer : Int} (hpeer : (s.countedSizePerPeer.lookup peer).isSome) :
    (s.peerOrphanageInfo.lookup peer).isSome := by
  unfold countedSizePerPeer at hpeer
  rw [lookup_collect] at hpeer
  split at hpeer
  · cases hpeer
  · next hne =>
    obtain ⟨_, hpair⟩ := exists_mem_of_ne_nil _ hne
    obtain ⟨hmem, hfst⟩ := mem_filter.mp hpair
    obtain ⟨e, he, hannounced⟩ := mem_flatMap.mp hmem
    obtain ⟨q, hq, rfl⟩ := mem_map.mp hannounced
    obtain rfl : q = peer := by simpa using hfst
    exact (h.attended e.1 e.2 (mem_lookup_iff.mpr he)).2 q hq

theorem counted_size (h : Consistent s) : s.countedSizePerPeer.entries.length ≤ s.peerOrphanageInfo.entries.length := by
  have hsubset : s.countedSizePerPeer.keys ⊆ s.peerOrphanageInfo.keys := by
    intro peer hpeer
    rw [← AList.mem_keys, ← AList.lookup_isSome] at hpeer ⊢
    exact counted_known h hpeer
  have hlength := (subperm_of_subset s.countedSizePerPeer.keys_nodup hsubset).length_le
  simpa [AList.keys, List.keys] using hlength

theorem length_le_announcements (h : Consistent s) : s.orphans.entries.length ≤ s.announcements := by
  have hone : ∀ e ∈ s.orphans.entries, 1 ≤ e.2.announcers.length := fun e he =>
    length_pos_iff.mpr (h.attended e.1 e.2 (mem_lookup_iff.mpr he)).1
  unfold announcements sumBy
  have hsum := sum_le_sum hone
  simpa using hsum

theorem Consistent.sanityCheck (h : Consistent s) (hfits : s.Fits) : s.sanityCheck = true := by
  have hannounced : s.totalAnnouncements.toNat = s.announcements := by
    rw [h.counted.announcements, BitVec.toNat_ofNat, Nat.mod_eq_of_lt hfits.2]
  unfold TxOrphanage.sanityCheck
  simp only [Bool.and_eq_true, decide_eq_true_eq, beq_iff_eq, all_eq_true]
  refine ⟨⟨⟨⟨⟨?_, ?_⟩, ?_⟩, ?_⟩, counted_size h⟩, ?_⟩
  · intro e he
    simpa using (h.attended e.1 e.2 (AList.mem_lookup_iff.mpr he)).1
  · rw [hannounced]
    exact length_le_announcements h
  · rw [sum_ofNat fun e : Σ _ : Uint256, OrphanTx => e.2.announcers.length]
    exact h.counted.announcements.symm
  · have hweight := sum_ofNat (fun e : Σ _ : Uint256, OrphanTx => e.2.getUsage.toNat) s.orphans.entries
    simp only [BitVec.ofNat_toNat, BitVec.setWidth_eq] at hweight
    rw [hweight]
    exact h.counted.usage.symm
  · intro e he
    rw [counted_usage h.indexed]
    exact (h.counted.peers e.1 e.2 (AList.mem_lookup_iff.mpr he)).symm

/-- Every run returns, with exact counters while totals fit. -/
theorem run_exact (operations : List Operation) : ∃ s, run operations = .ok s ∧ Consistent s ∧
    (s.Fits → s.sanityCheck = true) ∧
    ((∀ n < operations.length, ∀ t, run (operations.take n) = .ok t → t.Fits) → s.underflowed = false) ∧
    (∀ maxOrphans nNow rng, ∃ s', s.limitOrphans maxOrphans nNow rng = .ok s' ∧
      s'.orphans.entries.length ≤ maxOrphans) ∧
    (∀ peer, ∃ s', s.eraseForPeer peer = .ok s' ∧ ∀ w o, s'.orphans.lookup w = some o → peer ∉ o.announcers) := by
  obtain ⟨s, heq, hs, hquiet⟩ := run_spec operations
  refine ⟨s, heq, hs, hs.sanityCheck, hquiet, ?_, ?_⟩
  · intro maxOrphans nNow rng
    obtain ⟨s', heq', -, -, hsize⟩ := hs.limitOrphans maxOrphans nNow rng
    exact ⟨s', heq', hsize⟩
  · intro peer
    obtain ⟨s', heq', -, -, hgone⟩ := hs.eraseForPeer peer
    exact ⟨s', heq', hgone⟩

/-! ## Totals that do not fit -/

/-- Transactions of the greatest weight, told apart by their hashes. -/
def heavyTx (n : Nat) : TransactionRef :=
  ⟨⟨[⟨⟨1, n⟩, [], 0xffffffff⟩], [⟨1000, [0x51]⟩], 2, 0, BitVec.ofNat 256 n⟩, BitVec.ofNat 256 n, 400000⟩

def addHeavy (count : Nat) : List Operation := (List.range count).map fun n => .addTx (heavyTx n) 0 0

theorem run_addHeavy (count : Nat) (hcount : count ≤ 20000) :
    ∃ s, run (addHeavy count) = .ok s ∧ Consistent s ∧ s.usage = count * 400000 ∧
      (∀ w, (s.orphans.lookup w).isSome → w.toNat < count) ∧
      ∀ n < count, ∃ o, s.orphans.lookup (BitVec.ofNat 256 n) = some o ∧ o.getUsage = 400000 := by
  induction count with
  | zero =>
    refine ⟨{}, rfl, consistent_empty, rfl, ?_, ?_⟩
    · intro w hw
      cases hw
    · intro n hn
      omega
  | succ count ih =>
    obtain ⟨s, heq, hs, husage, hlt, hlookup⟩ := ih (by omega)
    have hhash : (BitVec.ofNat 256 count).toNat = count := by
      rw [BitVec.toNat_ofNat, Nat.mod_eq_of_lt (by omega)]
    have hnew : s.orphans.lookup (heavyTx count).witnessHash = none := by
      cases hnone : s.orphans.lookup (heavyTx count).witnessHash with
      | none => rfl
      | some o =>
        have hbad := hlt _ (Option.isSome_of_mem hnone)
        rw [show (heavyTx count).witnessHash.toNat = count from hhash] at hbad
        omega
    obtain ⟨s', heq', hs', -, husage', o, ho, horphans⟩ :=
        hs.addTx_new hnew (by decide : ¬ (400000 : Uint32).toNat > _) 0 0
    refine ⟨s', ?_, hs', ?_, ?_, ?_⟩
    · unfold addHeavy
      rw [range_succ, map_append, map_singleton, run_concat]
      change run (addHeavy count) >>= _ = _
      rw [heq, ok_bind, step, heq']
      rfl
    · rw [husage', husage, Nat.succ_mul]
      rfl
    · intro w hw
      rw [horphans] at hw
      by_cases hself : w = (heavyTx count).witnessHash
      · rw [hself, show (heavyTx count).witnessHash.toNat = count from hhash]
        omega
      · rw [lookup_insert_ne hself] at hw
        have := hlt w hw
        omega
    · intro n hn
      rw [horphans]
      by_cases hself : n = count
      · subst hself
        exact ⟨o, lookup_insert _, ho⟩
      · have hne : BitVec.ofNat 256 n ≠ (heavyTx count).witnessHash := by
          intro hbad
          have hnat := congrArg BitVec.toNat hbad
          rw [show (heavyTx count).witnessHash.toNat = count from hhash, BitVec.toNat_ofNat,
            Nat.mod_eq_of_lt (by omega)] at hnat
          exact hself hnat
        rw [lookup_insert_ne hne]
        exact hlookup n (by omega)

theorem subPeerUsage_underflowed {txSize : Uint32} {announcers : List Int} (h : s.underflowed = true)
    (heq : subPeerUsage txSize announcers s = .ok s') : s'.underflowed = true := by
  induction announcers generalizing s with
  | nil =>
    cases heq
    exact h
  | cons peer announcers ih =>
    unfold subPeerUsage at heq
    split at heq
    · cases heq
    · exact ih (by simp [h]) heq

theorem moveLast_underflowed {oldPos : Nat} (heq : s.moveLast oldPos = .ok s') : s'.underflowed = s.underflowed := by
  unfold moveLast at heq
  split at heq
  · split at heq
    · cases heq
    · split at heq
      · cases heq
      · cases heq
        rfl
  · cases heq
    rfl

theorem eraseTx_underflowed {n : Nat} (hlookup : s.orphans.lookup wtxid = some orphan)
    (hlow : s.totalOrphanUsage < orphan.getUsage) (heq : s.eraseTx wtxid = .ok (n, s')) : s'.underflowed = true := by
  unfold eraseTx at heq
  simp only [hlookup] at heq
  obtain ⟨_, hsub, hrest⟩ := bind_ok.mp heq
  obtain ⟨-, -, hrest⟩ := bind_ok.mp hrest
  obtain ⟨_, hmove, hdone⟩ := bind_ok.mp hrest
  obtain ⟨-, rfl⟩ := Prod.mk.inj (Except.ok.inj hdone)
  have hmarked : (s.discount wtxid orphan).underflowed = true := by simp [discount, hlow]
  exact (moveLast_underflowed hmove).trans (subPeerUsage_underflowed hmarked hsub)

/-- The weight of 10,738 orphans does not fit 32 bits. -/
theorem heavy_underflows : ∃ s, run (addHeavy 10738 ++ [.eraseTx 0]) = .ok s ∧ s.underflowed = true := by
  obtain ⟨s, heq, hs, husage, -, hlookup⟩ := run_addHeavy 10738 (by decide)
  obtain ⟨o, ho, hweight⟩ := hlookup 0 (by decide)
  have hlow : s.totalOrphanUsage < o.getUsage := by
    rw [hs.counted.usage, husage, hweight]
    decide
  obtain ⟨_, s', heq', -, -⟩ := hs.eraseTx 0
  refine ⟨s', ?_, eraseTx_underflowed ho hlow heq'⟩
  rw [run_concat, heq, ok_bind, step, heq']
  rfl

end FullNode.Orphanage

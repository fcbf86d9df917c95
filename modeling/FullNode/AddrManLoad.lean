import FullNode.AddrManFile
import FullNode.AddrManTables
import FullNode.Lib.Loop

/-! # Any file of addresses -/

namespace FullNode.AddrMan

open Wire List AList AssocMap

variable {A R : Type} {s : State A R} {id n : Nat} {info : AddrInfo A R}

def Thrown (e : Fault) : Prop := ∃ what, e = .runtimeError what

theorem thrown_runtimeError (what : String) : Thrown (.runtimeError what) := ⟨what, rfl⟩

/-! ## What is read -/

theorem readEntries_ends (nNew : Int) (bucket left : Nat) :
    Reader.Ends (fun _ => True) (fun entries => ∀ e ∈ entries, e.1 = bucket ∧ (e.2 : Int) < nNew)
      (readEntries nNew bucket left) := by
  induction left with
  | zero => exact .pure nofun
  | succ left ih =>
    unfold readEntries
    refine (Reader.Ends.any _).bind fun entry_index _ => ih.bind fun rest hrest => .pure ?_
    split
    · next hindex =>
      rw [forall_mem_cons]
      exact ⟨⟨rfl, by simp only; omega⟩, hrest⟩
    · exact hrest

theorem readBuckets_ends (nNew : Int) (left bucket : Nat) :
    Reader.Ends (fun _ => True) (fun entries => ∀ e ∈ entries, e.1 < bucket + left ∧ (e.2 : Int) < nNew)
      (readBuckets nNew left bucket) := by
  induction left generalizing bucket with
  | zero => exact .pure nofun
  | succ left ih =>
    unfold readBuckets
    refine (Reader.Ends.any _).bind fun num_entries _ => (readEntries_ends nNew bucket _).bind fun entries hentries =>
      (ih (bucket + 1)).bind fun rest hrest => .pure ?_
    intro e he
    rcases mem_append.mp he with he | he
    · obtain ⟨hbucket, hindex⟩ := hentries e he
      exact ⟨by omega, hindex⟩
    · obtain ⟨hbucket, hindex⟩ := hrest e he
      exact ⟨by omega, hindex⟩

/-! ## The entries -/

/-- Ids are given in order, first those of the new entries. -/
structure Numbered (n : Nat) (s : State A R) : Prop where
  random : Shuffled s
  fresh : ∀ id info, s.mapInfo.lookup id = some info → id < s.nIdCount
  known : ∀ id < n, ∃ info, s.mapInfo.lookup id = some info

theorem slot_ok {t : Table} {bucket_count bucket pos : Nat} (hbucket : bucket < bucket_count)
    (hpos : pos < ADDRMAN_BUCKET_SIZE) :
    t.slot bucket_count bucket pos = .ok (t bucket pos) := if_pos ⟨hbucket, hpos⟩

theorem getBucketPosition_lt (c : Context A R) (key : Uint256) (fNew : Bool) (bucket : Nat) (a : A) :
    c.getBucketPosition key fNew bucket a < ADDRMAN_BUCKET_SIZE := Nat.mod_lt _ (by decide)

theorem getTriedBucket_lt (c : Context A R) (key : Uint256) (a : A) :
    c.getTriedBucket key a < ADDRMAN_TRIED_BUCKET_COUNT :=
  Nat.mod_lt _ (by decide)

variable {info' : AddrInfo A R} {restore_bucketing : Bool}

theorem Shuffled.update (h : Shuffled s) (hinfo : s.mapInfo.lookup id = some info)
    (hpos : info'.nRandomPos = info.nRandomPos) : Shuffled { s with mapInfo := s.mapInfo.insert id info' } := by
  intro k id'
  rw [h k id']
  exact (exists_insert_iff hinfo (by rw [hpos]) id').symm

theorem Numbered.update (h : Numbered n s) (hinfo : s.mapInfo.lookup id = some info)
    (hpos : info'.nRandomPos = info.nRandomPos) : Numbered n { s with mapInfo := s.mapInfo.insert id info' } := by
  refine ⟨h.random.update hinfo hpos, ?_, ?_⟩
  · intro id' x hx
    rcases lookup_insert_cases hx with ⟨rfl, rfl⟩ | ⟨-, hx⟩
    · exact h.fresh id' info hinfo
    · exact h.fresh id' x hx
  · intro id' hid'
    by_cases hne : id' = id
    · subst hne
      exact ⟨info', lookup_insert _⟩
    · rw [lookup_insert_ne hne]
      exact h.known id' hid'

variable [DecidableEq A] {c : Context A R} {unser : Stream (AddrInfo A R)}

theorem loadNew_ends (left : Nat) (h : Shuffled s) (hids : ∀ id, (∃ info, s.mapInfo.lookup id = some info) ↔ id < n) :
    Reader.Ends Thrown (fun s' : State A R => Shuffled s' ∧ ∀ id, (∃ info, s'.mapInfo.lookup id = some info) ↔
      id < n + left) (loadNew c unser left n s) := by
  induction left generalizing n s with
  | zero => exact .pure ⟨h, hids⟩
  | succ left ih =>
    unfold loadNew
    refine ((Reader.Ends.any unser).mapError fun what _ => thrown_runtimeError what).bind fun info _ => ?_
    have hnone : s.mapInfo.lookup n = none := by
      by_contra hne
      have := (hids n).mp (Option.ne_none_iff_exists'.mp hne)
      omega
    rw [Nat.add_comm left, ← Nat.add_assoc]
    apply ih
    · exact h.append hnone rfl
    · intro id
      by_cases hid : id = n
      · subst hid
        rw [lookup_insert]
        simp
      · rw [lookup_insert_ne hid, hids]
        omega

theorem loadEntry_ok (h : Numbered n s) (nLost : Nat) (info : AddrInfo A R) :
    ∃ s' nLost', loadEntry c s nLost info = .ok (s', nLost') ∧ Numbered n s' := by
  unfold loadEntry
  simp only
  split
  · rw [slot_ok (getTriedBucket_lt c _ _) (getBucketPosition_lt c _ _ _ _), ok_bind]
    split
    · refine ⟨_, _, rfl, h.random.append (lookup_fresh h.fresh) rfl, ?_, ?_⟩
      · intro id x hx
        rcases lookup_insert_cases hx with ⟨rfl, -⟩ | ⟨-, hx⟩
        · exact Nat.lt_succ_self _
        · exact (h.fresh id x hx).trans (Nat.lt_succ_self _)
      · intro id hid
        obtain ⟨x, hx⟩ := h.known id hid
        exact ⟨x, by rw [lookup_insert_ne (h.fresh id x hx).ne, hx]⟩
    · exact ⟨_, _, rfl, h⟩
  · exact ⟨_, _, rfl, h⟩

theorem loadTried_ends (left : Nat) (h : Numbered n s) (nLost : Nat) :
    Reader.Ends Thrown (fun r : State A R × Nat => Numbered n r.1) (loadTried c unser left s nLost) := by
  induction left generalizing s nLost with
  | zero => exact .pure h
  | succ left ih =>
    unfold loadTried
    refine ((Reader.Ends.any unser).mapError fun what _ => thrown_runtimeError what).bind fun info _ => ?_
    obtain ⟨s', nLost', hload, hnumbered⟩ := loadEntry_ok h nLost info (c := c)
    rw [hload]
    have hlift : Reader.Ends Thrown (fun r : State A R × Nat => Numbered n r.1) (Reader.lift (.ok (s', nLost'))) := by
      apply Reader.Ends.lift nofun
      rintro r ⟨⟩
      exact hnumbered
    exact hlift.bind fun r hr => ih hr r.2

/-! ## The slots -/

omit [DecidableEq A] in
theorem Numbered.fillSlot (h : Numbered n s) (hinfo : s.mapInfo.lookup id = some info) (bucket pos : Nat) :
    Numbered n (fillSlot s bucket pos id) := by
  unfold AddrMan.fillSlot
  rw [modify_eq hinfo]
  have hupdate := h.update hinfo (show ({ info with nRefCount := info.nRefCount + 1 } : AddrInfo A R).nRandomPos =
      info.nRandomPos from rfl)
  exact ⟨hupdate.random, hupdate.fresh, hupdate.known⟩

omit [DecidableEq A] in
theorem restoreEntry_ok (h : Numbered n s) {bucket_entry : Nat × Nat} (hentry : bucket_entry.2 < n)
    (hbucket : restore_bucketing = true → bucket_entry.1 < ADDRMAN_NEW_BUCKET_COUNT) :
    ∃ s', restoreEntry c restore_bucketing s bucket_entry = .ok s' ∧ Numbered n s' := by
  obtain ⟨info, hinfo⟩ := h.known _ hentry
  have hfill := h.fillSlot hinfo
  unfold restoreEntry
  simp only [infoAt_ok hinfo, ok_bind]
  split
  · exact ⟨s, rfl, h⟩
  · split
    · exact ⟨s, rfl, h⟩
    · obtain ⟨free, hfree⟩ : ∃ free, canRestore restore_bucketing s.vvNew bucket_entry.1
          (c.getBucketPosition s.nKey true bucket_entry.1 info.addr) = .ok free := by
        unfold canRestore
        split
        · next hrestore =>
          rw [slot_ok (hbucket hrestore) (getBucketPosition_lt c _ _ _ _)]
          exact ⟨_, rfl⟩
        · exact ⟨_, rfl⟩
      rw [hfree, ok_bind]
      split
      · exact ⟨_, rfl, hfill _ _⟩
      · rw [slot_ok (getNewBucket_lt _ _ _) (getBucketPosition_lt c _ _ _ _), ok_bind]
        split
        · exact ⟨_, rfl, hfill _ _⟩
        · exact ⟨s, rfl, h⟩

theorem pruneEntry_ok (h : Shuffled s) (hinfo : s.mapInfo.lookup id = some info) :
    ∃ s', pruneEntry c s id = .ok s' ∧ Shuffled s' ∧ ∀ id', id' ≠ id → (s.mapInfo.lookup id').isSome →
      (s'.mapInfo.lookup id').isSome := by
  unfold pruneEntry
  rw [infoAt_ok hinfo, ok_bind]
  split
  · next hunused =>
    obtain ⟨_, hswapped, hinfo1, _, hdelete⟩ := delete_swaps c h hinfo hunused.1 hunused.2
    have hremoved := (h.swapped hswapped).removeLast hinfo1 (by rw [hswapped.length]; simp only; omega)
    refine ⟨_, hdelete, hremoved, ?_⟩
    intro id' hne hsome
    rw [lookup_erase_ne hne, hswapped.lookup, Option.isSome_map]
    exact hsome
  · exact ⟨s, rfl, h, fun _ _ hsome => hsome⟩

theorem prune_ok {ids : List Nat} (hnodup : ids.Nodup) (h : Shuffled s)
    (hids : ∀ id ∈ ids, (s.mapInfo.lookup id).isSome) : ∃ s', ids.foldlM (pruneEntry c) s = .ok s' := by
  have hloop : ∃ s', ids.foldlM (pruneEntry c) s = .ok s' ∧ Shuffled s' ∧ ∀ id ∈ ids, id ∉ ids →
      (s'.mapInfo.lookup id).isSome := by
    apply foldlM_split (I := fun done t => Shuffled t ∧ ∀ id ∈ ids, id ∉ done → (t.mapInfo.lookup id).isSome)
    · rintro done id rest t rfl ⟨ht, hleft⟩
      have hnot : id ∉ done := fun hmem => (nodup_append.mp hnodup).2.2 id hmem id mem_cons_self rfl
      obtain ⟨_, hx⟩ := Option.isSome_iff_exists.mp (hleft id (mem_append_right _ mem_cons_self) hnot)
      obtain ⟨t', hprune, ht', hkeep⟩ := pruneEntry_ok ht hx (c := c)
      refine ⟨t', hprune, ht', ?_⟩
      intro id' hid' hdone
      rw [mem_append, mem_singleton, not_or] at hdone
      exact hkeep id' hdone.2 (hleft id' hid' hdone.1)
    · exact ⟨h, fun id hid _ => hids id hid⟩
  obtain ⟨s', hrun, -⟩ := hloop
  exact ⟨s', hrun⟩

variable (order : MapOrder A R)

omit [DecidableEq A] in
theorem MapOrder.mem_ids (m : AssocMap Nat (AddrInfo A R)) (id : Nat) :
    id ∈ (order.entries m).map Sigma.fst ↔ (m.lookup id).isSome := by
  rw [((order.perm m).map Sigma.fst).mem_iff]
  exact lookup_isSome.symm

omit [DecidableEq A] in
theorem MapOrder.nodup_ids (m : AssocMap Nat (AddrInfo A R)) : ((order.entries m).map Sigma.fst).Nodup :=
  ((order.perm m).map Sigma.fst).nodup_iff.mpr m.keys_nodup

theorem rebuild_ends {bucket_entries : List (Nat × Nat)} (h : Numbered n s)
    (hentries : ∀ e ∈ bucket_entries, e.2 < n ∧ (restore_bucketing = true → e.1 < ADDRMAN_NEW_BUCKET_COUNT)) :
    Reader.Ends Thrown (fun s' => checkAddrman c s' = 0)
      (Reader.lift (rebuild c order restore_bucketing bucket_entries s)) := by
  obtain ⟨s1, hrestore, hnumbered⟩ :=
      foldlM_rule (f := restoreEntry c restore_bucketing) (l := bucket_entries) (I := fun _ t => Numbered n t)
    (fun _ e t he ht => restoreEntry_ok ht (hentries e he).1 (hentries e he).2) h
  obtain ⟨s2, hprune⟩ := prune_ok (order.nodup_ids s1.mapInfo) hnumbered.random
      (fun id => (order.mem_ids s1.mapInfo id).mp) (c := c)
  have hcheck : rebuild c order restore_bucketing bucket_entries s = if checkAddrman c s2 ≠ 0 then
      .error (.runtimeError ("Corrupt data. Consistency check failed with code " ++ toString (checkAddrman c s2)))
        else .ok s2 := by
    unfold rebuild
    rw [hrestore, ok_bind, hprune, ok_bind]
  rw [hcheck]
  apply Reader.Ends.lift
  · intro e he
    split at he
    · cases he
      exact thrown_runtimeError _
    · cases he
  · intro s' hs'
    split at hs'
    · cases hs'
    · next hzero =>
      cases hs'
      exact not_not.mp hzero

/-- Bytes are refused, or what they give passes the check. -/
theorem unserialize_ends (c : Context A R) (unser : Encoding → Stream (AddrInfo A R)) (asmapChecksum : Uint256)
    (order : MapOrder A R) (key : Uint256) :
    Reader.Ends Thrown (fun s' => checkAddrman c s' = 0) (unserialize c unser asmapChecksum order { nKey := key }) := by
  unfold unserialize
  have hempty : Reader.Ends Thrown (fun _ => True) (Reader.lift (check ([] : List Nat).isEmpty)) :=
      .lift nofun fun _ _ => trivial
  refine hempty.bind fun _ _ => ?_
  refine ((Reader.Ends.any readHeader).mapError fun what _ => thrown_runtimeError what).bind fun hdr _ => ?_
  simp only
  refine (loadNew_ends hdr.nNew.toNat (n := 0) ?_ ?_).bind fun s hs => ?_
  · intro k id
    simp [lookup_empty]
  · intro id
    simp [lookup_empty]
  obtain ⟨hrandom, hids⟩ := hs
  have hnumbered : Numbered hdr.nNew.toNat { s with nIdCount := hdr.nNew.toNat } := by
    refine ⟨hrandom, fun id info hinfo => ?_, fun id hid => (hids id).mpr (by omega)⟩
    have := (hids id).mp ⟨info, hinfo⟩
    simp only
    omega
  refine (loadTried_ends hdr.nTried.toNat hnumbered 0).bind fun r hr => ?_
  refine ((readBuckets_ends hdr.nNew hdr.nUBuckets.toNat 0).mapError fun what _ => thrown_runtimeError what).bind
    fun bucket_entries hentries => ?_
  refine ((Reader.Ends.any (readChecksum hdr.format)).mapError fun what _ => thrown_runtimeError what).bind
    fun checksum _ => ?_
  apply rebuild_ends order (n := hdr.nNew.toNat)
  · exact ⟨hr.random, hr.fresh, hr.known⟩
  · intro e he
    obtain ⟨hbucket, _⟩ := hentries e he
    refine ⟨by omega, ?_⟩
    intro hrestore
    rw [Bool.and_eq_true, decide_eq_true_eq] at hrestore
    rw [hrestore.1, Nat.zero_add] at hbucket
    exact hbucket

end FullNode.AddrMan

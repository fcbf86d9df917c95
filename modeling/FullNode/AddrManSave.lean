import FullNode.AddrManReload

/-! # Saved and loaded again -/

namespace FullNode.AddrMan

open Wire List AList Reader

/-! ## One entry -/

theorem readInt_writeInt {w : Nat} (hw : 8 ∣ w) (hpos : 0 < w) {n : Int} (hmin : -2 ^ (w - 1) ≤ n)
    (hmax : n < 2 ^ (w - 1)) (rest : List UInt8) :
    (readInt w).run (writeInt w n ++ rest) = .ok (n, rest) := by
  unfold readInt writeInt
  rw [run_bind_of_ok ((writeBits_canonical hw).unser_ser trivial rest), run_pure,
    BitVec.toInt_ofInt_eq_self hpos hmin hmax]

theorem readInt_writeNat {n : Nat} (hmax : n < 2 ^ 31) (rest : List UInt8) :
    (readInt 32).run (writeInt 32 n ++ rest) = .ok ((n : Int), rest) :=
  readInt_writeInt (by decide) (by decide) (by omega) (by omega) rest

theorem readPort_writePort (port : BitVec 16) (rest : List UInt8) :
    readPort.run (writePort port ++ rest) = .ok (port, rest) := by
  unfold readPort writePort
  have hlength : (leBytes 2 port.toNat).reverse.length = 2 := by simp
  have htake : (take endOfData 2).run ((leBytes 2 port.toNat).reverse ++ rest) =
    .ok ((leBytes 2 port.toNat).reverse, rest) := (IsCanonical.take endOfData 2).unser_ser hlength rest
  rw [run_bind_of_ok htake, run_pure, reverse_reverse, leValue_leBytes port.isLt, BitVec.ofNat_toNat,
    BitVec.setWidth_eq]

theorem readTime_writeInt (nTime : Int) (rest : List UInt8) :
    (readdata 4).run (writeInt 32 nTime ++ rest) = .ok ((BitVec.ofInt 32 nTime).toNat, rest) :=
  (IsCanonical.le endOfData 4).unser_ser (BitVec.isLt _) rest

theorem readInfo_writeInfo : ReadsBack writeInfo (readInfo .V2) := by
  intro info hfits rest
  have hversion : storedEncoding .V2 (DISK_VERSION_INIT ||| DISK_VERSION_ADDRV2) = return .V2 := rfl
  have hservices : ∀ bytes, (readServices .V2).run (writeCompactSize info.nServices ++ bytes) =
    .ok (info.nServices, bytes) := writeCompactSize_unchecked.unser_ser hfits.services
  have haddr : ∀ (a : CNetAddr) bytes, (CNetAddr.unserialize .V2).run (a.serializeV2 ++ bytes) = .ok (a, bytes) :=
      CNetAddr.unserializeV2_serializeV2
  have htime : (((BitVec.ofInt 32 info.nTime).toNat : Nat) : Int) = info.nTime % 2 ^ 32 := by
    rw [BitVec.toNat_ofInt]
    omega
  unfold readInfo writeInfo
  simp only [append_assoc]
  rw [run_bind_of_ok ((writeBits_canonical (by decide)).unser_ser trivial _), hversion, pure_bind,
    run_bind_of_ok (readTime_writeInt _ _), run_bind_of_ok (hservices _), run_bind_of_ok (haddr _ _),
    run_bind_of_ok (readPort_writePort _ _), run_bind_of_ok (haddr _ _),
    run_bind_of_ok (readInt_writeInt (by decide) (by decide) hfits.success.1 hfits.success.2 _),
    run_bind_of_ok (readInt_writeInt (by decide) (by decide) hfits.attempts.1 hfits.attempts.2 _), run_pure, htime]
  rfl

/-! ## The lists -/

variable {A R : Type}

def Entry.isNew (e : Entry A R) : Bool := e.2.nRefCount ≠ 0

def Entry.isTried (e : Entry A R) : Bool := e.2.fInTried

variable {l : List (Entry A R)} {nIds : Nat} {nNew : Int}

theorem writeNew_spec (ser : AddrInfo A R → List UInt8) (hnodup : (l.map Sigma.fst).Nodup)
    (hcount : (nIds + (l.filter Entry.isNew).length : Int) = nNew) (m : AssocMap Nat Nat) :
    ∃ m', writeNew ser nNew l nIds m = .ok ((l.filter Entry.isNew).flatMap fun e => ser e.2, m') ∧
      (∀ k e, (l.filter Entry.isNew)[k]? = some e → m'.lookup e.1 = some (nIds + k)) ∧
      ∀ id, id ∉ l.map Sigma.fst → m'.lookup id = m.lookup id := by
  induction l generalizing nIds m with
  | nil => exact ⟨m, rfl, fun k e he => by simp at he, fun _ _ => rfl⟩
  | cons e l ih =>
    obtain ⟨id, info⟩ := e
    rw [map_cons, nodup_cons] at hnodup
    unfold writeNew
    by_cases href : info.nRefCount ≠ 0
    · have hnew : Entry.isNew (⟨id, info⟩ : Entry A R) = true := by simpa [Entry.isNew] using href
      rw [filter_cons_of_pos hnew] at hcount ⊢
      rw [length_cons] at hcount
      have hcheck : check ((nIds : Int) ≠ nNew) = .ok () := check_ok.mpr (by simp only [decide_eq_true_eq]; omega)
      have hcount' : (((nIds + 1 : Nat) : Int) + ((l.filter Entry.isNew).length : Int)) = nNew := by omega
      obtain ⟨m', hrun, hin, hout⟩ := ih hnodup.2 hcount' (m.insert id nIds)
      refine ⟨m', ?_, ?_, ?_⟩
      · rw [if_pos href, hcheck, ok_bind, hrun, ok_bind]
        rfl
      · intro k e he
        cases k with
        | zero =>
          cases he
          exact (hout _ hnodup.1).trans (lookup_insert _)
        | succ k =>
          rw [getElem?_cons_succ] at he
          rw [hin k e he]
          congr 1
          omega
      · intro id' hid'
        rw [map_cons, mem_cons, not_or] at hid'
        rw [hout id' hid'.2, lookup_insert_ne hid'.1]
    · have hnew : ¬ Entry.isNew (⟨id, info⟩ : Entry A R) = true := by simpa [Entry.isNew] using href
      rw [filter_cons_of_neg hnew] at hcount ⊢
      obtain ⟨m', hrun, hin, hout⟩ := ih hnodup.2 hcount (m.insert id nIds)
      refine ⟨m', ?_, hin, ?_⟩
      · rw [if_neg href, hrun]
      · intro id' hid'
        rw [map_cons, mem_cons, not_or] at hid'
        rw [hout id' hid'.2, lookup_insert_ne hid'.1]

theorem writeTried_spec (ser : AddrInfo A R → List UInt8) {nTried : Int}
    (hcount : (nIds + (l.filter Entry.isTried).length : Int) = nTried) :
    writeTried ser nTried l nIds = .ok ((l.filter Entry.isTried).flatMap fun e => ser e.2) := by
  induction l generalizing nIds with
  | nil => rfl
  | cons e l ih =>
    obtain ⟨id, info⟩ := e
    unfold writeTried
    by_cases htried : info.fInTried = true
    · rw [filter_cons_of_pos (show Entry.isTried (⟨id, info⟩ : Entry A R) = true from htried)] at hcount ⊢
      rw [length_cons] at hcount
      have hcheck : check ((nIds : Int) ≠ nTried) = .ok () := check_ok.mpr (by simp only [decide_eq_true_eq]; omega)
      have hcount' : (((nIds + 1 : Nat) : Int) + ((l.filter Entry.isTried).length : Int)) = nTried := by omega
      rw [if_pos htried, hcheck, ok_bind, ih hcount', ok_bind]
      rfl
    · rw [filter_cons_of_neg (show ¬ Entry.isTried (⟨id, info⟩ : Entry A R) = true from htried)] at hcount ⊢
      rw [if_neg htried, ih hcount]

/-! ## The buckets -/

theorem readEntries_spec (bucket : Nat) (f : Nat → Nat) (ids : List Nat) (hids : ∀ id ∈ ids, (f id : Int) < nNew)
    (hmax : nNew ≤ 2 ^ 31) (rest : List UInt8) :
    (readEntries nNew bucket ids.length).run ((ids.flatMap fun id => writeInt 32 (f id : Nat)) ++ rest) = .ok
    (ids.map fun id => (bucket, f id), rest) := by
  induction ids with
  | nil => rfl
  | cons id ids ih =>
    rw [forall_mem_cons] at hids
    rw [length_cons, flatMap_cons, append_assoc]
    unfold readEntries
    rw [run_bind_of_ok (readInt_writeNat (by omega) _), run_bind_of_ok (ih hids.2), if_pos ⟨by omega, hids.1⟩, run_pure]
    rfl

theorem bucketIds_length_le (t : Table) (bucket : Nat) : (bucketIds t bucket).length ≤ ADDRMAN_BUCKET_SIZE := by
  have hlength := length_filterMap_le (t bucket) (range ADDRMAN_BUCKET_SIZE)
  rw [length_range] at hlength
  exact hlength

theorem readBuckets_spec (nNew : Int) (t : Table) (m : AssocMap Nat Nat) (left bucket : Nat)
    (hids : ∀ b pos id, t b pos = some id → (((m.lookup id).getD 0 : Nat) : Int) < nNew) (hmax : nNew ≤ 2 ^ 31)
    (rest : List UInt8) :
    (readBuckets nNew left bucket).run ((range' bucket left).flatMap (writeBucket t m) ++ rest) =
      .ok ((range' bucket left).flatMap fun b => (bucketIds t b).map fun id => (b, (m.lookup id).getD 0), rest) := by
  induction left generalizing bucket with
  | zero => rfl
  | succ left ih =>
    have hsize : ADDRMAN_BUCKET_SIZE = 64 := rfl
    have hlength := bucketIds_length_le t bucket
    have hbucket : ∀ id ∈ bucketIds t bucket, (((m.lookup id).getD 0 : Nat) : Int) < nNew := by
      intro id hid
      obtain ⟨pos, -, hslot⟩ := mem_filterMap.mp hid
      exact hids bucket pos id hslot
    rw [range'_succ, flatMap_cons, flatMap_cons, append_assoc]
    unfold readBuckets
    unfold writeBucket at ih ⊢
    rw [append_assoc, run_bind_of_ok (readInt_writeNat (by omega) _), Int.toNat_natCast,
      run_bind_of_ok (readEntries_spec bucket (fun id => (m.lookup id).getD 0) _ hbucket hmax _),
        run_bind_of_ok (ih (bucket + 1)),
      run_pure]

/-! ## The lists of the file -/

theorem length_filter_eq_sumBy (f : AddrInfo A R → Nat) (p : Entry A R → Bool) {m : AssocMap Nat (AddrInfo A R)}
    (h : ∀ e ∈ m.entries, f e.2 = if p e then 1 else 0) : (m.entries.filter p).length = AssocMap.sumBy f m := by
  unfold AssocMap.sumBy
  generalize m.entries = l at h
  induction l with
  | nil => rfl
  | cons e l ih =>
    rw [forall_mem_cons] at h
    rw [map_cons, sum_cons, h.1, ← ih h.2]
    by_cases hp : p e
    · rw [filter_cons_of_pos hp, if_pos hp, length_cons, Nat.add_comm]
    · rw [filter_cons_of_neg hp, if_neg hp, Nat.zero_add]

theorem slots_length_le (t : Table) (bucket_count : Nat) :
    ((range bucket_count).flatMap (bucketIds t)).length ≤ bucket_count * ADDRMAN_BUCKET_SIZE := by
  induction bucket_count with
  | zero => exact Nat.zero_le _
  | succ bucket_count ih =>
    have hlength := bucketIds_length_le t bucket_count
    rw [range_succ, flatMap_append, length_append, flatMap_singleton, Nat.succ_mul]
    exact Nat.add_le_add ih hlength

section Lists

variable [DecidableEq A] {c : Context A R} {s0 : State A R} {L : List (Entry A R)} (order : MapOrder A R)

def newEntries (s0 : State A R) : List (Entry A R) := (order.entries s0.mapInfo).filter Entry.isNew

def triedEntries (s0 : State A R) : List (Entry A R) := (order.entries s0.mapInfo).filter Entry.isTried

variable {e : Entry A R}

omit [DecidableEq A] in
theorem mem_order : e ∈ order.entries s0.mapInfo ↔ s0.mapInfo.lookup e.1 = some e.2 := by
  rw [(order.perm s0.mapInfo).mem_iff]
  exact mem_lookup_iff.symm

theorem isTried_eq_not_isNew (h : Consistent c s0) (he : s0.mapInfo.lookup e.1 = some e.2) : e.isTried = !e.isNew := by
  unfold Entry.isTried Entry.isNew
  cases htried : e.2.fInTried with
  | true =>
    rw [h.placed.tried_ref he htried]
    rfl
  | false =>
    have hpos := h.placed.ref_pos e.1 e.2 he htried not_false
    simp [hpos.ne']

theorem complete_lists (h : Consistent c s0) : Complete s0 (newEntries order s0 ++ triedEntries order s0) := by
  have hrest : triedEntries order s0 = (order.entries s0.mapInfo).filter fun e => !Entry.isNew e :=
    filter_congr fun e he => isTried_eq_not_isNew h ((mem_order order).mp he)
  have hperm : (newEntries order s0 ++ triedEntries order s0).Perm (order.entries s0.mapInfo) := by
    rw [hrest]
    exact filter_append_perm Entry.isNew _
  refine ⟨⟨?_, ?_⟩, ?_⟩
  · exact (hperm.map Sigma.fst).nodup_iff.mpr (order.nodup_ids s0.mapInfo)
  · intro e he
    exact (mem_order order).mp (hperm.mem_iff.mp he)
  · intro id info hinfo
    exact hperm.mem_iff.mpr ((mem_order order).mpr hinfo)

theorem newEntries_new (h : Consistent c s0) (he : e ∈ newEntries order s0) : e.2.fInTried = false := by
  obtain ⟨hmem, hnew⟩ := mem_filter.mp he
  have hnot := isTried_eq_not_isNew h ((mem_order order).mp hmem)
  rw [hnew] at hnot
  exact hnot

omit [DecidableEq A] in
theorem triedEntries_tried (he : e ∈ triedEntries order s0) : e.2.fInTried = true := (mem_filter.mp he).2

theorem newEntries_length (h : Consistent c s0) : ((newEntries order s0).length : Int) = s0.nNew := by
  have htotal := h.counted.new_total
  have hsum := length_filter_eq_sumBy newIn (Entry.isNew (A := A) (R := R)) (m := s0.mapInfo) (by
    intro e he
    have hnot := isTried_eq_not_isNew h (mem_lookup_iff.mpr he)
    unfold Entry.isTried at hnot
    unfold newIn
    rw [hnot]
    cases Entry.isNew e <;> rfl)
  unfold newEntries
  rw [((order.perm s0.mapInfo).filter _).length_eq, hsum]
  omega

theorem triedEntries_length (h : Consistent c s0) : ((triedEntries order s0).length : Int) = s0.nTried := by
  have hsum := length_filter_eq_sumBy triedIn (Entry.isTried (A := A) (R := R)) (m := s0.mapInfo) fun _ _ => rfl
  unfold triedEntries
  rw [((order.perm s0.mapInfo).filter _).length_eq, hsum, h.counted.tried_total]

omit [DecidableEq A] in
theorem length_le_slots {t : Table} {bucket_count : Nat} (hnodup : (L.map Sigma.fst).Nodup)
    (hslot : ∀ e ∈ L, ∃ bucket pos, bucket < bucket_count ∧ pos < ADDRMAN_BUCKET_SIZE ∧ t bucket pos = some e.1) :
    L.length ≤ bucket_count * ADDRMAN_BUCKET_SIZE := by
  have hsub : L.map Sigma.fst ⊆ (range bucket_count).flatMap (bucketIds t) := by
    intro id hid
    obtain ⟨e, he, rfl⟩ := mem_map.mp hid
    obtain ⟨bucket, pos, hbucket, hpos, hat⟩ := hslot e he
    exact mem_flatMap.mpr ⟨bucket, mem_range.mpr hbucket, mem_filterMap.mpr ⟨pos, mem_range.mpr hpos, hat⟩⟩
  have hle := (hnodup.subperm hsub).length_le
  rw [length_map] at hle
  exact hle.trans (slots_length_le t bucket_count)

theorem newEntries_le (h : Consistent c s0) :
    (newEntries order s0).length ≤ ADDRMAN_NEW_BUCKET_COUNT * ADDRMAN_BUCKET_SIZE := by
  have hcomplete := complete_lists order h
  apply length_le_slots (t := s0.vvNew) hcomplete.front.nodup
  intro e he
  have hinfo := hcomplete.front.lookup e he
  have hpos := h.placed.ref_pos e.1 e.2 hinfo (newEntries_new order h he) not_false
  rw [h.placed.ref_eq e.1 e.2 hinfo, Int.natCast_pos] at hpos
  obtain ⟨bucket, hbucket, hslot⟩ := countP_pos_iff.mp hpos
  exact ⟨bucket, _, mem_range.mp hbucket, getBucketPosition_lt c _ _ _ _, of_decide_eq_true hslot⟩

theorem triedEntries_le (h : Consistent c s0) :
    (triedEntries order s0).length ≤ ADDRMAN_TRIED_BUCKET_COUNT * ADDRMAN_BUCKET_SIZE := by
  have hcomplete := complete_lists order h
  have hnodup := hcomplete.nodup
  rw [map_append] at hnodup
  apply length_le_slots (t := s0.vvTried) (nodup_append.mp hnodup).2.1
  intro e he
  have hinfo := hcomplete.lookup e (mem_append_right _ he)
  have hslot := (h.placed.tried _ _ e.1).mpr ⟨e.2, hinfo, triedEntries_tried order he, rfl, rfl⟩
  exact ⟨_, _, getTriedBucket_lt c _ _, getBucketPosition_lt c _ _ _ _, hslot⟩

end Lists

/-! ## What stands in front of the entries -/

theorem readHeader_written (nKey : Uint256) {nNew nTried : Nat}
    (hnew : nNew ≤ ADDRMAN_NEW_BUCKET_COUNT * ADDRMAN_BUCKET_SIZE)
    (htried : nTried ≤ ADDRMAN_TRIED_BUCKET_COUNT * ADDRMAN_BUCKET_SIZE) (rest : List UInt8) :
    readHeader.run (leBytes 1 FILE_FORMAT ++
      (leBytes 1 (INCOMPATIBILITY_BASE + V4_MULTIPORT) ++ (writeBits nKey ++ (writeInt 32 nNew ++
      (writeInt 32 nTried ++ (writeBits (BitVec.ofNat 32 ADDRMAN_NEW_BUCKET_COUNT ^^^ (1#32 <<< 30)) ++ rest)))))) =
      .ok ({ format := FILE_FORMAT, nKey, nNew, nTried, nUBuckets := ADDRMAN_NEW_BUCKET_COUNT }, rest) := by
  have hbyte : ∀ {n : Nat}, n < 256 → ∀ bytes, (readdata 1).run (leBytes 1 n ++ bytes) = .ok (n, bytes) := fun hn =>
    (IsCanonical.le endOfData 1).unser_ser hn
  have hnewMax : ADDRMAN_NEW_BUCKET_COUNT * ADDRMAN_BUCKET_SIZE = 65536 := rfl
  have htriedMax : ADDRMAN_TRIED_BUCKET_COUNT * ADDRMAN_BUCKET_SIZE = 16384 := rfl
  unfold readHeader
  rw [run_bind_of_ok (hbyte (by decide) _), run_bind_of_ok (hbyte (by decide) _), if_neg (by decide),
    if_neg (by decide),
    run_bind_of_ok ((writeBits_canonical (by decide)).unser_ser trivial _),
      run_bind_of_ok (readInt_writeNat (by omega) _),
    run_bind_of_ok (readInt_writeNat (by omega) _),
      run_bind_of_ok ((writeBits_canonical (by decide)).unser_ser trivial _)]
  simp only
  rw [if_neg (by omega), if_neg (by omega), run_pure]
  rfl

/-! ## The whole file -/

section File

variable [DecidableEq A] {c : Context A R} {s0 : State A R} {ser : AddrInfo A R → List UInt8}
  {unser : Encoding → Stream (AddrInfo A R)}

theorem written_number (order : MapOrder A R) (h : Consistent c s0) {m : AssocMap Nat Nat}
    (hm : ∀ k e, (newEntries order s0)[k]? = some e → m.lookup e.1 = some (0 + k)) {bucket pos id : Nat}
    (hslot : s0.vvNew bucket pos = some id) :
    (m.lookup id).getD 0 = newId (newEntries order s0 ++ triedEntries order s0) id ∧
      (m.lookup id).getD 0 < (newEntries order s0).length := by
  have hcomplete := complete_lists order h
  obtain ⟨-, x, hx, hnew, -⟩ := h.placed.new_slot _ _ _ hslot
  have hmem : (⟨id, x⟩ : Entry A R) ∈ newEntries order s0 := by
    rcases mem_append.mp (hcomplete.all id x hx) with hmem | hmem
    · exact hmem
    · rw [triedEntries_tried order hmem] at hnew
      cases hnew
  obtain ⟨k, hlt, hk⟩ := mem_iff_getElem.mp hmem
  have hat : (newEntries order s0)[k]? = some ⟨id, x⟩ := by rw [getElem?_eq_getElem hlt, hk]
  have hplace : (newEntries order s0 ++ triedEntries order s0)[k]? =
      some ⟨id, x⟩ := by rw [getElem?_append_left hlt, hat]
  have hlookup := hm k _ hat
  rw [Nat.zero_add] at hlookup
  rw [show m.lookup id = some k from hlookup, Option.getD_some]
  exact ⟨(hcomplete.newId_eq hplace).symm, hlt⟩

theorem flatMap_bucketEntries {t : Table} {f g : Nat → Nat}
    (h : ∀ bucket pos id, t bucket pos = some id → f id = g id) :
    ((range' 0 ADDRMAN_NEW_BUCKET_COUNT).flatMap fun bucket => (bucketIds t bucket).map fun id => (bucket, f id)) =
      bucketEntries t g := by
  unfold bucketEntries
  rw [range_eq_range']
  apply flatMap_congr
  intro bucket _
  apply map_congr_left
  intro id hid
  obtain ⟨pos, -, hslot⟩ := mem_filterMap.mp hid
  rw [h bucket pos id hslot]

omit [DecidableEq A] in
theorem settle_counted {s : State A R} {n : Int} (h : s.nNew = n) (ids : Nat) (t : Int) :
    settle s ids n t = { { s with nIdCount := ids } with nTried := t } := by
  subst h
  rfl

theorem loaded_nothing (nKey : Uint256) (nNew nTried : Int) :
    Loaded c ([] : List (Entry A R)) (settle { nKey, nNew, nTried } ([] : List (Entry A R)).length 0 0) := by
  have hempty : Consistent c ({ nKey } : State A R) := ready_initial.consistent
  exact ⟨hempty.loosen fun _ _ _ _ hnot => absurd trivial hnot, rfl, fun _ => rfl, fun _ _ => rfl⟩

theorem unserialize_serialize (hformat : ReadsBack ser (unser .V2)) (h : Consistent c s0) (hkey : s0.nKey ≠ 0)
    (hfits : ∀ id info, s0.mapInfo.lookup id = some info → Fits info)
    (hvalid : ∀ id info, s0.mapInfo.lookup id = some info → c.isValid info.addr = true)
    (asmapChecksum : Uint256) (order order' : MapOrder A R) (key : Uint256) (rest : List UInt8) :
    ∃ bytes s', serialize ser asmapChecksum order s0 = .ok bytes ∧
      (unserialize c unser asmapChecksum order' { nKey := key }).run (bytes ++ rest) = .ok (s', rest) ∧
      Reloaded c (newEntries order s0 ++ triedEntries order s0) s0 s' := by
  have hcomplete := complete_lists order h
  have hnNew := newEntries_length order h
  have hnTried := triedEntries_length order h
  have hnewMax := newEntries_le order h
  have htriedMax := triedEntries_le order h
  have hsize : ADDRMAN_NEW_BUCKET_COUNT * ADDRMAN_BUCKET_SIZE = 65536 := rfl
  have hnewCount : (((0 : Nat) : Int) + ((newEntries order s0).length : Int)) = s0.nNew := by omega
  have htriedCount : (((0 : Nat) : Int) + ((triedEntries order s0).length : Int)) = s0.nTried := by omega
  -- what is written
  obtain ⟨m, hwriteNew, hm, -⟩ := writeNew_spec ser (order.nodup_ids s0.mapInfo) hnewCount ∅
  have hwriteTried := writeTried_spec ser htriedCount
  have hnumber : ∀ bucket pos id, s0.vvNew bucket pos = some id →
      (m.lookup id).getD 0 = newId (newEntries order s0 ++ triedEntries order s0) id ∧
        (m.lookup id).getD 0 < (newEntries order s0).length :=
    fun _ _ _ => written_number order h hm
  -- what is read back of it
  have hlookup := fun e (he : e ∈ newEntries order s0 ++ triedEntries order s0) => hcomplete.lookup e he
  have htriedMem := fun e (he : e ∈ triedEntries order s0) => hlookup e (mem_append_right _ he)
  obtain ⟨s1, hreadNew, hloaded1, hkey1, hnNew1, hnTried1⟩ := loadNew_spec hformat h hcomplete.front
    (fun e he => hfits e.1 e.2 (hlookup e (mem_append_left _ he))) (fun e he => newEntries_new order h he)
    (loaded_nothing s0.nKey (newEntries order s0).length (triedEntries order s0).length)
    ((triedEntries order s0).flatMap (fun e => ser e.2) ++
      ((range' 0 ADDRMAN_NEW_BUCKET_COUNT).flatMap (writeBucket s0.vvNew m) ++
      (writeBits asmapChecksum ++ rest)))
  have hloaded1' : Loaded c
      (newEntries order s0) { { s1 with nIdCount := (newEntries order s0).length } with nTried := 0 } := by
    rw [← settle_counted hnNew1, ← Int.zero_add ((newEntries order s0).length : Int)]
    exact hloaded1
  obtain ⟨s2, hreadTried, hloaded2, hkey2, -, hnTried2⟩ :=
      loadTried_spec (s := { s1 with nIdCount := (newEntries order s0).length }) (t := 0) hformat h
    hcomplete.toListed
    (fun e he => hfits e.1 e.2 (htriedMem e he)) (fun e he => triedEntries_tried order he)
    (fun e he => hvalid e.1 e.2 (htriedMem e he)) hkey1 hloaded1' 0
    ((range' 0 ADDRMAN_NEW_BUCKET_COUNT).flatMap (writeBucket s0.vvNew m) ++ (writeBits asmapChecksum ++ rest))
  have hloaded2' : Loaded c (newEntries order s0 ++ triedEntries order s0)
      { s2 with nTried := s2.nTried - (0 : Nat) } := by
    have hcount : s2.nTried - (0 : Nat) = 0 + (triedEntries order s0).length := by
      rw [hnTried2, hnTried1, Nat.cast_zero, Int.sub_zero, Int.zero_add]
    rw [hcount]
    exact hloaded2
  have hreadBuckets := readBuckets_spec (newEntries order s0).length s0.vvNew m ADDRMAN_NEW_BUCKET_COUNT 0
    (fun bucket pos id hslot => Int.ofNat_lt.mpr (hnumber bucket pos id hslot).2) (by omega)
      (writeBits asmapChecksum ++ rest)
  rw [flatMap_bucketEntries fun bucket pos id hslot => (hnumber bucket pos id hslot).1] at hreadBuckets
  obtain ⟨s', hrebuild, hreloaded⟩ := rebuild_spec h hkey hcomplete
    (fun e he => hvalid e.1 e.2 (hlookup e he)) hloaded2' (hkey2.trans hkey1) order'
  have hheader := readHeader_written s0.nKey hnewMax htriedMax ((newEntries order s0).flatMap (fun e => ser e.2) ++
    ((triedEntries order s0).flatMap (fun e => ser e.2) ++
      ((range' 0 ADDRMAN_NEW_BUCKET_COUNT).flatMap (writeBucket s0.vvNew m) ++
      (writeBits asmapChecksum ++ rest))))
  have hchecksum : (readChecksum FILE_FORMAT).run (writeBits asmapChecksum ++ rest) = .ok (asmapChecksum, rest) :=
    (writeBits_canonical (by decide)).unser_ser trivial rest
  refine ⟨leBytes 1 FILE_FORMAT ++
    (leBytes 1 (INCOMPATIBILITY_BASE + V4_MULTIPORT) ++ (writeBits s0.nKey ++ (writeInt 32 s0.nNew ++
    (writeInt 32 s0.nTried ++ (writeBits (BitVec.ofNat 32 ADDRMAN_NEW_BUCKET_COUNT ^^^ (1#32 <<< 30)) ++
      ((newEntries order s0).flatMap (fun e => ser e.2) ++ ((triedEntries order s0).flatMap (fun e => ser e.2) ++
        ((range ADDRMAN_NEW_BUCKET_COUNT).flatMap (writeBucket s0.vvNew m) ++ writeBits asmapChecksum)))))))), s',
          ?_, ?_, hreloaded⟩
  · unfold serialize
    simp only [hwriteNew, hwriteTried, ok_bind]
    rfl
  · unfold unserialize
    simp only [append_assoc]
    have hempty : check ([] : List Nat).isEmpty = .ok () := rfl
    have hencoding : (if FILE_FORMAT ≥ V3_BIP155 then Encoding.V2 else Encoding.V1) = .V2 := rfl
    rw [← hnNew, ← hnTried, range_eq_range', run_bind_of_ok (lift_run_of_ok hempty _),
      run_bind_of_ok (mapError_run_of_ok _ hheader)]
    simp only [Int.toNat_natCast, hencoding]
    rw [length_nil] at hreadNew
    rw [run_bind_of_ok hreadNew, run_bind_of_ok hreadTried, run_bind_of_ok (mapError_run_of_ok _ hreadBuckets),
      run_bind_of_ok (mapError_run_of_ok _ hchecksum)]
    simp only [decide_true, Bool.and_self]
    exact lift_run_of_ok hrebuild rest

end File

/-- A manager saved after any run comes back. Any bytes give an exception or tables that pass the check. -/
theorem unserialize_serialize_run (g : NetGroupManager) (order order' : MapOrder CService CNetAddr) (key' : Uint256) :
    (∀ (key : Uint256) calls s, key ≠ 0 → (∀ call ∈ calls, call.Timely) → run g.context { nKey := key } calls = .ok s →
      (∀ id info, s.mapInfo.lookup id = some info → Fits info) → ∀ rest, ∃ bytes s',
        serialize writeInfo g.asmapChecksum order s = .ok bytes ∧
        (unserialize g.context readInfo g.asmapChecksum order' { nKey := key' }).run (bytes ++ rest) = .ok (s', rest) ∧
        checkAddrman g.context s' = 0 ∧ SameAddrs s s') ∧
    ∀ bytes, (∃ what, (unserialize g.context readInfo g.asmapChecksum order' { nKey := key' }).run bytes =
      .error (.runtimeError what)) ∨
      ∃ s' rest, (unserialize g.context readInfo g.asmapChecksum order' { nKey := key' }).run bytes = .ok (s', rest) ∧
        checkAddrman g.context s' = 0 := by
  constructor
  · intro key calls s hkey htimely hrun hfits rest
    have hinitial : Ready g.context key { nKey := key } := ready_initial
    obtain ⟨_, ht, hready⟩ := run_ready hinitial htimely
    rw [hrun] at ht
    cases ht
    have hvalid : AllAddrs (fun a => g.context.isValid a = true) s.mapInfo :=
      AllAddrs.run (fun a => CNetAddr.isValid_of_isRoutable) (fun id info hinfo => by cases hinfo) hrun
    obtain ⟨bytes, s', hserialize, hunserialize, hreloaded⟩ :=
        unserialize_serialize readInfo_writeInfo hready.consistent
      (hready.nKey ▸ hkey) hfits hvalid g.asmapChecksum order order' key' rest
    refine ⟨bytes, s', hserialize, hunserialize, ?_,
      hreloaded.same hready.consistent (complete_lists order hready.consistent)⟩
    rw [checkAddrman_eq hreloaded.consistent, if_neg (hreloaded.nKey.trans hready.nKey ▸ hkey)]
  · intro bytes
    obtain ⟨herror, hok⟩ := unserialize_ends g.context readInfo g.asmapChecksum order' key' bytes
    cases hend : (unserialize g.context readInfo g.asmapChecksum order' { nKey := key' }).run bytes with
    | error f =>
      obtain ⟨what, rfl⟩ := herror f hend
      exact .inl ⟨what, rfl⟩
    | ok r => exact .inr ⟨r.1, r.2, rfl, hok r.1 r.2 hend⟩

instance (info : AddrInfo A R) : Decidable (Fits info) :=
  decidable_of_iff (info.nServices < 2 ^ 64 ∧ (-2 ^ 63 ≤ info.m_last_success ∧ info.m_last_success < 2 ^ 63) ∧
    -2 ^ 31 ≤ info.nAttempts ∧ info.nAttempts < 2 ^ 31) ⟨fun h => ⟨h.1, h.2.1, h.2.2⟩,
      fun h => ⟨h.services, h.success, h.attempts⟩⟩

def byPort : NetGroupManager where
  asmapChecksum := 0
  triedHash _ a := a.port.toNat
  newHash _ a source := a.port.toNat + source.m_addr.length
  positionHash _ _ _ a := a.port.toNat

theorem ipv4_routable : Network.ipv4 ≠ .unroutable := by decide

def peer (last : UInt8) (port : BitVec 16) : CService := ⟨⟨.ipv4, [9, 8, 7, last], ipv4_routable, rfl, nofun⟩, port⟩

def inOrder : MapOrder CService CNetAddr := ⟨fun m => m.entries, fun _ => .refl _⟩

def savedCalls : List (Call CService CNetAddr) :=
  [.add [(⟨peer 1 8333, 1, 1000⟩, ⟨1000, 0, 1000⟩), (⟨peer 2 8334, 9, 1000⟩, ⟨1000, 0, 1000⟩)]
    (peer 3 0).toCNetAddr 0, .good (peer 1 8333) true 1000, .attempt (peer 2 8334) true 2000]

theorem savedCalls_fit : ((run byPort.context { nKey := 1 } savedCalls).toOption.map fun s =>
    (s.nTried, s.nNew, decide (∀ e ∈ s.mapInfo.entries, Fits e.2))) = some (1, 1, true) := by
  decide +kernel

theorem savedCalls_reloaded : ∃ s bytes s', run byPort.context { nKey := 1 } savedCalls = .ok s ∧
    serialize writeInfo 0 inOrder s = .ok bytes ∧
    (unserialize byPort.context readInfo 0 inOrder { nKey := 2 }).run (bytes ++ []) = .ok (s', []) ∧
      SameAddrs s s' := by
  have htimely : ∀ call ∈ savedCalls, call.Timely := by
    simp [savedCalls, Call.Timely]
  have hinitial : Ready byPort.context 1 ({ nKey := 1 } : State CService CNetAddr) := ready_initial
  obtain ⟨s, hrun, -⟩ := run_ready hinitial htimely
  have hfits : ∀ id info, s.mapInfo.lookup id = some info → Fits info := by
    have hall := savedCalls_fit
    rw [hrun] at hall
    simp only [Except.toOption, Option.map_some, Option.some.injEq, Prod.mk.injEq, decide_eq_true_eq] at hall
    intro id info hinfo
    exact hall.2.2 ⟨id, info⟩ (mem_lookup_iff.mp hinfo)
  obtain ⟨bytes, s', hserialize, hunserialize, -, hsame⟩ :=
    (unserialize_serialize_run byPort inOrder inOrder 2).1 1 savedCalls s (by decide) htimely hrun hfits []
  exact ⟨s, bytes, s', hrun, hserialize, hunserialize, hsame⟩

end FullNode.AddrMan

import FullNode.AddrManTables

/-! # The tried table -/

namespace FullNode.AddrMan

open State List AList AssocMap

variable {A R : Type} [DecidableEq A] {c : Context A R} {s s' : State A R} {id : Nat} {info : AddrInfo A R}
  {loose : Nat → Prop} {total : Int} {debt : Network → Int}

/-! ## Clearing all references -/

/-- The table without the references of an entry in these buckets. -/
def unreferenced (c : Context A R) (key : Uint256) (a : A) (id : Nat) (buckets : List Nat) (t : Table) : Table :=
  fun bucket pos =>
  if bucket ∈ buckets ∧ pos = c.getBucketPosition key true bucket a ∧ t bucket pos = some id then none else t bucket pos

variable {key : Uint256} {a : A} {buckets : List Nat} {t : Table} {bucket pos : Nat}

omit [DecidableEq A] in
theorem unreferenced_some (bucket pos x : Nat) : unreferenced c key a id buckets t bucket pos = some x ↔
    t bucket pos = some x ∧ ¬ (bucket ∈ buckets ∧ pos = c.getBucketPosition key true bucket a ∧ x = id) := by
  unfold unreferenced
  grind

omit [DecidableEq A] in
theorem clearRefs_spec (hnodup : buckets.Nodup) {r : Int}
    (hr : r = buckets.countP fun bucket => t bucket (c.getBucketPosition key true bucket a) = some id) :
    clearRefs c key a id buckets t r = (unreferenced c key a id buckets t, 0) := by
  induction buckets generalizing t r with
  | nil =>
    have hsame : unreferenced c key a id [] t = t := by
      funext b q
      simp [unreferenced]
    rw [hr, hsame]
    rfl
  | cons bucket buckets ih =>
    rw [nodup_cons] at hnodup
    rw [countP_cons] at hr
    unfold clearRefs
    generalize hp : c.getBucketPosition key true bucket a = p at hr
    dsimp only
    by_cases hslot : t bucket p = some id
    · -- the other buckets do not see that this slot is cleared
      have hother : ∀ b ∈ buckets, t.set bucket p none b = t b := by
        intro b hb
        unfold Table.set
        grind
      have hcount : (buckets.countP fun b => t.set bucket p none b (c.getBucketPosition key true b a) = some id) =
          buckets.countP fun b => t b (c.getBucketPosition key true b a) = some id :=
        countP_congr fun b hb => by rw [hother b hb]
      have hcleared : unreferenced c key a id (bucket :: buckets) t =
          unreferenced c key a id buckets (t.set bucket p none) := by
        funext b q
        unfold unreferenced Table.set
        grind
      simp only [hslot, decide_true, if_true] at hr
      rw [if_pos hslot, hcleared]
      split
      · next hzero =>
        have hnone : ∀ b ∈ buckets, t b (c.getBucketPosition key true b a) ≠ some id := by
          have hcz : (buckets.countP fun b => t b (c.getBucketPosition key true b a) = some id) = 0 := by omega
          simpa using countP_eq_zero.mp hcz
        have hsame : unreferenced c key a id buckets (t.set bucket p none) = t.set bucket p none := by
          funext b q
          apply if_neg
          rintro ⟨hb, rfl, hsome⟩
          rw [hother b hb] at hsome
          exact hnone b hb hsome
        rw [hzero, hsame]
      · exact ih hnodup.2 (by rw [hcount]; omega)
    · have hkept : unreferenced c key a id (bucket :: buckets) t = unreferenced c key a id buckets t := by
        funext b q
        unfold unreferenced
        grind
      simp only [hslot, decide_false] at hr
      rw [if_neg hslot, hkept]
      exact ih hnodup.2 (by simpa using hr)

theorem bucketsFrom_perm (start : Nat) : (bucketsFrom start).Perm (range ADDRMAN_NEW_BUCKET_COUNT) := by
  have hcount : ADDRMAN_NEW_BUCKET_COUNT = 1024 := rfl
  unfold bucketsFrom
  rw [perm_ext_iff_of_nodup _ nodup_range]
  · intro b
    simp only [mem_map, mem_range, hcount]
    constructor
    · rintro ⟨_, -, rfl⟩
      omega
    · intro hb
      exact ⟨(b + 1024 - start % 1024) % 1024, by omega, by omega⟩
  · apply nodup_range.map_on
    intro x hx y hy hxy
    rw [mem_range] at hx hy
    rw [hcount] at *
    omega

/-! ## Counters -/

theorem Inv.recount (h : Inv c loose total debt s) (net : Network) (k : Int) :
    Inv c loose (total - k) (fun net' => debt net' - if net' = net then k else 0)
      { s with nNew := s.nNew + k, m_network_counts := addNew s.m_network_counts net k } := by
  refine ⟨⟨h.indexed.addr, h.indexed.random, h.indexed.fresh⟩,
    ⟨h.placed.tried, h.placed.new_slot, h.placed.ref_eq, h.placed.ref_le, h.placed.ref_pos⟩,
      ⟨?_, h.counted.tried_total, ?_, ?_, ?_⟩, h.timed⟩
  · have := h.counted.new_total
    simp only
    omega
  · intro net'
    have := h.counted.new_net net'
    simp only
    rw [(count_addNew _ _ net' _).1]
    omega
  · intro net'
    simp only
    rw [(count_addNew _ _ net' _).2]
    exact h.counted.tried_net net'
  · intro id info hinfo
    exact mem_addNew _ (h.counted.nets id info hinfo)

/-! ## Slots of the tried table -/

omit [DecidableEq A] in
theorem Placed.tried_ref (h : Placed c loose s) (hinfo : s.mapInfo.lookup id = some info)
    (htried : info.fInTried = true) : info.nRefCount = 0 := by
  rw [h.ref_eq id info hinfo]
  have hzero : refs c s.nKey s.vvNew info.addr id = 0 := by
    apply countP_eq_zero.mpr
    intro bucket _
    rw [decide_eq_true_eq]
    intro hslot
    obtain ⟨-, _, hx, hnew, -⟩ := h.new_slot _ _ _ hslot
    rw [hinfo] at hx
    cases hx
    rw [htried] at hnew
    cases hnew
  rw [hzero]
  rfl

omit [DecidableEq A] in
theorem Placed.retag (h : Placed c loose s) (hinfo : s.mapInfo.lookup id = some info) (hzero : info.nRefCount = 0)
    (fInTried : Bool) :
    (∀ bucket pos id', s.vvNew bucket pos = some id' → bucket < ADDRMAN_NEW_BUCKET_COUNT ∧
      ∃ x, (s.mapInfo.insert id { info with fInTried := fInTried }).lookup id' = some x ∧ x.fInTried = false ∧
        c.getBucketPosition s.nKey true bucket x.addr = pos) ∧
    (∀ id' x, (s.mapInfo.insert id { info with fInTried := fInTried }).lookup id' = some x →
      x.nRefCount = refs c s.nKey s.vvNew x.addr id') ∧
    ∀ id' x, (s.mapInfo.insert id { info with fInTried := fInTried }).lookup id' = some x →
      x.nRefCount ≤ ADDRMAN_NEW_BUCKETS_PER_ADDRESS := by
  refine ⟨?_, ?_, ?_⟩
  · intro bucket pos id' hslot
    obtain ⟨hlt, x, hx, hnew, hxpos⟩ := h.new_slot bucket pos id' hslot
    have hne : id' ≠ id := by
      rintro rfl
      exact h.no_slot hinfo hzero bucket pos hslot
    exact ⟨hlt, x, by rw [lookup_insert_ne hne, hx], hnew, hxpos⟩
  · intro id' x hx
    rcases lookup_insert_cases hx with ⟨rfl, rfl⟩ | ⟨-, hx⟩
    · exact h.ref_eq id' info hinfo
    · exact h.ref_eq id' x hx
  · intro id' x hx
    rcases lookup_insert_cases hx with ⟨rfl, rfl⟩ | ⟨-, hx⟩
    · exact h.ref_le id' info hinfo
    · exact h.ref_le id' x hx

section

variable (h : Inv c loose total debt s)
include h

section

variable (hinfo : s.mapInfo.lookup id = some info)
include hinfo

theorem Inv.retag (fInTried : Bool) (hflip : info.fInTried = !fInTried)
    (href : info.nRefCount = 0) (hsuccess : fInTried = true → info.m_last_success ≠ 0)
    (htable : ∀ bucket pos id', t bucket pos = some id' ↔ id' ≠ id ∧ s.vvTried bucket pos = some id' ∨
      id' = id ∧ fInTried = true ∧ c.getTriedBucket s.nKey info.addr = bucket ∧ c.triedPos s.nKey info.addr = pos)
    {n : Int} (hn : n = if fInTried then 1 else -1) {loose' : Nat → Prop}
    (hloose : ∀ id', ¬ loose' id' → if id' = id then fInTried = true else ¬ loose id')
    {total' : Int} (htotal : total' = total - n) {debt' : Network → Int}
    (hdebt : ∀ net, debt' net = debt net - if net = c.network info.addr then n else 0) :
    Inv c loose' total' debt' { s with
      mapInfo := s.mapInfo.insert id { info with fInTried := fInTried }
      vvTried := t
      nTried := s.nTried + n
      m_network_counts := addTried s.m_network_counts (c.network info.addr) n } := by
  have hindexed := h.indexed.update hinfo { info with fInTried := fInTried } rfl rfl
  have hcounted : Counted c total' debt' { s with
      mapInfo := s.mapInfo.insert id { info with fInTried := fInTried }
      nTried := s.nTried + n
      m_network_counts := addTried s.m_network_counts (c.network info.addr) n } := by
    have hmoved : (newIn { info with fInTried := fInTried } : Int) = newIn info - n ∧
        (triedIn { info with fInTried := fInTried } : Int) = triedIn info + n := by
      unfold newIn triedIn
      cases fInTried <;> simp [hflip, hn]
    apply h.counted.update hinfo { info with fInTried := fInTried } rfl
    · omega
    · omega
    · intro net
      rw [(count_addTried _ _ net _).1, hdebt, hmoved.1]
      split <;> omega
    · intro net
      rw [(count_addTried _ _ net _).2, hmoved.2]
      split <;> omega
    · exact fun net hnet => mem_addTried _ hnet
  obtain ⟨hslots, hrefs, hbound⟩ := h.placed.retag hinfo href fInTried
  refine ⟨⟨hindexed.addr, hindexed.random, hindexed.fresh⟩, ⟨?_, hslots, hrefs, hbound, ?_⟩,
    ⟨hcounted.new_total, hcounted.tried_total, hcounted.new_net, hcounted.tried_net, hcounted.nets⟩,
      timed_insert h.timed ?_⟩
  · intro bucket pos id'
    rw [htable]
    by_cases hne : id' = id
    · subst hne
      simp [lookup_insert]
    · rw [lookup_insert_ne hne, ← h.placed.tried]
      simp [hne]
  · intro id' x hx hxnew hnot
    have hkept := hloose id' hnot
    rcases lookup_insert_cases hx with ⟨rfl, rfl⟩ | ⟨hne, hx⟩
    · rw [if_pos rfl] at hkept
      exact absurd hkept (by simpa using hxnew)
    · rw [if_neg hne] at hkept
      exact h.placed.ref_pos id' x hx hxnew hkept
  · obtain ⟨htry, hnonneg, -⟩ := h.timed id info hinfo
    exact ⟨htry, hnonneg, hsuccess⟩

theorem Inv.leaveTried (htried : info.fInTried = true)
    (hbucket : c.getTriedBucket s.nKey info.addr = bucket) (hpos : c.triedPos s.nKey info.addr = pos) :
    Inv c (fun id' => loose id' ∨ id' = id) (total + 1)
      (fun net => debt net + if net = c.network info.addr then 1 else 0) { s with
      mapInfo := s.mapInfo.insert id { info with fInTried := false }
      vvTried := s.vvTried.set bucket pos none
      nTried := s.nTried - 1
      m_network_counts := addTried s.m_network_counts (c.network info.addr) (-1) } := by
  refine h.retag hinfo false htried (h.placed.tried_ref hinfo htried) nofun (fun bucket' pos' id' => ?_) rfl
    (by grind) rfl (by grind)
  have hid := h.placed.tried bucket' pos' id
  unfold Table.set
  grind

theorem Inv.enterTried (hnew : info.fInTried = false)
    (href : info.nRefCount = 0) (hsuccess : info.m_last_success ≠ 0)
    (hbucket : c.getTriedBucket s.nKey info.addr = bucket) (hpos : c.triedPos s.nKey info.addr = pos)
    (hslot : s.vvTried bucket pos = none) :
    Inv c (fun id' => loose id' ∧ id' ≠ id) (total - 1)
      (fun net => debt net - if net = c.network info.addr then 1 else 0) { s with
      mapInfo := s.mapInfo.insert id { info with fInTried := true }
      vvTried := s.vvTried.set bucket pos (some id)
      nTried := s.nTried + 1
      m_network_counts := addTried s.m_network_counts (c.network info.addr) 1 } := by
  refine h.retag hinfo true hnew href (fun _ => hsuccess) (fun bucket' pos' id' => ?_) rfl (by grind) rfl (fun _ => rfl)
  have hid := h.placed.tried bucket' pos' id
  unfold Table.set
  grind

end

end

/-! ## `MakeTried` -/

theorem evictTried_spec (h : Inv c (· = id) total debt s) (hinfo : s.mapInfo.lookup id = some info)
    (hnew : info.fInTried = false) (href : info.nRefCount = 0) {bucket pos old : Nat}
    (hslot : s.vvTried bucket pos = some old) :
    ∃ s' x, evictTried c s bucket pos old = .ok s' ∧ Inv c (· = id) total debt s' ∧ Ages s s' ∧
      s'.vvTried = s.vvTried.set bucket pos none ∧
      s'.mapInfo.lookup id = some x ∧ core x = core info ∧ x.m_last_success = info.m_last_success := by
  obtain ⟨infoOld, hold, htried, hbucket, hpos⟩ := (h.placed.tried bucket pos old).mp hslot
  have hne : id ≠ old := by
    rintro rfl
    rw [hinfo] at hold
    cases hold
    rw [hnew] at htried
    cases htried
  have hleave := h.leaveTried hold htried hbucket hpos
  generalize hs1 : ({ s with
    mapInfo := s.mapInfo.insert old { infoOld with fInTried := false }
    vvTried := s.vvTried.set bucket pos none
    nTried := s.nTried - 1
    m_network_counts := addTried s.m_network_counts (c.network infoOld.addr) (-1) } : State A R) = s1 at hleave
  have hages1 : Ages s s1 := by
    rw [← hs1]
    exact ages_insert hold rfl rfl rfl rfl rfl
  have hold1 : s1.mapInfo.lookup old = some { infoOld with fInTried := false } := by
    rw [← hs1]
    exact lookup_insert _
  have hinfo1 : s1.mapInfo.lookup id = some info := by
    rw [← hs1]
    exact (lookup_insert_ne hne).trans hinfo
  have hvvTried1 : s1.vvTried = s.vvTried.set bucket pos none := by rw [← hs1]
  have hkey : s1.nKey = s.nKey := by rw [← hs1]
  have hzero := h.placed.tried_ref hold htried
  generalize hnb : c.getNewBucket s.nKey infoOld.addr infoOld.source = nUBucket
  have hlt : nUBucket < ADDRMAN_NEW_BUCKET_COUNT := by
    rw [← hnb]
    exact getNewBucket_lt ..
  generalize hnp : c.getBucketPosition s.nKey true nUBucket infoOld.addr = nUBucketPos
  obtain ⟨s2, hclear, hinv2, hkeeps, hvvNew2⟩ := clearNew_spec hleave nUBucket nUBucketPos
  -- neither entry has a reference, so neither is the one that makes room
  obtain ⟨old2, hold2, hcoreOld, -⟩ := hkeeps.some_lookup (hleave.placed.no_slot hold1 hzero _ _) hold1
  obtain ⟨x, hx, hcore, hsuccess⟩ := hkeeps.some_lookup (hleave.placed.no_slot hinfo1 href _ _) hinfo1
  obtain ⟨haddrOld, hnewOld, hrefOld⟩ := core_eq_iff.mp hcoreOld
  simp only [hzero] at haddrOld hnewOld hrefOld
  have hempty : s2.vvNew nUBucket nUBucketPos = none := by rw [hvvNew2, set_self]
  have hpos2 : c.getBucketPosition s2.nKey true nUBucket old2.addr =
      nUBucketPos := by rw [hkeeps.ages.nKey, hkey, haddrOld, hnp]
  have hfill := hinv2.fill hold2 hnewOld hlt hpos2 hempty (by rw [hrefOld]; decide)
  rw [hrefOld, Int.zero_add] at hfill
  have hcount := hfill.recount (c.network infoOld.addr) 1
  have hdebt : (fun net =>
      (debt net + if net = c.network infoOld.addr then 1 else 0) - if net = c.network infoOld.addr then 1 else 0) =
        debt := by
    funext net
    exact add_sub_cancel_right _ _
  rw [add_sub_cancel_right, hdebt] at hcount
  refine ⟨{ s2 with
    mapInfo := s2.mapInfo.insert old { old2 with nRefCount := 1 }
    vvNew := s2.vvNew.set nUBucket nUBucketPos (some old)
    nNew := s2.nNew + 1
    m_network_counts := addNew s2.m_network_counts (c.network infoOld.addr) 1 }, x, ?_, ?_, ?_, ?_, ?_, hcore, hsuccess⟩
  · unfold evictTried
    rw [hold, infoAt_ok hold, Option.isSome_some, check_true, ok_bind, ok_bind, modify_eq hold]
    simp only [hs1, hnb, hnp, hclear, ok_bind, hempty, Option.isNone_none, check_true, modify_eq hold2]
    rfl
  · apply hcount.loosen
    intro id' y _ _ hnot
    left
    rintro ⟨hid | rfl, hold'⟩
    · exact hnot hid
    · exact hold' rfl
  · exact (hages1.trans hkeeps.ages).trans (ages_insert hold2 rfl rfl rfl rfl rfl)
  · exact hkeeps.vvTried.trans hvvTried1
  · exact (lookup_insert_ne hne).trans hx

theorem Inv.clearAll (h : Inv c loose total debt s) (hinfo : s.mapInfo.lookup id = some info)
    (hnew : info.fInTried = false) (start : Nat) :
    ∃ t, clearRefs c s.nKey info.addr id (bucketsFrom start) s.vvNew info.nRefCount = (t, 0) ∧
      Inv c (fun id' => loose id' ∨ id' = id) total debt
        { s with mapInfo := s.mapInfo.insert id { info with nRefCount := 0 }, vvNew := t } := by
  have hperm := bucketsFrom_perm start
  have href := h.placed.ref_eq id info hinfo
  unfold refs at href
  rw [← hperm.countP_eq] at href
  have hclear := clearRefs_spec (hperm.nodup_iff.mpr nodup_range) href
  have ht := @unreferenced_some _ _ c id s.nKey info.addr (bucketsFrom start) s.vvNew
  generalize unreferenced c s.nKey info.addr id (bucketsFrom start) s.vvNew = t at hclear ht
  refine ⟨t, hclear, ?_⟩
  apply h.setRefs hinfo hnew
  · intro bucket pos id' hslot
    exact .inl ((ht bucket pos id').mp hslot).1
  · have hzero : refs c s.nKey t info.addr id = 0 := by
      apply countP_eq_zero.mpr
      intro bucket hbucket
      rw [decide_eq_true_eq]
      intro hslot
      exact ((ht _ _ _).mp hslot).2 ⟨hperm.mem_iff.mpr hbucket, rfl, rfl⟩
    rw [hzero]
    rfl
  · intro id' x hne _
    apply countP_congr
    intro bucket _
    simp only [decide_eq_true_eq, ht]
    exact ⟨fun hslot => hslot.1, fun hslot => ⟨hslot, fun hat => hne hat.2.2⟩⟩
  · decide
  · exact fun id' _ hl => .inl hl
  · exact .inl (.inr rfl)

theorem makeTried_spec (h : Consistent c s) (hinfo : s.mapInfo.lookup id = some info) (hnew : info.fInTried = false)
    (hsuccess : info.m_last_success ≠ 0) : ∃ s', makeTried c s id = .ok s' ∧ Consistent c s' ∧ Ages s s' ∧
    ∀ bucket pos, (s.vvTried bucket pos).isSome → (s'.vvTried bucket pos).isSome := by
  generalize hstart : c.getNewBucket s.nKey info.addr info.source = start
  obtain ⟨t, hclear, hcleared⟩ := h.clearAll hinfo hnew start
  have hcount := hcleared.recount (c.network info.addr) (-1)
  generalize hs1 : ({ s with
    mapInfo := s.mapInfo.insert id { info with nRefCount := 0 }
    vvNew := t
    nNew := s.nNew + -1
    m_network_counts := addNew s.m_network_counts (c.network info.addr) (-1) } : State A R) = s1 at hcount
  have hinv1 : Inv c (· = id) 1 (fun net => if net = c.network info.addr then 1 else 0) s1 := by
    have hdebt : (fun net => (0 : Int) - if net = c.network info.addr then -1 else 0) = fun net =>
        if net = c.network info.addr then 1 else 0 := by
      funext net
      split <;> rfl
    rw [hdebt] at hcount
    apply hcount.loosen
    intro id' _ _ _ hnot
    left
    rintro (hfalse | hid)
    · exact hfalse
    · exact hnot hid
  have hinfo1 : s1.mapInfo.lookup id = some { info with nRefCount := 0 } := by
    rw [← hs1]
    exact lookup_insert _
  have hages1 : Ages s s1 := by
    rw [← hs1]
    exact ages_insert hinfo rfl rfl rfl rfl rfl
  have hvvTried1 : s1.vvTried = s.vvTried := by rw [← hs1]
  generalize hb : c.getTriedBucket s.nKey info.addr = bucket
  generalize hp : c.getBucketPosition s.nKey false bucket info.addr = pos
  -- the slot is emptied, and the entry is still there
  obtain ⟨s2, x, hstay, hrun, hinv2, hages2, hempty, hother, hx, hcore, hxsuccess⟩ : ∃ s2 x,
      (s1.vvTried bucket pos = none → s2 = s1) ∧
      (∀ nIdEvict, s1.vvTried bucket pos = some nIdEvict → evictTried c s1 bucket pos nIdEvict = .ok s2) ∧
        Inv c (· = id) 1 (fun net => if net = c.network info.addr then 1 else 0) s2 ∧ Ages s1 s2 ∧
      s2.vvTried bucket pos = none ∧
        (∀ bucket' pos', ¬ (bucket' = bucket ∧ pos' = pos) → s2.vvTried bucket' pos' = s.vvTried bucket' pos') ∧
      s2.mapInfo.lookup id = some x ∧ core x = core { info with nRefCount := 0 } ∧
        x.m_last_success = info.m_last_success := by
    cases hslot : s1.vvTried bucket pos with
    | none =>
      refine ⟨s1, _, fun _ => rfl, ?_, hinv1, Ages.refl s1, hslot, fun _ _ _ => by rw [hvvTried1], hinfo1, rfl, rfl⟩
      intro _ hsome
      cases hsome
    | some old =>
      obtain ⟨s2, x, hevict, hinv2, hages2, hvvTried2, hx, hcore, hxsuccess⟩ :=
          evictTried_spec hinv1 hinfo1 hnew rfl hslot
      refine ⟨s2, x, ?_, ?_, hinv2, hages2, by rw [hvvTried2, set_self], ?_, hx, hcore, hxsuccess⟩
      · intro hnone
        cases hnone
      · intro nIdEvict hsome
        rw [← Option.some.inj hsome, hevict]
      · intro bucket' pos' hat
        rw [hvvTried2, hvvTried1, Table.set, if_neg hat]
  obtain ⟨haddr, hxnew, hxref⟩ := core_eq_iff.mp hcore
  simp only at haddr hxref
  have hkey : s2.nKey = s.nKey := hages2.nKey.trans hages1.nKey
  have hbucket : c.getTriedBucket s2.nKey x.addr = bucket := by rw [hkey, haddr, hb]
  have hpos : c.triedPos s2.nKey x.addr = pos := by
    unfold Context.triedPos
    rw [hbucket, hkey, haddr, hp]
  have henter := hinv2.enterTried hx (hxnew.trans hnew) hxref (by rw [hxsuccess]; exact hsuccess) hbucket hpos hempty
  rw [show c.network x.addr = c.network info.addr by rw [haddr]] at henter
  refine ⟨{ s2 with
    mapInfo := s2.mapInfo.insert id { x with fInTried := true }
    vvTried := s2.vvTried.set bucket pos (some id)
    nTried := s2.nTried + 1
    m_network_counts := addTried s2.m_network_counts (c.network info.addr) 1 },
    ?_, ?_, (hages1.trans hages2).trans (ages_insert hx rfl rfl rfl rfl rfl), ?_⟩
  · unfold makeTried
    simp only [infoAt_ok hinfo, ok_bind, hstart, hclear, modify_eq hinfo, decide_true, check_true]
    rw [show s.nNew - 1 = s.nNew + -1 from rfl]
    simp only [hs1, hb, hp]
    rw [hvvTried1] at hstay hrun
    cases hslot : s.vvTried bucket pos with
    | none =>
      obtain rfl := hstay hslot
      simp only [ok_bind, Option.isNone_none, check_true, modify_eq hx]
      rfl
    | some old =>
      simp only [hrun old hslot, ok_bind, hempty, Option.isNone_none, check_true, modify_eq hx]
      rfl
  · have hdebt : (fun net =>
        (if net = c.network info.addr then (1 : Int) else 0) - if net = c.network info.addr then 1 else 0) =
          fun _ => 0 := by
      funext net
      exact Int.sub_self _
    rw [hdebt] at henter
    apply henter.loosen
    intro id' _ _ _ _
    left
    rintro ⟨hid, hne⟩
    exact hne hid
  · intro bucket' pos' hsome
    by_cases hat : bucket' = bucket ∧ pos' = pos
    · simp [Table.set, hat]
    · simp only [Table.set, if_neg hat]
      rw [hother bucket' pos' hat]
      exact hsome

end FullNode.AddrMan

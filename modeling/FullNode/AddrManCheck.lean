import FullNode.AddrManRuns
import Mathlib.Data.List.ProdSigma

/-! # `CheckAddrman` -/

namespace FullNode.AddrMan

open State List Finset

variable {A R : Type} [DecidableEq A] {c : Context A R} {s s' : State A R} {id : Nat} {info : AddrInfo A R}

/-! ## The entries -/

omit [DecidableEq A] in
theorem mem_entries (s : State A R) (id : Nat) (info : AddrInfo A R) : ⟨id, info⟩ ∈ s.mapInfo.entries ↔
    s.mapInfo.lookup id = some info :=
  AList.mem_lookup_iff.symm

theorem random_perm (h : Indexed s) : s.vRandom.Perm s.mapInfo.keys := by
  have hnodup : s.vRandom.Nodup := by
    rw [nodup_iff_injective_get]
    intro i j hij
    have hi : s.vRandom[i.val]? = some (s.vRandom.get i) := getElem?_eq_getElem i.isLt
    have hj : s.vRandom[j.val]? = some (s.vRandom.get i) := by
      rw [hij]
      exact getElem?_eq_getElem j.isLt
    obtain ⟨x, hx, hposx⟩ := (h.random _ _).mp hi
    obtain ⟨_, hy, hposy⟩ := (h.random _ _).mp hj
    rw [hx] at hy
    cases hy
    exact Fin.ext (hposx.symm.trans hposy)
  rw [perm_ext_iff_of_nodup hnodup s.mapInfo.keys_nodup]
  intro id
  rw [mem_iff_getElem?]
  constructor
  · rintro ⟨k, hk⟩
    obtain ⟨x, hx, -⟩ := (h.random k id).mp hk
    exact AList.lookup_isSome.mp (by rw [hx]; rfl)
  · intro hid
    obtain ⟨x, hx⟩ := Option.isSome_iff_exists.mp (AList.lookup_isSome.mpr hid)
    exact ⟨x.nRandomPos, (h.random _ id).mpr ⟨x, hx, rfl⟩⟩

omit [DecidableEq A] in
theorem sum_newIn_triedIn (l : List (Σ _ : Nat, AddrInfo A R)) :
    (l.map fun e => newIn e.2).sum + (l.map fun e => triedIn e.2).sum = l.length := by
  induction l with
  | nil => rfl
  | cons e l ih =>
    have hone : newIn e.2 + triedIn e.2 = 1 := by
      unfold newIn triedIn
      split <;> rfl
    simp only [List.map_cons, List.sum_cons, length_cons]
    omega

theorem random_length (h : Consistent c s) : (s.vRandom.length : Int) = s.nTried + s.nNew := by
  have hlen := (random_perm h.indexed).length_eq
  have hkeys : s.mapInfo.keys.length = s.mapInfo.entries.length := length_map _
  have hsum := sum_newIn_triedIn s.mapInfo.entries
  have hnew := h.counted.new_total
  have htried := h.counted.tried_total
  unfold AssocMap.sumBy at hnew htried
  omega

theorem checkEntry_ok (h : Consistent c s) (hinfo : s.mapInfo.lookup id = some info) :
    checkEntry s id info = .ok () := by
  obtain ⟨_, _, htimed⟩ := h.timed id info hinfo
  have haddr := (h.indexed.addr info.addr id).mpr ⟨info, hinfo, rfl⟩
  have hrandom := (h.indexed.random info.nRandomPos id).mpr ⟨info, hinfo, rfl⟩
  have hle := h.placed.ref_le id info hinfo
  unfold checkEntry
  rw [if_neg fun hbad => htimed hbad.1 hbad.2]
  rw [if_neg fun hbad => hbad.2 (h.placed.tried_ref hinfo hbad.1)]
  rw [if_neg fun hbad => by
    have := h.placed.ref_pos id info hinfo (by simpa using hbad.1) not_false
    omega]
  rw [if_neg fun hbad => by
    have := h.placed.ref_pos id info hinfo (by simpa using hbad.1) not_false
    omega]
  rw [if_neg (not_not.mpr haddr), if_neg (not_not.mpr hrandom), if_neg (by omega), if_neg (by omega)]

structure SeenOf (c : Context A R) (done : List (Σ _ : Nat, AddrInfo A R)) (seen : Seen) : Prop where
  tried : ∀ n, n ∈ seen.setTried ↔ ∃ info, ⟨n, info⟩ ∈ done ∧ info.fInTried = true
  card : seen.setTried.card = (done.map fun e => triedIn e.2).sum
  new : ∀ n r, seen.mapNew.lookup n = some r ↔ ∃ info, ⟨n, info⟩ ∈ done ∧ info.fInTried = false ∧ info.nRefCount = r
  length : seen.mapNew.keys.length = (done.map fun e => newIn e.2).sum
  new_net : ∀ net, (count seen.local_counts net).n_new = (done.map fun e => newAt c net e.2).sum
  tried_net : ∀ net, (count seen.local_counts net).n_tried = (done.map fun e => triedAt c net e.2).sum
  nets : ∀ net ∈ seen.local_counts, ∃ e ∈ done, c.network e.2.addr = net

omit [DecidableEq A] in
theorem seenOf_nil : SeenOf c [] {} := by
  refine ⟨?_, rfl, ?_, rfl, fun _ => rfl, fun _ => rfl, ?_⟩
  · simp
  · intro n r
    simp [AList.lookup_empty]
  · intro net hnet
    cases hnet

variable {done : List (Σ _ : Nat, AddrInfo A R)} {l : List (Nat × Nat)} {seen : Seen}

omit [DecidableEq A] in
theorem SeenOf.seeEntry (h : SeenOf c done seen) (hfresh : ∀ x, ⟨id, x⟩ ∉ done) :
    SeenOf c (done ++ [⟨id, info⟩]) (seeEntry c id info seen) := by
  have hmem : ∀ (n : Nat) (P : AddrInfo A R → Prop),
      (∃ x, (⟨n, x⟩ : Σ _ : Nat, AddrInfo A R) ∈ done ++ [⟨id, info⟩] ∧ P x) ↔
      (∃ x, (⟨n, x⟩ : Σ _ : Nat, AddrInfo A R) ∈ done ∧ P x) ∨ (n = id ∧ P info) := by
    intro n P
    constructor
    · rintro ⟨x, hx, hP⟩
      rcases mem_append.mp hx with hx | hx
      · exact .inl ⟨x, hx, hP⟩
      · obtain ⟨rfl, hxinfo⟩ := Sigma.mk.inj (List.mem_singleton.mp hx)
        obtain rfl := eq_of_heq hxinfo
        exact .inr ⟨rfl, hP⟩
    · rintro (⟨x, hx, hP⟩ | ⟨rfl, hP⟩)
      · exact ⟨x, mem_append_left _ hx, hP⟩
      · exact ⟨info, mem_append_right _ (List.mem_singleton.mpr rfl), hP⟩
  have hnets : ∀ net, (net = c.network info.addr ∨ net ∈ seen.local_counts) → ∃ e ∈ done ++ [⟨id, info⟩],
      c.network e.2.addr = net := by
    rintro net (rfl | hnet)
    · exact ⟨⟨id, info⟩, mem_append_right _ (List.mem_singleton.mpr rfl), rfl⟩
    · obtain ⟨e, he, hnet⟩ := h.nets net hnet
      exact ⟨e, mem_append_left _ he, hnet⟩
  unfold AddrMan.seeEntry
  split
  · next htried =>
    have hnotin : id ∉ seen.setTried := by
      intro hin
      obtain ⟨x, hx, -⟩ := (h.tried id).mp hin
      exact hfresh x hx
    refine ⟨?_, ?_, ?_, ?_, ?_, ?_, ?_⟩
    · intro n
      rw [mem_insert, h.tried, hmem n fun x => x.fInTried = true]
      constructor
      · rintro (rfl | hold)
        · exact .inr ⟨rfl, htried⟩
        · exact .inl hold
      · rintro (hold | ⟨rfl, -⟩)
        · exact .inr hold
        · exact .inl rfl
    · rw [card_insert_of_notMem hnotin, h.card]
      simp [triedIn, htried]
    · intro n r
      rw [h.new, hmem n fun x => x.fInTried = false ∧ x.nRefCount = r]
      simp [htried]
    · rw [h.length]
      simp [newIn, htried]
    · intro net
      rw [(count_addTried _ _ net _).1, h.new_net]
      simp [newAt, newIn, htried]
    · intro net
      have hval : triedAt c net info = if net = c.network info.addr then 1 else 0 := by
        unfold triedAt triedIn
        simp only [htried, if_true, @eq_comm _ net]
      rw [(count_addTried _ _ net _).2, h.tried_net]
      simp [hval]
    · intro net hnet
      exact hnets net ((AList.mem_insert _).mp hnet)
  · next htried =>
    rw [Bool.not_eq_true] at htried
    have hnotin : id ∉ seen.mapNew.keys := by
      intro hin
      obtain ⟨r, hr⟩ := Option.isSome_iff_exists.mp (AList.lookup_isSome.mpr hin)
      obtain ⟨x, hx, -⟩ := (h.new id r).mp hr
      exact hfresh x hx
    refine ⟨?_, ?_, ?_, ?_, ?_, ?_, ?_⟩
    · intro n
      rw [h.tried, hmem n fun x => x.fInTried = true]
      simp [htried]
    · rw [h.card]
      simp [triedIn, htried]
    · intro n r
      rw [hmem n fun x => x.fInTried = false ∧ x.nRefCount = r]
      by_cases hn : n = id
      · subst hn
        rw [AList.lookup_insert, Option.some.injEq]
        constructor
        · rintro rfl
          exact .inr ⟨rfl, htried, rfl⟩
        · rintro (⟨x, hx, -⟩ | ⟨-, -, hr⟩)
          · exact absurd hx (hfresh x)
          · exact hr
      · rw [AList.lookup_insert_ne hn, h.new]
        simp [hn]
    · rw [AList.keys_insert, length_cons, erase_of_not_mem hnotin, h.length]
      simp [newIn, htried]
    · intro net
      have hval : newAt c net info = if net = c.network info.addr then 1 else 0 := by
        unfold newAt newIn
        simp only [htried, Bool.false_eq_true, if_false, @eq_comm _ net]
      rw [(count_addNew _ _ net _).1, h.new_net]
      simp [hval]
    · intro net
      rw [(count_addNew _ _ net _).2, h.tried_net]
      simp [triedAt, triedIn, htried]
    · intro net hnet
      exact hnets net ((AList.mem_insert _).mp hnet)

theorem checkEntries_ok (h : Consistent c s) {rest : List (Σ _ : Nat, AddrInfo A R)} (hseen : SeenOf c done seen)
    (hall : done ++ rest = s.mapInfo.entries) : ∃ seen', checkEntries c s rest seen = .ok seen' ∧
      SeenOf c s.mapInfo.entries seen' := by
  induction rest generalizing done seen with
  | nil =>
    rw [append_nil] at hall
    exact ⟨seen, rfl, hall ▸ hseen⟩
  | cons e rest ih =>
    obtain ⟨n, info⟩ := e
    have hinfo : s.mapInfo.lookup n = some info := by
      rw [← mem_entries, ← hall]
      exact mem_append_right _ List.mem_cons_self
    have hfresh : ∀ x, ⟨n, x⟩ ∉ done := by
      intro x hx
      have hnodup : (done ++ ⟨n, info⟩ :: rest).NodupKeys := hall ▸ s.mapInfo.nodupKeys
      unfold NodupKeys at hnodup
      rw [keys, map_append, nodup_append] at hnodup
      exact hnodup.2.2 n (List.mem_map.mpr ⟨_, hx, rfl⟩) n (List.mem_map.mpr ⟨_, List.mem_cons_self, rfl⟩) rfl
    obtain ⟨seen', hrun, hseen'⟩ := ih (hseen.seeEntry hfresh) (by rw [append_assoc]; exact hall)
    refine ⟨seen', ?_, hseen'⟩
    unfold checkEntries
    rw [checkEntry_ok h hinfo]
    exact hrun

/-! ## The slots -/

theorem mem_slots {bucket_count n i : Nat} : (n, i) ∈ slots bucket_count ↔
    n < bucket_count ∧ i < ADDRMAN_BUCKET_SIZE := by
  change (n, i) ∈ (List.range bucket_count).product (List.range ADDRMAN_BUCKET_SIZE) ↔ _
  rw [pair_mem_product, List.mem_range, List.mem_range]

theorem slots_nodup (bucket_count : Nat) : (slots bucket_count).Nodup := nodup_range.product nodup_range

theorem checkTried_ok (h : Consistent c s) (hnodup : l.Nodup) {setTried : Finset Nat}
    (hleft : ∀ id, id ∈ setTried ↔ ∃ n i, (n, i) ∈ l ∧ s.vvTried n i = some id) :
    checkTried c s l setTried = .ok ∅ := by
  induction l generalizing setTried with
  | nil =>
    have hempty : setTried = ∅ := by
      apply eq_empty_of_forall_notMem
      intro id hid
      obtain ⟨n, i, hmem, -⟩ := (hleft id).mp hid
      cases hmem
    rw [hempty]
    rfl
  | cons slot l ih =>
    obtain ⟨n, i⟩ := slot
    rw [nodup_cons] at hnodup
    unfold checkTried
    cases hslot : s.vvTried n i with
    | none =>
      apply ih hnodup.2
      intro id
      rw [hleft]
      constructor
      · rintro ⟨n', i', hmem, hat⟩
        rcases List.mem_cons.mp hmem with heq | hmem
        · obtain ⟨rfl, rfl⟩ := Prod.mk.inj heq
          rw [hslot] at hat
          cases hat
        · exact ⟨n', i', hmem, hat⟩
      · rintro ⟨n', i', hmem, hat⟩
        exact ⟨n', i', List.mem_cons_of_mem _ hmem, hat⟩
    | some id =>
      obtain ⟨_, hinfo, -, hbucket, hpos⟩ := (h.placed.tried n i id).mp hslot
      have hmem : id ∈ setTried := (hleft id).mpr ⟨n, i, List.mem_cons_self, hslot⟩
      unfold Context.triedPos at hpos
      rw [hbucket] at hpos
      simp only [hmem, not_true, if_false, hinfo, hbucket, hpos, ne_eq]
      apply ih hnodup.2
      intro id'
      rw [mem_erase, hleft]
      constructor
      · rintro ⟨hne, n', i', hmem', hat⟩
        rcases List.mem_cons.mp hmem' with heq | hmem'
        · obtain ⟨rfl, rfl⟩ := Prod.mk.inj heq
          rw [hslot] at hat
          exact absurd (Option.some.inj hat).symm hne
        · exact ⟨n', i', hmem', hat⟩
      · rintro ⟨n', i', hmem', hat⟩
        refine ⟨?_, n', i', List.mem_cons_of_mem _ hmem', hat⟩
        -- one entry has one slot
        rintro rfl
        obtain ⟨_, hx, -, hbucket', hpos'⟩ := (h.placed.tried n' i' id').mp hat
        rw [hinfo] at hx
        cases hx
        unfold Context.triedPos at hpos'
        rw [hbucket] at hbucket' hpos'
        subst hbucket'
        rw [hpos] at hpos'
        subst hpos'
        exact hnodup.1 hmem'

theorem checkNew_ok (h : Consistent c s) {mapNew : AssocMap Nat Int}
    (hleft : ∀ id r, mapNew.lookup id = some r ↔ r = (l.countP fun x => s.vvNew x.1 x.2 = some id) ∧ 0 < r) :
    ∃ mapNew', checkNew c s l mapNew = .ok mapNew' ∧ mapNew'.keys = [] := by
  induction l generalizing mapNew with
  | nil =>
    refine ⟨mapNew, rfl, ?_⟩
    apply eq_nil_iff_forall_not_mem.mpr
    intro id hid
    obtain ⟨r, hr⟩ := Option.isSome_iff_exists.mp (AList.lookup_isSome.mpr hid)
    obtain ⟨hcount, hpos⟩ := (hleft id r).mp hr
    rw [countP_nil] at hcount
    omega
  | cons slot l ih =>
    obtain ⟨n, i⟩ := slot
    unfold checkNew
    cases hslot : s.vvNew n i with
    | none =>
      apply ih
      intro id r
      rw [hleft, countP_cons]
      simp [hslot]
    | some id =>
      obtain ⟨-, _, hinfo, -, hpos⟩ := h.placed.new_slot n i id hslot
      generalize hcount : (l.countP fun x => s.vvNew x.1 x.2 = some id) = k
      have hlookup : mapNew.lookup id = some ((k + 1 : Nat) : Int) := by
        rw [hleft, countP_cons, hcount]
        simp only [hslot, decide_true, if_true, true_and]
        omega
      have hother : ∀ id' r, id' ≠ id →
          (mapNew.lookup id' = some r ↔ r = (l.countP fun x => s.vvNew x.1 x.2 = some id') ∧ 0 < r) := by
        intro id' r hne
        rw [hleft, countP_cons]
        simp [hslot, Ne.symm hne]
      simp only [hlookup, hinfo, hpos, ne_eq, not_true, if_false]
      apply ih
      intro id' r
      have hpred : ((k + 1 : Nat) : Int) - 1 = k := by omega
      rw [hpred]
      by_cases hid : id' = id
      · subst hid
        rw [hcount]
        split
        · rw [AList.lookup_erase]
          refine ⟨nofun, ?_⟩
          rintro ⟨rfl, hr⟩
          omega
        · rw [AList.lookup_insert, Option.some.injEq]
          constructor
          · rintro rfl
            exact ⟨rfl, by omega⟩
          · rintro ⟨rfl, -⟩
            rfl
      · rw [← hother id' r hid]
        split
        · rw [AList.lookup_erase_ne hid]
        · rw [AList.lookup_insert_ne hid]

theorem sum_eq_countP {l : List Nat} {f : Nat → Nat} {P : Nat → Bool} (h : ∀ n ∈ l, f n = if P n then 1 else 0) :
    (l.map f).sum = l.countP P := by
  induction l with
  | nil => rfl
  | cons n l ih =>
    rw [List.forall_mem_cons] at h
    rw [List.map_cons, List.sum_cons, countP_cons, ih h.2, h.1, Nat.add_comm]

section

variable (h : Consistent c s)
include h

theorem count_slots (hinfo : s.mapInfo.lookup id = some info) :
    ((slots ADDRMAN_NEW_BUCKET_COUNT).countP fun x => s.vvNew x.1 x.2 = some id) =
      refs c s.nKey s.vvNew info.addr id := by
  unfold slots refs
  rw [countP_flatMap]
  apply sum_eq_countP
  intro n _
  simp only [Function.comp_apply, countP_map]
  -- a bucket has the entry at its position or not at all
  have hpos : ∀ i, s.vvNew n i = some id → c.getBucketPosition s.nKey true n info.addr = i := by
    intro i hslot
    obtain ⟨-, x, hx, -, hpos⟩ := h.placed.new_slot n i id hslot
    rw [hinfo] at hx
    cases hx
    exact hpos
  have hlt : c.getBucketPosition s.nKey true n info.addr < ADDRMAN_BUCKET_SIZE := Nat.mod_lt _ (by decide)
  generalize c.getBucketPosition s.nKey true n info.addr = pos at hpos hlt
  split
  · next hat =>
    rw [decide_eq_true_eq] at hat
    rw [← count_eq_one_of_mem nodup_range (List.mem_range.mpr hlt)]
    apply countP_congr
    intro i _
    simp only [Function.comp_apply, decide_eq_true_eq, beq_iff_eq]
    constructor
    · intro hslot
      exact (hpos i hslot).symm
    · rintro rfl
      exact hat
  · next hat =>
    rw [decide_eq_true_eq] at hat
    apply countP_eq_zero.mpr
    intro i _
    simp only [Function.comp_apply, decide_eq_true_eq]
    intro hslot
    exact hat (hpos i hslot ▸ hslot)

/-! ## The check -/

theorem checkTables_eq : checkTables c s = if s.nKey = 0 then .error (-16) else .ok () := by
  obtain ⟨seen, hentries, hseen⟩ := checkEntries_ok h seenOf_nil (nil_append s.mapInfo.entries)
  have htried : checkTried c s (slots ADDRMAN_TRIED_BUCKET_COUNT) seen.setTried = .ok ∅ := by
    apply checkTried_ok h (slots_nodup _)
    intro id
    rw [hseen.tried]
    constructor
    · rintro ⟨info, hmem, htried⟩
      rw [mem_entries] at hmem
      refine ⟨_, _, mem_slots.mpr ⟨?_, ?_⟩, (h.placed.tried _ _ id).mpr ⟨info, hmem, htried, rfl, rfl⟩⟩
      all_goals exact Nat.mod_lt _ (by decide)
    · rintro ⟨n, i, -, hslot⟩
      obtain ⟨info, hinfo, htried, -⟩ := (h.placed.tried n i id).mp hslot
      exact ⟨info, (mem_entries s id info).mpr hinfo, htried⟩
  obtain ⟨mapNew, hnew, hkeys⟩ : ∃ mapNew, checkNew c s (slots ADDRMAN_NEW_BUCKET_COUNT) seen.mapNew = .ok mapNew ∧
      mapNew.keys = [] := by
    apply checkNew_ok h
    intro id r
    rw [hseen.new]
    constructor
    · rintro ⟨info, hmem, hnew, rfl⟩
      rw [mem_entries] at hmem
      rw [count_slots h hmem]
      exact ⟨h.placed.ref_eq id info hmem, h.placed.ref_pos id info hmem hnew not_false⟩
    · rintro ⟨hcount, hpos⟩
      rw [hcount, Int.natCast_pos, countP_pos_iff] at hpos
      obtain ⟨⟨n, i⟩, -, hslot⟩ := hpos
      obtain ⟨-, info, hinfo, hnew, -⟩ := h.placed.new_slot n i id (by simpa using hslot)
      rw [count_slots h hinfo] at hcount
      exact ⟨info, (mem_entries s id info).mpr hinfo, hnew, by rw [hcount, h.placed.ref_eq id info hinfo]⟩
  have hcard : (seen.setTried.card : Int) = s.nTried := by
    rw [hseen.card, h.counted.tried_total]
    rfl
  have hlength : (seen.mapNew.keys.length : Int) = s.nNew := by
    have := h.counted.new_total
    rw [hseen.length]
    unfold AssocMap.sumBy at this
    omega
  have hnets : seen.local_counts.keys.length ≤ s.m_network_counts.keys.length := by
    apply (subperm_of_subset seen.local_counts.keys_nodup _).length_le
    intro net hnet
    obtain ⟨e, he, rfl⟩ := hseen.nets net hnet
    exact h.counted.nets e.1 e.2 ((mem_entries s e.1 e.2).mp he)
  have hcounts : ∀ net, (count seen.local_counts net).n_new = (count s.m_network_counts net).n_new ∧
      (count seen.local_counts net).n_tried = (count s.m_network_counts net).n_tried := by
    intro net
    have hnewNet := h.counted.new_net net
    have htriedNet := h.counted.tried_net net
    rw [hseen.new_net, hseen.tried_net]
    unfold AssocMap.sumBy at hnewNet htriedNet
    omega
  unfold checkTables
  rw [if_neg (not_not.mpr (random_length h)), hentries]
  have hany : (s.m_network_counts.keys.any fun net =>
      (count seen.local_counts net).n_new ≠ (count s.m_network_counts net).n_new ||
        (count seen.local_counts net).n_tried ≠ (count s.m_network_counts net).n_tried) = false := by
    rw [any_eq_false]
    intro net _
    simp [hcounts net]
  simp only [ok_bind, hcard, hlength, htried, hnew, hkeys, card_empty, length_nil, ne_eq, not_true, if_false]
  split
  · rfl
  · simp only [Nat.not_lt.mpr hnets, hany, Bool.false_eq_true, if_false]

theorem checkAddrman_eq : checkAddrman c s = if s.nKey = 0 then -16 else 0 := by
  unfold checkAddrman
  rw [checkTables_eq h]
  by_cases hkey : s.nKey = 0
  · rw [if_pos hkey, if_pos hkey]
  · rw [if_neg hkey, if_neg hkey]

theorem Consistent.apart {bucket pos bucket' pos' id' : Nat} {info' : AddrInfo A R}
    (htried : s.vvTried bucket pos = some id) (hnew : s.vvNew bucket' pos' = some id')
    (hinfo : s.mapInfo.lookup id = some info) (hinfo' : s.mapInfo.lookup id' = some info') :
    info.addr ≠ info'.addr := by
  intro haddr
  obtain ⟨_, hx, hxtried, -⟩ := (h.placed.tried _ _ _).mp htried
  obtain ⟨-, _, hy, hynew, -⟩ := h.placed.new_slot _ _ _ hnew
  have hid := (h.indexed.addr info.addr id).mpr ⟨info, hinfo, rfl⟩
  rw [(h.indexed.addr info.addr id').mpr ⟨info', hinfo', haddr.symm⟩] at hid
  cases hid
  rw [hx] at hy
  cases hy
  rw [hxtried] at hynew
  cases hynew

end

/-- After every run the check finds at most a null key. -/
theorem run_checkAddrman (c : Context A R) (key : Uint256) {calls : List (Call A R)}
    (htimely : ∀ call ∈ calls, call.Timely) :
    ∃ s', run c { nKey := key } calls = .ok s' ∧ checkAddrman c s' = (if key = 0 then -16 else 0) ∧
      Consistent c s' ∧ Waiting c s' ∧
      ∀ bucket pos bucket' pos' id id' info info', s'.vvTried bucket pos = some id → s'.vvNew bucket' pos' = some id' →
        s'.mapInfo.lookup id = some info → s'.mapInfo.lookup id' = some info' → info.addr ≠ info'.addr := by
  have hinitial : Ready c key { nKey := key } := ready_initial
  obtain ⟨s', hrun, hready⟩ := run_ready hinitial htimely
  refine ⟨s', hrun, ?_, hready.consistent, hready.waiting, ?_⟩
  · rw [checkAddrman_eq hready.consistent, hready.nKey]
  · intro bucket pos bucket' pos' id id' info info' htried hnew hinfo hinfo'
    exact hready.consistent.apart htried hnew hinfo hinfo'

def crowded : Context Nat Nat where
  network _ := .ipv4
  netClass _ := .ipv4
  isRoutable _ := true
  isValid _ := true
  sameHost a source := a = source
  triedHash _ _ := 5
  newHash _ a source := a + source
  positionHash _ _ _ _ := 7

def announce (a : Nat) : CAddress Nat × Draw := (⟨a, 1, 1000⟩, ⟨1000, 0, 1000⟩)

/-- The second address gets the slot of the first a day later. -/
def evictingCalls : List (Call Nat Nat) :=
  [.add [announce 1, announce 2] 9 0, .good 1 true 1000, .good 2 true 2000, .selectTriedCollision 0,
    .attempt 1 true 80000, .resolveCollisions fun _ => 90000]

theorem evictingCalls_checked : (∀ call ∈ evictingCalls, call.Timely) ∧ ∃ s',
    run crowded { nKey := 1 } evictingCalls = .ok s' ∧
    checkAddrman crowded s' = 0 := by
  have htimely : ∀ call ∈ evictingCalls, call.Timely := by
    simp [evictingCalls, Call.Timely]
  obtain ⟨s', hrun, hcheck, -⟩ := run_checkAddrman crowded 1 htimely
  exact ⟨htimely, s', hrun, hcheck⟩

end FullNode.AddrMan

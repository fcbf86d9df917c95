import FullNode.AddrManTried

/-! # Calls of the address manager -/

namespace FullNode.AddrMan

open List

variable {A R : Type} [DecidableEq A] {c : Context A R} {key : Uint256} {s s' : State A R} {id : Nat}
  {info : AddrInfo A R}

structure Ready (c : Context A R) (key : Uint256) (s : State A R) : Prop where
  nKey : s.nKey = key
  consistent : Consistent c s
  waiting : Waiting c s

theorem Consistent.frame (h : Consistent c s) (last_good : Int) (collisions : List Nat) :
    Consistent c { s with m_last_good := last_good, m_tried_collisions := collisions } :=
  ⟨⟨h.indexed.addr, h.indexed.random, h.indexed.fresh⟩,
    ⟨h.placed.tried, h.placed.new_slot, h.placed.ref_eq, h.placed.ref_le, h.placed.ref_pos⟩,
    ⟨h.counted.new_total, h.counted.tried_total, h.counted.new_net, h.counted.tried_net, h.counted.nets⟩, h.timed⟩

theorem Ready.later (h : Ready c key s) (last_good : Int) : Ready c key { s with m_last_good := last_good } :=
  ⟨h.nKey, h.consistent.frame last_good s.m_tried_collisions, h.waiting⟩

variable {collisions : List Nat} {bucket position node_id : Nat} {time : Int}

section

variable (h : Ready c key s)
include h

theorem Ready.fewer (hsub : ∀ id ∈ collisions, id ∈ s.m_tried_collisions) :
    Ready c key { s with m_tried_collisions := collisions } :=
  ⟨h.nKey, h.consistent.frame s.m_last_good collisions, fun id hid => h.waiting id (hsub id hid)⟩

/-! ## Changes to one entry -/

theorem Ready.update (hinfo : s.mapInfo.lookup id = some info) (info' : AddrInfo A R) (hcore : core info' = core info)
    (hpos : info'.nRandomPos = info.nRandomPos) (htimed : Timed info') :
    Ready c key { s with mapInfo := s.mapInfo.insert id info' } :=
  ⟨h.nKey, h.consistent.update hinfo info' hcore hpos htimed,
    h.waiting.ages (Alike.insert hinfo hcore).ages fun _ _ hsome => hsome⟩

theorem attempt_ready (a : A) (fCountFailure : Bool) (htime : 0 < time) :
    Ready c key (attempt s a fCountFailure time) := by
  unfold attempt
  split
  · exact h
  · next id info hfind =>
    obtain ⟨hinfo, -⟩ := h.consistent.indexed.find_eq a hfind
    obtain ⟨-, hsuccess, htried⟩ := h.consistent.timed id info hinfo
    rw [modify_eq hinfo]
    apply h.update hinfo
    · simp only
      split <;> rfl
    · simp only
      split <;> rfl
    · simp only
      split
      all_goals exact ⟨htime.le, hsuccess, htried⟩

theorem connected_ready (a : A) (time : Int) : Ready c key (connected s a time) := by
  unfold connected
  split
  · exact h
  · next id info hfind =>
    obtain ⟨hinfo, -⟩ := h.consistent.indexed.find_eq a hfind
    have htimed := h.consistent.timed id info hinfo
    rw [modify_eq hinfo]
    apply h.update hinfo
    · split <;> rfl
    · split <;> rfl
    · split
      · exact htimed
      · exact htimed

theorem setServices_ready (a : A) (nServices : Nat) : Ready c key (setServices s a nServices) := by
  unfold setServices
  split
  · exact h
  · next id info hfind =>
    obtain ⟨hinfo, -⟩ := h.consistent.indexed.find_eq a hfind
    rw [modify_eq hinfo]
    exact h.update hinfo _ rfl rfl (h.consistent.timed id info hinfo)

end

/-! ## `Good` -/

omit [DecidableEq A] in
theorem mem_insertCollision {id' : Nat} (h : id' ∈ insertCollision collisions id) : id' = id ∨ id' ∈ collisions := by
  unfold insertCollision at h
  split at h
  · exact .inr h
  · exact (mem_orderedInsert (· ≤ ·)).mp h

theorem good_spec (h : Ready c key s) (a : A) (test_before_evict : Bool) (htime : 0 < time) :
    ∃ moved s', good c s a test_before_evict time = .ok (moved, s') ∧ Ready c key s' := by
  have hlater := h.later time
  unfold good
  simp only
  generalize ({ s with m_last_good := time } : State A R) = s1 at hlater
  split
  · exact ⟨_, _, rfl, hlater⟩
  · next id info hfind =>
    obtain ⟨hinfo, -⟩ := hlater.consistent.indexed.find_eq a hfind
    rw [modify_eq hinfo]
    have hready := hlater.update hinfo { info with m_last_success := time, m_last_try := time, nAttempts := 0 } rfl rfl
      ⟨htime.le, htime.le, fun _ => htime.ne'⟩
    have hlookup : (s1.mapInfo.insert id
        { info with m_last_success := time, m_last_try := time, nAttempts := 0 }).lookup id = some _ :=
      AList.lookup_insert _
    generalize hs2 : ({ s1 with
      mapInfo := s1.mapInfo.insert id { info with m_last_success := time, m_last_try := time, nAttempts := 0 } } :
        State A R) = s2 at hready
    have hinfo2 : s2.mapInfo.lookup id =
        some { info with m_last_success := time, m_last_try := time, nAttempts := 0 } := by
      rw [← hs2]
      exact hlookup
    split
    · exact ⟨_, _, rfl, hready⟩
    · next htried =>
      split
      · exact ⟨_, _, rfl, hready⟩
      · split
        · next hcollides =>
          -- the slot the entry waits for is taken
          refine ⟨_, _, rfl, ?_⟩
          split
          · refine ⟨hready.nKey, hready.consistent.frame s2.m_last_good _, ?_⟩
            intro id' hid'
            rcases mem_insertCollision hid' with rfl | hmem
            · refine ⟨hready.consistent.indexed.fresh id' _ hinfo2, ?_⟩
              intro x hx
              rw [show x = _ from Option.some.inj (hx.symm.trans hinfo2)]
              exact hcollides.2
            · exact hready.waiting id' hmem
          · exact hready
        · obtain ⟨s', hmake, hconsistent, hages, hslots⟩ :=
              makeTried_spec hready.consistent hinfo2 (by simpa using htried) htime.ne'
          refine ⟨true, s', ?_, hages.nKey.trans hready.nKey, hconsistent, hready.waiting.ages hages hslots⟩
          rw [hmake]
          rfl

/-! ## Collisions -/

theorem resolveCollision_spec (h : Ready c key s) (id_new : Nat) {current_time : Int} (htime : 0 < current_time) :
    ∃ erased s', resolveCollision c s id_new current_time = .ok (erased, s') ∧ Ready c key s' := by
  unfold resolveCollision
  split
  · exact ⟨_, _, rfl, h⟩
  · next info_new hnew =>
    obtain ⟨_, s', hgood, hready⟩ := good_spec h info_new.addr false htime
    simp only [hgood, ok_bind]
    split
    · exact ⟨_, _, rfl, h⟩
    · split
      · next id_old hslot =>
        obtain ⟨_, hold, -⟩ := (h.consistent.placed.tried _ _ _).mp hslot
        rw [infoAt_ok hold, ok_bind]
        split
        · exact ⟨_, _, rfl, h⟩
        · split
          all_goals
            split
            · exact ⟨_, _, rfl, hready⟩
            · exact ⟨_, _, rfl, h⟩
      · exact ⟨_, _, rfl, hready⟩

theorem resolveCollisions_spec (h : Ready c key s) {clock : Nat → Int} (hclock : ∀ n, 0 < clock n) (ids : List Nat) :
    ∃ s', resolveCollisions c clock ids s = .ok s' ∧ Ready c key s' := by
  induction ids generalizing s with
  | nil => exact ⟨s, rfl, h⟩
  | cons id_new rest ih =>
    obtain ⟨erased, s1, hrun, hready⟩ := resolveCollision_spec h id_new (hclock id_new)
    have hnext : Ready c key
        (if erased then { s1 with m_tried_collisions := s1.m_tried_collisions.erase id_new } else s1) := by
      split
      · exact hready.fewer fun id hid => mem_of_mem_erase hid
      · exact hready
    obtain ⟨s', hrest, hready'⟩ := ih hnext
    refine ⟨s', ?_, hready'⟩
    unfold resolveCollisions
    rw [hrun, ok_bind]
    exact hrest

theorem selectTriedCollision_spec (h : Ready c key s) (rand : Nat) :
    ∃ r s', selectTriedCollision c s rand = .ok (r, s') ∧ Ready c key s' := by
  unfold selectTriedCollision
  split
  · exact ⟨_, _, rfl, h⟩
  · next id_new hpick =>
    have hmem := mem_of_getElem? hpick
    split
    · exact ⟨_, _, rfl, h.fewer fun id hid => mem_of_mem_erase hid⟩
    · next newInfo hnew =>
      have hsome := (h.waiting id_new hmem).2 newInfo hnew
      obtain ⟨_, hslot⟩ := Option.isSome_iff_exists.mp hsome
      obtain ⟨_, hold, -⟩ := (h.consistent.placed.tried _ _ _).mp hslot
      unfold Context.triedPos at hslot
      simp only [hslot, infoAt_ok hold, ok_bind]
      exact ⟨_, _, rfl, h⟩

/-! ## `Select` and `GetAddr` -/

section

variable (h : Consistent c s)
include h

theorem getEntry_known {use_tried : Bool}
    (hentry : getEntry s use_tried bucket position = some node_id) : ∃ info, s.mapInfo.lookup node_id = some info := by
  unfold getEntry at hentry
  split at hentry
  · split at hentry
    · obtain ⟨info, hinfo, -⟩ := (h.placed.tried _ _ _).mp hentry
      exact ⟨info, hinfo⟩
    · cases hentry
  · split at hentry
    · obtain ⟨-, info, hinfo, -⟩ := h.placed.new_slot _ _ _ hentry
      exact ⟨info, hinfo⟩
    · cases hentry

theorem firstEntry_known {networks : List Network} {search_tried : Bool}
    (hentry : firstEntry c s networks search_tried bucket position = some node_id) :
    ∃ info, s.mapInfo.lookup node_id = some info := by
  unfold firstEntry at hentry
  obtain ⟨_, -, hi⟩ := exists_of_findSome?_eq_some hentry
  split at hi
  · cases hi
  · next node_id' hget =>
    obtain ⟨info, hinfo⟩ := getEntry_known h hget
    have heq : node_id' = node_id := by
      split at hi
      · exact Option.some.inj hi
      · split at hi
        · split at hi
          · exact Option.some.inj hi
          · cases hi
        · cases hi
    exact ⟨info, heq ▸ hinfo⟩

theorem searchTable_ok (networks : List Network) (search_tried : Bool) (draws : List (Nat × Nat × Bool)) :
    ∃ r, searchTable c s networks search_tried draws = .ok r := by
  induction draws with
  | nil => exact ⟨_, rfl⟩
  | cons draw draws ih =>
    obtain ⟨_, _, _⟩ := draw
    unfold searchTable
    simp only
    split
    · exact ih
    · next node_id hentry =>
      obtain ⟨_, hinfo⟩ := firstEntry_known h hentry
      rw [hinfo, Option.isSome_some, check_true, ok_bind, infoAt_ok hinfo, ok_bind]
      split
      · exact ⟨_, rfl⟩
      · exact ih

theorem select_ok (new_only : Bool) (networks : List Network) (coin : Bool) (draws : List (Nat × Nat × Bool)) :
    ∃ r, select c s new_only networks coin draws = .ok r := by
  unfold select
  split
  · exact ⟨_, rfl⟩
  · simp only
    generalize (if networks.isEmpty then s.nNew else _) = new_count
    generalize (if networks.isEmpty then s.nTried else _) = tried_count
    split
    · exact ⟨_, rfl⟩
    · split
      · exact ⟨_, rfl⟩
      · exact searchTable_ok h networks _ draws

end

theorem Ready.swapped (h : Ready c key s) {p q : Nat} (hs : Swapped s s' p q) : Ready c key s' := by
  refine ⟨hs.alike.nKey.trans h.nKey, h.consistent.swapped hs, h.waiting.ages hs.alike.ages ?_⟩
  intro bucket pos hsome
  rw [hs.alike.vvTried]
  exact hsome

theorem gatherAddr_spec (nNodes : Nat) (network : Option Network) (filtered : Bool) (now : Int) (rand : Nat → Nat)
    (left n : Nat) (addresses : List (AddrInfo A R)) (h : Ready c key s) (hleft : n + left = s.vRandom.length) :
    ∃ r s', gatherAddr c nNodes network filtered now rand left n s addresses = .ok (r, s') ∧ Ready c key s' := by
  induction left generalizing n s addresses with
  | zero => exact ⟨_, _, rfl, h⟩
  | succ left ih =>
    unfold gatherAddr
    split
    · exact ⟨_, _, rfl, h⟩
    · have hn : n < s.vRandom.length := by omega
      have hmod := Nat.mod_lt (rand n) (show 0 < s.vRandom.length - n by omega)
      have hpos : rand n % (s.vRandom.length - n) + n < s.vRandom.length := by omega
      obtain ⟨s1, hswap, hswapped⟩ := swapRandom_swaps h.consistent.indexed.random hn hpos
      have hready := h.swapped hswapped
      have hlen := hswapped.length
      obtain ⟨id, hget⟩ : ∃ id, s1.vRandom[n]? = some id := ⟨_, getElem?_eq_getElem (by omega)⟩
      obtain ⟨ai, hai, -⟩ := (hready.consistent.indexed.random n id).mp hget
      have hgetD : s1.vRandom.getD n 0 = id := by simp [getD_eq_getElem?_getD, hget]
      simp only [hswap, ok_bind]
      rw [hgetD, hai, Option.isSome_some, check_true, ok_bind, infoAt_ok hai, ok_bind]
      split
      · exact ih (n + 1) addresses hready (by omega)
      · split
        · exact ih (n + 1) addresses hready (by omega)
        · exact ih (n + 1) (addresses ++ [ai]) hready (by omega)

theorem getAddr_spec (h : Ready c key s) (max_addresses max_pct : Nat) (network : Option Network) (filtered : Bool)
    (now : Int) (rand : Nat → Nat) :
    ∃ r s', getAddr c s max_addresses max_pct network filtered now rand = .ok (r, s') ∧ Ready c key s' :=
  gatherAddr_spec _ network filtered now rand s.vRandom.length 0 [] h (Nat.zero_add _)

/-! ## Runs -/

def Call.Timely : Call A R → Prop
  | .good _ _ time => 0 < time
  | .attempt _ _ time => 0 < time
  | .connected _ time => 0 < time
  | .resolveCollisions clock => ∀ n, 0 < clock n
  | _ => True

theorem apply_ready (h : Ready c key s) {call : Call A R} (htimely : call.Timely) :
    ∃ s', apply c s call = .ok s' ∧ Ready c key s' := by
  cases call with
  | add addrs source time_penalty =>
    obtain ⟨s', hadd, hconsistent, hwaiting, hkey⟩ := add_spec h.consistent h.waiting source time_penalty addrs
    exact ⟨s', hadd, hkey.trans h.nKey, hconsistent, hwaiting⟩
  | good a test_before_evict time =>
    obtain ⟨_, s', hgood, hready⟩ := good_spec h a test_before_evict htimely
    exact ⟨s', by simp only [apply, hgood, ok_bind]; rfl, hready⟩
  | attempt a fCountFailure time => exact ⟨_, rfl, attempt_ready h a fCountFailure htimely⟩
  | connected a time => exact ⟨_, rfl, connected_ready h a time⟩
  | setServices a nServices => exact ⟨_, rfl, setServices_ready h a nServices⟩
  | resolveCollisions clock => exact resolveCollisions_spec h htimely s.m_tried_collisions
  | selectTriedCollision rand =>
    obtain ⟨r, s', hselect, hready⟩ := selectTriedCollision_spec h rand
    exact ⟨s', by simp only [apply, hselect, ok_bind]; rfl, hready⟩
  | select new_only networks coin draws =>
    obtain ⟨r, hselect⟩ := select_ok h.consistent new_only networks coin draws
    exact ⟨s, by simp only [apply, hselect, ok_bind]; rfl, h⟩
  | getAddr max_addresses max_pct network filtered now rand =>
    obtain ⟨r, s', hget, hready⟩ := getAddr_spec h max_addresses max_pct network filtered now rand
    exact ⟨s', by simp only [apply, hget, ok_bind]; rfl, hready⟩

theorem run_ready (h : Ready c key s) {calls : List (Call A R)} (htimely : ∀ call ∈ calls, call.Timely) :
    ∃ s', run c s calls = .ok s' ∧ Ready c key s' := by
  induction calls generalizing s with
  | nil => exact ⟨s, rfl, h⟩
  | cons call calls ih =>
    rw [forall_mem_cons] at htimely
    obtain ⟨_, happly, hready⟩ := apply_ready h htimely.1
    obtain ⟨s', hrun, hready'⟩ := ih hready htimely.2
    exact ⟨s', by rw [run, happly, ok_bind, hrun], hready'⟩

theorem ready_initial : Ready c key ({ nKey := key } : State A R) := by
  have hnone : ∀ id, (∅ : AssocMap Nat (AddrInfo A R)).lookup id = none := fun _ => AList.lookup_empty _
  have hsome (id : Nat) (info : AddrInfo A R) : (∅ : AssocMap Nat (AddrInfo A R)).lookup id ≠ some info := by
    rw [hnone]
    nofun
  refine ⟨rfl, ⟨⟨?_, ?_, ?_⟩, ⟨?_, ?_, ?_, ?_, ?_⟩, ⟨rfl, rfl, fun _ => rfl, fun _ => rfl, ?_⟩, ?_⟩, nofun⟩
  · intro a id
    simp [hnone]
  · intro k id
    simp [hnone]
  · exact fun id info h => absurd h (hsome id info)
  · intro bucket pos id
    simp [hnone]
  · intro bucket pos id h
    cases h
  all_goals exact fun id info h => absurd h (hsome id info)

end FullNode.AddrMan

import FullNode.AddrManTables

/-! # The addresses that are known -/

namespace FullNode.AddrMan

variable {A R : Type} {c : Context A R} {s s' : State A R} {P : A → Prop} {id : Nat}

def AllAddrs (P : A → Prop) (m : AssocMap Nat (AddrInfo A R)) : Prop := ∀ id info, m.lookup id = some info → P info.addr

variable {info : AddrInfo A R} {source : R} {time_penalty : Int}

theorem AllAddrs.insert (h : AllAddrs P s.mapInfo) (hP : P info.addr) : AllAddrs P (s.mapInfo.insert id info) := by
  intro id' x hx
  rcases AssocMap.lookup_insert_cases hx with ⟨rfl, rfl⟩ | ⟨-, hx⟩
  · exact hP
  · exact h id' x hx

theorem AllAddrs.modify (h : AllAddrs P s.mapInfo) (id : Nat) {f : AddrInfo A R → AddrInfo A R}
    (hf : ∀ info, (f info).addr = info.addr) : AllAddrs P (s.modify id f).mapInfo := by
  unfold State.modify
  split
  · next info hinfo => exact h.insert (by rw [hf]; exact h id info hinfo)
  · exact h

theorem AllAddrs.swapRandom (h : AllAddrs P s.mapInfo) {p q : Nat} (hrun : swapRandom s p q = .ok s') :
    AllAddrs P s'.mapInfo := by
  unfold AddrMan.swapRandom at hrun
  split at hrun
  · cases hrun
    exact h
  · obtain ⟨-, -, hrun⟩ := bind_ok.mp hrun
    obtain ⟨-, -, hrun⟩ := bind_ok.mp hrun
    obtain ⟨-, -, hrun⟩ := bind_ok.mp hrun
    cases hrun
    exact (h.modify _ fun _ => by rfl).modify _ fun _ => by rfl

variable [DecidableEq A]

variable (h : AllAddrs P s.mapInfo) {bucket pos : Nat} {now : Int}
include h

theorem AllAddrs.delete (hrun : delete c s id = .ok s') : AllAddrs P s'.mapInfo := by
  obtain ⟨-, -, hrun⟩ := bind_ok.mp hrun
  obtain ⟨_, -, hrun⟩ := bind_ok.mp hrun
  obtain ⟨-, -, hrun⟩ := bind_ok.mp hrun
  obtain ⟨-, -, hrun⟩ := bind_ok.mp hrun
  obtain ⟨_, hswap, hrun⟩ := bind_ok.mp hrun
  cases hrun
  intro id' x hx
  exact h.swapRandom hswap id' x (AssocMap.lookup_erase_cases hx).2

theorem AllAddrs.clearNew (hrun : clearNew c s bucket pos = .ok s') : AllAddrs P s'.mapInfo := by
  unfold AddrMan.clearNew at hrun
  split at hrun
  · cases hrun
    exact h
  · next id hslot =>
    obtain ⟨info, -, hrun⟩ := bind_ok.mp hrun
    obtain ⟨-, -, hrun⟩ := bind_ok.mp hrun
    have hmodify : AllAddrs P (s.modify id fun info => { info with nRefCount := info.nRefCount - 1 }).mapInfo :=
        h.modify _ fun _ => by rfl
    split at hrun
    · refine AllAddrs.delete ?_ hrun
      exact hmodify
    · cases hrun
      exact hmodify

theorem AllAddrs.evictTried (hrun : evictTried c s bucket pos id = .ok s') : AllAddrs P s'.mapInfo := by
  obtain ⟨-, -, hrun⟩ := bind_ok.mp hrun
  obtain ⟨_, -, hrun⟩ := bind_ok.mp hrun
  obtain ⟨s1, hclear, hrun⟩ := bind_ok.mp hrun
  obtain ⟨-, -, hrun⟩ := bind_ok.mp hrun
  cases hrun
  have hmodify : AllAddrs P (s.modify id fun info => { info with fInTried := false }).mapInfo :=
      h.modify _ fun _ => by rfl
  have hcleared : AllAddrs P s1.mapInfo := by
    refine AllAddrs.clearNew ?_ hclear
    exact hmodify
  exact hcleared.modify _ fun _ => by rfl

theorem AllAddrs.makeTried (hrun : makeTried c s id = .ok s') : AllAddrs P s'.mapInfo := by
  obtain ⟨_, -, hrun⟩ := bind_ok.mp hrun
  simp only at hrun
  obtain ⟨-, -, hrun⟩ := bind_ok.mp hrun
  split at hrun
  · obtain ⟨s1, hevict, hrun⟩ := bind_ok.mp hrun
    obtain ⟨-, -, hrun⟩ := bind_ok.mp hrun
    cases hrun
    have hevicted : AllAddrs P s1.mapInfo := by
      refine AllAddrs.evictTried ?_ hevict
      exact h.modify _ fun _ => by rfl
    exact hevicted.modify _ fun _ => by rfl
  · obtain ⟨s1, hkept, hrun⟩ := bind_ok.mp hrun
    obtain ⟨-, -, hrun⟩ := bind_ok.mp hrun
    cases hrun
    have hsame : AllAddrs P s1.mapInfo := by
      rw [← Except.ok.inj hkept]
      exact h.modify _ fun _ => by rfl
    exact hsame.modify _ fun _ => by rfl

omit h

/-! ## Calls -/

theorem AllAddrs.place (h : AllAddrs P s.mapInfo) {inserted : Bool}
    (hrun : place c s id source now = .ok (inserted, s')) : AllAddrs P s'.mapInfo := by
  obtain ⟨_, -, hrun⟩ := bind_ok.mp hrun
  simp only at hrun
  split at hrun
  · cases hrun
    exact h
  · split at hrun
    on_goal 2 => obtain ⟨_, -, hrun⟩ := bind_ok.mp hrun
    all_goals
      obtain ⟨_, -, hrun⟩ := bind_ok.mp hrun
      split at hrun
      · obtain ⟨s1, hclear, hrun⟩ := bind_ok.mp hrun
        cases hrun
        exact (h.clearNew hclear).modify _ fun _ => by rfl
      · split at hrun
        · obtain ⟨s1, hdelete, hrun⟩ := bind_ok.mp hrun
          cases hrun
          exact h.delete hdelete
        · cases hrun
          exact h

theorem AllAddrs.addSingle (hP : ∀ a, c.isRoutable a = true → P a) (h : AllAddrs P s.mapInfo)
    {a : CAddress A} {d : Draw} {added : Bool} (hrun : addSingle c s a source time_penalty d = .ok (added, s')) :
    AllAddrs P s'.mapInfo := by
  unfold AddrMan.addSingle at hrun
  split at hrun
  · cases hrun
    exact h
  · next hroutable =>
    simp only at hrun
    generalize (if c.sameHost a.addr source then 0 else time_penalty) = penalty at hrun
    split at hrun
    · next id info hfind =>
      have hinfo : s.mapInfo.lookup id = some info := by
        obtain ⟨id', -, hfind⟩ := Option.bind_eq_some_iff.mp hfind
        obtain ⟨_, hinfo, hpair⟩ := Option.bind_eq_some_iff.mp hfind
        cases hpair
        exact hinfo
      have hmodify : AllAddrs P (s.modify id fun _ => refresh info a penalty d.online).mapInfo := by
        unfold State.modify
        rw [hinfo]
        exact h.insert (h id info hinfo)
      split at hrun
      · cases hrun
        exact hmodify
      · split at hrun
        · cases hrun
          exact hmodify
        · split at hrun
          · cases hrun
            exact hmodify
          · split at hrun
            · cases hrun
              exact hmodify
            · exact hmodify.place hrun
    · have hcreate : AllAddrs P (create c s a source).1.mapInfo := by
        have hroutable' : c.isRoutable a.addr = true := by simpa using hroutable
        intro id' x hx
        rcases AssocMap.lookup_insert_cases hx with ⟨-, rfl⟩ | ⟨-, hx⟩
        · exact hP a.addr hroutable'
        · exact h id' x hx
      refine AllAddrs.place ?_ hrun
      exact hcreate.modify _ fun _ => by rfl

theorem AllAddrs.add (hP : ∀ a, c.isRoutable a = true → P a) (h : AllAddrs P s.mapInfo)
    {addrs : List (CAddress A × Draw)} (hrun : add c s source time_penalty addrs = .ok s') : AllAddrs P s'.mapInfo := by
  induction addrs generalizing s with
  | nil =>
    cases hrun
    exact h
  | cons head rest ih =>
    obtain ⟨a, _⟩ := head
    obtain ⟨_, hsingle, hrest⟩ := bind_ok.mp hrun
    exact ih (AllAddrs.addSingle hP h hsingle) hrest

variable (h : AllAddrs P s.mapInfo)
include h

theorem AllAddrs.good {a : A} {test_before_evict : Bool} {time : Int} {moved : Bool}
    (hrun : good c s a test_before_evict time = .ok (moved, s')) : AllAddrs P s'.mapInfo := by
  unfold AddrMan.good at hrun
  simp only at hrun
  have hlater : AllAddrs P ({ s with m_last_good := time } : State A R).mapInfo := h
  generalize ({ s with m_last_good := time } : State A R) = s1 at hrun hlater
  split at hrun
  · cases hrun
    exact hlater
  · next id info hfind =>
    have hmodify : AllAddrs P (s1.modify id fun info =>
        { info with m_last_success := time, m_last_try := time, nAttempts := 0 }).mapInfo :=
      hlater.modify _ fun _ => by rfl
    generalize s1.modify id (fun info =>
      { info with m_last_success := time, m_last_try := time, nAttempts := 0 }) = s2 at hrun hmodify
    split at hrun
    · cases hrun
      exact hmodify
    · split at hrun
      · cases hrun
        exact hmodify
      · split at hrun
        · cases hrun
          split
          · exact hmodify
          · exact hmodify
        · obtain ⟨_, hmake, hrun⟩ := bind_ok.mp hrun
          cases hrun
          exact hmodify.makeTried hmake

theorem AllAddrs.resolveCollision {current_time : Int} {erased : Bool}
    (hrun : resolveCollision c s id current_time = .ok (erased, s')) : AllAddrs P s'.mapInfo := by
  have hgood : ∀ {a : A} {r : Bool × State A R}, (do
      let r ← AddrMan.good c s a false current_time
      return (true, r.2)) = (.ok r : Checked (Bool × State A R)) → AllAddrs P r.2.mapInfo := by
    intro a r hr
    obtain ⟨_, hmoved, hr⟩ := bind_ok.mp hr
    cases hr
    exact h.good hmoved
  unfold AddrMan.resolveCollision at hrun
  split at hrun
  · cases hrun
    exact h
  · simp only at hrun
    split at hrun
    · cases hrun
      exact h
    · split at hrun
      · obtain ⟨_, -, hrun⟩ := bind_ok.mp hrun
        split at hrun
        · cases hrun
          exact h
        · split at hrun
          all_goals
            split at hrun
            · exact hgood hrun
            · cases hrun
              exact h
      · exact hgood hrun

theorem AllAddrs.resolveCollisions {clock : Nat → Int} {ids : List Nat}
    (hrun : resolveCollisions c clock ids s = .ok s') : AllAddrs P s'.mapInfo := by
  induction ids generalizing s with
  | nil =>
    cases hrun
    exact h
  | cons id rest ih =>
    obtain ⟨_, hone, hrest⟩ := bind_ok.mp hrun
    have hone := h.resolveCollision hone
    apply ih _ hrest
    split
    · exact hone
    · exact hone

omit [DecidableEq A] in
theorem AllAddrs.selectTriedCollision {rand : Nat} {r : Option (AddrInfo A R)}
    (hrun : selectTriedCollision c s rand = .ok (r, s')) : AllAddrs P s'.mapInfo := by
  unfold AddrMan.selectTriedCollision at hrun
  split at hrun
  · cases hrun
    exact h
  · split at hrun
    · cases hrun
      exact h
    · simp only at hrun
      split at hrun
      · cases hrun
      · obtain ⟨_, -, hrun⟩ := bind_ok.mp hrun
        cases hrun
        exact h

omit [DecidableEq A] in
theorem AllAddrs.gatherAddr {nNodes left n : Nat} {network : Option Network} {filtered : Bool} {rand : Nat → Nat}
    {addresses addresses' : List (AddrInfo A R)}
    (hrun : gatherAddr c nNodes network filtered now rand left n s addresses = .ok (addresses', s')) :
    AllAddrs P s'.mapInfo := by
  induction left generalizing n s addresses with
  | zero =>
    cases hrun
    exact h
  | succ left ih =>
    unfold gatherAddr at hrun
    split at hrun
    · cases hrun
      exact h
    · obtain ⟨_, hswap, hrun⟩ := bind_ok.mp hrun
      obtain ⟨-, -, hrun⟩ := bind_ok.mp hrun
      obtain ⟨_, -, hrun⟩ := bind_ok.mp hrun
      have hswapped := h.swapRandom hswap
      split at hrun
      · exact ih hswapped hrun
      · split at hrun
        · exact ih hswapped hrun
        · exact ih hswapped hrun

omit h

theorem AllAddrs.apply (hP : ∀ a, c.isRoutable a = true → P a) (h : AllAddrs P s.mapInfo) {call : Call A R}
    (hrun : apply c s call = .ok s') : AllAddrs P s'.mapInfo := by
  cases call with
  | add addrs source time_penalty => exact AllAddrs.add hP h hrun
  | good a test_before_evict time =>
    obtain ⟨r, hgood, hrun⟩ := bind_ok.mp hrun
    cases hrun
    exact h.good hgood
  | attempt a fCountFailure time =>
    cases hrun
    unfold attempt
    split
    · exact h
    · refine AllAddrs.modify h _ fun info => ?_
      simp only
      split <;> rfl
  | connected a time =>
    cases hrun
    unfold connected
    split
    · exact h
    · refine AllAddrs.modify h _ fun info => ?_
      split <;> rfl
  | setServices a nServices =>
    cases hrun
    unfold setServices
    split
    · exact h
    · exact h.modify _ fun _ => by rfl
  | resolveCollisions clock => exact h.resolveCollisions hrun
  | selectTriedCollision rand =>
    obtain ⟨r, hselect, hrun⟩ := bind_ok.mp hrun
    cases hrun
    exact h.selectTriedCollision hselect
  | select new_only networks coin draws =>
    obtain ⟨-, -, hrun⟩ := bind_ok.mp hrun
    cases hrun
    exact h
  | getAddr max_addresses max_pct network filtered now rand =>
    obtain ⟨r, hget, hrun⟩ := bind_ok.mp hrun
    cases hrun
    exact AllAddrs.gatherAddr h hget

theorem AllAddrs.run (hP : ∀ a, c.isRoutable a = true → P a) (h : AllAddrs P s.mapInfo) {calls : List (Call A R)}
    (hrun : run c s calls = .ok s') : AllAddrs P s'.mapInfo := by
  induction calls generalizing s with
  | nil =>
    cases hrun
    exact h
  | cons call rest ih =>
    obtain ⟨_, happly, hrest⟩ := bind_ok.mp hrun
    exact ih (AllAddrs.apply hP h happly) hrest

end FullNode.AddrMan

import FullNode.VersionBits

/-! # The cached state is the BIP9 state -/

namespace FullNode.VersionBits

open CBlockIndex List Nat

/-! ## The definition -/

namespace Checker

variable (checker : Checker)

def boundary (b : CBlockIndex) (n : Nat) : CBlockIndex :=
  if n = 0 then null else b.ancestor (n * checker.period - 1)

def signals (b : CBlockIndex) (n : Nat) : Nat :=
  (List.range' (n * checker.period) checker.period).countP fun height => checker.condition (b.ancestor height)

def periodState (b : CBlockIndex) : Nat → ThresholdState
  | 0 => .defined
  | n + 1 =>
    match periodState b n with
    | .defined => if (checker.boundary b (n + 1)).getMedianTimePast ≥ checker.beginTime then .started else .defined
    | .started =>
      if checker.signals b n ≥ checker.threshold then .lockedIn
      else if (checker.boundary b (n + 1)).getMedianTimePast ≥ checker.endTime then .failed else .started
    | .lockedIn => if ((n + 1) * checker.period : Nat) ≥ checker.minActivationHeight then .active else .lockedIn
    | .failed => .failed
    | .active => .active

end Checker

def nextHeight (b : CBlockIndex) : Nat := if b.isNull then 0 else b.nHeight + 1

namespace Checker

variable (checker : Checker)

def heightState (b : CBlockIndex) (height : Nat) : ThresholdState := checker.periodState b (height / checker.period)

def stateOf (b : CBlockIndex) : ThresholdState := checker.heightState b (nextHeight b)

end Checker

def TimesGrow : CBlockIndex → Prop
  | null => True
  | mk e pprev pskip => TimesGrow pprev ∧
    (pprev ≠ null → pprev.getMedianTimePast ≤ (mk e pprev pskip).getMedianTimePast)

structure Branch (b : CBlockIndex) : Prop where
  linked : Linked b
  times : TimesGrow b

/-! ## Ancestors -/

variable {b : CBlockIndex} {checker : Checker}

theorem TimesGrow.ancestor (h : TimesGrow b) (height : Nat) : TimesGrow (b.ancestor height) := by
  induction b with
  | null => exact h
  | mk e p s ihp _ =>
    rcases lt_or_ge height e.nHeight with hlt | hge
    · rw [ancestor_mk _ _ _ _ hlt]
      exact ihp h.1
    · rw [ancestor_self _ _ hge]
      exact h

variable {height n m : Nat}

variable (h : Branch b) (hne : b ≠ CBlockIndex.null) {k : Nat}
include h hne

theorem Branch.ancestor (hle : height ≤ b.nHeight) : Branch (b.ancestor height) :=
  ⟨(h.linked.ancestor_spec hne hle).2.2, h.times.ancestor height⟩

theorem Branch.medianTime_le (hle : height ≤ b.nHeight) :
    (b.ancestor height).getMedianTimePast ≤ b.getMedianTimePast := by
  obtain ⟨hlinked, htimes⟩ := h
  induction b with
  | null => exact absurd rfl hne
  | mk e p s ihp _ =>
    rcases lt_or_ge height e.nHeight with hlt | hge
    · rw [ancestor_mk _ _ _ _ hlt]
      have hheight := hlinked.2.1
      have hp : p ≠ null := by
        rintro rfl
        simp [isNull] at hheight
        omega
      have hisNull : p.isNull = false := by simpa using mt (isNull_iff p).mp hp
      rw [hisNull, if_neg (by simp)] at hheight
      exact le_trans (ihp hp (by omega) hlinked.1 htimes.1) (htimes.2 hp)
    · rw [ancestor_self _ _ hge]

theorem Branch.ancestor_pprev (hle : height + 1 ≤ b.nHeight) :
    (b.ancestor (height + 1)).pprev = b.ancestor height := by
  obtain ⟨hane, hheight, hlinked⟩ := h.linked.ancestor_spec hne hle
  rw [← ancestor_ancestor b (le_succ height)]
  cases hc : b.ancestor (height + 1) with
  | null => exact absurd hc hane
  | mk e p s =>
    rw [hc] at hheight hlinked
    obtain ⟨-, hparent, -⟩ := hlinked
    rw [nHeight_mk] at hheight
    rw [ancestor_mk _ _ _ _ (by omega), pprev_mk, ancestor_self]
    cases hp : p.isNull with
    | true =>
      rw [hp, if_pos rfl] at hparent
      omega
    | false =>
      rw [hp, if_neg (by simp)] at hparent
      omega

omit h hne

/-! ## Boundaries -/

theorem nextHeight_of_ne (hne : b ≠ null) : nextHeight b = b.nHeight + 1 := by
  unfold nextHeight
  rw [if_neg (mt (isNull_iff b).mp hne)]

theorem ne_null_of_nextHeight (hn : 0 < n) (h : n ≤ nextHeight b) : b ≠ null := by
  rintro rfl
  have : nextHeight null = 0 := rfl
  omega

section Boundary

variable (hb : Branch b) {n : Nat} (hn : n * checker.period ≤ nextHeight b)

theorem boundary_zero : checker.boundary b 0 = null := rfl

include hb hn in
theorem boundary_spec (hpos : 0 < n) : checker.boundary b n ≠ null ∧
    (checker.boundary b n).nHeight + 1 = n * checker.period ∧ Branch (checker.boundary b n) := by
  have hperiod : 0 < n * checker.period := Nat.mul_pos hpos checker.period_pos
  have hne := ne_null_of_nextHeight hperiod hn
  rw [nextHeight_of_ne hne] at hn
  obtain ⟨hane, hheight, -⟩ := hb.linked.ancestor_spec hne (by omega : n * checker.period - 1 ≤ b.nHeight)
  unfold Checker.boundary
  rw [if_neg (by omega)]
  refine ⟨hane, ?_, hb.ancestor hne (by omega)⟩
  rw [hheight]
  omega

include hb hn in

include hb hn in
theorem nextHeight_boundary : nextHeight (checker.boundary b n) = n * checker.period := by
  rcases Nat.eq_zero_or_pos n with rfl | hpos
  · rw [Nat.zero_mul]
    rfl
  · obtain ⟨hne, hheight, -⟩ := boundary_spec hb hn hpos
    rw [nextHeight_of_ne hne, hheight]

end Boundary

theorem periodState_ancestor (b : CBlockIndex) (h : m * checker.period ≤ height + 1) :
    checker.periodState (b.ancestor height) m = checker.periodState b m := by
  induction m with
  | zero => rfl
  | succ m ih =>
    have hsucc : (m + 1) * checker.period = m * checker.period + checker.period := succ_mul _ _
    have hboundary : checker.boundary (b.ancestor height) (m + 1) = checker.boundary b (m + 1) := by
      unfold Checker.boundary
      rw [if_neg (succ_ne_zero m), if_neg (succ_ne_zero m), ancestor_ancestor b (by omega)]
    have hsignals : checker.signals (b.ancestor height) m = checker.signals b m := by
      unfold Checker.signals
      refine countP_congr fun h' hh' => ?_
      rw [mem_range'_1] at hh'
      rw [ancestor_ancestor b (by omega)]
    unfold Checker.periodState
    rw [ih (by omega), hboundary, hsignals]

theorem heightState_ancestor (b : CBlockIndex) {below : Nat} (h : below ≤ height + 1) :
    checker.heightState (b.ancestor height) below = checker.heightState b below :=
  periodState_ancestor b (le_trans (div_mul_le_self _ _) h)

section

variable (hb : Branch b)
include hb

theorem stateOf_ancestor (hne : b ≠ null) (hle : height ≤ b.nHeight) :
    checker.stateOf (b.ancestor height) = checker.heightState b (height + 1) := by
  obtain ⟨hane, hheight, -⟩ := hb.linked.ancestor_spec hne hle
  unfold Checker.stateOf
  rw [nextHeight_of_ne hane, hheight, heightState_ancestor b le_rfl]

theorem stateOf_boundary (hn : n * checker.period ≤ nextHeight b) :
    checker.stateOf (checker.boundary b n) = checker.periodState b n := by
  unfold Checker.stateOf Checker.heightState
  rw [nextHeight_boundary hb hn, Nat.mul_div_cancel _ checker.period_pos]
  rcases Nat.eq_zero_or_pos n with rfl | hpos
  · rfl
  · unfold Checker.boundary
    rw [if_neg (by omega), periodState_ancestor b (by omega)]

theorem alignedParent_eq : checker.alignedParent b = .ok (checker.boundary b (nextHeight b / checker.period)) := by
  unfold Checker.alignedParent
  split
  · next hnull =>
    obtain rfl := (isNull_iff b).mp hnull
    have : nextHeight null / checker.period = 0 := Nat.zero_div _
    rw [this, boundary_zero]
  · next hnot =>
    have hne : b ≠ null := mt (isNull_iff b).mpr hnot
    have hdiv := div_add_mod (b.nHeight + 1) checker.period
    rw [nextHeight_of_ne hne]
    unfold Checker.boundary
    rw [Nat.mul_comm] at hdiv
    split
    · next hzero =>
      rw [hzero, Nat.zero_mul] at hdiv
      unfold getAncestor
      rw [if_pos (by omega)]
    · next hpos =>
      have hperiod := Nat.mul_pos (Nat.pos_of_ne_zero hpos) checker.period_pos
      rw [show (b.nHeight : Int) - ((b.nHeight + 1) % checker.period : Nat) =
        ((b.nHeight + 1) / checker.period * checker.period - 1 : Nat) by omega]
      exact hb.linked.getAncestor_eq hne (by omega)

/-! ## The walks -/

theorem countSignals_spec (hne : b ≠ null) (hle : height ≤ b.nHeight)
    (hk : k ≤ height + 1) : checker.countSignals k (b.ancestor height) =
      .ok ((range' (height + 1 - k) k).countP fun h => checker.condition (b.ancestor h)) := by
  induction k generalizing height with
  | zero => rfl
  | succ k ih =>
    obtain ⟨hane, -, -⟩ := hb.linked.ancestor_spec hne hle
    cases hc : b.ancestor height with
    | null => exact absurd hc hane
    | mk e p s =>
      have hcount : checker.countSignals k p =
          .ok ((range' (height - k) k).countP fun h => checker.condition (b.ancestor h)) := by
        cases k with
        | zero => rfl
        | succ k =>
          obtain ⟨below, rfl⟩ : ∃ below, height = below + 1 := ⟨height - 1, by omega⟩
          have hp : p = b.ancestor below := by
            rw [← hb.ancestor_pprev hne hle, hc, pprev_mk]
          rw [hp, ih (by omega) (by omega)]
      rw [Checker.countSignals, hcount, ok_bind, ← hc, show height + 1 - (k + 1) = height - k by omega,
        range'_concat, countP_append, countP_singleton]
      rw [show height - k + 1 * k = height by omega]
      cases checker.condition (b.ancestor height) <;> rfl

theorem countSignals_boundary (hn : (n + 1) * checker.period ≤ nextHeight b) :
    checker.countSignals checker.period (checker.boundary b (n + 1)) = .ok (checker.signals b n) := by
  have hsucc : (n + 1) * checker.period = n * checker.period + checker.period := succ_mul _ _
  have hperiod := checker.period_pos
  have hne := ne_null_of_nextHeight (by omega) hn
  rw [nextHeight_of_ne hne] at hn
  unfold Checker.boundary Checker.signals
  rw [if_neg (succ_ne_zero n), countSignals_spec hb hne (by omega) (by omega)]
  rw [show (n + 1) * checker.period - 1 + 1 - checker.period = n * checker.period by omega]

theorem stateNext_spec (hn : (n + 1) * checker.period ≤ nextHeight b) :
    checker.stateNext (checker.periodState b n) (checker.boundary b (n + 1)) = .ok (checker.periodState b (n + 1)) := by
  have hheight := (boundary_spec hb hn (succ_pos n)).2.1
  rw [Checker.periodState]
  cases checker.periodState b n with
  | defined => rfl
  | started =>
    rw [Checker.stateNext, countSignals_boundary hb hn, ok_bind]
    rfl
  | lockedIn =>
    rw [Checker.stateNext, ← hheight]
    rfl
  | active => rfl
  | failed => rfl

end

def Sound (checker : Checker) (cache : ThresholdConditionCache) : Prop :=
  ∀ k state, cache.lookup k = some state → state = checker.stateOf k

variable {cache : ThresholdConditionCache} {rounds : Nat}

theorem sound_empty : Sound checker ∅ := by
  intro k state h
  cases h

theorem Sound.insert {k : CBlockIndex} {state : ThresholdState} (h : Sound checker cache)
    (hstate : state = checker.stateOf k) : Sound checker (cache.insert k state) := by
  intro k' state' hlookup
  by_cases heq : k' = k
  · subst heq
    rw [AList.lookup_insert] at hlookup
    cases hlookup
    exact hstate
  · rw [AList.lookup_insert_ne heq] at hlookup
    exact h k' state' hlookup

/-- The blocks before the periods `m + 1` to `m + k`, in order. -/
def boundaries (checker : Checker) (b : CBlockIndex) (m k : Nat) : List CBlockIndex :=
  (List.range' (m + 1) k).map (checker.boundary b)

section

variable (hb : Branch b)
include hb

theorem walkForward_spec (hk : (m + k) * checker.period ≤ nextHeight b)
    (h : Sound checker cache) :
    ∃ cache', checker.walkForward (boundaries checker b m k) (checker.periodState b m) cache =
      .ok (checker.periodState b (m + k), cache') ∧ Sound checker cache' := by
  induction k generalizing m cache with
  | zero => exact ⟨cache, rfl, h⟩
  | succ k ih =>
    rw [show m + (k + 1) = m + 1 + k by omega] at hk ⊢
    have hfirst : (m + 1) * checker.period ≤ nextHeight b :=
      le_trans (Nat.mul_le_mul_right _ (Nat.le_add_right _ _)) hk
    unfold boundaries
    rw [range'_succ, map_cons, Checker.walkForward, stateNext_spec hb hfirst, ok_bind]
    exact ih hk (h.insert (stateOf_boundary hb hfirst).symm)

theorem periodState_early (hn : n * checker.period ≤ nextHeight b) (hpos : 0 < n)
    (hearly : (checker.boundary b n).getMedianTimePast < checker.beginTime) (hm : m ≤ n) :
    checker.periodState b m = .defined := by
  induction m with
  | zero => rfl
  | succ m ih =>
    obtain ⟨hne, _, hbranch⟩ := boundary_spec hb hn hpos
    have hle : (m + 1) * checker.period ≤ n * checker.period := Nat.mul_le_mul_right _ hm
    have hsame : checker.boundary b (m + 1) = (checker.boundary b n).ancestor ((m + 1) * checker.period - 1) := by
      unfold Checker.boundary
      rw [if_neg (succ_ne_zero m), if_neg (by omega), ancestor_ancestor b (by omega)]
    have htime := hbranch.medianTime_le hne (by omega : (m + 1) * checker.period - 1 ≤ (checker.boundary b n).nHeight)
    rw [← hsame] at htime
    rw [Checker.periodState, ih (by omega)]
    exact if_neg (by omega)

theorem getAncestor_boundary (hn : (n + 1) * checker.period ≤ nextHeight b) :
    (checker.boundary b (n + 1)).getAncestor (((checker.boundary b (n + 1)).nHeight : Int) - checker.period) =
      .ok (checker.boundary b n) := by
  obtain ⟨hne, _, hbranch⟩ := boundary_spec hb hn (succ_pos n)
  have hsucc : (n + 1) * checker.period = n * checker.period + checker.period := succ_mul _ _
  rcases Nat.eq_zero_or_pos n with rfl | hpos
  · unfold getAncestor
    rw [if_pos (by omega), boundary_zero]
  · have hperiod := Nat.mul_pos hpos checker.period_pos
    rw [show ((checker.boundary b (n + 1)).nHeight : Int) - checker.period = (n * checker.period - 1 : Nat) by omega,
      hbranch.linked.getAncestor_eq hne (by omega)]
    unfold Checker.boundary
    rw [if_neg (succ_ne_zero n), if_neg (by omega), ancestor_ancestor b (by omega)]

theorem walkBack_spec (hn : n * checker.period ≤ nextHeight b) (h : Sound checker cache)
    (hrounds : n < rounds) (vToCompute : List CBlockIndex) :
    ∃ m k cache', m + k = n ∧ checker.walkBack rounds (checker.boundary b n) vToCompute cache =
        .ok (checker.boundary b m, boundaries checker b m k ++ vToCompute, cache') ∧
      Sound checker cache' ∧ cache'.lookup (checker.boundary b m) = some (checker.periodState b m) := by
  induction n generalizing rounds vToCompute with
  | zero =>
    obtain ⟨rounds, rfl⟩ : ∃ r, rounds = r + 1 := ⟨rounds - 1, by omega⟩
    unfold Checker.walkBack
    split
    · next hcached =>
      obtain ⟨state, hlookup⟩ := Option.isSome_iff_exists.mp hcached
      refine ⟨0, 0, cache, rfl, rfl, h, ?_⟩
      rw [hlookup, h _ _ hlookup, stateOf_boundary hb hn]
    · exact ⟨0, 0, _, rfl, rfl, h.insert (stateOf_boundary hb hn).symm, AList.lookup_insert _⟩
  | succ n ih =>
    obtain ⟨rounds, rfl⟩ : ∃ r, rounds = r + 1 := ⟨rounds - 1, by omega⟩
    have hne := (boundary_spec hb hn (succ_pos n)).1
    unfold Checker.walkBack
    split
    · next hcached =>
      obtain ⟨state, hlookup⟩ := Option.isSome_iff_exists.mp hcached
      refine ⟨n + 1, 0, cache, rfl, rfl, h, ?_⟩
      rw [hlookup, h _ _ hlookup, stateOf_boundary hb hn]
    rw [if_neg (mt (isNull_iff _).mp hne)]
    split
    · next hearly =>
      have hdefined := periodState_early hb hn (succ_pos n) hearly le_rfl
      refine ⟨n + 1, 0, _, rfl, rfl, h.insert ?_, ?_⟩
      · rw [stateOf_boundary hb hn, hdefined]
      · rw [AList.lookup_insert, hdefined]
    · have hle : n * checker.period ≤ nextHeight b := le_trans (Nat.mul_le_mul_right _ (le_succ n)) hn
      rw [getAncestor_boundary hb hn, ok_bind]
      obtain ⟨m, k, cache', _, heq, hsound, hlookup⟩ :=
        ih hle (by omega : n < rounds) (checker.boundary b (n + 1) :: vToCompute)
      refine ⟨m, k + 1, cache', by omega, ?_, hsound, hlookup⟩
      rw [heq]
      unfold boundaries
      rw [range'_concat, map_append, append_assoc, show m + 1 + 1 * k = n + 1 by omega]
      rfl

theorem getStateFor_spec (halways : checker.beginTime ≠ ALWAYS_ACTIVE)
    (hnever : checker.beginTime ≠ NEVER_ACTIVE) (h : Sound checker cache) :
    ∃ cache', checker.getStateFor b cache = .ok (checker.stateOf b, cache') ∧ Sound checker cache' := by
  have hn : nextHeight b / checker.period * checker.period ≤ nextHeight b := div_mul_le_self _ _
  have hrounds : nextHeight b / checker.period < (checker.boundary b (nextHeight b / checker.period)).nHeight + 2 := by
    rcases Nat.eq_zero_or_pos (nextHeight b / checker.period) with hzero | hpos
    · omega
    · have hheight := (boundary_spec hb hn hpos).2.1
      have := Nat.le_mul_of_pos_right (nextHeight b / checker.period) checker.period_pos
      omega
  obtain ⟨m, k, _, hmk, hback, hsound, hlookup⟩ := walkBack_spec hb hn h hrounds []
  obtain ⟨cache', hforward, hsound'⟩ := walkForward_spec hb (m := m) (k := k) (by rw [hmk]; exact hn) hsound
  refine ⟨cache', ?_, hsound'⟩
  unfold Checker.getStateFor
  rw [if_neg halways, if_neg hnever, alignedParent_eq hb, ok_bind, hback, ok_bind]
  simp only [hlookup, append_nil]
  rw [hforward, hmk]
  rfl

end

/-! ## Order of the states -/

def ThresholdState.Leads : ThresholdState → ThresholdState → Prop
  | .defined, _ => True
  | .started, later => later ≠ .defined
  | .lockedIn, later => later = .lockedIn ∨ later = .active
  | .active, later => later = .active
  | .failed, later => later = .failed

theorem ThresholdState.Leads.refl (s : ThresholdState) : s.Leads s := by cases s <;> simp [Leads]

theorem ThresholdState.Leads.trans {s t u : ThresholdState} (h : s.Leads t) (h' : t.Leads u) : s.Leads u := by
  cases s <;> cases t <;> cases u <;> simp_all [Leads]

theorem periodState_leads_succ (b : CBlockIndex) (n : Nat) :
    (checker.periodState b n).Leads (checker.periodState b (n + 1)) := by
  rw [Checker.periodState]
  cases checker.periodState b n with
  | defined => trivial
  | started | lockedIn =>
    simp only
    split_ifs <;> simp [ThresholdState.Leads]
  | active => rfl
  | failed => rfl

theorem periodState_leads (b : CBlockIndex) (h : m ≤ n) :
    (checker.periodState b m).Leads (checker.periodState b n) := by
  induction n, h using le_induction with
  | base => exact .refl _
  | succ n _ ih => exact ih.trans (periodState_leads_succ b n)

theorem heightState_leads (b : CBlockIndex) {later : Nat} (h : height ≤ later) :
    (checker.heightState b height).Leads (checker.heightState b later) :=
  periodState_leads b (Nat.div_le_div_right h)

/-! ## Since when -/

/-- The first height in a state up to the block after `b`. -/
structure IsSince (checker : Checker) (b : CBlockIndex) (height : Nat) : Prop where
  le : height ≤ nextHeight b
  same : ∀ h, height ≤ h → h ≤ nextHeight b → checker.heightState b h = checker.stateOf b
  first : height = 0 ∨ checker.heightState b (height - 1) ≠ checker.stateOf b

variable (hb : Branch b) (halways : checker.beginTime ≠ ALWAYS_ACTIVE) (hnever : checker.beginTime ≠ NEVER_ACTIVE)
include hb halways hnever

theorem sinceLoop_spec (hk : (k + 1) * checker.period ≤ nextHeight b)
    (h : Sound checker cache) (hrounds : k < rounds)
    (hstate : checker.periodState b (k + 1) ≠ .defined) :
    ∃ m cache', m ≤ k ∧ checker.sinceLoop (checker.periodState b (k + 1)) rounds (checker.boundary b (k + 1)) cache =
        .ok ((m + 1) * checker.period, cache') ∧ Sound checker cache' ∧
      (∀ j, m + 1 ≤ j → j ≤ k + 1 → checker.periodState b j = checker.periodState b (k + 1)) ∧
      checker.periodState b m ≠ checker.periodState b (k + 1) := by
  induction k generalizing rounds cache with
  | zero =>
    have hheight := (boundary_spec hb hk (succ_pos 0)).2.1
    obtain ⟨rounds, rfl⟩ : ∃ r, rounds = r + 1 := ⟨rounds - 1, by omega⟩
    refine ⟨0, cache, le_rfl, ?_, h, ?_, Ne.symm hstate⟩
    · rw [Checker.sinceLoop, getAncestor_boundary hb hk, ok_bind, boundary_zero, hheight]
      rfl
    · intro j hj hj'
      rw [show j = 0 + 1 by omega]
  | succ k ih =>
    have hheight := (boundary_spec hb hk (succ_pos (k + 1))).2.1
    obtain ⟨rounds, rfl⟩ : ∃ r, rounds = r + 1 := ⟨rounds - 1, by omega⟩
    have hle : (k + 1) * checker.period ≤ nextHeight b :=
      le_trans (Nat.mul_le_mul_right _ (le_succ _)) hk
    obtain ⟨hne, -, hbranch⟩ := boundary_spec hb hle (succ_pos k)
    obtain ⟨cache1, hget, hsound1⟩ := getStateFor_spec hbranch halways hnever h
    rw [stateOf_boundary hb hle] at hget
    rw [Checker.sinceLoop, getAncestor_boundary hb hk, ok_bind, if_neg (mt (isNull_iff _).mp hne), hget, ok_bind]
    simp only
    split
    · next hsame =>
      rw [← hsame] at hstate ⊢
      obtain ⟨m, cache', _, heq, hsound', hall, hfirst⟩ := ih hle hsound1 (by omega : k < rounds) hstate
      refine ⟨m, cache', by omega, heq, hsound', fun j hj hj' => ?_, hfirst⟩
      rcases Nat.lt_or_ge (k + 1) j with hlast | hj''
      · rw [show j = k + 1 + 1 by omega, hsame]
      · exact hall j hj hj''
    · next hdiff =>
      refine ⟨k + 1, cache1, le_rfl, ?_, hsound1, fun j hj hj' => ?_, hdiff⟩
      · rw [hheight]
        rfl
      · rw [show j = k + 1 + 1 by omega]

theorem getStateSinceHeightFor_spec (h : Sound checker cache) :
    ∃ height cache', checker.getStateSinceHeightFor b cache = .ok (height, cache') ∧ IsSince checker b height ∧
      Sound checker cache' := by
  obtain ⟨cache1, hget, hsound1⟩ := getStateFor_spec hb halways hnever h
  unfold Checker.getStateSinceHeightFor
  rw [if_neg (not_or.mpr ⟨halways, hnever⟩), hget, ok_bind]
  simp only
  split
  · next hdefined =>
    -- Nothing comes before `defined`, so it was the state from genesis on.
    refine ⟨0, cache1, rfl, ⟨Nat.zero_le _, fun height _ hle => ?_, .inl rfl⟩, hsound1⟩
    have hleads : (checker.heightState b height).Leads (checker.stateOf b) := heightState_leads b hle
    rw [hdefined] at hleads ⊢
    cases hs : checker.heightState b height <;> rw [hs] at hleads <;> simp_all [ThresholdState.Leads]
  · next hstate =>
    have hn : nextHeight b / checker.period * checker.period ≤ nextHeight b := div_mul_le_self _ _
    have hperiod : checker.stateOf b = checker.periodState b (nextHeight b / checker.period) := rfl
    obtain ⟨k, hk⟩ : ∃ k, nextHeight b / checker.period = k + 1 := by
      refine ⟨nextHeight b / checker.period - 1, ?_⟩
      rcases Nat.eq_zero_or_pos (nextHeight b / checker.period) with hzero | hpos
      · rw [hperiod, hzero] at hstate
        exact absurd rfl hstate
      · omega
    rw [hk] at hn hperiod
    obtain ⟨hne, _, -⟩ := boundary_spec hb hn (succ_pos k)
    have hrounds : k < (checker.boundary b (k + 1)).nHeight + 2 := by
      have := Nat.le_mul_of_pos_right (k + 1) checker.period_pos
      omega
    obtain ⟨m, cache', _, heq, hsound', hall, hfirst⟩ :=
      sinceLoop_spec hb halways hnever hn hsound1 hrounds (by rw [← hperiod]; exact hstate)
    rw [alignedParent_eq hb, ok_bind, hk]
    have hnull : (checker.boundary b (k + 1)).isNull = false := by simpa using mt (isNull_iff _).mp hne
    rw [hnull, Bool.not_false, check_true, ok_bind, hperiod, heq]
    refine ⟨_, cache', rfl, ⟨?_, fun height hge hle => ?_, .inr ?_⟩, hsound'⟩
    · exact le_trans (Nat.mul_le_mul_right _ (by omega)) hn
    · rw [hperiod]
      refine hall _ ?_ ?_
      · exact (Nat.le_div_iff_mul_le checker.period_pos).mpr hge
      · rw [← hk]
        exact Nat.div_le_div_right hle
    · rw [hperiod]
      unfold Checker.heightState
      have hpos := checker.period_pos
      have hsucc : (m + 1) * checker.period = m * checker.period + checker.period := succ_mul _ _
      rw [show ((m + 1) * checker.period - 1) / checker.period = m from
        Nat.div_eq_of_lt_le (by omega) (by omega)]
      exact hfirst

omit hb halways hnever

/-! ## Sequences of queries -/

theorem runQueries_spec (halways : checker.beginTime ≠ ALWAYS_ACTIVE) (hnever : checker.beginTime ≠ NEVER_ACTIVE)
    {queries : List Checker.Query} (hqueries : ∀ q ∈ queries, Branch q.pindexPrev) (h : Sound checker cache) :
    ∃ cache', checker.runQueries queries cache = .ok cache' ∧ Sound checker cache' := by
  induction queries generalizing cache with
  | nil => exact ⟨cache, rfl, h⟩
  | cons query queries ih =>
    have hrest := fun q hq => hqueries q (mem_cons_of_mem _ hq)
    have hbranch := hqueries query mem_cons_self
    cases query with
    | state b =>
      obtain ⟨cache1, heq, hsound⟩ := getStateFor_spec hbranch halways hnever h
      rw [Checker.runQueries]
      change ∃ cache', (checker.getStateFor b cache >>= _) = _ ∧ _
      rw [show checker.getStateFor b cache = _ from heq, ok_bind]
      exact ih hrest hsound
    | since b =>
      obtain ⟨_, cache1, heq, -, hsound⟩ := getStateSinceHeightFor_spec hbranch halways hnever h
      rw [Checker.runQueries]
      rw [show checker.getStateSinceHeightFor b cache = _ from heq, ok_bind]
      exact ih hrest hsound

/-- The answer is the state by definition and since when: constant in a period, never back. -/
theorem cached_state_eq_definition (halways : checker.beginTime ≠ ALWAYS_ACTIVE)
    (hnever : checker.beginTime ≠ NEVER_ACTIVE) {earlier : List Checker.Query}
    (hearlier : ∀ q ∈ earlier, Branch q.pindexPrev) (hb : Branch b) :
    ∃ cache, checker.runQueries earlier ∅ = .ok cache ∧
      (∃ cache', checker.getStateFor b cache = .ok (checker.stateOf b, cache')) ∧
      (∃ height cache', checker.getStateSinceHeightFor b cache = .ok (height, cache') ∧ IsSince checker b height) ∧
      (∀ i j, i ≤ j → j ≤ b.nHeight → b ≠ null →
        (checker.stateOf (b.ancestor i)).Leads (checker.stateOf (b.ancestor j)) ∧
        ((i + 1) / checker.period = (j + 1) / checker.period →
          checker.stateOf (b.ancestor i) = checker.stateOf (b.ancestor j))) := by
  obtain ⟨cache, hrun, hsound⟩ := runQueries_spec halways hnever hearlier sound_empty
  obtain ⟨cache1, hstate, -⟩ := getStateFor_spec hb halways hnever hsound
  obtain ⟨height, cache2, hsince, hisSince, -⟩ := getStateSinceHeightFor_spec hb halways hnever hsound
  refine ⟨cache, hrun, ⟨cache1, hstate⟩, ⟨height, cache2, hsince, hisSince⟩, fun i j hij hj hne => ?_⟩
  rw [stateOf_ancestor hb hne (by omega), stateOf_ancestor hb hne hj]
  refine ⟨heightState_leads b (by omega), fun hperiod => ?_⟩
  unfold Checker.heightState
  rw [hperiod]

def smallChecker : Checker where
  condition _ := true
  beginTime := 0
  endTime := 100
  minActivationHeight := 0
  period := 1
  threshold := 1
  period_pos := Nat.one_pos

def smallGenesis : CBlockIndex := mk ⟨1, 0, 0, 1, 0, 10, 0, 0⟩ null null
def smallLeft : CBlockIndex := mk ⟨2, 1, 0, 1, 0, 20, 0, 0⟩ smallGenesis smallGenesis
def smallRight : CBlockIndex := mk ⟨3, 1, 0, 1, 0, 30, 0, 0⟩ smallGenesis smallGenesis

theorem small_branches : Branch smallLeft ∧ Branch smallRight := by
  have hlinked : Linked smallGenesis := ⟨trivial, rfl, by decide⟩
  have htimes : TimesGrow smallGenesis := ⟨trivial, fun h => absurd rfl h⟩
  exact ⟨⟨⟨hlinked, rfl, by decide⟩, htimes, fun _ => by decide⟩, ⟨hlinked, rfl, by decide⟩, htimes, fun _ => by decide⟩

theorem smallRight_after_smallLeft :
    ∃ cache, smallChecker.runQueries [.state smallLeft, .since smallLeft] ∅ = .ok cache ∧
    ∃ cache', smallChecker.getStateFor smallRight cache = .ok (.lockedIn, cache') := by
  have hearlier : ∀ q ∈ [Checker.Query.state smallLeft, .since smallLeft], Branch q.pindexPrev := by
    simp [Checker.Query.pindexPrev, small_branches.1]
  obtain ⟨cache, hrun, hget, -⟩ := cached_state_eq_definition (by decide : smallChecker.beginTime ≠ _)
    (by decide : smallChecker.beginTime ≠ _) hearlier small_branches.2
  exact ⟨cache, hrun, hget⟩

/-! ## Why the median never goes back -/

/-- Each block but the first passed the check for `time-too-old`. -/
def TimesChecked : CBlockIndex → Prop
  | null => True
  | mk e pprev _ => TimesChecked pprev ∧ (pprev ≠ null → ¬ (e.nTime.toNat : Int) ≤ pprev.getMedianTimePast)

theorem le_sorted_iff {sorted : List Int} (h : sorted.Pairwise (· ≤ ·)) (hk : k < sorted.length) (m : Int) :
    m ≤ sorted.getD k 0 ↔ sorted.countP (· < m) ≤ k := by
  induction sorted generalizing k with
  | nil => cases hk
  | cons t sorted ih =>
    obtain ⟨hleast, hsorted⟩ := pairwise_cons.mp h
    by_cases hlt : t < m
    · rw [countP_cons_of_pos (by simpa using hlt)]
      cases k with
      | zero => simp [not_le.mpr hlt]
      | succ k => simpa using ih hsorted (lt_of_succ_lt_succ hk)
    · have hall : ∀ u ∈ t :: sorted, m ≤ u :=
          forall_mem_cons.mpr ⟨not_lt.mp hlt, fun u hu => (not_lt.mp hlt).trans (hleast u hu)⟩
      have hnone : (t :: sorted).countP (· < m) = 0 := countP_eq_zero.mpr fun u hu => by simpa using hall u hu
      rw [hnone, getD_eq_getElem?_getD, getElem?_eq_getElem hk]
      simpa using hall _ (getElem_mem hk)

theorem le_median_iff (hne : b ≠ null) (m : Int) : m ≤ b.getMedianTimePast ↔
    (pastTimes nMedianTimeSpan b).countP (· < m) ≤ (pastTimes nMedianTimeSpan b).length / 2 := by
  have hpos : 0 < (pastTimes nMedianTimeSpan b).length := by
    cases b with
    | null => exact absurd rfl hne
    | mk e p s => exact succ_pos _
  have hperm := perm_insertionSort (· ≤ ·) (pastTimes nMedianTimeSpan b)
  unfold getMedianTimePast
  rw [le_sorted_iff (pairwise_insertionSort _ _) (by rw [hperm.length_eq]; omega), hperm.countP_eq, hperm.length_eq]

theorem countP_pastTimes_le (p : Int → Bool) (n : Nat) (b : CBlockIndex) :
    (pastTimes n b).countP p ≤ (pastTimes (n + 1) b).countP p ∧
      (pastTimes n b).length ≤ (pastTimes (n + 1) b).length ∧
        (pastTimes (n + 1) b).length ≤ (pastTimes n b).length + 1 := by
  induction n generalizing b with
  | zero => cases b <;> simp [pastTimes]
  | succ n ih =>
    cases b with
    | null => simp [pastTimes]
    | mk e p s =>
      obtain ⟨_, _, _⟩ := ih p
      rw [pastTimes, pastTimes, countP_cons, countP_cons, length_cons, length_cons]
      omega

/-- At most half are below the median, and the block's is not. -/
theorem TimesChecked.grow (h : TimesChecked b) : TimesGrow b := by
  induction b with
  | null => trivial
  | mk e p s ihp _ =>
    refine ⟨ihp h.1, fun hp => (le_median_iff CBlockIndex.noConfusion _).mpr ?_⟩
    obtain ⟨_, _, _⟩ := countP_pastTimes_le (· < p.getMedianTimePast) 10 p
    have hhalf := (le_median_iff hp _).mp le_rfl
    have hlate := not_le.mp (h.2 hp)
    rw [show nMedianTimeSpan = 10 + 1 from rfl] at hhalf ⊢
    rw [pastTimes, countP_cons_of_neg (by simpa using hlate.le), length_cons]
    omega

/-- The median time never goes back, and a block is later than every median below it. -/
theorem medianTime_monotone (hlinked : Linked b) (h : TimesChecked b) (hne : b ≠ null) {height : Nat}
    (hle : height ≤ b.nHeight) : (b.ancestor height).getMedianTimePast ≤ b.getMedianTimePast ∧
      (height < b.nHeight → (b.ancestor height).getMedianTimePast < b.getBlockTime) := by
  refine ⟨Branch.medianTime_le ⟨hlinked, h.grow⟩ hne hle, fun hlt => ?_⟩
  cases b with
  | null => exact absurd rfl hne
  | mk e p s =>
    have hheight := hlinked.2.1
    rw [nHeight_mk] at hlt
    have hp : p ≠ null := by
      rintro rfl
      rw [isNull, if_pos rfl] at hheight
      omega
    rw [if_neg (mt (isNull_iff p).mp hp)] at hheight
    rw [ancestor_mk _ _ _ _ hlt]
    exact (Branch.medianTime_le ⟨hlinked.1, h.1.grow⟩ hp (by omega)).trans_lt (not_le.mp (h.2 hp))

theorem smallLeft_medianTime : smallGenesis.getMedianTimePast ≤ smallLeft.getMedianTimePast ∧
    (0 < 1 → smallGenesis.getMedianTimePast < smallLeft.getBlockTime) :=
  medianTime_monotone small_branches.1.linked ⟨⟨trivial, fun h => absurd rfl h⟩, fun _ => by decide⟩
    (by decide) (zero_le 1)

end FullNode.VersionBits

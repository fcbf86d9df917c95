import FullNode.TxRequest

/-! # The announcements of one transaction -/

namespace FullNode.TxRequest

/-! ## Keys -/

theorem memoryBytes_inj {a b : Uint256} (h : memoryBytes a = memoryBytes b) : a = b := by
  apply BitVec.eq_of_getLsbD_eq
  intro i hi
  have hbyte : (a >>> (8 * (i / 8))).toNat % 256 = (b >>> (8 * (i / 8))).toNat % 256 := by
    have := congrArg (fun l => l[i / 8]?) h
    simpa [memoryBytes, show i / 8 < 32 by omega] using this
  have hbit := congrArg (fun n => n.testBit (i % 8)) hbyte
  have hlt : i % 8 < 8 := Nat.mod_lt _ (by decide)
  simp only [show (256 : Nat) = 2 ^ 8 from rfl, Nat.testBit_mod_two_pow, hlt, decide_true, Bool.true_and,
    BitVec.testBit_toNat, BitVec.getLsbD_ushiftRight] at hbit
  rwa [Nat.div_add_mod] at hbit

theorem byPeerKey_inj {p q : Int} {b c : Bool} {h i : Uint256} : byPeerKey p b h = byPeerKey q c i ↔
    p = q ∧ b = c ∧ h = i := by
  unfold byPeerKey
  simp only [EmbeddingLike.apply_eq_iff_eq, Prod.mk.injEq]
  constructor
  · rintro ⟨hp, hb, hh⟩
    exact ⟨hp, hb, memoryBytes_inj hh⟩
  · rintro ⟨rfl, rfl, rfl⟩
    exact ⟨rfl, rfl, rfl⟩

variable {s : State} {G1 : Set Announcement}

theorem byTxHashKey_le {h i : Uint256} {t : State} {p q : Uint64} :
    byTxHashKey h s p ≤ byTxHashKey i t q ↔ memoryBytes h < memoryBytes i ∨
      h = i ∧ (s.rank < t.rank ∨ s.rank = t.rank ∧ p.toNat ≤ q.toNat) := by
  unfold byTxHashKey
  simp only [Prod.Lex.le_iff, ofLex_toLex]
  constructor
  · rintro (hlt | ⟨heq, hle⟩)
    · exact .inl hlt
    · exact .inr ⟨memoryBytes_inj heq, hle⟩
  · rintro (hlt | ⟨rfl, hle⟩)
    · exact .inl hlt
    · exact .inr ⟨rfl, hle⟩

variable {comp : PriorityComputer} {a b c : Announcement}

theorem txhash_between (hab : byTxHashView comp a ≤ byTxHashView comp b)
    (hbc : byTxHashView comp b ≤ byTxHashView comp c) (hac : a.txhash = c.txhash) : b.txhash = c.txhash := by
  unfold byTxHashView at hab hbc
  rw [byTxHashKey_le] at hab hbc
  rcases hbc with hbc | ⟨hbc, -⟩
  · rcases hab with hab | ⟨hab, -⟩
    · rw [hac] at hab
      exact absurd (lt_trans hab hbc) (lt_irrefl _)
    · rw [← hab, hac]
  · exact hbc

theorem rank_le (h : byTxHashView comp a ≤ byTxHashView comp b) (hab : a.txhash = b.txhash) :
    a.state.rank ≤ b.state.rank := by
  unfold byTxHashView at h
  rw [byTxHashKey_le, hab] at h
  rcases h with h | ⟨-, h | ⟨h, -⟩⟩
  · exact absurd h (lt_irrefl _)
  · exact le_of_lt h
  · exact le_of_eq h

theorem priority_le (h : byTxHashView comp a ≤ byTxHashView comp b) (hab : a.txhash = b.txhash)
    (ha : a.state = .candidateReady) (hb : b.state = .candidateReady) : comp.priority a ≤ comp.priority b := by
  unfold byTxHashView at h
  rw [byTxHashKey_le, hab, ha, hb] at h
  rcases h with h | ⟨-, h | ⟨-, h⟩⟩
  · exact absurd h (lt_irrefl _)
  · exact absurd h (lt_irrefl _)
  · exact h

/-! ## Groups -/

/-- One of a hash is selected, no worse than the ready ones, or all wait and not all are completed. -/
inductive GroupSane (comp : PriorityComputer) (G : Set Announcement) : Prop
  | held (y : Announcement) (hy : y ∈ G) (hselected : y.isSelected = true)
      (honly : ∀ a ∈ G, a.isSelected = true → a = y)
      (hbest : y.state = .candidateBest → ∀ a ∈ G, a.state = .candidateReady → comp.priority a ≤ comp.priority y)
  | free (hwaits : ∀ a ∈ G, a.state = .candidateDelayed ∨ a.state = .completed)
      (hactive : ∀ a ∈ G, ∃ b ∈ G, b.state ≠ .completed)

@[simp] theorem setState_state (s : State) : (a.setState s).state = s := rfl
@[simp] theorem setState_txhash (s : State) : (a.setState s).txhash = a.txhash := rfl
@[simp] theorem setState_peer (s : State) : (a.setState s).peer = a.peer := rfl
@[simp] theorem setState_time (s : State) : (a.setState s).time = a.time := rfl
@[simp] theorem setState_priority (s : State) : comp.priority (a.setState s) = comp.priority a := rfl

theorem isSelected_iff : a.isSelected = true ↔ a.state = .candidateBest ∨ a.state = .requested := by
  simp [Announcement.isSelected]

/-- `G'` is `G` with `y` in the place of `x`. -/
def Changed (x y : Announcement) (G G' : Set Announcement) : Prop :=
  ∀ a, a ∈ G' ↔ a = y ∨ a ≠ x ∧ a ∈ G

variable {G G' : Set Announcement} {x y : Announcement}

section

variable (h : GroupSane comp G)
include h

theorem GroupSane.no_ready (hnone : ∀ a ∈ G, a.isSelected = false) : ∀ a ∈ G, a.state ≠ .candidateReady := by
  intro a ha hready
  rcases h with ⟨y, hy, hselected, -, -⟩ | ⟨hwaits, -⟩
  · rw [hnone y hy] at hselected
    cases hselected
  · rcases hwaits a ha with hstate | hstate
    all_goals
      rw [hstate] at hready
      cases hready

theorem GroupSane.add (hx : x.state = .candidateDelayed)
    (hG : ∀ a, a ∈ G' ↔ a = x ∨ a ∈ G) : GroupSane comp G' := by
  rcases h with ⟨y, hy, hselected, honly, hbest⟩ | ⟨hwaits, -⟩
  · refine .held y ((hG y).mpr (.inr hy)) hselected ?_ ?_
    · intro a ha hsel
      rcases (hG a).mp ha with rfl | ha
      · simp [isSelected_iff, hx] at hsel
      · exact honly a ha hsel
    · intro hstate a ha hready
      rcases (hG a).mp ha with rfl | ha
      · simp [hx] at hready
      · exact hbest hstate a ha hready
  · refine .free ?_ ?_
    · intro a ha
      rcases (hG a).mp ha with rfl | ha
      · exact .inl hx
      · exact hwaits a ha
    · intro a _
      exact ⟨x, (hG x).mpr (.inl rfl), by simp [hx]⟩

theorem GroupSane.drop (hx : x.state = .completed)
    (hG : ∀ a, a ∈ G' ↔ a ≠ x ∧ a ∈ G) : GroupSane comp G' := by
  rcases h with ⟨y, hy, hselected, honly, hbest⟩ | ⟨hwaits, hactive⟩
  · refine .held y ((hG y).mpr ⟨?_, hy⟩) hselected ?_ ?_
    · rintro rfl
      simp [isSelected_iff, hx] at hselected
    · intro a ha
      exact honly a ((hG a).mp ha).2
    · intro hstate a ha
      exact hbest hstate a ((hG a).mp ha).2
  · refine .free ?_ ?_
    · intro a ha
      exact hwaits a ((hG a).mp ha).2
    · intro a ha
      obtain ⟨b, hb, hstate⟩ := hactive a ((hG a).mp ha).2
      refine ⟨b, (hG b).mpr ⟨?_, hb⟩, hstate⟩
      rintro rfl
      exact hstate hx

theorem GroupSane.first (hnone : ∀ a ∈ G, a.isSelected = false)
    (hG : Changed x (x.setState .candidateBest) G G') : GroupSane comp G' := by
  refine .held (x.setState .candidateBest) ((hG _).mpr (.inl rfl)) rfl ?_ ?_
  · intro a ha hsel
    rcases (hG a).mp ha with rfl | ⟨-, ha⟩
    · rfl
    · rw [hnone a ha] at hsel
      cases hsel
  · intro _ a ha hready
    rcases (hG a).mp ha with rfl | ⟨-, ha⟩
    · cases hready
    · exact absurd hready (h.no_ready hnone a ha)

theorem GroupSane.queue (hx : x.state = .candidateDelayed)
    (hsome : ∃ a ∈ G, a.isSelected = true)
    (hworse : ∀ a ∈ G, a.state = .candidateBest → comp.priority x ≤ comp.priority a)
    (hG : Changed x (x.setState .candidateReady) G G') : GroupSane comp G' := by
  rcases h with ⟨y, hy, hselected, honly, hbest⟩ | ⟨hwaits, -⟩
  · have hne : y ≠ x := by
      rintro rfl
      simp [isSelected_iff, hx] at hselected
    refine .held y ((hG y).mpr (.inr ⟨hne, hy⟩)) hselected ?_ ?_
    · intro a ha hsel
      rcases (hG a).mp ha with rfl | ⟨-, ha⟩
      · simp [isSelected_iff] at hsel
      · exact honly a ha hsel
    · intro hstate a ha hready
      rcases (hG a).mp ha with rfl | ⟨-, ha⟩
      · exact hworse y hy hstate
      · exact hbest hstate a ha hready
  · obtain ⟨a, ha, hsel⟩ := hsome
    rcases hwaits a ha with hstate | hstate <;> simp [isSelected_iff, hstate] at hsel

theorem GroupSane.overtake {G2 : Set Announcement} (hy : y ∈ G)
    (hstate : y.state = .candidateBest) (hbetter : comp.priority y ≤ comp.priority x)
    (hG1 : Changed x (x.setState .candidateReady) G G1) (hG2 : Changed y (y.setState .candidateReady) G1 G2)
    (hG' : Changed (x.setState .candidateReady) (x.setState .candidateBest) G2 G') : GroupSane comp G' := by
  rcases h with ⟨_, -, -, honly, hbest⟩ | ⟨hwaits, -⟩
  · obtain rfl := honly y hy (isSelected_iff.mpr (.inl hstate))
    -- Whatever else is left was not selected, and was ready below `y`.
    have hold : ∀ a ∈ G', a = x.setState .candidateBest ∨ a = y.setState .candidateReady ∨ a ≠ y ∧ a ∈ G := by
      intro a ha
      rcases (hG' a).mp ha with rfl | ⟨hne, ha⟩
      · exact .inl rfl
      rcases (hG2 a).mp ha with rfl | ⟨hney, ha⟩
      · exact .inr (.inl rfl)
      rcases (hG1 a).mp ha with rfl | ⟨-, ha⟩
      · exact absurd rfl hne
      · exact .inr (.inr ⟨hney, ha⟩)
    refine .held _ ((hG' _).mpr (.inl rfl)) rfl ?_ ?_
    · intro a ha hsel
      rcases hold a ha with rfl | rfl | ⟨hne, ha⟩
      · rfl
      · simp [isSelected_iff] at hsel
      · exact absurd (honly a ha hsel) hne
    · intro _ a ha hready
      rcases hold a ha with rfl | rfl | ⟨-, ha⟩
      · cases hready
      · exact hbetter
      · exact BitVec.le_trans (hbest hstate a ha hready) hbetter
  · rcases hwaits y hy with h | h <;> rw [h] at hstate <;> cases hstate

end

def State.Unselected (s : State) : Prop := s = .candidateDelayed ∨ s = .completed

theorem State.Unselected.not_selected (h : s.Unselected) : (a.setState s).isSelected = false := by
  rcases h with rfl | rfl <;> rfl

theorem State.Unselected.not_ready (h : s.Unselected) : s ≠ .candidateReady := by
  rcases h with rfl | rfl <;> simp

/-- Another announcement keeps the group alive. -/
def KeepsActive (G : Set Announcement) (x : Announcement) (s : State) : Prop :=
  s = .completed → ∃ b ∈ G, b ≠ x ∧ b.state ≠ .completed

theorem KeepsActive.active (h : KeepsActive G x s) (hG : Changed x (x.setState s) G G') :
    ∃ b ∈ G', b.state ≠ .completed := by
  by_cases hs : s = .completed
  · obtain ⟨b, hb, hne, hstate⟩ := h hs
    exact ⟨b, (hG b).mpr (.inr ⟨hne, hb⟩), hstate⟩
  · exact ⟨x.setState s, (hG _).mpr (.inl rfl), hs⟩

section

variable (h : GroupSane comp G)
include h

theorem GroupSane.putBack (hx : x.isSelected = false) (hs : s.Unselected)
    (hactive : KeepsActive G x s) (hG : Changed x (x.setState s) G G') : GroupSane comp G' := by
  rcases h with ⟨y, hy, hselected, honly, hbest⟩ | ⟨hwaits, -⟩
  · have hne : y ≠ x := by
      rintro rfl
      rw [hx] at hselected
      cases hselected
    refine .held y ((hG y).mpr (.inr ⟨hne, hy⟩)) hselected ?_ ?_
    · intro a ha hsel
      rcases (hG a).mp ha with rfl | ⟨-, ha⟩
      · rw [hs.not_selected] at hsel
        cases hsel
      · exact honly a ha hsel
    · intro hstate a ha hready
      rcases (hG a).mp ha with rfl | ⟨-, ha⟩
      · exact absurd hready hs.not_ready
      · exact hbest hstate a ha hready
  · refine .free ?_ fun _ _ => hactive.active hG
    intro a ha
    rcases (hG a).mp ha with rfl | ⟨-, ha⟩
    · exact hs
    · exact hwaits a ha

theorem GroupSane.only (hx : x ∈ G) (hselected : x.isSelected = true) :
    ∀ a ∈ G, a.isSelected = true → a = x := by
  intro a ha hsel
  rcases h with ⟨_, -, -, honly, -⟩ | ⟨hwaits, -⟩
  · rw [honly a ha hsel, honly x hx hselected]
  · rcases hwaits x hx with hstate | hstate <;> simp [isSelected_iff, hstate] at hselected

theorem GroupSane.release (hx : x ∈ G) (hselected : x.isSelected = true)
    (hnone : ∀ a ∈ G, a.state ≠ .candidateReady) (hs : s.Unselected)
    (hactive : KeepsActive G x s) (hG : Changed x (x.setState s) G G') : GroupSane comp G' := by
  refine .free ?_ fun _ _ => hactive.active hG
  intro a ha
  rcases (hG a).mp ha with rfl | ⟨hne, ha⟩
  · exact hs
  · have hsel : a.isSelected ≠ true := fun hsel => hne (h.only hx hselected a ha hsel)
    rw [Ne, isSelected_iff, not_or] at hsel
    cases hstate : a.state <;> simp_all

theorem GroupSane.succeed (hx : x ∈ G) (hselected : x.isSelected = true)
    (hbetter : ∀ a ∈ G, a.state = .candidateReady → comp.priority a ≤ comp.priority y)
    (hs : s.Unselected) (hG1 : Changed y (y.setState .candidateBest) G G1)
    (hG' : Changed x (x.setState s) G1 G') (hbest : y.setState .candidateBest ≠ x) : GroupSane comp G' := by
  have hold : ∀ a ∈ G', a = x.setState s ∨ a = y.setState .candidateBest ∨ a ≠ x ∧ a ∈ G := by
    intro a ha
    rcases (hG' a).mp ha with rfl | ⟨hne, ha⟩
    · exact .inl rfl
    rcases (hG1 a).mp ha with rfl | ⟨-, ha⟩
    · exact .inr (.inl rfl)
    · exact .inr (.inr ⟨hne, ha⟩)
  refine .held (y.setState .candidateBest) ((hG' _).mpr (.inr ⟨hbest, (hG1 _).mpr (.inl rfl)⟩)) rfl ?_ ?_
  · intro a ha hsel
    rcases hold a ha with rfl | rfl | ⟨hne, ha⟩
    · rw [hs.not_selected] at hsel
      cases hsel
    · rfl
    · exact absurd (h.only hx hselected a ha hsel) hne
  · intro _ a ha hready
    rcases hold a ha with rfl | rfl | ⟨-, ha⟩
    · exact absurd hready hs.not_ready
    · cases hready
    · exact hbetter a ha hready

end

theorem GroupSane.request (honly : ∀ a ∈ G, a.isSelected = true → a = x) (hy : y.state = .requested)
    (hG : Changed x y G G') : GroupSane comp G' := by
  refine .held y ((hG y).mpr (.inl rfl)) (isSelected_iff.mpr (.inr hy)) ?_ ?_
  · intro a ha hsel
    rcases (hG a).mp ha with rfl | ⟨hne, ha⟩
    · rfl
    · exact absurd (honly a ha hsel) hne
  · intro hstate
    rw [hy] at hstate
    cases hstate

end FullNode.TxRequest

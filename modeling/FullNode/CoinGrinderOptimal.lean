import FullNode.CoinGrinderSearch
import FullNode.BranchAndBoundOptimal

/-! # The lightest selection -/

namespace FullNode.CoinSelection

open SubsetSearch List Finset OutputGroup
open Mempool (int64 INT64_MAX)

variable {pool : List OutputGroup} {tails : Tails} {target cap : Int} {s s' : GrinderState} {S : Finset ℕ}
  {sel rest : List ℕ} {i k p : ℕ}

/-! ## Selections that suffice -/

structure Sufficient (pool : List OutputGroup) (target cap : Int) (S : Finset ℕ) : Prop where
  inPool : S ⊆ Finset.range pool.length
  enough : target ≤ ∑ k ∈ S, amounts pool k
  limit : ∑ k ∈ S, weights pool k ≤ cap

/-- A best selection is known, and is lighter or as light with less. -/
structure NoBetter (pool : List OutputGroup) (s : GrinderState) (S : Finset ℕ) : Prop where
  found : s.bestSelection ≠ []
  order : s.bestSelectionWeight < ∑ k ∈ S, weights pool k ∨
    s.bestSelectionWeight = ∑ k ∈ S, weights pool k ∧ s.bestSelectionAmount ≤ ∑ k ∈ S, amounts pool k

/-- The selection need not be looked at. -/
def Settled (pool : List OutputGroup) (s : GrinderState) (S : Finset ℕ) : Prop :=
  (pool.map OutputGroup.getSelectionAmount).sum < MAX_MONEY → NoBetter pool s S

def Covered (pool : List OutputGroup) (target cap : Int) (sel : List ℕ) (i : ℕ) (s : GrinderState) : Prop :=
  ∀ S, Sufficient pool target cap S → Pending sel i S ∨ Settled pool s S

def GivenUp (pool : List OutputGroup) (target cap : Int) (sel : List ℕ) (i : ℕ) (s : GrinderState) : Prop :=
  ∀ S, Sufficient pool target cap S → Extends sel i S → Settled pool s S

theorem Settled.congr (h : Settled pool s S) (hselection : s'.bestSelection = s.bestSelection)
    (hamount : s'.bestSelectionAmount = s.bestSelectionAmount)
    (hweight : s'.bestSelectionWeight = s.bestSelectionWeight) : Settled pool s' S := by
  intro hsmall
  obtain ⟨hfound, horder⟩ := h hsmall
  refine ⟨hselection ▸ hfound, ?_⟩
  rw [hweight, hamount]
  exact horder

theorem Settled.same (h : Settled pool s S) (hbest : SameBest s s') : Settled pool s' S :=
  h.congr hbest.selection hbest.amount hbest.weight

theorem Settled.le {S' : Finset ℕ} (h : Settled pool s S')
    (hweight : ∑ k ∈ S', weights pool k ≤ ∑ k ∈ S, weights pool k)
    (hamount : ∑ k ∈ S', amounts pool k = ∑ k ∈ S, amounts pool k) : Settled pool s S := by
  intro hsmall
  obtain ⟨hfound, _⟩ := h hsmall
  exact ⟨hfound, by omega⟩

theorem Covered.same (h : Covered pool target cap sel i s) (hbest : SameBest s s') :
    Covered pool target cap sel i s' :=
  fun S hS => (h S hS).imp_right fun hsettled => hsettled.same hbest

theorem GivenUp.same (h : GivenUp pool target cap sel i s) (hbest : SameBest s s') :
    GivenUp pool target cap sel i s' :=
  fun S hS hext => (h S hS hext).same hbest

theorem Covered.pop (h : Covered pool target cap (k :: sel) i s) (hplace : Place (k :: sel) i)
    (hgiven : GivenUp pool target cap (k :: sel) i s) : Covered pool target cap sel (k + 1) s := by
  intro S hS
  rcases h S hS with hpending | hsettled
  · exact (hpending.pop hplace).imp_right (hgiven S hS)
  · exact .inr hsettled

/-! ## Clones -/

theorem sufficient_exchange (hsorted : Descending pool) (hS : Sufficient pool target cap S) (hp : p ∉ S)
    (hi : p + 1 ∈ S) (hclone : amounts pool (p + 1) = amounts pool p) :
    Sufficient pool target cap (exchange p S) ∧ ∑ k ∈ exchange p S, weights pool k ≤ ∑ k ∈ S, weights pool k ∧
      ∑ k ∈ exchange p S, amounts pool k = ∑ k ∈ S, amounts pool k := by
  have hlt := Finset.mem_range.mp (hS.inPool hi)
  have hle := hsorted.weight p (p + 1) (Nat.lt_succ_self p) hlt hclone
  have hamount : ∑ k ∈ exchange p S, amounts pool k = ∑ k ∈ S, amounts pool k := by
    rw [sum_exchange _ hp hi]
    omega
  have hweight : ∑ k ∈ exchange p S, weights pool k ≤ ∑ k ∈ S, weights pool k := by
    rw [sum_exchange _ hp hi]
    omega
  exact ⟨⟨exchange_subset hS.inPool hi, hamount ▸ hS.enough, hweight.trans hS.limit⟩, hweight, hamount⟩

/-- A selection with the clone is settled like that with the group. -/
theorem settled_clone (hsorted : Descending pool) (h : Covered pool target cap sel (p + 1) s)
    (hplace : Place sel (p + 1)) (hp : p ∉ sel) (hclone : amounts pool (p + 1) = amounts pool p)
    (hS : Sufficient pool target cap S) (hext : Extends sel (p + 1) S) (hi : p + 1 ∈ S) : Settled pool s S := by
  obtain ⟨hsufficient, hweight, hamount⟩ := sufficient_exchange hsorted hS (notMem_of_extends hext hp) hi hclone
  rcases h _ hsufficient with hpending | hsettled
  · exact absurd hpending (not_pending_exchange hext hplace hp)
  · exact hsettled.le hweight hamount

theorem Covered.skip (hsorted : Descending pool) (h : Covered pool target cap sel (p + 1) s)
    (hplace : Place sel (p + 1)) (hp : p ∉ sel) (hclone : amounts pool (p + 1) = amounts pool p) :
    Covered pool target cap sel (p + 2) s := by
  intro S hS
  rcases h S hS with hpending | hsettled
  · rcases hpending.skip hplace with hpending | ⟨hext, hi⟩
    · exact .inl hpending
    · exact .inr (settled_clone hsorted h hplace hp hclone hS hext hi)
  · exact .inr hsettled

/-- The clones from `p + 1` on, up to `next`. -/
structure Skipped (pool : List OutputGroup) (p next : ℕ) (atEnd : Bool) : Prop where
  le : p + 1 ≤ next
  within : next < pool.length
  clones : ∀ j, p ≤ j → j + 1 < next → amounts pool (j + 1) = amounts pool j
  atEnd : atEnd = true → next + 1 = pool.length ∧ ∃ j, next = j + 1 ∧ amounts pool (j + 1) = amounts pool j

theorem skipClones_spec (fuel next : ℕ) (hfuel : pool.length ≤ next + fuel) (hnext : p + 1 ≤ next)
    (hwithin : next < pool.length) (hclones : ∀ j, p ≤ j → j + 1 < next → amounts pool (j + 1) = amounts pool j) :
    ∃ next' atEnd, skipClones pool fuel next = .ok (next', atEnd) ∧ Skipped pool p next' atEnd := by
  induction fuel generalizing next with
  | zero => omega
  | succ fuel ih =>
    obtain ⟨j, rfl⟩ : ∃ j, next = j + 1 := ⟨next - 1, by omega⟩
    unfold skipClones
    rw [Nat.add_sub_cancel, elementAt_nth (by omega), ok_bind, elementAt_nth hwithin, ok_bind]
    split
    · next hclone =>
      split
      · next hend =>
        exact ⟨_, _, rfl, hnext, hwithin, hclones, fun _ => ⟨by omega, j, rfl, hclone.symm⟩⟩
      · next hmore =>
        refine ih _ (by omega) (by omega) (by omega) fun l hl hlt => ?_
        rcases Nat.lt_succ_iff_lt_or_eq.mp hlt with hlt | heq
        · exact hclones l hl hlt
        · obtain rfl : l = j := by omega
          exact hclone.symm
    · exact ⟨_, _, rfl, hnext, hwithin, hclones, by simp⟩

theorem Covered.skipAll (hsorted : Descending pool) {next : ℕ} {atEnd : Bool} (hskipped : Skipped pool p next atEnd)
    (h : Covered pool target cap sel (p + 1) s) (hplace : Place sel p) :
    Covered pool target cap sel next s := by
  suffices hall : ∀ j, p ≤ j → j + 1 ≤ next → Covered pool target cap sel (j + 1) s by
    obtain ⟨j, rfl⟩ : ∃ j, next = j + 1 := ⟨next - 1, by have := hskipped.le; omega⟩
    exact hall j (by have := hskipped.le; omega) le_rfl
  intro j hj
  induction j, hj using Nat.le_induction with
  | base => exact fun _ => h
  | succ j hj ih =>
    intro hlt
    refine (ih (by omega)).skip hsorted (hplace.mono (by omega)) ?_ (hskipped.clones j hj hlt)
    intro hmem
    have := hplace.below j hmem
    omega

theorem givenUp_short (hplace : Place sel pool.length) (hshort : total (amounts pool) sel < target) :
    GivenUp pool target cap sel pool.length s := by
  intro S hS hext
  have := hS.enough
  rw [hext.sum_eq_total hplace hS.inPool] at this
  omega

theorem givenUp_clones (hsorted : Descending pool) (h : Covered pool target cap sel (p + 1) s)
    (hplace : Place sel (p + 1)) (hp : p ∉ sel) (hclone : amounts pool (p + 1) = amounts pool p)
    (hend : p + 2 = pool.length) (hshort : total (amounts pool) sel < target) :
    GivenUp pool target cap sel (p + 1) s := by
  intro S hS hext
  by_cases hi : p + 1 ∈ S
  · exact settled_clone hsorted h hplace hp hclone hS hext hi
  · have hskip := hext.skip hplace hi
    rw [show p + 1 + 1 = pool.length from hend] at hskip
    exact givenUp_short (hend ▸ hplace.mono (Nat.le_succ _)) hshort S hS hskip

/-! ## To shift -/

structure Grinding (pool : List OutputGroup) (target cap : Int) (s : GrinderState) : Prop where
  grinds : Grinds pool target cap s
  within : s.nextUtxo < pool.length
  below : s.currAmount < target
  covered : Covered pool target cap s.currSelection s.nextUtxo s

def Shifts (pool : List OutputGroup) (target cap : Int) (s : GrinderState) (r : Bool × GrinderState) : Prop :=
  BestKept pool target cap r.2 ∧ SameBest s r.2 ∧
    (r.1 = true → ∀ S, Sufficient pool target cap S → Settled pool r.2 S) ∧
    (r.1 = false → Grinding pool target cap r.2)

theorem shiftLast_spec (hpositive : Positive pool) (hsorted : Descending pool) (hs : Grinds pool target cap s)
    (hsel : s.currSelection = sel) (hwithin : ∀ k ∈ sel, k + 1 < pool.length)
    (hbelow : total (amounts pool) sel.tail < target) (hcovered : Covered pool target cap sel s.nextUtxo s)
    (hgiven : GivenUp pool target cap sel s.nextUtxo s) :
    Ensures (Overflows pool) (Shifts pool target cap s) (shiftLast pool sel s) := by
  induction sel generalizing s with
  | nil =>
    refine ⟨hs.best, ⟨rfl, rfl, rfl, rfl⟩, fun _ S hS => ?_, by simp⟩
    rcases hcovered S hS with hpending | hsettled
    · exact hgiven S hS (extends_of_pending_nil hpending)
    · exact hsettled
  | cons last rest ih =>
    have hplace := hs.place
    rw [hsel] at hplace
    have hlast := hwithin last mem_cons_self
    have hpop := hcovered.pop hplace hgiven
    obtain ⟨next, atEnd, hskip, hskipped⟩ := skipClones_spec (p := last) pool.length (last + 1) (by omega) le_rfl hlast
      fun j _ _ => by omega
    have hall := hpop.skipAll hsorted hskipped hplace.pop
    unfold shiftLast
    refine (deselectLast_spec hs hsel).bind ?_
    rintro s1 ⟨h1, hsel1, -, hbest1⟩
    rw [hskip, ok_bind]
    have hrest : Place rest next := hplace.pop.mono (by have := hskipped.le; omega)
    have h2 : Grinds pool target cap { s1 with nextUtxo := next } :=
      ⟨hsel1 ▸ hrest, hskipped.within.le, h1.amount, h1.weight,
        ⟨h1.best.place, h1.best.amount, h1.best.weight, h1.best.enough, h1.best.limit, h1.best.unset⟩⟩
    have hbest2 : SameBest s { s1 with nextUtxo := next } :=
        ⟨hbest1.currTry, hbest1.selection, hbest1.amount, hbest1.weight⟩
    have hcovered2 := hall.same hbest2
    cases atEnd with
    | true =>
      obtain ⟨hend, p, hp, hclone⟩ := hskipped.atEnd rfl
      rw [if_pos rfl]
      have hnotMem : p ∉ rest := by
        intro hmem
        have := hplace.pop.below p hmem
        omega
      have hbelowRest : total (amounts pool) rest.tail < target := by
        cases rest with
        | nil => exact hbelow
        | cons k rest => exact (hplace.pop.le_total_pop (by omega) fun k hk =>
          (hpositive.amounts_pos hk).le).trans_lt hbelow
      have hgiven2 : GivenUp pool target cap rest next { s1 with nextUtxo := next } := by
        rw [hp] at hcovered2 hrest hend ⊢
        exact givenUp_clones hsorted hcovered2 hrest hnotMem hclone hend hbelow
      refine (ih h2 hsel1 (fun k hk => ?_) hbelowRest hcovered2 hgiven2).mono fun r hr => ?_
      · have := hplace.pop.below k hk
        omega
      · exact ⟨hr.1, hbest2.trans hr.2.1, hr.2.2⟩
    | false =>
      rw [if_neg (by simp)]
      refine ⟨h2.best, hbest2, by simp, fun _ => ⟨h2, hskipped.within, ?_, ?_⟩⟩
      · have hamount : s1.currAmount = total (amounts pool) rest := hsel1 ▸ h1.amount
        exact hamount.trans_lt hbelow
      · exact hsel1 ▸ hcovered2

/-! ## What an evaluation gives up -/

section

variable {course : Course}

theorem Verdict.kept (h : Verdict pool target cap k s course s') (hs : Grinds pool target cap s)
    (hsel : s.currSelection = k :: rest) :
    Grinds pool target cap s' ∧ s'.currSelection = s.currSelection ∧ s'.nextUtxo = s.nextUtxo ∧
      s'.currTry = s.currTry := by
  have hbest := hs.best
  cases h with
  | short _ => exact ⟨hs, rfl, rfl, rfl⟩
  | heavy _ _ _ _ =>
    exact ⟨⟨hs.place, hs.within, hs.amount, hs.weight,
      ⟨hbest.place, hbest.amount, hbest.weight, hbest.enough, hbest.limit, hbest.unset⟩⟩, rfl, rfl, rfl⟩
  | better henough hbetter =>
    refine ⟨⟨hs.place, hs.within, hs.amount, hs.weight,
      ⟨hs.place.mono hs.within, fun _ => hs.amount, fun _ => hs.weight, fun _ => henough, ?_, ?_⟩⟩,
      rfl, rfl, rfl⟩
    · have := hbest.limit
      dsimp only
      omega
    · intro hnil
      rw [hsel] at hnil
      cases hnil
  | tie _ _ _ | hopeless _ _ _ _ _ _ _ | openEnd _ => exact ⟨hs, rfl, rfl, rfl⟩

theorem Verdict.settled (h : Verdict pool target cap k s course s') (hsel : s.currSelection = k :: rest)
    (hsettled : Settled pool s S) : Settled pool s' S := by
  intro hsmall
  obtain ⟨hfound, horder⟩ := hsettled hsmall
  cases h with
  | short _ | heavy _ _ _ _ => exact ⟨hfound, horder⟩
  | better _ hbetter =>
    refine ⟨fun hnil => ?_, ?_⟩
    · rw [hsel] at hnil
      cases hnil
    · dsimp only
      omega
  | tie _ _ _ | hopeless _ _ _ _ _ _ _ | openEnd _ => exact ⟨hfound, horder⟩

theorem sum_beyond_le (hsorted : Descending pool) (hS : S ⊆ Finset.range pool.length) :
    ∑ j ∈ beyond (k + 1) S, amounts pool j ≤ (beyond (k + 1) S).card * amounts pool k := by
  have := sum_le_card_nsmul (beyond (k + 1) S) (amounts pool) (amounts pool k) fun j hj => by
    have := mem_Ico.mp (beyond_subset hS hj)
    exact hsorted.amount k j (by omega) this.2
  rwa [nsmul_eq_mul] at this

theorem le_sum_beyond {minTail : Int} (hS : S ⊆ Finset.range pool.length)
    (hleast : ∀ group ∈ pool.drop (k + 1), minTail ≤ group.weight) :
    minTail * (beyond (k + 1) S).card ≤ ∑ j ∈ beyond (k + 1) S, weights pool j := by
  have := card_nsmul_le_sum (beyond (k + 1) S) (weights pool) minTail fun j hj => by
    have := mem_Ico.mp (beyond_subset hS hj)
    exact hleast _ (nth_mem_drop this.1 this.2)
  rwa [nsmul_eq_mul, mul_comm] at this

/-- A selection heavier than the best, or over the limit, is settled. -/
theorem settled_of_heavier (hbest : BestKept pool target cap s) (hS : Sufficient pool target cap S)
    (h : s.bestSelectionWeight < ∑ k ∈ S, weights pool k) : Settled pool s S := by
  refine fun _ => ⟨fun hnil => ?_, .inl h⟩
  have := (hbest.unset hnil).1
  have := hS.limit
  omega

theorem Verdict.givesUp (hpositive : Positive pool) (hsorted : Descending pool) (hs : Grinds pool target cap s)
    (hsel : s.currSelection = k :: rest) (hk : s.nextUtxo = k + 1) (h : Verdict pool target cap k s course s')
    (hne : course ≠ .explore) : GivenUp pool target cap (k :: rest) (k + 1) s' := by
  intro S hS hext
  have hkn : k < pool.length := by have := hs.within; omega
  have hplace := hs.place
  rw [hsel, hk] at hplace
  have hamounts := hext.sum_eq hplace (amounts pool)
  have hweights := hext.sum_eq hplace (weights pool)
  rw [← hsel, ← hs.amount] at hamounts
  rw [← hsel, ← hs.weight] at hweights
  have hle := hext.le_sum hplace (f := weights pool) fun j hj =>
      hpositive.weights_nonneg (Finset.mem_range.mp (hS.inPool hj))
  have hleAmount := hext.le_sum hplace (f := amounts pool) fun j hj =>
      (hpositive.amounts_pos (Finset.mem_range.mp (hS.inPool hj))).le
  rw [← hsel, ← hs.weight] at hle
  rw [← hsel, ← hs.amount] at hleAmount
  have henough := hS.enough
  cases h with
  | short hshort =>
    have hreach := hext.sum_le hplace hS.inPool fun j hj => (hpositive.amounts_pos hj).le
    rw [← hsel, ← hs.amount] at hreach
    have hahead := sum_Ico_nth getSelectionAmount pool (k + 1)
    rw [← hahead] at hshort
    exact absurd (hS.enough.trans hreach) (not_le.mpr hshort)
  | heavy _ hheavy _ _ =>
    refine settled_of_heavier ?_ hS (hheavy.trans_le hle)
    exact ⟨hs.best.place, hs.best.amount, hs.best.weight, hs.best.enough, hs.best.limit, hs.best.unset⟩
  | better _ _ =>
    refine fun _ => ⟨fun hnil => ?_, ?_⟩
    · rw [hsel] at hnil
      cases hnil
    · dsimp only
      omega
  | tie _ htie hmore =>
    refine fun hsmall => ⟨fun hnil => ?_, by omega⟩
    have hall : ∑ j ∈ S, amounts pool j ≤ (pool.map getSelectionAmount).sum :=
      (sum_le_sum_of_subset_of_nonneg hS.inPool fun j hj _ =>
        (hpositive.amounts_pos (Finset.mem_range.mp hj)).le).trans_eq (sum_nth getSelectionAmount pool)
    have := (hs.best.unset hnil).2
    omega
  | hopeless hbest hless hnonneg hleast hhopeless _ _ =>
    have hcount := missingCount_le (beyond (k + 1) S).card (hpositive.amounts_pos hkn) hless
      (show target - s.currAmount ≤ (beyond (k + 1) S).card * amounts pool k by
        have := sum_beyond_le (k := k) hsorted hS.inPool
        omega)
    have htail := (mul_le_mul_of_nonneg_left hcount hnonneg).trans (le_sum_beyond hS.inPool hleast)
    exact settled_of_heavier hs.best hS (by omega)
  | openEnd _ => exact absurd rfl hne

theorem Verdict.givesUpOmission (hpositive : Positive pool) (hsorted : Descending pool) (hs : Grinds pool target cap s)
    (hsel : s.currSelection = k :: rest) (hk : s.nextUtxo = k + 1) (hbelow : total (amounts pool) rest < target)
    (h : Verdict pool target cap k s .cut s') : GivenUp pool target cap rest (k + 1) s' := by
  intro S hS hext
  have hkn : k < pool.length := by have := hs.within; omega
  have hplace := hs.place
  rw [hsel, hk] at hplace
  have hrest : Place rest (k + 1) := hplace.pop.mono (Nat.le_succ k)
  have hamounts := hext.sum_eq hrest (amounts pool)
  have hweights := hext.sum_eq hrest (weights pool)
  have hamount := hs.amount
  have hweight := hs.weight
  rw [hsel, total_cons] at hamount hweight
  have hpos := hpositive.amounts_pos hkn
  have henough := hS.enough
  cases h with
  | short hshort =>
    have hreach := hext.sum_le hrest hS.inPool fun j hj => (hpositive.amounts_pos hj).le
    have hahead : ∑ j ∈ Finset.Ico (k + 1) pool.length, amounts pool j = _ :=
        sum_Ico_nth getSelectionAmount pool (k + 1)
    rw [← hahead] at hshort
    omega
  | heavy _ hheavy _ hcut =>
    have hne : (beyond (k + 1) S).Nonempty := by
      rw [nonempty_iff_ne_empty]
      intro hempty
      rw [hempty, sum_empty] at hamounts
      omega
    obtain ⟨j, hj⟩ := hne
    have hjk := mem_Ico.mp (beyond_subset hS.inPool hj)
    have hone : weights pool k ≤ weights pool j := hcut rfl _ (nth_mem_drop hjk.1 hjk.2)
    have hsum : weights pool j ≤ ∑ j ∈ beyond (k + 1) S, weights pool j :=
      single_le_sum (fun l hl => hpositive.weights_nonneg (mem_Ico.mp (beyond_subset hS.inPool hl)).2) hj
    refine settled_of_heavier ?_ hS (show s.bestSelectionWeight < _ by omega)
    exact ⟨hs.best.place, hs.best.amount, hs.best.weight, hs.best.enough, hs.best.limit, hs.best.unset⟩
  | hopeless hbest hless hnonneg hleast hhopeless _ hcut =>
    have hrestLe := sum_beyond_le (k := k) hsorted hS.inPool
    obtain ⟨count, hcard⟩ : ∃ count, (beyond (k + 1) S).card = count + 1 := by
      refine Nat.exists_eq_succ_of_ne_zero fun hzero => ?_
      rw [hzero, Nat.cast_zero, zero_mul] at hrestLe
      omega
    rw [hcard] at hrestLe
    push_cast at hrestLe
    rw [add_mul, one_mul] at hrestLe
    have hcount := missingCount_le count hpos hless (by omega)
    have htail := le_sum_beyond hS.inPool hleast
    rw [hcard] at htail
    push_cast at htail
    rw [mul_add, mul_one] at htail
    have hmul := mul_le_mul_of_nonneg_left hcount hnonneg
    have := hcut rfl
    exact settled_of_heavier hs.best hS (by omega)

end

/-! ## One round -/

def Ground (pool : List OutputGroup) (target cap : Int) (s : GrinderState) : Prop :=
  BestKept pool target cap s ∧
    (s.algoCompleted = true → ∀ S, Sufficient pool target cap S → Settled pool s S)

def Grounds (pool : List OutputGroup) (target cap : Int) (currTry : ℕ) : Next GrinderState → Prop :=
  Next.Ends (Ground pool target cap) fun s => Grinding pool target cap s ∧ s.currTry = currTry

theorem shift_spec (hpositive : Positive pool) (hsorted : Descending pool) (hs : Grinds pool target cap s)
    (hsel : s.currSelection = sel) (hwithin : ∀ k ∈ sel, k + 1 < pool.length)
    (hbelow : total (amounts pool) sel.tail < target) (hcovered : Covered pool target cap sel s.nextUtxo s)
    (hgiven : GivenUp pool target cap sel s.nextUtxo s) :
    Ensures (Overflows pool) (Grounds pool target cap s.currTry) (shift pool s) := by
  unfold shift
  rw [hsel]
  refine (shiftLast_spec hpositive hsorted hs hsel hwithin hbelow hcovered hgiven).bind ?_
  rintro ⟨isDone, _⟩ ⟨hbest, hsame, hdone, hround⟩
  cases isDone with
  | true =>
    refine ⟨⟨hbest.place, hbest.amount, hbest.weight, hbest.enough, hbest.limit, hbest.unset⟩, fun _ S hS => ?_⟩
    exact (hdone rfl S hS).congr rfl rfl rfl
  | false => exact ⟨hround rfl, hsame.currTry⟩

theorem cut_spec (hpositive : Positive pool) (hsorted : Descending pool) (hs : Grinds pool target cap s)
    (hsel : s.currSelection = k :: rest) (hk : s.nextUtxo = k + 1) (hbelow : total (amounts pool) rest < target)
    (hcovered : Covered pool target cap (k :: rest) (k + 1) s)
    (hgiven : GivenUp pool target cap (k :: rest) (k + 1) s)
    (homission : GivenUp pool target cap rest (k + 1) s) :
    Ensures (Overflows pool) (Grounds pool target cap s.currTry) (do shift pool (← deselectLast pool s)) := by
  have hplace := hs.place
  have hwithin := hs.within
  rw [hsel] at hplace
  rw [hk] at hplace hwithin
  refine (deselectLast_spec hs hsel).bind ?_
  rintro s' ⟨hs', hsel', hnext, hsame⟩
  rw [hk] at hnext
  have hbelowTail : total (amounts pool) rest.tail < target := by
    cases rest with
    | nil => exact hbelow
    | cons j rest => exact (hplace.pop.le_total_pop (by omega) fun j hj =>
      (hpositive.amounts_pos hj).le).trans_lt hbelow
  rw [← hsame.currTry]
  refine shift_spec hpositive hsorted hs' hsel' (fun j hj => ?_) hbelowTail ?_ ?_
  · have := hplace.pop.below j hj
    omega
  · rw [hnext]
    exact (hcovered.pop hplace hgiven).same hsame
  · rw [hnext]
    exact homission.same hsame

theorem Grounds.lt {currTry : ℕ} {next : Next GrinderState} (h : Grounds pool target cap currTry next)
    (hlt : currTry < TOTAL_TRIES) : Next.Ends (Ground pool target cap)
      (fun s => Grinding pool target cap s ∧ s.currTry = currTry ∧ s.currTry < TOTAL_TRIES) next := by
  cases next with
  | done s => exact h
  | again s => exact ⟨h.1, h.2, by have := h.2; omega⟩

theorem grinderStep_spec (hpositive : Positive pool) (hsorted : Descending pool) (htails : TailsOf pool tails)
    (hs : Grinding pool target cap s) :
    Ensures (Overflows pool) (Next.Ends (Ground pool target cap)
      fun s' => Grinding pool target cap s' ∧ s'.currTry = s.currTry + 1 ∧ s'.currTry < TOTAL_TRIES)
      (grinderStep pool tails target cap s) := by
  unfold grinderStep
  refine (selectNext_spec hs.grinds hs.within).bind ?_
  rintro t ⟨ht, hsel, hnext, htry, hbest, hbestAmount, hbestWeight⟩
  have hbelow : total (amounts pool) s.currSelection < target := hs.grinds.amount ▸ hs.below
  have hcovered : Covered pool target cap t.currSelection t.nextUtxo t := by
    intro S hS
    rw [hsel, hnext]
    exact (hs.covered S hS).imp (fun hpending => hpending.take hs.grinds.place) fun hsettled =>
      hsettled.congr hbest hbestAmount hbestWeight
  generalize hk : s.nextUtxo = k at hsel hnext
  refine (evaluateSelection_spec hpositive hsorted htails ht hsel hnext).bind ?_
  rintro ⟨course, e⟩ hverdict
  dsimp only at hverdict ⊢
  obtain ⟨he, heSel, heNext, heTry⟩ := hverdict.kept ht hsel
  split
  · exact ⟨⟨he.best.place, he.best.amount, he.best.weight, he.best.enough, he.best.limit, he.best.unset⟩, by simp⟩
  · next hleft =>
    have hlt : s.currTry + 1 < TOTAL_TRIES := by omega
    rw [hsel] at heSel
    rw [hnext] at heNext
    have heCovered : Covered pool target cap (k :: s.currSelection) (k + 1) e := by
      intro S hS
      rw [← hsel, ← hnext]
      exact (hcovered S hS).imp_right (hverdict.settled hsel)
    have hplace : Place (k :: s.currSelection) (k + 1) := by
      rw [← hk]
      exact hs.grinds.place.take
    have hrest : Place s.currSelection (k + 1) := hplace.pop.mono (Nat.le_succ k)
    have heTry : e.currTry = s.currTry + 1 := heTry.trans htry
    have hcut := cut_spec hpositive hsorted he heSel heNext hbelow heCovered
    have hshift := shift_spec hpositive hsorted he heSel
    by_cases hend : e.nextUtxo = pool.length
    · -- At the end of the pool, neither the stack nor what leaves out its last group is continued.
      have hkn : k + 1 = pool.length := heNext ▸ hend
      rw [if_pos hend, ← heTry]
      refine (hcut ?_ ?_).mono fun next h => h.lt (heTry ▸ hlt)
      · by_cases hexplore : course = .explore
        · subst hexplore
          cases hverdict with
          | heavy _ _ hne _ | hopeless _ _ _ _ _ hne _ => exact absurd rfl hne
          | openEnd hless =>
            rw [hkn] at hplace ⊢
            refine givenUp_short hplace ?_
            rw [← heSel, ← he.amount]
            exact hless
        · exact hverdict.givesUp hpositive hsorted ht hsel hnext hexplore
      · rw [hkn] at hrest ⊢
        exact givenUp_short hrest hbelow
    · rw [if_neg hend, ← heTry]
      cases course with
      | cut =>
        refine (hcut ?_ ?_).mono fun next h => h.lt (heTry ▸ hlt)
        · exact hverdict.givesUp hpositive hsorted ht hsel hnext (by simp)
        · exact hverdict.givesUpOmission hpositive hsorted ht hsel hnext hbelow
      | shift =>
        refine (hshift (fun j hj => ?_) hbelow ?_ ?_).mono fun next h => h.lt (heTry ▸ hlt)
        · have := hplace.below j hj
          have := he.within
          omega
        · rwa [heNext]
        · rw [heNext]
          exact hverdict.givesUp hpositive hsorted ht hsel hnext (by simp)
      | explore =>
        have hwithin := he.within
        refine ⟨⟨he, by omega, ?_, ?_⟩, rfl, heTry ▸ hlt⟩
        · cases hverdict with
          | heavy _ _ hne _ | hopeless _ _ _ _ _ hne _ => exact absurd rfl hne
          | openEnd hless => exact hless
        · rw [heSel, heNext]
          exact heCovered

/-! ## The result -/

def Searched (pool : List OutputGroup) (target cap : Int) : Option GrinderState → Prop
  | none => (pool.map OutputGroup.getSelectionAmount).sum < target
  | some s => Ground pool target cap s

theorem grinding_start (hwithin : 0 < pool.length) (hpos : 0 < target) :
    Grinding pool target cap { bestSelectionWeight := cap } where
  grinds := ⟨.nil 0, Nat.zero_le _, rfl, rfl,
    ⟨.nil _, fun h => absurd rfl h, fun h => absurd rfl h, fun h => absurd rfl h, le_rfl, fun _ => ⟨rfl, rfl⟩⟩⟩
  within := hwithin
  below := hpos
  covered S _ := .inl (pending_start S)

theorem grinderSearch_spec (cap : Int) (hpositive : Positive pool) (hsorted : Descending pool) {extra : Int}
    (hpos : 0 < target + extra) (hfits : target + extra ≤ INT64_MAX) :
    Ensures (Overflows pool) (Searched pool (target + extra) cap)
      (grinderSearch pool target extra cap) := by
  have htarget : int64 (target + extra) = .ok (target + extra) :=
    int64_of_abs (by rwa [abs_of_pos hpos])
  unfold grinderSearch
  refine (tailsOf_spec hpositive Fits.amounts).bind fun tails htails => ?_
  rw [htarget, ok_bind, htails.total]
  split
  · next hshort => exact hshort
  · next henough =>
    have hwithin : 0 < pool.length := by
      refine length_pos_iff.mpr fun hnil => henough ?_
      rw [hnil, map_nil, sum_nil]
      exact hpos
    refine (loop_ensures (fun s => TOTAL_TRIES - s.currTry)
      (I := fun s => Grinding pool (target + extra) cap s ∧ s.currTry < TOTAL_TRIES)
      (Q := Ground pool (target + extra) cap) ?_ ⟨grinding_start hwithin hpos, (by decide : 0 < TOTAL_TRIES)⟩
        (by omega)).bind
      fun s hs => hs
    rintro s ⟨hs, _⟩
    refine (grinderStep_spec hpositive hsorted htails hs).mono fun next hnext => ?_
    cases next with
    | done s' => exact hnext
    | again s' => exact ⟨⟨hnext.1, hnext.2.2⟩, by have := hnext.2.1; omega⟩

theorem grinderResult_spec {wanted : Int} (hs : BestKept pool target cap s) (hne : s.bestSelection ≠ []) :
    Ensures (fun e => SelectionResult.SharedAmong (pool.flatMap outputs) e ∨ Overflows pool e)
      (fun r => ∃ result, r = .ok result ∧ Selects pool cap target (groupsAt pool s.bestSelection.reverse) result ∧
        result.algoCompleted = s.algoCompleted ∧
          ((groupsAt pool s.bestSelection.reverse).map weight).sum = s.bestSelectionWeight ∧
        ((groupsAt pool s.bestSelection.reverse).map getSelectionAmount).sum = s.bestSelectionAmount)
      (grinderResult pool wanted s) := by
  generalize hgroups : groupsAt pool s.bestSelection.reverse = groups
  obtain ⟨hsub, htotal, hin⟩ := groupsAt_reverse hs.place
  rw [hgroups] at hsub htotal
  unfold grinderResult
  rw [if_neg (by simpa using hne)]
  dsimp only
  rw [addInputs_eq hin, hgroups]
  refine (addGroups_spec hsub rfl rfl).bind ?_
  rintro _ rfl
  have hweight : (groups.map weight).sum = s.bestSelectionWeight := (htotal _).trans (hs.weight hne).symm
  have hamount : (groups.map getSelectionAmount).sum = s.bestSelectionAmount := (htotal _).trans (hs.amount hne).symm
  exact ⟨_, rfl, selects_added _ hsub rfl rfl (hweight.trans_le hs.limit) ((hs.enough hne).trans_eq hamount.symm),
    rfl, hweight, hamount⟩

/-- None that reaches the target is lighter, or as light with less. -/
def Lightest (pool : List OutputGroup) (target : Int) (chosen : List OutputGroup) : Prop :=
  ∀ S ⊆ Finset.range pool.length, target ≤ ∑ k ∈ S, amounts pool k →
    (chosen.map OutputGroup.weight).sum < ∑ k ∈ S, weights pool k ∨
      (chosen.map OutputGroup.weight).sum = ∑ k ∈ S, weights pool k ∧
        (chosen.map OutputGroup.getSelectionAmount).sum ≤ ∑ k ∈ S, amounts pool k

def Completes (sorter : Sorter OutputGroup) (utxoPool : List OutputGroup) (target extra cap : Int) : Prop :=
  ∀ s, grinderSearch (sorter.sort descendingEffvalWeight utxoPool) target extra cap = .ok (some s) →
    s.algoCompleted = true

/-- The result is lightest, and an error says that nothing suffices. -/
def GroundOut (pool : List OutputGroup) (target cap : Int) : Result SelectionResult → Prop
  | .ok result => ∃ chosen, Selects pool cap target chosen result ∧ result.algoCompleted = true ∧
    Lightest pool target chosen
  | .error _ => ∀ S, ¬ Sufficient pool target cap S

theorem lightest_selection (sorter : Sorter OutputGroup) {utxoPool : List OutputGroup} {target extra : Int}
    (hpositive : Positive utxoPool) (hsmall : (utxoPool.map OutputGroup.getSelectionAmount).sum < MAX_MONEY)
    (hpos : 0 < target + extra) (hfits : target + extra ≤ INT64_MAX)
    (hcompletes : Completes sorter utxoPool target extra cap) :
    Ensures (fun e => SelectionResult.SharedAmong (utxoPool.flatMap OutputGroup.outputs) e ∨ Overflows utxoPool e)
      (GroundOut (sorter.sort descendingEffvalWeight utxoPool) (target + extra) cap)
      (coinGrinder sorter utxoPool target extra cap) := by
  have hperm := sorter.perm descendingEffvalWeight descendingEffvalWeight_strictWeak utxoPool
  have hsorted := descending_of_sorted (sorter.sorted descendingEffvalWeight descendingEffvalWeight_strictWeak utxoPool)
  rw [Completes] at hcompletes
  unfold coinGrinder
  dsimp only
  generalize sorter.sort descendingEffvalWeight utxoPool = pool at hperm hsorted hcompletes ⊢
  have hpool : Positive pool :=
      ⟨fun g hg => hpositive.amount g (hperm.mem_iff.mp hg), fun g hg => hpositive.weight g (hperm.mem_iff.mp hg)⟩
  have hoverflows : ∀ e, Overflows pool e → Overflows utxoPool e := fun e he => ⟨he.1, fun h => he.2 (h.perm hperm)⟩
  have hsum : (pool.map getSelectionAmount).sum < MAX_MONEY := (hperm.map _).sum_eq.trans_lt hsmall
  have hsearch := grinderSearch_spec cap hpool hsorted hpos hfits
  cases hfound : grinderSearch pool target extra cap with
  | error e =>
    rw [hfound] at hsearch
    exact .inr (hoverflows e hsearch)
  | ok found =>
    rw [hfound] at hsearch
    rw [ok_bind]
    cases found with
    | none =>
      intro S hS
      have hle := (sum_le_sum_of_subset_of_nonneg hS.inPool fun j hj _ =>
        (hpool.amounts_pos (Finset.mem_range.mp hj)).le).trans_eq (sum_nth getSelectionAmount pool)
      exact absurd (hS.enough.trans hle) (not_le.mpr hsearch)
    | some s =>
      obtain ⟨hbest, hsettled⟩ : Ground pool (target + extra) cap s := hsearch
      have hcompleted := hcompletes s hfound
      have hsettled := hsettled hcompleted
      dsimp only
      by_cases hne : s.bestSelection = []
      · rw [grinderResult, hne]
        exact fun S hS => (hsettled S hS hsum).found hne
      · refine ((grinderResult_spec hbest hne).weaken fun e he => ?_).mono ?_
        · exact he.imp (sharedAmong_of_subperm hperm.subperm) (hoverflows e)
        · rintro _ ⟨_, rfl, hselects, hflag, hweight, hamount⟩
          refine ⟨_, hselects, hflag.trans hcompleted, fun S hS henough => ?_⟩
          rw [hweight, hamount]
          by_cases hlimit : ∑ k ∈ S, weights pool k ≤ cap
          · exact (hsettled S ⟨hS, henough, hlimit⟩ hsum).order
          · exact .inl (hbest.limit.trans_lt (not_le.mp hlimit))

theorem plain_lightest :
    Ensures (fun e => SelectionResult.SharedAmong (plainPool.flatMap OutputGroup.outputs) e ∨ Overflows plainPool e)
    (GroundOut (Sorter.stable.sort descendingEffvalWeight plainPool) (100000 + 0) 400000)
    (coinGrinder .stable plainPool 100000 0 400000) := by
  refine lightest_selection .stable ⟨by decide, by decide⟩ (by decide) (by decide) (by decide) ?_
  have htries : (grinderSearch (Sorter.stable.sort descendingEffvalWeight plainPool) 100000 0 400000).map
      (fun found => found.all GrinderState.algoCompleted) = .ok true := by decide
  intro s hs
  rw [hs] at htries
  exact Except.ok.inj htries

def wholePool : List OutputGroup :=
  ((OutputGroup.new cheapParams).insert (COutput.new ⟨0, 0⟩ ⟨MAX_MONEY, []⟩ 0 68 true (some 0)) 1 1).toOption.toList

/-- Nothing reaches a target of zero, and all may have just the weight. -/
theorem nothing_and_everything_missed :
    ((coinGrinder .stable plainPool 0 0 400000).map
      (fun r => r.toOption.map fun result => (result.weight, result.algoCompleted)) =
        .ok (some (272, true)) ∧
      ∀ chosen, (chosen.map OutputGroup.weight).sum = 272 →
        ¬ Lightest (Sorter.stable.sort descendingEffvalWeight plainPool) 0 chosen) ∧
    ((coinGrinder .stable wholePool 100000 0 272).map (fun r => r.toOption.isSome) = .ok false ∧
      Completes .stable wholePool 100000 0 272 ∧
        Sufficient (Sorter.stable.sort descendingEffvalWeight wholePool) 100000 272 {0}) := by
  refine ⟨⟨by decide, fun chosen hchosen h => ?_⟩, by decide, ?_, by decide, by decide, by decide⟩
  · have hnothing := h ∅ (empty_subset _) le_rfl
    rw [hchosen, sum_empty, sum_empty] at hnothing
    omega
  · have htries : (grinderSearch (Sorter.stable.sort descendingEffvalWeight wholePool) 100000 0 272).map
        (fun found => found.all GrinderState.algoCompleted) = .ok true := by decide
    intro s hs
    rw [hs] at htries
    exact Except.ok.inj htries

end FullNode.CoinSelection
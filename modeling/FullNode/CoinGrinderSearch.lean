import FullNode.CoinGrinder

/-! # The search of coin grinder -/

namespace FullNode.CoinSelection

open SubsetSearch List OutputGroup
open Mempool (INT64_MAX)

variable {pool : List OutputGroup} {tails : Tails} {target cap : Int} {s s' : GrinderState} {i k n : ℕ}

/-! ## What comes after a place -/

structure Positive (pool : List OutputGroup) : Prop where
  amount : ∀ group ∈ pool, 0 < group.getSelectionAmount
  weight : ∀ group ∈ pool, 0 ≤ group.weight

theorem Positive.amounts_pos (h : Positive pool) (hk : k < pool.length) : 0 < amounts pool k := h.amount _ (nth_mem hk)

theorem Positive.weights_nonneg (h : Positive pool) (hk : k < pool.length) : 0 ≤ weights pool k :=
  h.weight _ (nth_mem hk)

structure TailsOf (pool : List OutputGroup) (tails : Tails) : Prop where
  ahead : ∀ k < pool.length, elementAt tails.lookahead k =
      .ok ((pool.drop (k + 1)).map OutputGroup.getSelectionAmount).sum
  least : ∀ k < pool.length, ∃ minTail, elementAt tails.minTailWeight k = .ok minTail ∧ 0 ≤ minTail ∧
    ∀ group ∈ pool.drop (k + 1), minTail ≤ group.weight
  total : tails.totalAvailable = (pool.map OutputGroup.getSelectionAmount).sum
  minGroup : 0 ≤ tails.minGroupWeight ∧ ∀ group ∈ pool, tails.minGroupWeight ≤ group.weight

theorem tailsOf_spec {part : List OutputGroup} (hpositive : Positive part)
    (hfits : Fits pool → (part.map fun group => |group.getSelectionAmount|).sum ≤ MAX_MONEY) :
    Ensures (Overflows pool) (TailsOf part) (tailsOf part) := by
  induction part with
  | nil => exact ⟨by simp, by simp, rfl, by decide, by simp⟩
  | cons utxo part ih =>
    have hrest : Positive part :=
      ⟨fun g hg => hpositive.amount g (mem_cons_of_mem _ hg), fun g hg => hpositive.weight g (mem_cons_of_mem _ hg)⟩
    have habs := abs_sum_map_le getSelectionAmount (utxo :: part)
    have hpart : Fits pool → (part.map fun group => |group.getSelectionAmount|).sum ≤ MAX_MONEY := by
      intro h
      have := hfits h
      rw [map_cons, sum_cons] at this
      have := abs_nonneg utxo.getSelectionAmount
      omega
    unfold tailsOf
    refine (ih hrest hpart).bind fun tails htails => ?_
    rw [decide_eq_true (hpositive.amount utxo mem_cons_self), check_true, ok_bind, htails.total, add_comm]
    rw [map_cons, sum_cons] at habs
    refine (int64_ensures fun h => habs.trans ((hfits h).trans (by decide))).bind ?_
    rintro _ rfl
    refine ⟨?_, ?_, ?_, ?_⟩
    · rintro (_ | k) hk
      · rfl
      · exact htails.ahead k (Nat.lt_of_succ_lt_succ hk)
    · rintro (_ | k) hk
      · exact ⟨_, rfl, htails.minGroup⟩
      · exact htails.least k (Nat.lt_of_succ_lt_succ hk)
    · rw [map_cons, sum_cons]
    · refine ⟨le_min htails.minGroup.1 (hpositive.weight utxo mem_cons_self), fun group hgroup => ?_⟩
      rcases mem_cons.mp hgroup with rfl | hgroup
      · exact min_le_right _ _
      · exact (min_le_left _ _).trans (htails.minGroup.2 group hgroup)

/-! ## Totals -/

structure BestKept (pool : List OutputGroup) (target cap : Int) (s : GrinderState) : Prop where
  place : Place s.bestSelection pool.length
  amount : s.bestSelection ≠ [] → s.bestSelectionAmount = total (amounts pool) s.bestSelection
  weight : s.bestSelection ≠ [] → s.bestSelectionWeight = total (weights pool) s.bestSelection
  enough : s.bestSelection ≠ [] → target ≤ s.bestSelectionAmount
  limit : s.bestSelectionWeight ≤ cap
  unset : s.bestSelection = [] → s.bestSelectionWeight = cap ∧ s.bestSelectionAmount = MAX_MONEY

structure Grinds (pool : List OutputGroup) (target cap : Int) (s : GrinderState) : Prop where
  place : Place s.currSelection s.nextUtxo
  within : s.nextUtxo ≤ pool.length
  amount : s.currAmount = total (amounts pool) s.currSelection
  weight : s.currWeight = total (weights pool) s.currSelection
  best : BestKept pool target cap s

structure SameBest (s s' : GrinderState) : Prop where
  currTry : s'.currTry = s.currTry
  selection : s'.bestSelection = s.bestSelection
  amount : s'.bestSelectionAmount = s.bestSelectionAmount
  weight : s'.bestSelectionWeight = s.bestSelectionWeight

theorem SameBest.trans {s'' : GrinderState} (h : SameBest s s') (h' : SameBest s' s'') : SameBest s s'' :=
  ⟨h'.currTry.trans h.currTry, h'.selection.trans h.selection, h'.amount.trans h.amount, h'.weight.trans h.weight⟩

theorem selectNext_spec (hs : Grinds pool target cap s) (hnext : s.nextUtxo < pool.length) :
    Ensures (Overflows pool) (fun s' => Grinds pool target cap s' ∧ s'.currSelection = s.nextUtxo :: s.currSelection ∧
      s'.nextUtxo = s.nextUtxo + 1 ∧ s'.currTry = s.currTry + 1 ∧ s'.bestSelection = s.bestSelection ∧
      s'.bestSelectionAmount = s.bestSelectionAmount ∧ s'.bestSelectionWeight = s.bestSelectionWeight)
        (selectNext pool s) := by
  have htake := hs.place.take
  unfold selectNext
  rw [elementAt_nth hnext, ok_bind, hs.amount, hs.weight, add_comm (total _ _), add_comm (total _ _)]
  refine (int64_ensures fun h => (h.abs_total_le htake hnext).trans (by decide)).bind ?_
  rintro _ rfl
  refine (int32Sum_ensures fun h => ⟨h.weight_nonneg htake hnext, h.weight_lt htake hnext⟩).bind ?_
  rintro _ rfl
  have hbest := hs.best
  exact ⟨⟨htake, hnext, rfl, rfl, ⟨hbest.place, hbest.amount, hbest.weight, hbest.enough, hbest.limit,
    hbest.unset⟩⟩, rfl, rfl, rfl, rfl, rfl, rfl⟩

variable {rest : List ℕ} {currAmount : Int} {minTail : Int}

theorem deselectLast_spec {last : ℕ} (hs : Grinds pool target cap s) (hsel : s.currSelection = last :: rest) :
    Ensures (Overflows pool) (fun s' => Grinds pool target cap s' ∧ s'.currSelection = rest ∧
      s'.nextUtxo = s.nextUtxo ∧ SameBest s s') (deselectLast pool s) := by
  have hplace := hs.place
  have hamount := hs.amount
  have hweight := hs.weight
  rw [hsel] at hplace hamount hweight
  rw [total_cons] at hamount hweight
  have hlast := (hplace.below last mem_cons_self).trans_le hs.within
  have hrest : Place rest s.nextUtxo := hplace.pop.mono (hplace.below last mem_cons_self).le
  unfold deselectLast
  rw [hsel]
  dsimp only
  rw [elementAt_nth hlast, ok_bind, hamount, hweight]
  have ha : amounts pool last + total (amounts pool) rest - (nth pool last).getSelectionAmount =
    total (amounts pool) rest := add_sub_cancel_left _ _
  have hw : weights pool last + total (weights pool) rest - (nth pool last).weight = total (weights pool) rest :=
      add_sub_cancel_left _ _
  rw [ha, hw]
  refine (int64_ensures fun h => (h.abs_total_le hrest hs.within).trans (by decide)).bind ?_
  rintro _ rfl
  refine (int32Sum_ensures fun h => ⟨h.weight_nonneg hrest hs.within, h.weight_lt hrest hs.within⟩).bind ?_
  rintro _ rfl
  have hbest := hs.best
  exact ⟨⟨hrest, hs.within, rfl, rfl, ⟨hbest.place, hbest.amount, hbest.weight, hbest.enough, hbest.limit,
    hbest.unset⟩⟩, rfl, rfl, rfl, rfl, rfl, rfl⟩

/-! ## The order of the pool -/

structure Descending (pool : List OutputGroup) : Prop where
  amount : ∀ i j, i < j → j < pool.length → amounts pool j ≤ amounts pool i
  weight : ∀ i j, i < j → j < pool.length → amounts pool j = amounts pool i → weights pool i ≤ weights pool j

theorem descending_of_sorted (h : pool.Pairwise fun a b => descendingEffvalWeight b a = false) : Descending pool := by
  have horder : ∀ i j, i < j → j < pool.length → (amounts pool j = amounts pool i → weights pool i ≤ weights pool j) ∧
      amounts pool j ≤ amounts pool i := by
    intro i j hij hj
    have := nth_sorted h hij hj
    unfold descendingEffvalWeight at this
    split at this
    · next heq => exact ⟨fun _ => not_lt.mp (of_decide_eq_false this), heq.le⟩
    · next hne => exact ⟨fun heq => absurd heq hne, not_lt.mp (of_decide_eq_false this)⟩
  exact ⟨fun i j hij hj => (horder i j hij hj).2, fun i j hij hj => (horder i j hij hj).1⟩

theorem nth_mem_drop (hik : i ≤ k) (hk : k < pool.length) : nth pool k ∈ pool.drop i := by
  have hlt : k - i < (pool.drop i).length := by
    rw [length_drop]
    omega
  have := nth_mem hlt
  rwa [nth_drop, Nat.add_sub_cancel' hik] at this

theorem le_of_mem_drop (h : Descending pool) {group : OutputGroup} (hgroup : group ∈ pool.drop (k + 1)) :
    group.getSelectionAmount ≤ amounts pool k := by
  obtain ⟨j, hj, rfl⟩ := getElem_of_mem hgroup
  rw [length_drop] at hj
  have := h.amount k (k + 1 + j) (by omega) (by omega)
  rwa [amounts, nth_eq (by omega), ← getElem_drop (h := by rw [length_drop]; omega)] at this

/-! ## One evaluation -/

def missingCount (pool : List OutputGroup) (target : Int) (k : ℕ) (currAmount : Int) : Int :=
  (target - currAmount + amounts pool k - 1).tdiv (amounts pool k)

theorem missingCount_nonneg (hpos : 0 < amounts pool k) (hless : currAmount < target) :
    0 ≤ missingCount pool target k currAmount :=
  Int.tdiv_nonneg (by omega) hpos.le

theorem missingCount_le (count : ℕ) (hpos : 0 < amounts pool k) (hless : currAmount < target)
    (hreach : target - currAmount ≤ count * amounts pool k) : missingCount pool target k currAmount ≤ count := by
  rw [missingCount, Int.tdiv_eq_ediv_of_nonneg (by omega), ← Int.lt_add_one_iff, Int.ediv_lt_iff_lt_mul hpos,
    add_mul, one_mul]
  omega

theorem leastWeight_spec (hpositive : Positive pool) (hsorted : Descending pool) (hminTail : 0 ≤ minTail)
    (hleast : ∀ group ∈ pool.drop (k + 1), minTail ≤ group.weight) (hk : k < pool.length)
    (hs : Grinds pool target cap s) (hless : s.currAmount < target)
    (hreach : target ≤ s.currAmount + ((pool.drop (k + 1)).map getSelectionAmount).sum) :
    Ensures (Overflows pool) (· = s.currWeight + minTail * missingCount pool target k s.currAmount)
      (leastWeight target (nth pool k) minTail s) := by
  have hpos := hpositive.amounts_pos hk
  have hall : ((pool.drop (k + 1)).map getSelectionAmount).sum ≤ (pool.drop (k + 1)).length * amounts pool k := by
    have := sum_le_card_nsmul ((pool.drop (k + 1)).map getSelectionAmount) (amounts pool k) (by
      intro a ha
      obtain ⟨group, hgroup, rfl⟩ := mem_map.mp ha
      exact le_of_mem_drop hsorted hgroup)
    rwa [length_map, nsmul_eq_mul] at this
  have hcount := missingCount_le (pool.drop (k + 1)).length hpos hless (by omega)
  have hnonneg := missingCount_nonneg hpos hless
  have htail : minTail * (pool.drop (k + 1)).length ≤ ((pool.drop (k + 1)).map weight).sum := by
    have := card_nsmul_le_sum ((pool.drop (k + 1)).map weight) minTail (by
      intro w hw
      obtain ⟨group, hgroup, rfl⟩ := mem_map.mp hw
      exact hleast group hgroup)
    rwa [length_map, nsmul_eq_mul, mul_comm] at this
  have hbounds : Fits pool → |s.currAmount| ≤ MAX_MONEY ∧ |amounts pool k| ≤ MAX_MONEY ∧
      ((pool.drop (k + 1)).map getSelectionAmount).sum ≤ MAX_MONEY := by
    intro h
    have hone := h.abs_total_le (Place.nil k).take hk
    rw [total_cons, total_nil, add_zero] at hone
    refine ⟨hs.amount ▸ h.abs_total_le hs.place hs.within, hone, ?_⟩
    have hdrop := sum_abs_le_of_subperm (drop_sublist (k + 1) pool).subperm getSelectionAmount
    exact (le_abs_self _).trans ((abs_sum_map_le _ _).trans (hdrop.trans h.amounts))
  have hweights : Fits pool →
      0 ≤ s.currWeight ∧ s.currWeight < 2 ^ 31 ∧ ((pool.drop (k + 1)).map weight).sum < 2 ^ 31 := by
    intro h
    refine ⟨hs.weight ▸ h.weight_nonneg hs.place hs.within, hs.weight ▸ h.weight_lt hs.place hs.within, ?_⟩
    exact (sum_weights_le_of_subperm h.nonneg (drop_sublist (k + 1) pool).subperm).trans_lt h.weights
  have hproduct : minTail * missingCount pool target k s.currAmount ≤ ((pool.drop (k + 1)).map weight).sum :=
    (mul_le_mul_of_nonneg_left hcount hminTail).trans htail
  have hproductNonneg := mul_nonneg hminTail hnonneg
  unfold leastWeight
  refine (int64_ensures fun h => ?_).bind ?_
  · have := (hbounds h).2.2
    exact abs_le.mpr (by simp only [MAX_MONEY, COIN, INT64_MAX] at *; omega)
  rintro _ rfl
  refine (int64_ensures fun h => ?_).bind ?_
  · have := abs_le.mp (hbounds h).2.1
    have := (hbounds h).2.2
    exact abs_le.mpr (by simp only [MAX_MONEY, COIN, INT64_MAX, amounts] at *; omega)
  rintro _ rfl
  refine (int64_ensures fun h => ?_).bind ?_
  · have := abs_le.mp (hbounds h).2.1
    have := (hbounds h).2.2
    exact abs_le.mpr (by simp only [MAX_MONEY, COIN, INT64_MAX, amounts] at *; omega)
  rintro _ rfl
  have hne : ¬ (nth pool k).getSelectionAmount = 0 := fun h => absurd hpos (by rw [amounts, h]; exact lt_irrefl 0)
  rw [if_neg hne]
  refine (int64_ensures fun h => ?_).bind ?_
  · have := (hweights h).2.2
    rw [← amounts, ← missingCount]
    exact abs_le.mpr (by simp only [INT64_MAX] at *; omega)
  rintro _ rfl
  rw [← amounts, ← missingCount]
  refine int64_ensures fun h => ?_
  have := hweights h
  exact abs_le.mpr (by simp only [INT64_MAX] at *; omega)

/-- No lighter group comes after `k`. -/
def NoLighter (pool : List OutputGroup) (k : ℕ) : Prop := ∀ group ∈ pool.drop (k + 1), weights pool k ≤ group.weight

inductive Verdict (pool : List OutputGroup) (target cap : Int) (k : ℕ) (s : GrinderState) :
    Course → GrinderState → Prop where
  | short (h : s.currAmount + ((pool.drop (k + 1)).map OutputGroup.getSelectionAmount).sum < target) :
      Verdict pool target cap k s .cut s
  | heavy {course : Course} (exceeded : Bool) (h : s.bestSelectionWeight < s.currWeight) (hne : course ≠ .explore)
      (hcut : course = .cut → NoLighter pool k) :
      Verdict pool target cap k s course { s with maxTxWeightExceeded := exceeded }
  | better (henough : target ≤ s.currAmount) (h : s.currWeight < s.bestSelectionWeight ∨
      s.currWeight = s.bestSelectionWeight ∧ s.currAmount < s.bestSelectionAmount) :
      Verdict pool target cap k s .shift { s with
        bestSelection := s.currSelection, bestSelectionWeight := s.currWeight, bestSelectionAmount := s.currAmount }
  | tie (henough : target ≤ s.currAmount) (hweight : s.currWeight = s.bestSelectionWeight)
      (h : s.bestSelectionAmount ≤ s.currAmount) : Verdict pool target cap k s .shift s
  | hopeless {course : Course} {minTail : Int} (hbest : s.bestSelection ≠ []) (hless : s.currAmount < target)
      (hminTail : 0 ≤ minTail) (hleast : ∀ group ∈ pool.drop (k + 1), minTail ≤ group.weight)
      (h : s.bestSelectionWeight < s.currWeight + minTail * missingCount pool target k s.currAmount)
        (hne : course ≠ .explore)
      (hcut : course = .cut → weights pool k ≤ minTail) : Verdict pool target cap k s course s
  | openEnd (hless : s.currAmount < target) : Verdict pool target cap k s .explore s

theorem cutOrShift_ne (utxo : OutputGroup) (minTail : Int) : cutOrShift utxo minTail ≠ .explore := by
  unfold cutOrShift
  split <;> simp

theorem cutOrShift_cut {utxo : OutputGroup} (h : cutOrShift utxo minTail = .cut) : utxo.weight ≤ minTail := by
  unfold cutOrShift at h
  split at h
  · assumption
  · cases h

theorem evaluateSelection_spec (hpositive : Positive pool) (hsorted : Descending pool) (htails : TailsOf pool tails)
    (hs : Grinds pool target cap s) (hsel : s.currSelection = k :: rest) (hk : s.nextUtxo = k + 1) :
    Ensures (Overflows pool) (fun r => Verdict pool target cap k s r.1 r.2)
      (evaluateSelection pool tails target cap s) := by
  have hkn : k < pool.length := by have := hs.within; omega
  obtain ⟨_, hminTail, hnonneg, hleast⟩ := htails.least k hkn
  unfold evaluateSelection
  rw [hsel]
  dsimp only
  rw [elementAt_nth hkn, ok_bind, htails.ahead k hkn, ok_bind, hminTail, ok_bind]
  refine (int64_ensures fun h => ?_).bind ?_
  · have hall := abs_le.mp (h.abs_total_le hs.place hs.within)
    have hdrop := sum_abs_le_of_subperm (drop_sublist (k + 1) pool).subperm getSelectionAmount
    have hahead := abs_le.mp ((abs_sum_map_le _ _).trans (hdrop.trans h.amounts))
    rw [← hs.amount] at hall
    exact abs_le.mpr (by simp only [MAX_MONEY, COIN, INT64_MAX] at *; omega)
  rintro _ rfl
  split
  · next hshort => exact .short hshort
  · next hreach =>
    split
    · next hheavy =>
      rw [← hsel]
      exact .heavy _ hheavy (cutOrShift_ne _ _) fun h group hgroup => (cutOrShift_cut h).trans (hleast group hgroup)
    · next hlight =>
      split
      · next henough =>
        split
        · next hbetter =>
          rw [← hsel]
          exact .better henough hbetter
        · next htie => exact .tie henough (by omega) (by omega)
      · next hless =>
        split
        · exact .openEnd (not_le.mp hless)
        · next hbest =>
          refine (leastWeight_spec hpositive hsorted hnonneg hleast hkn hs (not_le.mp hless) (not_lt.mp hreach)).bind ?_
          rintro _ rfl
          split
          · next hhopeless =>
            exact .hopeless (by simpa using hbest) (not_le.mp hless) hnonneg hleast hhopeless
              (cutOrShift_ne _ _) cutOrShift_cut
          · exact .openEnd (not_le.mp hless)

end FullNode.CoinSelection

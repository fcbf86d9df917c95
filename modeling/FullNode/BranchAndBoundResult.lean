import FullNode.BranchAndBound

/-! # What branch and bound returns -/

namespace FullNode.CoinSelection

open SubsetSearch List OutputGroup SelectionResult COutput
open Mempool (int64 INT64_MAX)

variable {params : CoinSelectionParams} {pool pool' chosen groups : List OutputGroup} {target cost cap : Int}

/-! ## Sums over groups and over coins -/

def COutput.selectionAmount (params : CoinSelectionParams) (coin : COutput) : Int :=
  if params.subtractFeeOutputs then coin.txout.nValue else coin.txout.nValue - coin.knownFee

variable {group : OutputGroup} {F : OutputGroup → Int} {f : COutput → Int} {utxos : List OutputGroup}

theorem OutputGroup.SumsUp.amount (h : group.SumsUp params) :
    group.getSelectionAmount = (group.outputs.map (selectionAmount params)).sum := by
  unfold getSelectionAmount selectionAmount
  rw [h.subtract]
  split
  · exact h.value
  · exact h.effectiveValue

theorem sum_map_sub {α : Type} (f g : α → Int) (l : List α) :
    (l.map fun a => f a - g a).sum = (l.map f).sum - (l.map g).sum := by
  induction l with
  | nil => rfl
  | cons a l ih =>
    simp only [map_cons, sum_cons, ih]
    omega

theorem OutputGroup.SumsUp.waste (h : group.SumsUp params) :
    group.wasteOf = (group.outputs.map fun coin => coin.knownFee - coin.longTermFee).sum := by
  rw [wasteOf, h.fee, h.longTermFee, sum_map_sub knownFee COutput.longTermFee]

theorem sum_groups (h : ∀ group ∈ groups, F group = (group.outputs.map f).sum) :
    (groups.map F).sum = ((groups.flatMap outputs).map f).sum := by
  induction groups with
  | nil => rfl
  | cons group groups ih =>
    rw [map_cons, sum_cons, flatMap_cons, map_append, sum_append, h group mem_cons_self,
      ih fun g hg => h g (mem_cons_of_mem _ hg)]

theorem sum_abs_groups_le (h : ∀ group ∈ groups, F group = (group.outputs.map f).sum) :
    (groups.map fun group => |F group|).sum ≤ ((groups.flatMap outputs).map fun coin => |f coin|).sum := by
  induction groups with
  | nil => simp
  | cons group groups ih =>
    rw [map_cons, sum_cons, flatMap_cons, map_append, sum_append, h group mem_cons_self]
    have := abs_sum_map_le f group.outputs
    have := ih fun g hg => h g (mem_cons_of_mem _ hg)
    omega

theorem sum_abs_sub (f g : COutput → Int) (coins : List COutput) :
    (coins.map fun coin => |f coin - g coin|).sum ≤
    (coins.map fun coin => |f coin|).sum + (coins.map fun coin => |g coin|).sum := by
  rw [← sum_map_add]
  exact sum_le_sum fun _ _ => abs_sub _ _

structure CoinsFit (coins : List COutput) : Prop where
  values : (coins.map fun coin => |coin.txout.nValue|).sum ≤ MAX_MONEY
  fees : (coins.map fun coin => |coin.knownFee|).sum ≤ MAX_MONEY
  longTermFees : (coins.map fun coin => |coin.longTermFee|).sum ≤ MAX_MONEY

theorem CoinsFit.subperm {coins coins' : List COutput} (h : CoinsFit coins) (hsub : coins'.Subperm coins) :
    CoinsFit coins' :=
  ⟨(sum_abs_le_of_subperm hsub _).trans h.values, (sum_abs_le_of_subperm hsub _).trans h.fees,
    (sum_abs_le_of_subperm hsub _).trans h.longTermFees⟩

/-! ## The waste of a result -/

structure Counts (params : CoinSelectionParams) (result : SelectionResult) : Prop where
  known : ∀ coin ∈ result.selectedInputs, coin.fee = some coin.knownFee
  fits : CoinsFit result.selectedInputs
  useEffective : result.useEffective = !params.subtractFeeOutputs
  discount : result.bumpFeeGroupDiscount = 0

def SelectionResult.selected (params : CoinSelectionParams) (result : SelectionResult) : Int :=
  (result.selectedInputs.map (COutput.selectionAmount params)).sum

namespace Counts

variable {result : SelectionResult} (h : Counts params result)
include h

theorem sum_abs_effective : (result.selectedInputs.map fun coin => |coin.txout.nValue - coin.knownFee|).sum ≤
    2 * MAX_MONEY := by
  have := sum_abs_sub (·.txout.nValue) knownFee result.selectedInputs
  have := h.fits.values
  have := h.fits.fees
  omega

theorem sum_abs_wastes : (result.selectedInputs.map fun coin => |coin.knownFee - coin.longTermFee|).sum ≤
    2 * MAX_MONEY := by
  have := sum_abs_sub knownFee COutput.longTermFee result.selectedInputs
  have := h.fits.fees
  have := h.fits.longTermFees
  omega

theorem getSelected_ok : result.getSelected = .ok (result.selected params) ∧
    |result.selected params| ≤ 2 * MAX_MONEY := by
  have hfits : 2 * MAX_MONEY ≤ INT64_MAX := by decide
  unfold getSelected selected selectionAmount
  rw [h.useEffective]
  cases params.subtractFeeOutputs with
  | true =>
    have hvalues := h.fits.values
    have hsum := (abs_sum_map_le (fun coin : COutput => coin.txout.nValue) result.selectedInputs).trans hvalues
    refine ⟨?_, hsum.trans (by decide)⟩
    exact accumulate_ok (v := fun coin => coin.txout.nValue) (fun _ _ => rfl) (hvalues.trans (by decide))
  | false =>
    have hvalues := h.sum_abs_effective
    have hsum := (abs_sum_map_le (fun coin : COutput => coin.txout.nValue - coin.knownFee)
        result.selectedInputs).trans hvalues
    refine ⟨?_, hsum⟩
    have hcoin : ∀ coin ∈ result.selectedInputs, coin.getEffectiveValue = .ok (coin.txout.nValue - coin.knownFee) := by
      intro coin hcoin
      rw [getEffectiveValue, COutput.effectiveValue, h.known coin hcoin]
      rfl
    have hall := accumulate_ok (v := fun coin => coin.txout.nValue - coin.knownFee) hcoin (hvalues.trans hfits)
    rw [Bool.not_false, if_pos rfl, getSelectedEffectiveValue, hall, ok_bind, h.discount, add_zero]
    exact int64_of_abs (hsum.trans hfits)

theorem wastes_ok : accumulate (fun coin => do int64 ((← coin.getFee) - coin.longTermFee)) result.selectedInputs =
    .ok (result.selectedInputs.map fun coin => coin.knownFee - coin.longTermFee).sum ∧
    |(result.selectedInputs.map fun coin => coin.knownFee - coin.longTermFee).sum| ≤ 2 * MAX_MONEY := by
  have hfits : 2 * MAX_MONEY ≤ INT64_MAX := by decide
  have hwastes := h.sum_abs_wastes
  refine ⟨accumulate_ok (fun coin hcoin => ?_) (hwastes.trans hfits), (abs_sum_map_le _ _).trans hwastes⟩
  have hone : |coin.knownFee - coin.longTermFee| ≤
      (result.selectedInputs.map fun coin => |coin.knownFee - coin.longTermFee|).sum :=
    single_le_sum (by simp) _ (mem_map_of_mem hcoin)
  rw [getFee, h.known coin hcoin, asserted, ok_bind]
  exact int64_of_abs (hone.trans (hwastes.trans hfits))

theorem recalculateWaste_ok (cost : Int) (hne : result.selectedInputs ≠ []) (htarget : |result.target| ≤ MAX_MONEY)
    (hleast : result.target ≤ result.selected params) (hmost : result.selected params ≤ result.target + cost)
    (hcost : |cost| ≤ MAX_MONEY) : result.recalculateWaste cost cost 0 = .ok { result with
      waste := some ((result.selectedInputs.map fun coin => coin.knownFee - coin.longTermFee).sum +
        (result.selected params - result.target)) } := by
  obtain ⟨hselected, hbound⟩ := h.getSelected_ok
  obtain ⟨hwastes, hwasteBound⟩ := h.wastes_ok
  have hfits : ∀ x : Int, -6 * MAX_MONEY ≤ x → x ≤ 6 * MAX_MONEY → int64 x = .ok x := by
    intro x hmin hmax
    refine int64_of_abs (abs_le.mpr ?_)
    simp only [MAX_MONEY, COIN, INT64_MAX] at *
    omega
  generalize hw : (result.selectedInputs.map fun coin => coin.knownFee - coin.longTermFee).sum = waste at *
  have hbound := abs_le.mp hbound
  have hwasteBound := abs_le.mp hwasteBound
  have htarget := abs_le.mp htarget
  have hcost := abs_le.mp hcost
  obtain ⟨change, hchange, hexact⟩ : ∃ change, result.getChange cost 0 = .ok change ∧
      (change ≠ 0 → cost = result.selected params - result.target) := by
    rw [getChange, hselected, ok_bind, hfits _ (by omega) (by omega), ok_bind, sub_zero,
      hfits _ (by omega) (by omega), ite_self]
    refine ⟨_, rfl, ?_⟩
    split
    · exact fun h => absurd rfl h
    · omega
  have hempty : result.selectedInputs.isEmpty = false := by simpa using hne
  simp only [recalculateWaste, hempty, Bool.not_false, check_true, ok_bind, hwastes, h.discount, sub_zero,
    hfits waste (by omega) (by omega), hchange, hselected,
      hfits (result.selected params - result.target) (by omega) (by omega)]
  have hsum : int64 (waste + (result.selected params - result.target)) =
    .ok (waste + (result.selected params - result.target)) := hfits _ (by omega) (by omega)
  split
  · next hne =>
    rw [hexact hne, hsum]
    rfl
  · rw [decide_eq_true hleast, check_true, ok_bind, hsum]
    rfl

end Counts

/-! ## What is returned -/

variable {s : BnbState}

theorem foldl_useEffective {useEffective : Bool} (hne : groups ≠ [])
    (h : ∀ group ∈ groups, group.subtractFeeOutputs = params.subtractFeeOutputs) :
    groups.foldl (fun _ group => !group.subtractFeeOutputs) useEffective = !params.subtractFeeOutputs := by
  induction groups generalizing useEffective with
  | nil => exact absurd rfl hne
  | cons group groups ih =>
    rw [foldl_cons]
    cases groups with
    | nil => rw [foldl_nil, h group mem_cons_self]
    | cons next rest => exact ih (by simp) fun g hg => h g (mem_cons_of_mem _ hg)

theorem counts_added (target : Int) (hmade : ∀ group ∈ groups, group.SumsUp params) (hne : groups ≠ [])
    (hfits : CoinsFit (groups.flatMap outputs)) :
    Counts params ({ target := target, algo := .bnb : SelectionResult }.added groups) where
  known coin hcoin := by
    obtain ⟨group, hgroup, hcoin⟩ := mem_flatMap.mp hcoin
    exact (hmade group hgroup).known coin hcoin
  fits := hfits
  useEffective := foldl_useEffective hne fun group hgroup => (hmade group hgroup).subtract
  discount := rfl

theorem bnbResult_spec (h : Searchable pool target cost) (hmade : ∀ group ∈ pool, group.SumsUp params)
    (hcoins : CoinsFit (pool.flatMap outputs))
    (hbest : Recorded pool target cost cap s.bestSelection s.bestWaste) (hne : s.bestSelection ≠ []) :
    Ensures (SelectionResult.SharedAmong (pool.flatMap outputs)) (fun r => ∃ result, r = .ok result ∧
      Selects pool cap target (groupsAt pool s.bestSelection.reverse) result ∧
      ((groupsAt pool s.bestSelection.reverse).map getSelectionAmount).sum ≤ target + cost ∧
      result.waste = some s.bestWaste) (bnbResult pool target cost s) := by
  generalize hgroups : groupsAt pool s.bestSelection.reverse = groups
  obtain ⟨hsub, htotal, hin⟩ := groupsAt_reverse hbest.place
  rw [hgroups] at hsub htotal
  have hempty : s.bestSelection.isEmpty = false := by simpa using hne
  have hgroupsNe : groups ≠ [] := by
    rw [← hgroups]
    simpa [groupsAt] using hne
  have hparts : ∀ group ∈ groups, group.SumsUp params := fun group hgroup => hmade group (hsub.subset hgroup)
  have hamount := (sum_groups fun group hgroup => (hparts group hgroup).amount).symm.trans (htotal getSelectionAmount)
  have hwaste := (sum_groups fun group hgroup => (hparts group hgroup).waste).symm.trans (htotal wasteOf)
  unfold bnbResult
  rw [if_neg (by rw [hempty]; simp), addInputs_eq hin, hgroups]
  refine ((addGroups_spec hsub rfl rfl).weaken fun e he => he.resolve_right fun hover => hover.2 h.fits).bind ?_
  rintro _ rfl
  have hcounts := counts_added target hparts hgroupsNe (hcoins.subperm (flatMap_subperm hsub))
  have hinputs : groups.flatMap outputs ≠ [] := by
    intro hnil
    obtain ⟨group, hgroup⟩ := exists_mem_of_ne_nil _ hgroupsNe
    have hpos := h.positive group (hsub.subset hgroup)
    rw [(hparts group hgroup).amount, flatMap_eq_nil_iff.mp hnil group hgroup] at hpos
    exact absurd hpos (lt_irrefl 0)
  have hleast := hbest.least
  have hmost := hbest.most
  have hrecalculated := hcounts.recalculateWaste_ok cost hinputs h.target
    (hleast.trans_eq hamount.symm) (hamount.trans_le hmost) h.cost
  have hkept : ((groups.flatMap outputs).map fun coin => coin.knownFee - coin.longTermFee).sum +
      (((groups.flatMap outputs).map (selectionAmount params)).sum - target) = s.bestWaste := by
    rw [hwaste, hamount, hbest.waste]
    rfl
  rw [hrecalculated]
  simp only [ok_bind, getWaste, asserted]
  refine (check_ensures hkept.symm).bind ?_
  · rintro ⟨⟩ _
    have hselects := selects_added { target := target, algo := .bnb } hsub rfl rfl
      ((htotal weight).trans_le hbest.weight) (hleast.trans_eq (htotal getSelectionAmount).symm)
    refine ⟨_, rfl, ⟨hselects.distinct, hselects.inputs, hselects.weight, hselects.limit, hselects.enough⟩, ?_,
      congrArg some hkept⟩
    exact (htotal getSelectionAmount).trans_le hmost

/-! ## From the pool to the result -/

theorem availableValue_ok (hpositive : ∀ group ∈ utxos, 0 < group.getSelectionAmount)
    (hfits : (utxos.map fun group => |group.getSelectionAmount|).sum ≤ MAX_MONEY) :
    availableValue utxos = .ok (utxos.map getSelectionAmount).sum := by
  suffices h : ∀ available : Int, |available| + (utxos.map fun group => |group.getSelectionAmount|).sum ≤ MAX_MONEY →
      utxos.foldlM (fun available utxo => do
        check (utxo.getSelectionAmount > 0)
        int64 (available + utxo.getSelectionAmount)) available = .ok (available + (utxos.map getSelectionAmount).sum) by
    rw [availableValue, h 0 (by rw [abs_zero, zero_add]; exact hfits), zero_add]
  clear hfits
  induction utxos with
  | nil =>
    intro available _
    rw [map_nil, sum_nil, add_zero]
    rfl
  | cons group utxos ih =>
    intro available hsum
    rw [map_cons, sum_cons] at hsum
    have habs := abs_add_le available group.getSelectionAmount
    have hrest : 0 ≤ (utxos.map fun group => |group.getSelectionAmount|).sum := sum_nonneg (by simp)
    have hmax : MAX_MONEY ≤ INT64_MAX := by decide
    rw [foldlM_cons, decide_eq_true (hpositive group mem_cons_self), check_true, ok_bind,
      int64_of_abs (by omega), ok_bind,
      ih (fun g hg => hpositive g (mem_cons_of_mem _ hg)) _ (by omega), map_cons, sum_cons, add_assoc]

/-- Positive groups of one set of parameters, and fitting amounts. -/
structure Payable (params : CoinSelectionParams) (utxos : List OutputGroup) (target cost : Int) : Prop where
  made : ∀ group ∈ utxos, group.Made params
  positive : ∀ group ∈ utxos, 0 < group.getSelectionAmount
  fits : Fits utxos
  coins : CoinsFit (utxos.flatMap OutputGroup.outputs)
  target : |target| ≤ MAX_MONEY
  cost : |cost| ≤ MAX_MONEY

theorem tracks_start (hperm : pool.Perm utxos) : Tracks pool target cost cap
    { currAvailableValue := (utxos.map getSelectionAmount).sum } where
  place := .nil 0
  within := Nat.zero_le _
  value := rfl
  weight := rfl
  waste := rfl
  available := by
    rw [← Finset.range_eq_Ico, ← (hperm.map getSelectionAmount).sum_eq]
    exact (sum_nth getSelectionAmount pool).symm
  best hne := absurd rfl hne
  bestWaste := (by decide : |MAX_MONEY| ≤ 4 * MAX_MONEY)

namespace Payable

variable {utxos : List OutputGroup} (h : Payable params utxos target cost)
include h

theorem perm (hperm : pool.Perm utxos) : Payable params pool target cost where
  made group hgroup := h.made group (hperm.mem_iff.mp hgroup)
  positive group hgroup := h.positive group (hperm.mem_iff.mp hgroup)
  fits := h.fits.perm hperm
  coins := h.coins.subperm (flatMap_subperm hperm.subperm)
  target := h.target
  cost := h.cost

theorem searchable : Searchable utxos target cost where
  fits := h.fits
  positive := h.positive
  fees := (sum_abs_groups_le fun group hgroup => (h.made group hgroup).sumsUp.fee).trans h.coins.fees
  longTermFees := (sum_abs_groups_le fun group hgroup => (h.made group hgroup).sumsUp.longTermFee).trans
    h.coins.longTermFees
  target := h.target
  cost := h.cost

/-- The funds fall short, or the search ends with what moves keep. -/
theorem selectCoinsBnB_rule (sorter : Sorter OutputGroup) (cap : Int) (hne : 0 < target ∨ utxos ≠ [])
    {P Q : BnbState → Prop} (hstart : ∀ available, P { currAvailableValue := available })
    (hmove : ∀ s s', Tracks (sorter.sort descending utxos) target cost cap s →
      Moves (sorter.sort descending utxos) target cost cap
        ((nth (sorter.sort descending utxos) 0).fee > (nth (sorter.sort descending utxos) 0).longTermFee) s s' →
          P s → P s')
    (hdone : ∀ s s', Tracks (sorter.sort descending utxos) target cost cap s → s.currSelection = [] →
      Leaves target cost cap
        ((nth (sorter.sort descending utxos) 0).fee > (nth (sorter.sort descending utxos) 0).longTermFee) s s' →
          P s → Q s') :
    (utxos.map getSelectionAmount).sum < target ∧
      selectCoinsBnB sorter utxos target cost cap = .ok (.error "") ∨
    ∃ s, bnbSearch (sorter.sort descending utxos) target cost cap
        (utxos.map getSelectionAmount).sum = .ok s ∧
      selectCoinsBnB sorter utxos target cost cap =
        bnbResult (sorter.sort descending utxos) target cost s ∧
      Tracks (sorter.sort descending utxos) target cost cap s ∧ (s.currTry < TOTAL_TRIES → Q s) := by
  have hperm := sorter.perm descending descending_strictWeak utxos
  have havailable := availableValue_ok h.positive h.fits.amounts
  by_cases hless : (utxos.map getSelectionAmount).sum < target
  · refine .inl ⟨hless, ?_⟩
    rw [selectCoinsBnB, havailable, ok_bind, if_pos hless]
    rfl
  · have hpos : 0 < (sorter.sort descending utxos).length := by
      rw [hperm.length_eq, length_pos_iff]
      rcases hne with hne | hne
      · rintro rfl
        exact hless hne
      · exact hne
    obtain ⟨s, hloop, htracks, hQ⟩ :=
        (h.perm hperm).searchable.search_rule hmove hdone (tracks_start hperm) rfl (hstart _)
    have hsearch : bnbSearch (sorter.sort descending utxos) target cost cap
        (utxos.map getSelectionAmount).sum = .ok s := by
      rw [bnbSearch, utxoAt_ok hpos, ok_bind]
      exact hloop
    refine .inr ⟨s, hsearch, ?_, htracks, hQ⟩
    unfold selectCoinsBnB
    rw [havailable, ok_bind, if_neg hless]
    dsimp only
    rw [hsearch, ok_bind]

end Payable

end FullNode.CoinSelection

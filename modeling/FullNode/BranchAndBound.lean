import FullNode.SelectionPool

/-!
# Branch and bound

The stack of the search is a list with the place that was taken last in front.
-/

namespace FullNode.CoinSelection

open SubsetSearch Finset
open Mempool (int64 int32Sum INT64_MAX)

def TOTAL_TRIES : ℕ := 100000

structure BnbState where
  currTry : ℕ := 0
  utxoPoolIndex : ℕ := 0
  currValue : Int := 0
  currSelection : List ℕ := []
  currSelectionWeight : Int := 0
  currAvailableValue : Int
  currWaste : Int := 0
  bestSelection : List ℕ := []
  bestWaste : Int := MAX_MONEY
  maxTxWeightExceeded : Bool := false
  deriving DecidableEq

section

variable (pool : List OutputGroup) (selectionTarget costOfChange maxSelectionWeight : Int) (isFeerateHigh : Bool)

def evaluate (s : BnbState) : Checked (Bool × BnbState) := do
  let reachable ← int64 (s.currValue + s.currAvailableValue)
  if reachable < selectionTarget then return (true, s)
  else do
    let most ← int64 (selectionTarget + costOfChange)
    if s.currValue > most then return (true, s)
    else if s.currWaste > s.bestWaste ∧ isFeerateHigh then return (true, s)
    else if s.currSelectionWeight > maxSelectionWeight then return (true, { s with maxTxWeightExceeded := true })
    else if s.currValue ≥ selectionTarget then do
      let excess ← int64 (s.currValue - selectionTarget)
      let waste ← int64 (s.currWaste + excess)
      let currWaste ← int64 (waste - excess)
      if waste ≤ s.bestWaste then
        return (true, { s with currWaste := currWaste, bestSelection := s.currSelection, bestWaste := waste })
      else return (true, { s with currWaste := currWaste })
    else return (false, s)

/-- The places above `back` come back to what is available. -/
def restoreAvailable (back : ℕ) : ℕ → Int → Checked (ℕ × Int)
  | 0, available => .ok (0, available)
  | index + 1, available =>
    if index + 1 > back then do
      let utxo ← utxoAt pool (index + 1)
      let available ← int64 (available + utxo.getSelectionAmount)
      restoreAvailable back index available
    else .ok (index + 1, available)

/-- `back` was included. Try to leave it out now. -/
def goBack (back : ℕ) (rest : List ℕ) (s : BnbState) : Checked BnbState := do
  let restored ← restoreAvailable pool back (s.utxoPoolIndex - 1) s.currAvailableValue
  check (restored.1 = back)
  let utxo ← utxoAt pool restored.1
  let currValue ← int64 (s.currValue - utxo.getSelectionAmount)
  let waste ← int64 (utxo.fee - utxo.longTermFee)
  let currWaste ← int64 (s.currWaste - waste)
  let currSelectionWeight ← int32Sum (s.currSelectionWeight - utxo.weight)
  return { s with
    currTry := s.currTry + 1
    utxoPoolIndex := restored.1 + 1
    currAvailableValue := restored.2
    currValue := currValue
    currWaste := currWaste
    currSelectionWeight := currSelectionWeight
    currSelection := rest }

/-- Not a group like the one before it when that one is left out. -/
def worthIncluding (utxo : OutputGroup) (s : BnbState) : Checked Bool :=
  match s.currSelection with
  | [] => .ok true
  | last :: _ =>
    if s.utxoPoolIndex - 1 = last then .ok true
    else do
      let previous ← utxoAt pool (s.utxoPoolIndex - 1)
      return utxo.getSelectionAmount ≠ previous.getSelectionAmount ∨ utxo.fee ≠ previous.fee

def goForward (s : BnbState) : Checked BnbState := do
  let utxo ← utxoAt pool s.utxoPoolIndex
  let currAvailableValue ← int64 (s.currAvailableValue - utxo.getSelectionAmount)
  let included ← worthIncluding pool utxo s
  if included then do
    let currValue ← int64 (s.currValue + utxo.getSelectionAmount)
    let waste ← int64 (utxo.fee - utxo.longTermFee)
    let currWaste ← int64 (s.currWaste + waste)
    let currSelectionWeight ← int32Sum (s.currSelectionWeight + utxo.weight)
    return { s with
      currTry := s.currTry + 1
      utxoPoolIndex := s.utxoPoolIndex + 1
      currAvailableValue := currAvailableValue
      currValue := currValue
      currWaste := currWaste
      currSelectionWeight := currSelectionWeight
      currSelection := s.utxoPoolIndex :: s.currSelection }
  else
    return { s with
      currTry := s.currTry + 1
      utxoPoolIndex := s.utxoPoolIndex + 1
      currAvailableValue := currAvailableValue }

/-- One round of the search, to the end when nothing is left. -/
def bnbStep (s : BnbState) : Checked (Next BnbState) := do
  if s.currTry ≥ TOTAL_TRIES then return .done s
  else do
    let evaluated ← evaluate selectionTarget costOfChange maxSelectionWeight isFeerateHigh s
    if evaluated.1 then
      match evaluated.2.currSelection with
      | [] => return .done evaluated.2
      | back :: rest => return .again (← goBack pool back rest evaluated.2)
    else return .again (← goForward pool evaluated.2)

end

def availableValue (utxoPool : List OutputGroup) : Checked Int :=
  utxoPool.foldlM (fun available utxo => do
    check (utxo.getSelectionAmount > 0)
    int64 (available + utxo.getSelectionAmount)) 0

/-- The search of the sorted pool, if the funds suffice. -/
def bnbSearch (pool : List OutputGroup) (selectionTarget costOfChange maxSelectionWeight : Int) (available : Int) :
    Checked BnbState := do
  let first ← utxoAt pool 0
  loop (bnbStep pool selectionTarget costOfChange maxSelectionWeight (first.fee > first.longTermFee)) (TOTAL_TRIES + 1)
    { currAvailableValue := available }

def bnbResult (pool : List OutputGroup) (selectionTarget costOfChange : Int)
    (s : BnbState) : Checked (Result SelectionResult) := do
  if s.bestSelection.isEmpty then return .error (if s.maxTxWeightExceeded then errorMaxWeightExceeded else "")
  else do
    let result ← { target := selectionTarget, algo := .bnb : SelectionResult }.addInputs pool s.bestSelection.reverse
    let result ← result.recalculateWaste costOfChange costOfChange 0
    let waste ← result.getWaste
    check (s.bestWaste = waste)
    return .ok result

def selectCoinsBnB (sorter : Sorter OutputGroup) (utxoPool : List OutputGroup)
    (selectionTarget costOfChange maxSelectionWeight : Int) : Checked (Result SelectionResult) := do
  let available ← availableValue utxoPool
  if available < selectionTarget then return .error ""
  else do
    let pool := sorter.sort descending utxoPool
    let s ← bnbSearch pool selectionTarget costOfChange maxSelectionWeight available
    bnbResult pool selectionTarget costOfChange s

/-! ## The totals of the search -/

structure Searchable (pool : List OutputGroup) (target cost : Int) : Prop where
  fits : Fits pool
  positive : ∀ group ∈ pool, 0 < group.getSelectionAmount
  fees : (pool.map fun group => |group.fee|).sum ≤ MAX_MONEY
  longTermFees : (pool.map fun group => |group.longTermFee|).sum ≤ MAX_MONEY
  target : |target| ≤ MAX_MONEY
  cost : |cost| ≤ MAX_MONEY

variable {pool : List OutputGroup} {target cost cap : Int} {high : Bool} {s s' : BnbState}

structure Recorded (pool : List OutputGroup) (target cost cap : Int) (sel : List ℕ) (waste : Int) : Prop where
  place : Place sel pool.length
  least : target ≤ total (amounts pool) sel
  most : total (amounts pool) sel ≤ target + cost
  weight : total (weights pool) sel ≤ cap
  waste : waste = total (wastes pool) sel + (total (amounts pool) sel - target)

/-- The running totals are those of the stack and of the rest. -/
structure Tracks (pool : List OutputGroup) (target cost cap : Int) (s : BnbState) : Prop where
  place : Place s.currSelection s.utxoPoolIndex
  within : s.utxoPoolIndex ≤ pool.length
  value : s.currValue = total (amounts pool) s.currSelection
  weight : s.currSelectionWeight = total (weights pool) s.currSelection
  waste : s.currWaste = total (wastes pool) s.currSelection
  available : s.currAvailableValue = ∑ k ∈ Finset.Ico s.utxoPoolIndex pool.length, amounts pool k
  best : s.bestSelection ≠ [] → Recorded pool target cost cap s.bestSelection s.bestWaste
  bestWaste : |s.bestWaste| ≤ 4 * MAX_MONEY

/-- Why the search goes back, and what it keeps when it does. -/
inductive Leaves (target cost cap : Int) (high : Bool) (s : BnbState) : BnbState → Prop where
  | short (h : s.currValue + s.currAvailableValue < target) : Leaves target cost cap high s s
  | beyond (h : target + cost < s.currValue) : Leaves target cost cap high s s
  | wasteful (h : s.bestWaste < s.currWaste) (hhigh : high = true) :
      Leaves target cost cap high s s
  | heavy (h : cap < s.currSelectionWeight) :
      Leaves target cost cap high s { s with maxTxWeightExceeded := true }
  | better (hleast : target ≤ s.currValue) (hmost : s.currValue ≤ target + cost)
      (hweight : s.currSelectionWeight ≤ cap) (h : s.currWaste + (s.currValue - target) ≤ s.bestWaste) :
      Leaves target cost cap high s
        { s with bestSelection := s.currSelection, bestWaste := s.currWaste + (s.currValue - target) }
  | worse (hleast : target ≤ s.currValue) (h : s.bestWaste < s.currWaste + (s.currValue - target)) :
      Leaves target cost cap high s s

/-- The group after `p` has the amount and the fee of the one at `p`. -/
structure SameAmountAndFee (pool : List OutputGroup) (p : ℕ) : Prop where
  amount : amounts pool (p + 1) = amounts pool p
  fee : (nth pool (p + 1)).fee = (nth pool p).fee

structure Resumes (i : ℕ) (sel : List ℕ) (s s' : BnbState) : Prop where
  currTry : s'.currTry = s.currTry + 1
  index : s'.utxoPoolIndex = i
  selection : s'.currSelection = sel
  bestSelection : s'.bestSelection = s.bestSelection
  bestWaste : s'.bestWaste = s.bestWaste

inductive Moves (pool : List OutputGroup) (target cost cap : Int) (high : Bool) (s : BnbState) :
    BnbState → Prop where
  | back {left s' : BnbState} {back : ℕ} {rest : List ℕ}
      (hleaves : Leaves target cost cap high s left)
      (hsel : s.currSelection = back :: rest) (hresumes : Resumes (back + 1) rest left s') :
      Moves pool target cost cap high s s'
  | take {s' : BnbState} (hless : s.currValue < target)
      (hresumes : Resumes (s.utxoPoolIndex + 1) (s.utxoPoolIndex :: s.currSelection) s s') :
      Moves pool target cost cap high s s'
  | skip {s' : BnbState} {p : ℕ} (hne : s.currSelection ≠ []) (hp : s.utxoPoolIndex = p + 1)
      (hout : p ∉ s.currSelection) (hsame : SameAmountAndFee pool p)
      (hresumes : Resumes (s.utxoPoolIndex + 1) s.currSelection s s') :
      Moves pool target cost cap high s s'

theorem Leaves.kept (h : Leaves target cost cap high s s') :
    s'.currSelection = s.currSelection ∧ s'.currTry = s.currTry := by
  cases h <;> exact ⟨rfl, rfl⟩

theorem Moves.currTry (h : Moves pool target cost cap high s s') : s'.currTry = s.currTry + 1 := by
  cases h with
  | back hleaves _ hresumes => rw [hresumes.currTry, hleaves.kept.2]
  | take _ hresumes | skip _ _ _ _ hresumes => exact hresumes.currTry

namespace Searchable

variable (h : Searchable pool target cost)
include h

variable {k : ℕ}

theorem amounts_pos (hk : k < pool.length) : 0 < amounts pool k := h.positive _ (nth_mem hk)

theorem weights_nonneg (hk : k < pool.length) : 0 ≤ weights pool k := h.fits.nonneg _ (nth_mem hk)

theorem sum_abs_wastes : ∑ k ∈ Finset.range pool.length, |wastes pool k| ≤ 2 * MAX_MONEY := by
  have hfees := sum_nth (fun g => |g.fee|) pool
  have hlong := sum_nth (fun g => |g.longTermFee|) pool
  have := h.fees
  have := h.longTermFees
  calc ∑ k ∈ range pool.length, |wastes pool k|
      ≤ ∑ k ∈ range pool.length, (|(nth pool k).fee| + |(nth pool k).longTermFee|) :=
        sum_le_sum fun _ _ => abs_sub _ _
    _ = (pool.map fun g => |g.fee|).sum + (pool.map fun g => |g.longTermFee|).sum := by
        rw [sum_add_distrib, hfees, hlong]
    _ ≤ 2 * MAX_MONEY := by omega

theorem abs_fee_sub_le (hk : k < pool.length) : |(nth pool k).fee - (nth pool k).longTermFee| ≤ 2 * MAX_MONEY :=
  (single_le_sum (f := fun k => |wastes pool k|) (fun _ _ => abs_nonneg _) (mem_range.mpr hk)).trans h.sum_abs_wastes

theorem available_nonneg (i : ℕ) : 0 ≤ ∑ k ∈ Finset.Ico i pool.length, amounts pool k :=
  sum_nonneg fun _ hk => (h.amounts_pos (mem_Ico.mp hk).2).le

theorem available_le (i : ℕ) : ∑ k ∈ Finset.Ico i pool.length, amounts pool k ≤ MAX_MONEY := by
  have hsub : Finset.Ico i pool.length ⊆ range pool.length := by
    intro k hk
    exact mem_range.mpr (mem_Ico.mp hk).2
  refine (le_abs_self _).trans ((abs_sum_le hsub).trans ?_)
  exact (sum_nth (fun g => |g.getSelectionAmount|) pool).trans_le h.fits.amounts

theorem abs_waste_le {sel : List ℕ} {i : ℕ} (hsel : Place sel i) (hi : i ≤ pool.length) :
    |total (wastes pool) sel| ≤ 2 * MAX_MONEY :=
  (hsel.abs_total_le hi _).trans h.sum_abs_wastes

/-! ## One round -/

theorem evaluate_spec (high : Bool) (hs : Tracks pool target cost cap s) :
    (∃ s', evaluate target cost cap high s = .ok (true, s') ∧
      Leaves target cost cap high s s') ∨
    evaluate target cost cap high s = .ok (false, s) ∧
      s.currValue < target ∧ target ≤ s.currValue + s.currAvailableValue := by
  have hvalue := abs_le.mp (h.fits.abs_total_le hs.place hs.within)
  have hwaste := abs_le.mp (h.abs_waste_le hs.place hs.within)
  have hnonneg := h.available_nonneg s.utxoPoolIndex
  have hle := h.available_le s.utxoPoolIndex
  have htarget := abs_le.mp h.target
  have hcost := abs_le.mp h.cost
  rw [← hs.value] at hvalue
  rw [← hs.waste] at hwaste
  rw [← hs.available] at hnonneg hle
  have hfits : ∀ x : Int, -5 * MAX_MONEY ≤ x → x ≤ 5 * MAX_MONEY → int64 x = .ok x := by
    intro x hmin hmax
    refine int64_of_abs (abs_le.mpr ?_)
    simp only [MAX_MONEY, COIN, INT64_MAX] at *
    omega
  unfold evaluate
  rw [hfits (s.currValue + s.currAvailableValue) (by omega) (by omega), ok_bind]
  split
  · next hshort => exact .inl ⟨_, rfl, .short hshort⟩
  · next hreach =>
    rw [hfits (target + cost) (by omega) (by omega), ok_bind]
    split
    · next hbeyond => exact .inl ⟨_, rfl, .beyond hbeyond⟩
    · next hin =>
      split
      · next hwasteful => exact .inl ⟨_, rfl, .wasteful hwasteful.1 hwasteful.2⟩
      · split
        · next hheavy => exact .inl ⟨_, rfl, .heavy hheavy⟩
        · next hlight =>
          split
          · next henough =>
            rw [hfits (s.currValue - target) (by omega) (by omega), ok_bind,
              hfits (s.currWaste + (s.currValue - target)) (by omega) (by omega), ok_bind]
            have hback : s.currWaste + (s.currValue - target) - (s.currValue - target) = s.currWaste := by omega
            rw [hback, hfits s.currWaste (by omega) (by omega), ok_bind]
            split
            · next hbetter => exact .inl ⟨_, rfl, .better henough (by omega) (by omega) hbetter⟩
            · next hworse => exact .inl ⟨_, rfl, .worse henough (by omega)⟩
          · next hless => exact .inr ⟨rfl, by omega, by omega⟩

theorem restoreAvailable_ok (back index : ℕ) {available : Int} (hback : back ≤ index) (hindex : index < pool.length)
    (hnonneg : 0 ≤ available) (hfits : available ≤ MAX_MONEY) :
    restoreAvailable pool back index available = .ok (back, available +
      ∑ k ∈ Finset.Ico (back + 1) (index + 1), amounts pool k) := by
  suffices hgeneral : ∀ start, 0 ≤ start → start +
      ∑ k ∈ Finset.Ico (back + 1) (index + 1), amounts pool k ≤ 2 * MAX_MONEY →
      restoreAvailable pool back index start = .ok (back, start +
        ∑ k ∈ Finset.Ico (back + 1) (index + 1), amounts pool k) by
    apply hgeneral available hnonneg
    have hsub : Finset.Ico (back + 1) (index + 1) ⊆ Finset.Ico 0 pool.length := by
      intro k hk
      have := mem_Ico.mp hk
      exact mem_Ico.mpr (by omega)
    have hle := sum_le_sum_of_subset_of_nonneg hsub fun k hk _ => (h.amounts_pos (mem_Ico.mp hk).2).le
    have := h.available_le 0
    omega
  induction index with
  | zero =>
    obtain rfl : back = 0 := by omega
    intro start _ _
    rw [restoreAvailable, Ico_self, sum_empty, add_zero]
  | succ index ih =>
    intro start hstart hsum
    unfold restoreAvailable
    split
    · next hgt =>
      have hpos := h.amounts_pos hindex
      rw [sum_Ico_succ_top (by omega)] at hsum ⊢
      have hnonneg : 0 ≤ ∑ k ∈ Finset.Ico (back + 1) (index + 1), amounts pool k :=
        sum_nonneg fun k hk => (h.amounts_pos (by have := mem_Ico.mp hk; omega)).le
      have hadd : int64 (start + (nth pool (index + 1)).getSelectionAmount) =
          .ok (start + amounts pool (index + 1)) := by
        refine int64_of_abs (abs_le.mpr ?_)
        simp only [MAX_MONEY, COIN, INT64_MAX, amounts] at *
        omega
      rw [utxoAt_ok hindex, ok_bind, hadd, ok_bind, ih (by omega) (by omega) (start + amounts pool (index + 1))
        (by omega) (by omega)]
      congr 2
      omega
    · next hle =>
      obtain rfl : back = index + 1 := by omega
      rw [Ico_self, sum_empty, add_zero]

theorem goBack_spec {back : ℕ} {rest : List ℕ} (hs : Tracks pool target cost cap s)
    (hsel : s.currSelection = back :: rest) :
    ∃ s', goBack pool back rest s = .ok s' ∧ Tracks pool target cost cap s' ∧ Resumes (back + 1) rest s s' := by
  have hplace := hs.place
  have hvalue := hs.value
  have hwaste := hs.waste
  have hweight := hs.weight
  rw [hsel] at hplace hvalue hwaste hweight
  rw [total_cons] at hvalue hwaste hweight
  have hlt := hplace.below back List.mem_cons_self
  have hback : back < pool.length := hlt.trans_le hs.within
  have hrest := hplace.pop
  have hvalueFits := abs_le.mp (h.fits.abs_total_le hrest hback.le)
  have hwasteFits := abs_le.mp (h.abs_waste_le hrest hback.le)
  have hnonneg := h.fits.weight_nonneg hrest hback.le
  have hfits := h.fits.weight_lt hrest hback.le
  have hrestored := h.restoreAvailable_ok back (s.utxoPoolIndex - 1) (by omega) (by have := hs.within; omega)
    (h.available_nonneg s.utxoPoolIndex) (h.available_le s.utxoPoolIndex)
  have hindex : s.utxoPoolIndex - 1 + 1 = s.utxoPoolIndex := by omega
  rw [← hs.available, hindex] at hrestored
  have hv : int64 (s.currValue - (nth pool back).getSelectionAmount) = .ok (total (amounts pool) rest) := by
    rw [hvalue, amounts, add_sub_cancel_left]
    exact int64_of_abs (abs_le.mpr (by simp only [MAX_MONEY, COIN, INT64_MAX] at *; omega))
  have hd : int64 ((nth pool back).fee - (nth pool back).longTermFee) = .ok (wastes pool back) :=
    int64_of_abs ((h.abs_fee_sub_le hback).trans (by decide))
  have hw : int64 (s.currWaste - wastes pool back) = .ok (total (wastes pool) rest) := by
    rw [hwaste, add_sub_cancel_left]
    exact int64_of_abs (abs_le.mpr (by simp only [MAX_MONEY, COIN, INT64_MAX] at *; omega))
  have hg : int32Sum (s.currSelectionWeight - (nth pool back).weight) = .ok (total (weights pool) rest) := by
    rw [hweight, weights, add_sub_cancel_left]
    exact int32Sum_of_nonneg hnonneg hfits
  unfold goBack
  simp only [hrestored, ok_bind, decide_true, check_true, utxoAt_ok hback, hv, hd, hw, hg]
  refine ⟨_, rfl, ⟨hplace.pop.mono (Nat.le_succ _), hback, rfl, rfl, rfl, ?_, hs.best, hs.bestWaste⟩, rfl, rfl,
    rfl, rfl, rfl⟩
  dsimp only
  rw [hs.available, add_comm]
  exact sum_Ico_consecutive _ hlt hs.within

omit h in
/-- Only a group like one left out just before is not worth it. -/
theorem worthIncluding_spec (hplace : Place s.currSelection s.utxoPoolIndex) (hi : s.utxoPoolIndex < pool.length) :
    ∃ included, worthIncluding pool (nth pool s.utxoPoolIndex) s = .ok included ∧
      (included = false → s.currSelection ≠ [] ∧
        ∃ p, s.utxoPoolIndex = p + 1 ∧ p ∉ s.currSelection ∧ SameAmountAndFee pool p) := by
  unfold worthIncluding
  split
  · exact ⟨true, rfl, by simp⟩
  · next last rest hsel =>
    rw [hsel] at hplace
    have hlt := hplace.below last List.mem_cons_self
    split
    · exact ⟨true, rfl, by simp⟩
    · next hne =>
      obtain ⟨p, hp⟩ : ∃ p, s.utxoPoolIndex = p + 1 := ⟨s.utxoPoolIndex - 1, by omega⟩
      rw [hp] at hne hlt hi ⊢
      rw [Nat.add_sub_cancel] at hne ⊢
      rw [utxoAt_ok (by omega : p < pool.length), ok_bind]
      refine ⟨_, rfl, fun h => ⟨by simp [hsel], p, rfl, ?_, ?_⟩⟩
      · rw [hsel]
        intro hmem
        rcases List.mem_cons.mp hmem with rfl | hmem
        · exact hne rfl
        · have := hplace.pop.below p hmem
          omega
      · simp only [ne_eq, decide_eq_false_iff_not, not_or, not_not] at h
        exact ⟨h.1, h.2⟩

theorem goForward_spec (hs : Tracks pool target cost cap s)
    (hless : s.currValue < target) (hreach : target ≤ s.currValue + s.currAvailableValue) :
    ∃ s', goForward pool s = .ok s' ∧ Tracks pool target cost cap s' ∧
      (Resumes (s.utxoPoolIndex + 1) (s.utxoPoolIndex :: s.currSelection) s s' ∨
        (s.currSelection ≠ [] ∧ ∃ p, s.utxoPoolIndex = p + 1 ∧ p ∉ s.currSelection ∧ SameAmountAndFee pool p) ∧
          Resumes (s.utxoPoolIndex + 1) s.currSelection s s') := by
  have hi : s.utxoPoolIndex < pool.length := by
    by_contra hend
    have havailable := hs.available
    rw [Ico_eq_empty (by omega), sum_empty] at havailable
    omega
  have hsplit := hs.available
  rw [sum_eq_sum_Ico_succ_bot hi] at hsplit
  have htake := hs.place.take
  have hvalueFits := abs_le.mp (h.fits.abs_total_le htake hi)
  have hwasteFits := abs_le.mp (h.abs_waste_le htake hi)
  have hnonneg := h.fits.weight_nonneg htake hi
  have hfits := h.fits.weight_lt htake hi
  have hrest := h.available_nonneg (s.utxoPoolIndex + 1)
  have hrestLe := h.available_le (s.utxoPoolIndex + 1)
  have ha : int64 (s.currAvailableValue - (nth pool s.utxoPoolIndex).getSelectionAmount) =
      .ok (∑ k ∈ Finset.Ico (s.utxoPoolIndex + 1) pool.length, amounts pool k) := by
    rw [hsplit, amounts, add_sub_cancel_left]
    exact int64_of_abs (abs_le.mpr (by simp only [MAX_MONEY, COIN, INT64_MAX] at *; omega))
  have hv : int64 (s.currValue + (nth pool s.utxoPoolIndex).getSelectionAmount) =
      .ok (total (amounts pool) (s.utxoPoolIndex :: s.currSelection)) := by
    rw [hs.value, add_comm]
    exact int64_of_abs (abs_le.mpr (by simp only [MAX_MONEY, COIN, INT64_MAX, total_cons, amounts] at *; omega))
  have hd : int64 ((nth pool s.utxoPoolIndex).fee - (nth pool s.utxoPoolIndex).longTermFee) =
    .ok (wastes pool s.utxoPoolIndex) := int64_of_abs ((h.abs_fee_sub_le hi).trans (by decide))
  have hw : int64 (s.currWaste + wastes pool s.utxoPoolIndex) =
      .ok (total (wastes pool) (s.utxoPoolIndex :: s.currSelection)) := by
    rw [hs.waste, add_comm]
    exact int64_of_abs (abs_le.mpr (by simp only [MAX_MONEY, COIN, INT64_MAX, total_cons] at *; omega))
  have hg : int32Sum (s.currSelectionWeight + (nth pool s.utxoPoolIndex).weight) =
      .ok (total (weights pool) (s.utxoPoolIndex :: s.currSelection)) := by
    rw [hs.weight, add_comm]
    exact int32Sum_of_nonneg hnonneg hfits
  obtain ⟨included, hincluded, hskip⟩ := worthIncluding_spec hs.place hi
  unfold goForward
  simp only [utxoAt_ok hi, ok_bind, ha, hincluded]
  cases included with
  | true =>
    simp only [if_true, hv, hd, hw, hg, ok_bind]
    exact ⟨_, rfl, ⟨htake, hi, rfl, rfl, rfl, rfl, hs.best, hs.bestWaste⟩, .inl ⟨rfl, rfl, rfl, rfl, rfl⟩⟩
  | false =>
    exact ⟨_, rfl, ⟨hs.place.mono (Nat.le_succ _), hi, hs.value, hs.weight, hs.waste, rfl, hs.best, hs.bestWaste⟩,
      .inr ⟨hskip rfl, rfl, rfl, rfl, rfl, rfl⟩⟩

theorem leaves_tracks (hs : Tracks pool target cost cap s)
    (hleaves : Leaves target cost cap high s s') :
    Tracks pool target cost cap s' := by
  cases hleaves with
  | short _ | beyond _ | wasteful _ _ => exact hs
  | heavy _ => exact ⟨hs.place, hs.within, hs.value, hs.weight, hs.waste, hs.available, hs.best, hs.bestWaste⟩
  | worse _ _ => exact hs
  | better hleast hmost hweight _ =>
    have hvalue := abs_le.mp (h.fits.abs_total_le hs.place hs.within)
    have hwaste := abs_le.mp (h.abs_waste_le hs.place hs.within)
    have htarget := abs_le.mp h.target
    refine ⟨hs.place, hs.within, hs.value, hs.weight, hs.waste, hs.available, fun _ => ?_, ?_⟩
    · dsimp only
      rw [hs.value, hs.waste]
      rw [hs.value] at hleast hmost
      rw [hs.weight] at hweight
      exact ⟨hs.place.mono hs.within, hleast, hmost, hweight, rfl⟩
    · dsimp only
      rw [hs.value, hs.waste]
      exact abs_le.mpr (by omega)

theorem bnbStep_spec (high : Bool) (hs : Tracks pool target cost cap s) (htry : s.currTry < TOTAL_TRIES) :
    (∃ s', bnbStep pool target cost cap high s = .ok (.done s') ∧ s.currSelection = [] ∧
      Leaves target cost cap high s s') ∨
    ∃ s', bnbStep pool target cost cap high s = .ok (.again s') ∧
      Tracks pool target cost cap s' ∧
      Moves pool target cost cap high s s' := by
  unfold bnbStep
  rw [if_neg (by omega)]
  rcases h.evaluate_spec high hs with ⟨left, heval, hleaves⟩ | ⟨heval, hless, hreach⟩
  · rw [heval, ok_bind, if_pos rfl]
    have hkept := hleaves.kept.1
    split
    · next hsel => exact .inl ⟨left, rfl, hkept ▸ hsel, hleaves⟩
    · next back rest hsel =>
      obtain ⟨s', hback, htracks, hresumes⟩ := h.goBack_spec (h.leaves_tracks hs hleaves) hsel
      rw [hback]
      exact .inr ⟨s', rfl, htracks, .back hleaves (hkept ▸ hsel) hresumes⟩
  · rw [heval, ok_bind, if_neg (by simp)]
    obtain ⟨s', hforward, htracks, hmove⟩ := h.goForward_spec hs hless hreach
    rw [hforward]
    refine .inr ⟨s', rfl, htracks, ?_⟩
    rcases hmove with htake | ⟨⟨hne, _, hp, hout, hsame⟩, hskip⟩
    · exact .take hless htake
    · exact .skip hne hp hout hsame hskip

/-! ## The whole search -/

/-- What every move keeps holds in the end. -/
theorem search_rule {P Q : BnbState → Prop}
    (hmove : ∀ s s', Tracks pool target cost cap s →
      Moves pool target cost cap high s s' → P s → P s')
    (hdone : ∀ s s', Tracks pool target cost cap s → s.currSelection = [] →
      Leaves target cost cap high s s' → P s → Q s')
    (hs : Tracks pool target cost cap s) (hstart : s.currTry = 0) (hP : P s) :
    ∃ s', loop (bnbStep pool target cost cap high) (TOTAL_TRIES + 1) s = .ok s' ∧
      Tracks pool target cost cap s' ∧ (s'.currTry < TOTAL_TRIES → Q s') := by
  refine loop_spec (I := fun s => Tracks pool target cost cap s ∧ P s ∧ s.currTry ≤ TOTAL_TRIES)
    (Q := fun s' => Tracks pool target cost cap s' ∧ (s'.currTry < TOTAL_TRIES → Q s'))
    (fun s => TOTAL_TRIES - s.currTry) ?_ ⟨hs, hP, by omega⟩ (by omega)
  rintro s ⟨hs, hP, -⟩
  by_cases htry : s.currTry < TOTAL_TRIES
  · rcases h.bnbStep_spec high hs htry with ⟨s', hstep, hsel, hleaves⟩ | ⟨s', hstep, htracks, hmoves⟩
    · exact .inl ⟨s', hstep, h.leaves_tracks hs hleaves, fun _ => hdone s s' hs hsel hleaves hP⟩
    · have := hmoves.currTry
      exact .inr ⟨s', hstep, ⟨htracks, hmove s s' hs hmoves hP, by omega⟩, by omega⟩
  · refine .inl ⟨s, ?_, hs, fun h => absurd h htry⟩
    rw [bnbStep, if_pos (by omega)]
    rfl

end Searchable

end FullNode.CoinSelection

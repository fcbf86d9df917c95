import FullNode.RandomSelection
import FullNode.CoinGrinderOptimal

/-! # Knapsack -/

namespace FullNode.CoinSelection

open List OutputGroup SelectionResult
open Mempool (int64 int32Sum INT64_MAX)

def flagged : List OutputGroup → List Bool → List OutputGroup
  | group :: groups, included :: flags => if included then group :: flagged groups flags else flagged groups flags
  | _, _ => []

structure Approximation where
  vfBest : List Bool
  nBest : Int
  /-- How many bits were drawn. -/
  draws : ℕ

structure PassState extends Approximation where
  vfIncluded : List Bool
  nTotal : Int := 0
  selectedCoinsWeight : Int := 0
  fReachedTarget : Bool := false

section

variable (randbool : ℕ → Bool) (groups : List OutputGroup) (nTargetValue maxSelectionWeight : Int)

/-- One group in one pass, taken out again at the target. -/
def passGroup (firstPass : Bool) (s : PassState) (i : ℕ) : Checked PassState := do
  let included ← elementAt s.vfIncluded i
  let taken := if firstPass then randbool s.draws else !included
  let s := { s with draws := if firstPass then s.draws + 1 else s.draws }
  if taken then do
    let group ← elementAt groups i
    let nTotal ← int64 (s.nTotal + group.getSelectionAmount)
    let weight ← int32Sum (s.selectedCoinsWeight + group.weight)
    let vfIncluded := s.vfIncluded.set i true
    if nTotal ≥ nTargetValue ∧ weight ≤ maxSelectionWeight then do
      let without ← int64 (nTotal - group.getSelectionAmount)
      let lighter ← int32Sum (weight - group.weight)
      return { s with
        vfBest := if nTotal < s.nBest then vfIncluded else s.vfBest
        nBest := if nTotal < s.nBest then nTotal else s.nBest
        vfIncluded := vfIncluded.set i false
        nTotal := without
        selectedCoinsWeight := lighter
        fReachedTarget := true }
    else return { s with vfIncluded := vfIncluded, nTotal := nTotal, selectedCoinsWeight := weight }
  else return s

/-- A pass at random, and one over the rest if that fell short. -/
def passes (approximation : Approximation) : Checked Approximation := do
  let s ← (List.range groups.length).foldlM (passGroup randbool groups nTargetValue maxSelectionWeight true)
    { approximation with vfIncluded := List.replicate groups.length false }
  if s.fReachedTarget then return s.toApproximation
  else do
    let s ← (List.range groups.length).foldlM (passGroup randbool groups nTargetValue maxSelectionWeight false) s
    return s.toApproximation

def iterations : ℕ → Approximation → Checked Approximation
  | 0, approximation => .ok approximation
  | n + 1, approximation =>
    if approximation.nBest = nTargetValue then .ok approximation
    else do iterations n (← passes randbool groups nTargetValue maxSelectionWeight approximation)

def approximateBestSubset (nTotalLower : Int) (draws : ℕ) : Checked Approximation :=
  iterations randbool groups nTargetValue maxSelectionWeight 1000
    { vfBest := List.replicate groups.length true, nBest := nTotalLower, draws := draws }

end

structure ScanState where
  maxWeightExceeded : Bool := false
  lowestLarger : Option OutputGroup := none
  applicableGroups : List OutputGroup := []
  nTotalLower : Int := 0

def scanGroups (nTargetValue changeTarget maxSelectionWeight : Int) : List OutputGroup → ScanState →
    Checked (Option OutputGroup × ScanState)
  | [], s => .ok (none, s)
  | group :: groups, s =>
    if group.weight > maxSelectionWeight then scanGroups nTargetValue changeTarget maxSelectionWeight groups
      { s with maxWeightExceeded := true }
    else if group.getSelectionAmount = nTargetValue then .ok (some group, s)
    else do
      let withChange ← int64 (nTargetValue + changeTarget)
      if group.getSelectionAmount < withChange then do
        let nTotalLower ← int64 (s.nTotalLower + group.getSelectionAmount)
        scanGroups nTargetValue changeTarget maxSelectionWeight groups
          { s with applicableGroups := s.applicableGroups ++ [group], nTotalLower := nTotalLower }
      else if s.lowestLarger.all (group.getSelectionAmount < ·.getSelectionAmount) then
        scanGroups nTargetValue changeTarget maxSelectionWeight groups { s with lowestLarger := some group }
      else scanGroups nTargetValue changeTarget maxSelectionWeight groups s

def errorOf (maxWeightExceeded : Bool) : String := if maxWeightExceeded then errorMaxWeightExceeded else ""

section

variable (sorter : Sorter OutputGroup) (randbool : ℕ → Bool) (nTargetValue changeTarget maxSelectionWeight : Int)

/-- The better of approximations with change and without. -/
def approximate (applicable : List OutputGroup) (nTotalLower : Int) : Checked Approximation := do
  let best ← approximateBestSubset randbool applicable nTargetValue maxSelectionWeight nTotalLower 0
  let withChange ← int64 (nTargetValue + changeTarget)
  if best.nBest ≠ nTargetValue ∧ nTotalLower ≥ withChange then
    approximateBestSubset randbool applicable withChange maxSelectionWeight nTotalLower best.draws
  else return best

def largerIsCloser (withChange : Int) (larger : OutputGroup) (best : Approximation) : Bool :=
  best.nBest ≠ nTargetValue ∧ best.nBest < withChange ∨ larger.getSelectionAmount ≤ best.nBest

/-- The approximation, unless the larger group is better. -/
def knapsackBest (result : SelectionResult) (s : ScanState) : Checked (Result SelectionResult) := do
  let applicable := sorter.sort descending s.applicableGroups
  let best ← approximate randbool nTargetValue changeTarget maxSelectionWeight applicable s.nTotalLower
  let withChange ← int64 (nTargetValue + changeTarget)
  let chosen ← (match s.lowestLarger with
    | some larger =>
      if largerIsCloser nTargetValue withChange larger best then (result.addInput larger).map .ok
      else do
        let subset ← result.addGroups (flagged applicable best.vfBest)
        if subset.weight > maxSelectionWeight then (subset.clear.addInput larger).map .ok else return .ok subset
    | none => do
      let subset ← result.addGroups (flagged applicable best.vfBest)
      if subset.weight > maxSelectionWeight then return .error errorMaxWeightExceeded else return .ok subset :
        Checked (Result SelectionResult))
  match chosen with
  | .error e => return .error e
  | .ok result => do
    check (result.weight ≤ maxSelectionWeight)
    return .ok result

/-- What is left to try where the groups are not just enough. -/
def knapsackRest (result : SelectionResult) (s : ScanState) : Checked (Result SelectionResult) :=
  if s.nTotalLower < nTargetValue then
    match s.lowestLarger with
    | none => return .error (errorOf s.maxWeightExceeded)
    | some larger => (result.addInput larger).map .ok
  else knapsackBest sorter randbool nTargetValue changeTarget maxSelectionWeight result s

def knapsackSolver (shuffle : Shuffle OutputGroup) (groups : List OutputGroup) : Checked (Result SelectionResult) := do
  let result := { target := nTargetValue, algo := .knapsack : SelectionResult }
  let scanned ← scanGroups nTargetValue changeTarget maxSelectionWeight (shuffle.shuffled groups) {}
  match scanned.1 with
  | some group => (result.addInput group).map .ok
  | none => do
    let s := scanned.2
    if s.nTotalLower = nTargetValue then do
      let all ← result.addGroups s.applicableGroups
      if all.weight ≤ maxSelectionWeight then return .ok all
      else
        let s := { s with maxWeightExceeded := true }
        knapsackRest sorter randbool nTargetValue changeTarget maxSelectionWeight all.clear s
    else knapsackRest sorter randbool nTargetValue changeTarget maxSelectionWeight result s

end

/-! ## Flags -/

variable {pool groups : List OutputGroup} {flags : List Bool} {group : OutputGroup} {i : ℕ}
  {target cap : Int}

theorem flagged_sublist (groups : List OutputGroup) (flags : List Bool) : (flagged groups flags).Sublist groups := by
  induction groups generalizing flags with
  | nil => exact .refl _
  | cons group groups ih =>
    cases flags with
    | nil => exact nil_sublist _
    | cons included flags =>
      cases included with
      | true => exact (ih flags).cons_cons group
      | false => exact (ih flags).cons group

theorem flagged_all (groups : List OutputGroup) : flagged groups (replicate groups.length true) = groups := by
  induction groups with
  | nil => rfl
  | cons group groups ih =>
    rw [length_cons, replicate_succ, flagged, if_pos rfl, ih]

theorem flagged_none (groups : List OutputGroup) : flagged groups (replicate groups.length false) = [] := by
  induction groups with
  | nil => rfl
  | cons group groups ih =>
    rw [length_cons, replicate_succ, flagged, if_neg (by simp), ih]

theorem flagged_set (hgroup : groups[i]? = some group) (hflag : flags[i]? = some false) :
    (flagged groups (flags.set i true)).Perm (group :: flagged groups flags) := by
  induction groups generalizing flags i with
  | nil => cases hgroup
  | cons first groups ih =>
    cases flags with
    | nil => cases hflag
    | cons included flags =>
      cases i with
      | zero =>
        cases hgroup
        cases hflag
        exact .refl _
      | succ i =>
        have hrest := ih hgroup hflag
        cases included with
        | true => exact (hrest.cons first).trans (.swap _ _ _)
        | false => exact hrest

theorem set_back (hflag : flags[i]? = some false) : (flags.set i true).set i false = flags := by
  rw [set_set]
  exact ext_getElem? fun j => by
    rw [getElem?_set]
    split
    · next hij =>
      subst hij
      have hlt : i < flags.length := by
        by_contra hge
        rw [getElem?_eq_none (not_lt.mp hge)] at hflag
        cases hflag
      rw [if_pos hlt, hflag]
    · rfl

/-! ## Passes -/

/-- The best one reaches the target, with the total of its groups. -/
structure Approximates (groups : List OutputGroup) (target : Int) (approximation : Approximation) : Prop where
  enough : target ≤ approximation.nBest
  total : approximation.nBest = ((flagged groups approximation.vfBest).map OutputGroup.getSelectionAmount).sum

/-- In a pass, the totals are those of the groups that are taken. -/
structure Passing (groups : List OutputGroup) (target : Int) (s : PassState) : Prop where
  best : Approximates groups target s.toApproximation
  length : s.vfIncluded.length = groups.length
  total : s.nTotal = ((flagged groups s.vfIncluded).map OutputGroup.getSelectionAmount).sum
  weight : s.selectedCoinsWeight = ((flagged groups s.vfIncluded).map OutputGroup.weight).sum

def UnsetFrom (i : ℕ) (s : PassState) : Prop := ∀ j, i ≤ j → j < s.vfIncluded.length → s.vfIncluded[j]? = some false

variable {randbool : ℕ → Bool} {approximation : Approximation} {nTotalLower : Int} {s : ScanState}
  {sorter : Sorter OutputGroup}

variable (hsub : groups.Subperm pool)
include hsub

theorem passGroup_spec {firstPass : Bool} {s : PassState} (hs : Passing groups target s)
    (hi : i < groups.length) (hunset : firstPass = true → UnsetFrom i s) :
    Ensures (Overflows pool) (fun s' => Passing groups target s' ∧ (firstPass = true → UnsetFrom (i + 1) s'))
      (passGroup randbool groups target cap firstPass s i) := by
  have hlen : i < s.vfIncluded.length := hs.length ▸ hi
  have hunchanged : firstPass = true → UnsetFrom (i + 1) s := fun h j hj => hunset h j (by omega)
  have hkept : ∀ draws, Passing groups target { s with draws := draws } :=
      fun _ => ⟨⟨hs.best.enough, hs.best.total⟩, hs.length, hs.total, hs.weight⟩
  unfold passGroup
  rw [elementAt_ok hlen, ok_bind]
  dsimp only
  generalize htaken : (if firstPass = true then randbool s.draws else !s.vfIncluded[i]) = taken
  generalize (if firstPass = true then s.draws + 1 else s.draws) = draws
  cases taken with
  | true =>
    -- A group that is taken was not taken before.
    have hflag : s.vfIncluded[i]? = some false := by
      cases firstPass with
      | true => exact hunset rfl i le_rfl hlen
      | false =>
        have hout : s.vfIncluded[i] = false := by simpa using htaken
        rw [getElem?_eq_getElem hlen, hout]
    rw [if_pos rfl]
    have hgroup : groups[i]? = some groups[i] := getElem?_eq_getElem hi
    have hperm := flagged_set hgroup hflag
    have hset : (flagged groups (s.vfIncluded.set i true)).Subperm pool := (flagged_sublist _ _).subperm.trans hsub
    have hold : (flagged groups s.vfIncluded).Subperm pool := (flagged_sublist _ _).subperm.trans hsub
    have htotal : ((flagged groups (s.vfIncluded.set i true)).map getSelectionAmount).sum =
        s.nTotal + groups[i].getSelectionAmount := by
      rw [(hperm.map _).sum_eq, map_cons, sum_cons, hs.total, add_comm]
    have hweight : ((flagged groups (s.vfIncluded.set i true)).map OutputGroup.weight).sum =
        s.selectedCoinsWeight + groups[i].weight := by
      rw [(hperm.map _).sum_eq, map_cons, sum_cons, hs.weight, add_comm]
    rw [elementAt_ok hi, ok_bind]
    refine (int64_ensures fun h => ?_).bind ?_
    · rw [← htotal]
      exact (h.abs_sum_le hset).trans (by decide)
    rintro _ rfl
    refine (int32Sum_ensures fun h => ?_).bind ?_
    · rw [← hweight]
      exact h.weight_range hset
    rintro _ rfl
    split
    · next hreached =>
      rw [add_sub_cancel_right, add_sub_cancel_right]
      refine (int64_ensures fun h => ?_).bind ?_
      · rw [hs.total]
        exact (h.abs_sum_le hold).trans (by decide)
      rintro _ rfl
      refine (int32Sum_ensures fun h => ?_).bind ?_
      · rw [hs.weight]
        exact h.weight_range hold
      rintro _ rfl
      rw [set_back hflag]
      refine ⟨⟨⟨?_, ?_⟩, hs.length, hs.total, hs.weight⟩, hunchanged⟩
      · dsimp only
        split
        · exact hreached.1
        · exact hs.best.enough
      · dsimp only
        split
        · exact htotal.symm
        · exact hs.best.total
    · refine ⟨⟨⟨hs.best.enough, hs.best.total⟩, ?_, htotal.symm, hweight.symm⟩, fun h j hj hlt => ?_⟩
      · rw [length_set, hs.length]
      · rw [length_set] at hlt
        rw [getElem?_set_ne (by omega)]
        exact hunset h j (by omega) hlt
  | false =>
    rw [if_neg (by simp)]
    exact ⟨hkept _, hunchanged⟩

theorem passes_spec (h : Approximates groups target approximation) :
    Ensures (Overflows pool) (Approximates groups target)
      (passes randbool groups target cap approximation) := by
  have hstart : Passing groups target { approximation with vfIncluded := replicate groups.length false } :=
    ⟨h, length_replicate, by rw [flagged_none]; rfl, by rw [flagged_none]; rfl⟩
  have hunset : UnsetFrom 0 { approximation with vfIncluded := replicate groups.length false } := by
    intro j _ hj
    rw [length_replicate] at hj
    rw [getElem?_replicate, if_pos hj]
  unfold passes
  refine (foldlM_range_ensures (I := fun i s => Passing groups target s ∧ UnsetFrom i s)
    (fun i hi s hs => ?_) ⟨hstart, hunset⟩).bind ?_
  · exact (passGroup_spec hsub hs.1 hi fun _ => hs.2).mono fun s' hs' => ⟨hs'.1, hs'.2 rfl⟩
  rintro s ⟨hs, -⟩
  split
  · exact hs.best
  · refine (foldlM_range_ensures (I := fun _ s => Passing groups target s) (fun i hi s hs => ?_) hs).bind
      fun s' hs' => hs'.best
    exact (passGroup_spec hsub hs hi (by simp)).mono fun s' hs' => hs'.1

theorem iterations_spec {n : ℕ} (h : Approximates groups target approximation) :
    Ensures (Overflows pool) (Approximates groups target)
      (iterations randbool groups target cap n approximation) := by
  induction n generalizing approximation with
  | zero => exact h
  | succ n ih =>
    unfold iterations
    split
    · exact h
    · exact (passes_spec hsub h).bind fun next hnext => ih hnext

theorem approximateBestSubset_spec {draws : ℕ}
    (htotal : nTotalLower = (groups.map getSelectionAmount).sum) (henough : target ≤ nTotalLower) :
    Ensures (Overflows pool) (Approximates groups target)
      (approximateBestSubset randbool groups target cap nTotalLower draws) := by
  refine iterations_spec hsub ⟨henough, ?_⟩
  dsimp only
  rw [flagged_all, htotal]

omit hsub

/-! ## The solver -/

def Stops (pool : List OutputGroup) (e : Fault) : Prop :=
  SelectionResult.SharedAmong (pool.flatMap OutputGroup.outputs) e ∨ Overflows pool e

/-- A selection of the pool, within the limit, of at least so much. -/
def Usable (pool : List OutputGroup) (cap least : Int) (r : Result SelectionResult) : Prop :=
  ∀ result, r = .ok result → ∃ chosen, Selects pool cap least chosen result

variable {extra : Int} {result : SelectionResult}

/-- The groups below the target with change, and the lowest other. -/
structure Scanned (pool : List OutputGroup) (target extra cap : Int) (s : ScanState) : Prop where
  applicable : s.applicableGroups.Subperm pool
  total : s.nTotalLower = (s.applicableGroups.map OutputGroup.getSelectionAmount).sum
  larger : ∀ larger ∈ s.lowestLarger, larger ∈ pool ∧ larger.weight ≤ cap ∧
      target + extra ≤ larger.getSelectionAmount

theorem scanGroups_spec (hfits : |target + extra| ≤ INT64_MAX) {rest : List OutputGroup}
    (hs : Scanned pool target extra cap s) (hrest : (s.applicableGroups ++ rest).Subperm pool) :
    Ensures (Overflows pool)
      (fun r => (∀ group ∈ r.1, group ∈ pool ∧ group.weight ≤ cap ∧ group.getSelectionAmount = target) ∧
        Scanned pool target extra cap r.2)
      (scanGroups target extra cap rest s) := by
  induction rest generalizing s with
  | nil => exact ⟨by simp, hs⟩
  | cons group rest ih =>
    have hgroup : group ∈ pool := hrest.subset (mem_append_right _ mem_cons_self)
    have hskip : (s.applicableGroups ++ rest).Subperm pool :=
      ((sublist_cons_self group rest).append_left s.applicableGroups).subperm.trans hrest
    have htake : ((s.applicableGroups ++ [group]) ++ rest).Subperm pool := by
      rw [append_assoc]
      exact hrest
    unfold scanGroups
    split
    · exact ih ⟨hs.applicable, hs.total, hs.larger⟩ hskip
    · next hlight =>
      split
      · next hexact =>
        refine ⟨?_, hs⟩
        rintro _ ⟨⟩
        exact ⟨hgroup, not_lt.mp hlight, hexact⟩
      · rw [int64_of_abs hfits, ok_bind]
        have hsub := (sublist_append_left (s.applicableGroups ++ [group]) rest).subperm.trans htake
        split
        · have htotal : ((s.applicableGroups ++ [group]).map getSelectionAmount).sum =
              s.nTotalLower + group.getSelectionAmount := by
            rw [map_append, sum_append, hs.total, map_singleton, sum_singleton]
          refine (int64_ensures fun h => ?_).bind ?_
          · rw [← htotal]
            exact (h.abs_sum_le hsub).trans (by decide)
          rintro _ rfl
          exact ih ⟨hsub, htotal.symm, hs.larger⟩ htake
        · next hlarge =>
          split
          · refine ih ⟨hs.applicable, hs.total, ?_⟩ hskip
            rintro _ ⟨⟩
            exact ⟨hgroup, not_lt.mp hlight, not_lt.mp hlarge⟩
          · exact ih hs hskip

theorem addInput_usable {least : Int} (hgroup : group ∈ pool) (hempty : result.selectedInputs = [])
    (hweight : result.weight = 0) (hlimit : group.weight ≤ cap) (hleast : least ≤ group.getSelectionAmount) :
    Ensures (Stops pool) (Usable pool cap least) ((result.addInput group).map .ok) := by
  have hsub : [group].Subperm pool := singleton_subperm_iff.mpr hgroup
  have hadd : Ensures (Stops pool) _ _ := addGroups_spec hsub hempty hweight
  have hone : result.addGroups [group] = result.addInput group := by
    rw [addGroups, foldlM_cons]
    simp [foldlM_nil]
  rw [hone] at hadd
  cases hresult : result.addInput group with
  | error e =>
    rw [hresult] at hadd
    exact hadd
  | ok result' =>
    rw [hresult] at hadd
    obtain rfl : result' = result.added [group] := hadd
    rintro _ ⟨⟩
    exact ⟨_, selects_added result hsub hempty hweight (by simpa using hlimit) (by simpa using hleast)⟩

theorem approximate_spec (hfits : |target + extra| ≤ INT64_MAX) (hchange : 0 ≤ extra)
    (hsub : groups.Subperm pool) (htotal : nTotalLower = (groups.map getSelectionAmount).sum)
    (henough : target ≤ nTotalLower) :
    Ensures (Overflows pool) (Approximates groups target)
      (approximate randbool target extra cap groups nTotalLower) := by
  unfold approximate
  refine (approximateBestSubset_spec hsub htotal henough).bind fun best hbest => ?_
  rw [int64_of_abs hfits, ok_bind]
  split
  · next hmore =>
    refine (approximateBestSubset_spec hsub htotal hmore.2).mono fun best' hbest' => ⟨?_, hbest'.total⟩
    have := hbest'.enough
    omega
  · exact hbest

theorem addFlagged_spec (cap : Int) (hsub : groups.Subperm pool) (hempty : result.selectedInputs = [])
    (hweight : result.weight = 0) {best : Approximation} (hbest : Approximates groups target best) :
    Ensures (Stops pool) (fun subset => subset.weight ≤ cap → Usable pool cap target (.ok subset))
      (result.addGroups (flagged groups best.vfBest)) := by
  have hflagged : (flagged groups best.vfBest).Subperm pool := (flagged_sublist _ _).subperm.trans hsub
  refine (addGroups_spec hflagged hempty hweight).mono ?_
  rintro _ rfl hlimit _ ⟨⟩
  refine ⟨_, selects_added result hflagged hempty hweight ?_ (hbest.enough.trans_eq hbest.total)⟩
  simpa [added, hweight] using hlimit

variable (hfits : |target + extra| ≤ INT64_MAX) (hchange : 0 ≤ extra)
  (hs : Scanned pool target extra cap s) (hempty : result.selectedInputs = [])
  (hweight : result.weight = 0)
include hfits hchange hs hempty hweight

theorem knapsackBest_spec (henough : target ≤ s.nTotalLower) :
    Ensures (Stops pool) (Usable pool cap target)
      (knapsackBest sorter randbool target extra cap result s) := by
  have hperm := sorter.perm descending descending_strictWeak s.applicableGroups
  have hsub : (sorter.sort descending s.applicableGroups).Subperm pool := hperm.subperm_right.mpr hs.applicable
  have htotal : s.nTotalLower = ((sorter.sort descending s.applicableGroups).map getSelectionAmount).sum := by
    rw [(hperm.map _).sum_eq, hs.total]
  unfold knapsackBest
  refine ((approximate_spec hfits hchange hsub htotal henough).weaken fun e he => .inr he).bind fun best hbest => ?_
  rw [int64_of_abs hfits, ok_bind]
  have hflagged := addFlagged_spec cap hsub hempty hweight hbest
  refine Ensures.bind (?_ : Ensures (Stops pool) (Usable pool cap target) _) ?_
  · split
    · next larger hlarger =>
      obtain ⟨hmem, hlimit, hleast⟩ := hs.larger larger hlarger
      have hleast : target ≤ larger.getSelectionAmount := by omega
      split
      · exact addInput_usable hmem hempty hweight hlimit hleast
      · refine hflagged.bind fun subset hsubset => ?_
        split
        · exact addInput_usable hmem rfl rfl hlimit hleast
        · next hlight => exact hsubset (not_lt.mp hlight)
    · refine hflagged.bind fun subset hsubset => ?_
      split
      · exact fun result h => by cases h
      · next hlight => exact hsubset (not_lt.mp hlight)
  · intro chosen hchosen
    cases chosen with
    | error e => exact fun result h => by cases h
    | ok result' =>
      obtain ⟨_, hselects⟩ := hchosen result' rfl
      exact (check_ensures hselects.limit).bind fun _ _ => hchosen

theorem knapsackRest_spec :
    Ensures (Stops pool) (Usable pool cap target)
      (knapsackRest sorter randbool target extra cap result s) := by
  unfold knapsackRest
  split
  · split
    · exact fun result h => by cases h
    · next larger hlarger =>
      obtain ⟨hmem, hlimit, _⟩ := hs.larger larger hlarger
      exact addInput_usable hmem hempty hweight hlimit (by omega)
  · next henough => exact knapsackBest_spec hfits hchange hs hempty hweight (not_lt.mp henough)

omit hfits hchange hs hempty hweight

theorem knapsackSolver_spec (sorter : Sorter OutputGroup) (randbool : ℕ → Bool) (shuffle : Shuffle OutputGroup)
    (cap : Int) (hfits : |target + extra| ≤ INT64_MAX) (hchange : 0 ≤ extra) :
    Ensures (Stops pool) (Usable pool cap target)
      (knapsackSolver sorter randbool target extra cap shuffle pool) := by
  have hstart : Scanned pool target extra cap {} := ⟨nil_subperm, rfl, by simp⟩
  unfold knapsackSolver
  refine ((scanGroups_spec hfits hstart (shuffle.perm pool).subperm).weaken fun e he => .inr he).bind ?_
  rintro ⟨found, s⟩ ⟨hfound, hs⟩
  cases found with
  | some group =>
    obtain ⟨hmem, hlimit, hexact⟩ := hfound group rfl
    exact addInput_usable hmem rfl rfl hlimit hexact.ge
  | none =>
    dsimp only at hs ⊢
    split
    · next hexact =>
      have hadd : Ensures (Stops pool) (· = added s.applicableGroups { target := target, algo := .knapsack }) _ :=
        addGroups_spec hs.applicable rfl rfl
      refine Ensures.bind hadd ?_
      rintro _ rfl
      split
      · next hlimit =>
        rintro _ ⟨⟩
        refine ⟨_, selects_added _ hs.applicable rfl rfl ?_ (hexact.symm.trans hs.total).le⟩
        simpa [added] using hlimit
      · exact knapsackRest_spec hfits hchange ⟨hs.applicable, hs.total, hs.larger⟩ rfl rfl
    · exact knapsackRest_spec hfits hchange hs rfl rfl

/-! ## The four selections -/

theorem selectCoinsBnB_usable (sorter : Sorter OutputGroup) {params : CoinSelectionParams} {cost : Int}
    (cap : Int) (h : Payable params pool target cost) (hpos : 0 < target) :
    Ensures (SelectionResult.SharedAmong (pool.flatMap outputs)) (fun r => ∀ result, r = .ok result → ∃ chosen,
        Selects pool cap target chosen result ∧ (chosen.map getSelectionAmount).sum ≤ target + cost)
      (selectCoinsBnB sorter pool target cost cap) := by
  have hperm := sorter.perm descending descending_strictWeak pool
  rcases h.selectCoinsBnB_rule sorter cap (.inl hpos) (P := fun _ => True) (Q := fun _ => True) (fun _ => trivial)
    (fun _ _ _ _ _ => trivial) (fun _ _ _ _ _ _ => trivial) with ⟨-, hrun⟩ | ⟨s, -, hrun, htracks, -⟩
  · rw [hrun]
    exact fun result hresult => by cases hresult
  · rw [hrun]
    have hpool := h.perm hperm
    by_cases hbest : s.bestSelection = []
    · rw [bnbResult, hbest]
      exact fun result hresult => by cases hresult
    · have hresult := bnbResult_spec hpool.searchable (fun group hgroup => (hpool.made group hgroup).sumsUp) hpool.coins
        (htracks.best hbest) hbest
      refine (hresult.weaken fun e he => sharedAmong_of_subperm hperm.subperm he).mono ?_
      rintro _ ⟨result, rfl, hselects, hmost, -⟩ _ ⟨⟩
      exact ⟨_, hselects.perm hperm, hmost⟩

theorem coinGrinder_usable (sorter : Sorter OutputGroup) (cap : Int) (hpositive : Positive pool)
    (hpos : 0 < target + extra) (hfits : target + extra ≤ INT64_MAX) :
    Ensures (Stops pool) (Usable pool cap (target + extra))
      (coinGrinder sorter pool target extra cap) := by
  have hperm := sorter.perm descendingEffvalWeight descendingEffvalWeight_strictWeak pool
  have hsorted := descending_of_sorted (sorter.sorted descendingEffvalWeight descendingEffvalWeight_strictWeak pool)
  have hstops : ∀ e, Stops (sorter.sort descendingEffvalWeight pool) e → Stops pool e :=
    fun e he => he.imp (sharedAmong_of_subperm hperm.subperm) fun hover => ⟨hover.1, fun h => hover.2 (h.perm hperm)⟩
  have hpool : Positive (sorter.sort descendingEffvalWeight pool) :=
    ⟨fun g hg => hpositive.amount g (hperm.mem_iff.mp hg), fun g hg => hpositive.weight g (hperm.mem_iff.mp hg)⟩
  unfold coinGrinder
  refine ((grinderSearch_spec cap hpool hsorted hpos hfits).weaken fun e he => hstops e (.inr he)).bind
    fun found hfound => ?_
  cases found with
  | none => exact fun result hresult => by cases hresult
  | some s =>
    obtain ⟨hbest, -⟩ : Ground (sorter.sort descendingEffvalWeight pool)
        (target + extra) cap s := hfound
    dsimp only
    by_cases hne : s.bestSelection = []
    · rw [grinderResult, hne]
      exact fun result hresult => by cases hresult
    · refine ((grinderResult_spec hbest hne).weaken hstops).mono ?_
      rintro _ ⟨result, rfl, hselects, -⟩ _ ⟨⟩
      exact ⟨_, hselects.perm hperm⟩

/-- Every selection returned can be used, unless coins are shared. -/
theorem selections_usable (sorter : Sorter OutputGroup) (shuffle : Shuffle ℕ) (shuffleGroups : Shuffle OutputGroup)
    (minHeap : MinHeap) (randbool : ℕ → Bool) {params : CoinSelectionParams}
    {payablePool positivePool anyPool : List OutputGroup} {cost changeFee : Int} (cap : Int)
    (hpayable : Payable params payablePool target cost) (hpositive : Positive positivePool)
    (hfits : Fits positivePool) (hany : Fits anyPool) (htarget : 0 < target)
    (hchangeTarget : 0 ≤ extra ∧ extra ≤ MAX_MONEY) (hchangeFee : 0 ≤ changeFee ∧ changeFee ≤ MAX_MONEY) :
    Ensures (SelectionResult.SharedAmong (payablePool.flatMap OutputGroup.outputs))
      (fun r => ∀ result, r = .ok result → ∃ chosen,
        Selects payablePool cap target chosen result ∧
          (chosen.map OutputGroup.getSelectionAmount).sum ≤ target + cost)
      (selectCoinsBnB sorter payablePool target cost cap) ∧
    Ensures (SelectionResult.SharedAmong (positivePool.flatMap OutputGroup.outputs))
      (Usable positivePool cap (target + extra))
      (coinGrinder sorter positivePool target extra cap) ∧
    Ensures (SelectionResult.SharedAmong (positivePool.flatMap OutputGroup.outputs))
      (Usable positivePool cap (target + (CHANGE_LOWER + changeFee)))
      (selectCoinsSRD shuffle minHeap positivePool target changeFee cap) ∧
    Ensures (SelectionResult.SharedAmong (anyPool.flatMap OutputGroup.outputs)) (Usable anyPool cap target)
      (knapsackSolver sorter randbool target extra cap shuffleGroups anyPool) := by
  have hle := (abs_le.mp hpayable.target).2
  have hsum : target + extra ≤ INT64_MAX := by
    simp only [MAX_MONEY, COIN, INT64_MAX] at *
    omega
  have hstop : ∀ pool, Fits pool → ∀ e, Stops pool e → SelectionResult.SharedAmong (pool.flatMap outputs) e :=
    fun pool hpool e he => he.resolve_right fun hover => hover.2 hpool
  refine ⟨selectCoinsBnB_usable sorter cap hpayable htarget, ?_, ?_, ?_⟩
  · exact (coinGrinder_usable sorter cap hpositive (by omega) hsum).weaken (hstop _ hfits)
  · exact (selectCoinsSRD_spec shuffle minHeap hpositive.amount htarget hchangeFee.1 ⟨hle, hchangeFee.2⟩).weaken
      (hstop _ hfits)
  · refine (knapsackSolver_spec sorter randbool shuffleGroups cap ?_ hchangeTarget.1).weaken (hstop _ hany)
    rw [abs_of_pos (by omega)]
    exact hsum

def leastFirst (_ : ℕ) (group : OutputGroup) : List OutputGroup → OutputGroup × List OutputGroup
  | [] => (group, [])
  | next :: groups =>
    let popped := leastFirst 0 next groups
    if group.getSelectionAmount ≤ popped.1.getSelectionAmount then (group, next :: groups)
      else (popped.1, group :: popped.2)

theorem leastFirst_perm (n : ℕ) (group : OutputGroup) (groups : List OutputGroup) :
    ((leastFirst n group groups).1 :: (leastFirst n group groups).2).Perm (group :: groups) := by
  induction groups generalizing n group with
  | nil => exact .refl _
  | cons next groups ih =>
    unfold leastFirst
    dsimp only
    split
    · exact .refl _
    · exact (Perm.swap _ _ _).trans ((ih 0 next).cons group)

theorem leastFirst_least (n : ℕ) (group : OutputGroup) (groups : List OutputGroup) :
    ∀ other ∈ (leastFirst n group groups).2, (leastFirst n group groups).1.getSelectionAmount ≤
      other.getSelectionAmount := by
  induction groups generalizing n group with
  | nil => exact fun other hother => absurd hother not_mem_nil
  | cons next groups ih =>
    unfold leastFirst
    dsimp only
    split
    · next hle =>
      intro other hother
      rcases mem_cons.mp ((leastFirst_perm 0 next groups).mem_iff.mpr hother) with rfl | hother
      · exact hle
      · exact hle.trans (ih 0 next other hother)
    · next hlt =>
      intro other hother
      rcases mem_cons.mp hother with rfl | hother
      · exact (not_le.mp hlt).le
      · exact ih 0 next other hother

theorem plain_selections_usable :
    Ensures (SelectionResult.SharedAmong (plainPool.flatMap OutputGroup.outputs))
      (fun r => ∀ result, r = .ok result → ∃ chosen,
        Selects plainPool 400000 100000 chosen result ∧ (chosen.map OutputGroup.getSelectionAmount).sum ≤ 100000 + 300)
      (selectCoinsBnB .stable plainPool 100000 300 400000) ∧
    Ensures (SelectionResult.SharedAmong (plainPool.flatMap OutputGroup.outputs))
      (Usable plainPool 400000 (100000 + 20000)) (coinGrinder .stable plainPool 100000 20000 400000) ∧
    Ensures (SelectionResult.SharedAmong (plainPool.flatMap OutputGroup.outputs))
      (Usable plainPool 400000 (100000 + (CHANGE_LOWER + 31)))
      (selectCoinsSRD ⟨id, .refl⟩ ⟨leastFirst, leastFirst_perm, leastFirst_least⟩ plainPool 100000 31 400000) ∧
    Ensures (SelectionResult.SharedAmong (plainPool.flatMap OutputGroup.outputs)) (Usable plainPool 400000 100000)
      (knapsackSolver .stable (fun n => n % 2 = 0) 100000 20000 400000 ⟨id, .refl⟩ plainPool) := by
  have hcoins : CoinsFit (plainPool.flatMap outputs) := ⟨by decide, by decide, by decide⟩
  have hpayable : Payable cheapParams plainPool 100000 300 :=
    coinPool_payable (by decide) (by decide) (by decide) hcoins (by decide) (by decide)
  exact selections_usable .stable _ _ _ _ 400000 hpayable ⟨hpayable.positive, hpayable.fits.nonneg⟩ hpayable.fits
    hpayable.fits (by decide) (by decide) (by decide)

end FullNode.CoinSelection

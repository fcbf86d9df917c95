import FullNode.SelectionResult
import FullNode.Lib.Sorting
import FullNode.Lib.SubsetSearch

/-! # The pool that a selection searches -/

namespace FullNode.CoinSelection

open SubsetSearch List OutputGroup SelectionResult COutput

def outOfRange : Fault := .logicError "vector::at"

def utxoAt (pool : List OutputGroup) (i : ℕ) : Checked OutputGroup :=
  match pool[i]? with
  | some group => .ok group
  | none => .error outOfRange

def elementAt {α : Type} (l : List α) (i : ℕ) : Checked α :=
  match l[i]? with
  | some a => .ok a
  | none => .error .badIterator

def OutputGroup.wasteOf (group : OutputGroup) : Int := group.fee - group.longTermFee

def descending (a b : OutputGroup) : Bool :=
  if a.getSelectionAmount = b.getSelectionAmount then a.wasteOf < b.wasteOf else a.getSelectionAmount >
    b.getSelectionAmount

def descendingEffvalWeight (a b : OutputGroup) : Bool :=
  if a.getSelectionAmount = b.getSelectionAmount then a.weight < b.weight else a.getSelectionAmount >
    b.getSelectionAmount

/-- `result.AddInput` of the groups at these places. -/
def SelectionResult.addInputs (pool : List OutputGroup) (places : List ℕ)
    (result : SelectionResult) : Checked SelectionResult :=
  places.foldlM (fun result i => do result.addInput (← utxoAt pool i)) result

/-! ## The orders -/

theorem descending_strictWeak : StrictWeak descending :=
  .of_key (fun g : OutputGroup => toLex (OrderDual.toDual g.getSelectionAmount, g.wasteOf)) fun a b => by
    rw [descending, Prod.Lex.toLex_lt_toLex, OrderDual.toDual_lt_toDual, EmbeddingLike.apply_eq_iff_eq]
    split <;> simp_all

theorem descendingEffvalWeight_strictWeak : StrictWeak descendingEffvalWeight :=
  .of_key (fun g : OutputGroup => toLex (OrderDual.toDual g.getSelectionAmount, g.weight)) fun a b => by
    rw [descendingEffvalWeight, Prod.Lex.toLex_lt_toLex, OrderDual.toDual_lt_toDual, EmbeddingLike.apply_eq_iff_eq]
    split <;> simp_all

/-! ## Places -/

def nth (pool : List OutputGroup) (i : ℕ) : OutputGroup := pool.getD i {}

def amounts (pool : List OutputGroup) (i : ℕ) : Int := (nth pool i).getSelectionAmount
def weights (pool : List OutputGroup) (i : ℕ) : Int := (nth pool i).weight
def wastes (pool : List OutputGroup) (i : ℕ) : Int := (nth pool i).wasteOf

def groupsAt (pool : List OutputGroup) (sel : List ℕ) : List OutputGroup := sel.map (nth pool)

variable {pool pool' : List OutputGroup} {i n : ℕ} {sel : List ℕ}

theorem nth_eq (h : i < pool.length) : nth pool i = pool[i] := by
  rw [nth, getD_eq_getElem?_getD, getElem?_eq_getElem h]
  rfl

theorem nth_mem (h : i < pool.length) : nth pool i ∈ pool := by
  rw [nth_eq h]
  exact getElem_mem h

theorem utxoAt_ok (h : i < pool.length) : utxoAt pool i = .ok (nth pool i) := by
  rw [utxoAt, getElem?_eq_getElem h, nth_eq h]

variable {α : Type} {result : SelectionResult} {params : CoinSelectionParams} {group : OutputGroup} {least : Int}
  {groups : List OutputGroup}

theorem elementAt_ok {l : List α} (h : i < l.length) : elementAt l i = .ok l[i] := by
  rw [elementAt, getElem?_eq_getElem h]

theorem elementAt_nth (h : i < pool.length) : elementAt pool i = .ok (nth pool i) := by
  rw [elementAt_ok h, nth_eq h]

theorem nth_sorted {lt : OutputGroup → OutputGroup → Bool} {j : ℕ}
    (hsorted : pool.Pairwise fun a b => lt b a = false) (hij : i < j) (hj : j < pool.length) :
    lt (nth pool j) (nth pool i) = false := by
  rw [nth_eq hj, nth_eq (hij.trans hj)]
  exact pairwise_iff_getElem.mp hsorted i j (hij.trans hj) hj hij

theorem map_nth (pool : List OutputGroup) : (range pool.length).map (nth pool) = pool := by
  refine ext_getElem (by simp) fun i h _ => ?_
  rw [length_map, length_range] at h
  rw [getElem_map, getElem_range, nth_eq h]

variable (F : OutputGroup → Int)

theorem sum_nth (pool : List OutputGroup) : ∑ k ∈ Finset.range pool.length, F (nth pool k) = (pool.map F).sum := by
  have hrange : (range pool.length).toFinset = Finset.range pool.length := by
    ext k
    rw [mem_toFinset, mem_range, Finset.mem_range]
  conv_rhs => rw [← map_nth pool, map_map]
  rw [← hrange, sum_toFinset _ nodup_range]
  rfl

theorem nth_drop (pool : List OutputGroup) (i k : ℕ) : nth (pool.drop i) k = nth pool (i + k) := by
  rw [nth, nth, getD_eq_getElem?_getD, getD_eq_getElem?_getD, getElem?_drop]

theorem sum_Ico_nth (pool : List OutputGroup) (i : ℕ) :
    ∑ k ∈ Finset.Ico i pool.length, F (nth pool k) = ((pool.drop i).map F).sum := by
  rw [Finset.sum_Ico_eq_sum_range, ← sum_nth, length_drop]
  exact Finset.sum_congr rfl fun k _ => by rw [nth_drop]

theorem groupsAt_subperm (h : Place sel i) (hi : i ≤ pool.length) : (groupsAt pool sel).Subperm pool := by
  have hplaces : sel.Subperm (range pool.length) := subperm_of_subset h.nodup fun k hk => by
    have := h.below k hk
    exact mem_range.mpr (by omega)
  obtain ⟨part, hperm, hsub⟩ := hplaces
  have := hsub.map (nth pool)
  rw [map_nth] at this
  exact ⟨part.map (nth pool), hperm.map _, this⟩

theorem addInputs_eq (h : ∀ k ∈ sel, k < pool.length) :
    result.addInputs pool sel = result.addGroups (groupsAt pool sel) := by
  induction sel generalizing result with
  | nil => rfl
  | cons k sel ih =>
    have hrest := fun k hk => h k (mem_cons_of_mem _ hk)
    simp only [addInputs, addGroups, groupsAt, map_cons, foldlM_cons, utxoAt_ok (h k mem_cons_self), ok_bind]
    refine bind_congr fun result' => ?_
    exact ih hrest

/-! ## How groups are made -/

def COutput.knownFee (coin : COutput) : Int := coin.fee.getD 0

/-- The groups that `Insert` makes with these parameters. -/
inductive OutputGroup.Made (params : CoinSelectionParams) : OutputGroup → Prop where
  | new : Made params (.new params)
  | insert {group group' : OutputGroup} {output : COutput} {ancestors descendants : ℕ} (h : Made params group)
      (hinsert : group.insert output ancestors descendants = .ok group') : Made params group'

structure OutputGroup.SumsUp (params : CoinSelectionParams) (group : OutputGroup) : Prop where
  subtract : group.subtractFeeOutputs = params.subtractFeeOutputs
  known : ∀ coin ∈ group.outputs, coin.fee = some coin.knownFee
  value : group.value = (group.outputs.map fun coin => coin.txout.nValue).sum
  fee : group.fee = (group.outputs.map COutput.knownFee).sum
  longTermFee : group.longTermFee = (group.outputs.map COutput.longTermFee).sum
  effectiveValue : group.effectiveValue = (group.outputs.map fun coin => coin.txout.nValue - coin.knownFee).sum
  weight : 0 ≤ group.weight

theorem OutputGroup.SumsUp.insert {group' : OutputGroup} {output : COutput} {ancestors descendants : ℕ}
    (h : group.SumsUp params) (hinsert : group.insert output ancestors descendants = .ok group') :
    group'.SumsUp params := by
  cases hfee : output.fee with
  | none => simp [OutputGroup.insert, getFee, asserted, hfee, bind, Except.bind] at hinsert
  | some fee =>
    simp only [OutputGroup.insert, getFee, getEffectiveValue, COutput.effectiveValue, hfee, Option.map_some,
      asserted, ok_bind] at hinsert
    cases hinsert
    refine ⟨h.subtract, ?_, ?_, ?_, ?_, ?_, ?_⟩
    · intro coin hcoin
      rcases mem_append.mp hcoin with hcoin | hcoin
      · exact h.known coin hcoin
      · obtain rfl := mem_singleton.mp hcoin
        simp [knownFee]
    · simp [h.value]
    · simp [h.fee, knownFee]
    · simp [h.longTermFee]
    · simp [h.effectiveValue, knownFee]
    · have := h.weight
      dsimp only
      split
      · simp only [WITNESS_SCALE_FACTOR]
        omega
      · exact this

theorem OutputGroup.Made.sumsUp (h : group.Made params) : group.SumsUp params := by
  induction h with
  | new => exact ⟨rfl, by simp [OutputGroup.new], rfl, rfl, rfl, rfl, le_rfl⟩
  | insert _ hinsert ih => exact ih.insert hinsert

/-! ## What a pool holds -/

theorem abs_sum_map_le (f : α → Int) (l : List α) : |(l.map f).sum| ≤ (l.map fun a => |f a|).sum := by
  induction l with
  | nil => simp
  | cons a l ih =>
    rw [map_cons, sum_cons, map_cons, sum_cons]
    exact (abs_add_le _ _).trans (by omega)

theorem sum_abs_le_of_subperm {l l' : List α} (h : l.Subperm l') (f : α → Int) :
    (l.map fun a => |f a|).sum ≤ (l'.map fun a => |f a|).sum := by
  obtain ⟨_, hperm, hsub⟩ := h
  rw [← (hperm.map _).sum_eq]
  exact (hsub.map _).sum_le_sum (by simp)

structure Fits (pool : List OutputGroup) : Prop where
  amounts : (pool.map fun group => |group.getSelectionAmount|).sum ≤ MAX_MONEY
  nonneg : ∀ group ∈ pool, 0 ≤ group.weight
  weights : (pool.map OutputGroup.weight).sum < 2 ^ 31

/-- A sum does not fit, as those of the pool do. -/
def Overflows (pool : List OutputGroup) (e : Fault) : Prop := e = .overflow ∧ ¬ Fits pool

theorem Fits.perm (h : Fits pool) (hperm : pool'.Perm pool) : Fits pool' where
  amounts := by
    rw [(hperm.map _).sum_eq]
    exact h.amounts
  nonneg group hgroup := h.nonneg group (hperm.mem_iff.mp hgroup)
  weights := by
    rw [(hperm.map _).sum_eq]
    exact h.weights

variable (h : Fits pool) (hsel : Place sel i) (hi : i ≤ pool.length) {cap : Int}
include h hsel hi

theorem Fits.abs_total_le : |total (CoinSelection.amounts pool) sel| ≤ MAX_MONEY :=
  (hsel.abs_total_le hi _).trans ((sum_nth (fun g => |g.getSelectionAmount|) pool).trans_le h.amounts)

theorem Fits.weight_nonneg : 0 ≤ total (CoinSelection.weights pool) sel := by
  rw [hsel.total_eq]
  exact Finset.sum_nonneg fun k hk => h.nonneg _ (nth_mem (Finset.mem_range.mp (hsel.subset hi hk)))

theorem Fits.weight_lt : total (CoinSelection.weights pool) sel < 2 ^ 31 := by
  rw [hsel.total_eq]
  refine lt_of_le_of_lt (Finset.sum_le_sum_of_subset_of_nonneg (hsel.subset hi) fun k hk _ => ?_)
    ((sum_nth weight pool).trans_lt h.weights)
  exact h.nonneg _ (nth_mem (Finset.mem_range.mp hk))

omit h hsel hi

/-! ## What is selected -/

/-- These groups of the pool, each once, within the limit, enough. -/
structure Selects (pool : List OutputGroup) (cap least : Int) (chosen : List OutputGroup)
    (result : SelectionResult) : Prop where
  distinct : chosen.Subperm pool
  inputs : result.selectedInputs = chosen.flatMap OutputGroup.outputs
  weight : result.weight = (chosen.map OutputGroup.weight).sum
  limit : result.weight ≤ cap
  enough : least ≤ (chosen.map OutputGroup.getSelectionAmount).sum

theorem Selects.perm {chosen : List OutputGroup}
    (h : Selects pool' cap least chosen result) (hperm : pool'.Perm pool) : Selects pool cap least chosen result :=
  ⟨hperm.subperm_left.mp h.distinct, h.inputs, h.weight, h.limit, h.enough⟩

theorem flatMap_subperm (h : groups.Subperm pool) : (groups.flatMap outputs).Subperm (pool.flatMap outputs) := by
  obtain ⟨part, hperm, hsub⟩ := h
  exact ⟨part.flatMap outputs, hperm.flatMap_right _, hsub.flatMap _⟩

theorem sharedAmong_of_subperm {e : Fault} (hsub : groups.Subperm pool)
    (h : SelectionResult.SharedAmong (groups.flatMap outputs) e) :
    SelectionResult.SharedAmong (pool.flatMap outputs) e := by
  refine ⟨h.1, fun hnodup => h.2 ?_⟩
  obtain ⟨_, hperm, hpart⟩ := flatMap_subperm hsub
  exact hperm.nodup_iff.mp (hnodup.sublist hpart)

theorem sum_weights_le_of_subperm (hnonneg : ∀ group ∈ pool, 0 ≤ group.weight) (h : groups.Subperm pool) :
    (groups.map OutputGroup.weight).sum ≤ (pool.map OutputGroup.weight).sum := by
  obtain ⟨_, hperm, hsub⟩ := h
  rw [← (hperm.map _).sum_eq]
  refine (hsub.map _).sum_le_sum ?_
  intro w hw
  obtain ⟨group, hgroup, rfl⟩ := mem_map.mp hw
  exact hnonneg group hgroup

theorem addGroups_spec (hsub : groups.Subperm pool) (hempty : result.selectedInputs = [])
    (hweight : result.weight = 0) :
    Ensures (fun e => SelectionResult.SharedAmong (pool.flatMap outputs) e ∨ Overflows pool e) (· = result.added groups)
      (result.addGroups groups) := by
  have hadd := result.addGroups_spec (P := Fits pool) groups fun h =>
    ⟨fun group hgroup => h.nonneg group (hsub.subset hgroup), hweight.ge, by
      have := (sum_weights_le_of_subperm h.nonneg hsub).trans_lt h.weights
      omega⟩
  rw [hempty, nil_append] at hadd
  exact hadd.weaken fun e he => he.imp_left (sharedAmong_of_subperm hsub)

theorem selects_added (result : SelectionResult) (hsub : groups.Subperm pool)
    (hempty : result.selectedInputs = []) (hweight : result.weight = 0)
    (hlimit : (groups.map OutputGroup.weight).sum ≤ cap) (henough : least ≤ (groups.map getSelectionAmount).sum) :
    Selects pool cap least groups (result.added groups) where
  distinct := hsub
  inputs := by simp [added, hempty]
  weight := by simp [added, hweight]
  limit := by simpa [added, hweight] using hlimit
  enough := henough

theorem Fits.abs_sum_le (h : Fits pool) (hsub : groups.Subperm pool) :
    |(groups.map getSelectionAmount).sum| ≤ MAX_MONEY :=
  (abs_sum_map_le _ _).trans ((sum_abs_le_of_subperm hsub _).trans h.amounts)

theorem Fits.weight_range (h : Fits pool) (hsub : groups.Subperm pool) :
    0 ≤ (groups.map OutputGroup.weight).sum ∧ (groups.map OutputGroup.weight).sum < 2 ^ 31 := by
  refine ⟨sum_nonneg fun w hw => ?_, (sum_weights_le_of_subperm h.nonneg hsub).trans_lt h.weights⟩
  obtain ⟨group, hgroup, rfl⟩ := mem_map.mp hw
  exact h.nonneg group (hsub.subset hgroup)

theorem total_eq_sum (pool : List OutputGroup) (sel : List ℕ) :
    total (fun k => F (nth pool k)) sel = ((groupsAt pool sel).map F).sum := by
  rw [groupsAt, map_map]
  rfl

/-- The search keeps a selection last place first. -/
theorem groupsAt_reverse (h : Place sel pool.length) :
    (groupsAt pool sel.reverse).Subperm pool ∧
      (∀ F : OutputGroup → Int, ((groupsAt pool sel.reverse).map F).sum = total (fun k => F (nth pool k)) sel) ∧
      ∀ k ∈ sel.reverse, k < pool.length := by
  have hperm : (groupsAt pool sel.reverse).Perm (groupsAt pool sel) := by
    rw [groupsAt, map_reverse]
    exact reverse_perm _
  refine ⟨hperm.subperm_right.mpr (groupsAt_subperm h le_rfl), fun F => ?_, fun k hk => h.below k (mem_reverse.mp hk)⟩
  rw [(hperm.map F).sum_eq, total_eq_sum]

end FullNode.CoinSelection

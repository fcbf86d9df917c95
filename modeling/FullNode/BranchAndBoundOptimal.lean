import FullNode.BranchAndBoundResult

/-! # The least wasteful selection -/

namespace FullNode.CoinSelection

open SubsetSearch Finset

/-! ## Selections without change -/

/-- A selection in range that falls short without its last group. -/
structure Changeless (pool : List OutputGroup) (target cost cap : Int) (S : Finset ℕ) : Prop where
  inPool : S ⊆ Finset.range pool.length
  least : target ≤ ∑ k ∈ S, amounts pool k
  most : ∑ k ∈ S, amounts pool k ≤ target + cost
  weight : ∑ k ∈ S, weights pool k ≤ cap
  needed : ∃ last ∈ S, (∀ k ∈ S, k ≤ last) ∧ ∑ k ∈ S.erase last, amounts pool k < target

/-- More fee than in the long term, and what is over. -/
def selectionWaste (pool : List OutputGroup) (target : Int) (S : Finset ℕ) : Int :=
  ∑ k ∈ S, wastes pool k + (∑ k ∈ S, amounts pool k - target)

/-- No shortcut gives the selection up: it has no group like one left out just before, and no front
part of it wastes more than the best so far can. -/
structure Kept (pool : List OutputGroup) (target cost cap : Int) (S : Finset ℕ) : Prop where
  first : ∀ p, p ∉ S → p + 1 ∈ S → SameAmountAndFee pool p → ∀ k ∈ S, p < k
  frugal : (nth pool 0).longTermFee < (nth pool 0).fee → ∀ i, ∑ k ∈ S.filter (· < i), wastes pool k ≤ MAX_MONEY ∧
    ∀ T, Changeless pool target cost cap T → Before T S i →
      ∑ k ∈ S.filter (· < i), wastes pool k ≤ selectionWaste pool target T ∨
        selectionWaste pool target T ≤ selectionWaste pool target S

/-- It wastes least, no more than the amount of money, and is kept. -/
structure Champion (pool : List OutputGroup) (target cost cap : Int) (S : Finset ℕ) : Prop where
  changeless : Changeless pool target cost cap S
  least : ∀ S', Changeless pool target cost cap S' →
    selectionWaste pool target S ≤ selectionWaste pool target S'
  bounded : selectionWaste pool target S ≤ MAX_MONEY
  kept : Kept pool target cost cap S

variable {pool : List OutputGroup} {target cost cap : Int} {high : Bool} {s s' : BnbState}
  {S T : Finset ℕ}

structure Dominated (pool : List OutputGroup) (target : Int) (s : BnbState) (S : Finset ℕ) : Prop where
  le : s.bestWaste ≤ selectionWaste pool target S
  lt : s.bestSelection = [] → s.bestWaste < selectionWaste pool target S

/-- The best so far is a selection that the search has been through. -/
structure Best (pool : List OutputGroup) (target cost cap : Int) (s : BnbState) : Prop where
  unset : s.bestSelection = [] → s.bestWaste = MAX_MONEY
  passed : s.bestSelection ≠ [] → ∃ T, Changeless pool target cost cap T ∧
    s.bestWaste = selectionWaste pool target T ∧ Passed s.currSelection s.utxoPoolIndex T

/-- The champion is still to come, or the best so far is no worse. -/
structure Covers (pool : List OutputGroup) (target cost cap : Int) (S : Finset ℕ) (s : BnbState) :
    Prop where
  best : Best pool target cost cap s
  short : ∀ last rest, s.currSelection = last :: rest → total (amounts pool) rest < target
  covered : Pending s.currSelection s.utxoPoolIndex S ∨ Dominated pool target s S

theorem Dominated.same (h : Dominated pool target s S) (hbest : s'.bestSelection = s.bestSelection)
    (hwaste : s'.bestWaste = s.bestWaste) : Dominated pool target s' S :=
  ⟨hwaste ▸ h.le, fun hnil => hwaste ▸ h.lt (hbest ▸ hnil)⟩

theorem Resumes.dominated {i : ℕ} {sel : List ℕ} (h : Resumes i sel s s') (hdom : Dominated pool target s S) :
    Dominated pool target s' S := hdom.same h.bestSelection h.bestWaste

/-! ## To go back -/

namespace Searchable

variable (h : Searchable pool target cost)
include h

omit h in
theorem ne_nil_of_pos (hs : Tracks pool target cost cap s) (hpos : 0 < target)
    (hleast : target ≤ s.currValue) : s.currSelection ≠ [] := by
  intro hnil
  have := hs.value
  rw [hnil, total_nil] at this
  omega

section

variable (hs : Tracks pool target cost cap s)
include hs

omit h in
theorem dominated (hpos : 0 < target)
    (hleaves : Leaves target cost cap high s s') (hdom : Dominated pool target s S) :
    Dominated pool target s' S := by
  cases hleaves with
  | short _ | beyond _ | wasteful _ _ => exact hdom
  | heavy _ => exact ⟨hdom.le, hdom.lt⟩
  | worse _ _ => exact hdom
  | better hleast _ _ hle => exact ⟨hle.trans hdom.le, fun hnil => absurd hnil (ne_nil_of_pos hs hpos hleast)⟩

theorem beyond_eq_empty
    (hS : Changeless pool target cost cap S) (hext : Extends s.currSelection s.utxoPoolIndex S)
    (hleast : target ≤ s.currValue) : beyond s.utxoPoolIndex S = ∅ := by
  obtain ⟨last, _, hmax, _⟩ := hS.needed
  by_contra hne
  obtain ⟨k, hk⟩ := nonempty_iff_ne_empty.mpr hne
  obtain ⟨hk, hge⟩ := mem_beyond.mp hk
  have hafter : s.utxoPoolIndex ≤ last := hge.trans (hmax k hk)
  have herase : Extends s.currSelection s.utxoPoolIndex (S.erase last) := by
    intro j hj
    rw [mem_erase, and_iff_right (by omega)]
    exact hext j hj
  have hle := herase.le_sum hs.place (f := amounts pool) fun k hk =>
    (h.amounts_pos (mem_range.mp (hS.inPool (mem_of_mem_erase hk)))).le
  rw [← hs.value] at hle
  omega

theorem left (hpos : 0 < target)
    (hhigh : high = true → (nth pool 0).longTermFee < (nth pool 0).fee)
    (hS : Champion pool target cost cap S)
    (hbest : Best pool target cost cap s)
    (hleaves : Leaves target cost cap high s s') (hext : Extends s.currSelection s.utxoPoolIndex S) :
    Dominated pool target s' S := by
  obtain ⟨hS, -, -, hkept⟩ := hS
  have hamounts := hext.sum_eq hs.place (amounts pool)
  have hwastes := hext.sum_eq hs.place (wastes pool)
  rw [← hs.value] at hamounts
  rw [← hs.waste] at hwastes
  have hrest : ∀ k ∈ beyond s.utxoPoolIndex S, k < pool.length :=
      fun k hk => mem_range.mp (hS.inPool (mem_beyond.mp hk).1)
  have hnonneg : 0 ≤ ∑ k ∈ beyond s.utxoPoolIndex S, amounts pool k :=
      sum_nonneg fun k hk => (h.amounts_pos (hrest k hk)).le
  have hleast := hS.least
  have hmost := hS.most
  cases hleaves with
  | short hshort =>
    have hreach := hext.sum_le hs.place hS.inPool fun k hk => (h.amounts_pos hk).le
    rw [← hs.value, ← hs.available] at hreach
    omega
  | beyond hbeyond => omega
  | wasteful hwasteful high =>
    obtain ⟨hmoney, hbefore⟩ := hkept.frugal (hhigh high) s.utxoPoolIndex
    rw [hext.filter_lt hs.place, ← hs.place.total_eq, ← hs.waste] at hmoney hbefore
    by_cases hnil : s.bestSelection = []
    · have := hbest.unset hnil
      omega
    · obtain ⟨T, hT, hwaste, hpassed⟩ := hbest.passed hnil
      have hle := (hbefore T hT (hpassed.before hext)).resolve_left (by omega)
      exact ⟨hwaste.trans_le hle, fun h => absurd h hnil⟩
  | heavy hheavy =>
    have hle := hext.le_sum hs.place (f := weights pool) fun k hk => h.weights_nonneg (mem_range.mp (hS.inPool hk))
    rw [← hs.weight] at hle
    have := hS.weight
    omega
  | better hreached _ _ _ =>
    rw [h.beyond_eq_empty hs hS hext hreached, sum_empty, add_zero] at hamounts hwastes
    refine ⟨?_, fun hnil => absurd hnil (ne_nil_of_pos hs hpos hreached)⟩
    rw [selectionWaste, hamounts, hwastes]
  | worse hreached hworse =>
    rw [h.beyond_eq_empty hs hS hext hreached, sum_empty, add_zero] at hamounts hwastes
    have hlt : s.bestWaste < selectionWaste pool target S := by
      rw [selectionWaste, hamounts, hwastes]
      exact hworse
    exact ⟨hlt.le, fun _ => hlt⟩

end

/-! ## The search -/

omit h in
theorem best_back {back : ℕ} {rest : List ℕ} (hs : Tracks pool target cost cap s)
    (hsel : s.currSelection = back :: rest) (hshort : total (amounts pool) rest < target)
    (hleaves : Leaves target cost cap high s s')
    (hbest : Best pool target cost cap s) {t : BnbState} (hresumes : Resumes (back + 1) rest s' t) :
    Best pool target cost cap t := by
  have hplace := hs.place
  rw [hsel] at hplace
  have hold : s.bestSelection ≠ [] → ∃ T, Changeless pool target cost cap T ∧
      s.bestWaste = selectionWaste pool target T ∧ Passed rest (back + 1) T := by
    intro hne
    obtain ⟨T, hT, hwaste, hpassed⟩ := hbest.passed hne
    rw [hsel] at hpassed
    exact ⟨T, hT, hwaste, hpassed.pop hplace⟩
  constructor
  all_goals rw [hresumes.bestSelection, hresumes.bestWaste]
  · cases hleaves with
    | short _ | beyond _ | wasteful _ _ | heavy _ | worse _ _ => exact hbest.unset
    | better _ _ _ _ => exact fun hnil => by simp [hsel] at hnil
  · rw [hresumes.selection, hresumes.index]
    cases hleaves with
    | short _ | beyond _ | wasteful _ _ | heavy _ | worse _ _ => exact hold
    | better hleast hmost hweight _ =>
      intro _
      dsimp only
      have hvalue := hs.value
      have hlast : total (amounts pool) rest = ∑ k ∈ (back :: rest).toFinset.erase back, amounts pool k := by
        rw [List.toFinset_cons, erase_insert (by simpa using hplace.pop.notMem), hplace.pop.total_eq]
      rw [hsel, hplace.total_eq] at hvalue
      rw [hvalue] at hleast hmost
      rw [hs.weight, hsel, hplace.total_eq] at hweight
      refine ⟨(back :: rest).toFinset, ⟨hplace.subset hs.within, hleast, hmost, hweight, back, by simp, ?_,
        hlast ▸ hshort⟩, ?_, Extends.passed_pop (fun j _ => List.mem_toFinset) hplace⟩
      · intro k hk
        rcases List.mem_cons.mp (List.mem_toFinset.mp hk) with rfl | hk
        · exact le_rfl
        · exact (hplace.pop.below k hk).le
      · rw [selectionWaste, hvalue, hs.waste, hsel, hplace.total_eq]

omit h in
theorem best_moved (hbest : Best pool target cost cap s) {i : ℕ} {sel : List ℕ} (hresumes : Resumes i sel s s')
    (hpassed : ∀ T, Passed s.currSelection s.utxoPoolIndex T → Passed sel i T) :
    Best pool target cost cap s' := by
  refine ⟨fun hnil => ?_, fun hne => ?_⟩
  · rw [hresumes.bestWaste]
    exact hbest.unset (hresumes.bestSelection ▸ hnil)
  · obtain ⟨T, hT, hwaste, hT'⟩ := hbest.passed (hresumes.bestSelection ▸ hne)
    exact ⟨T, hT, hresumes.bestWaste.trans hwaste, by rw [hresumes.selection, hresumes.index]; exact hpassed T hT'⟩

theorem covers_move (hS : Champion pool target cost cap S)
    (hhigh : high = true → (nth pool 0).longTermFee < (nth pool 0).fee) (hpos : 0 < target)
    (hs : Tracks pool target cost cap s)
    (hmove : Moves pool target cost cap high s s')
    (hcovers : Covers pool target cost cap S s) : Covers pool target cost cap S s' := by
  cases hmove with
  | @back left _ back rest hleaves hsel hresumes =>
    have hplace := hs.place
    rw [hsel] at hplace
    have hshort := hcovers.short back rest hsel
    refine ⟨best_back hs hsel hshort hleaves hcovers.best hresumes, fun last rest' hrest => ?_, ?_⟩
    · rw [hresumes.selection] at hrest
      rw [hrest] at hplace hshort
      exact (hplace.pop.le_total_pop (hplace.below back List.mem_cons_self |>.le.trans hs.within)
        fun k hk => (h.amounts_pos hk).le).trans_lt hshort
    · rw [hresumes.selection, hresumes.index]
      rcases hcovers.covered with hpending | hdom
      · rw [hsel] at hpending
        rcases hpending.pop hplace with hpending | hext
        · exact .inl hpending
        · rw [← hsel] at hext
          exact .inr (hresumes.dominated (h.left hs hpos hhigh hS hcovers.best hleaves hext))
      · exact .inr (hresumes.dominated (dominated hs hpos hleaves hdom))
  | take hless hresumes =>
    refine ⟨best_moved hcovers.best hresumes fun T hT => hT.take, fun last rest hrest => ?_, ?_⟩
    · rw [hresumes.selection] at hrest
      cases hrest
      rwa [← hs.value]
    · rw [hresumes.selection, hresumes.index]
      exact hcovers.covered.imp (fun hpending => hpending.take hs.place) hresumes.dominated
  | @skip _ p hne hp hout hsame hresumes =>
    refine ⟨best_moved hcovers.best hresumes fun T hT => hT.skip, fun last rest hrest => ?_, ?_⟩
    · rw [hresumes.selection] at hrest
      exact hcovers.short last rest hrest
    · rw [hresumes.selection, hresumes.index]
      rcases hcovers.covered with hpending | hdom
      · rcases hpending.skip hs.place with hpending | ⟨hext, hi⟩
        · exact .inl hpending
        · -- the champion has the group, so it has nothing that is on the stack
          obtain ⟨last, hlast⟩ := List.exists_mem_of_ne_nil _ hne
          have hbelow := hs.place.below last hlast
          rw [hp] at hext hi hbelow
          have hafter := hS.kept.first p (notMem_of_extends hext hout) hi hsame last ((hext last hbelow).mpr hlast)
          omega
      · exact .inr (hresumes.dominated hdom)

theorem covers_done (hS : Champion pool target cost cap S)
    (hhigh : high = true → (nth pool 0).longTermFee < (nth pool 0).fee) (hpos : 0 < target)
    (hs : Tracks pool target cost cap s) (hsel : s.currSelection = [])
    (hleaves : Leaves target cost cap high s s')
    (hcovers : Covers pool target cost cap S s) :
    (s'.bestSelection = [] → s'.bestWaste = MAX_MONEY) ∧ Dominated pool target s' S := by
  constructor
  · cases hleaves with
    | better hleast _ _ _ => exact fun hnil => absurd hnil (ne_nil_of_pos hs hpos hleast)
    | short _ | beyond _ | wasteful _ _ | heavy _ | worse _ _ => exact hcovers.best.unset
  · rcases hcovers.covered with hpending | hdom
    · rw [hsel] at hpending
      have hext := extends_of_pending_nil hpending
      rw [← hsel] at hext
      exact h.left hs hpos hhigh hS hcovers.best hleaves hext
    · exact dominated hs hpos hleaves hdom

omit h in
theorem covers_start (available : Int) (S : Finset ℕ) :
    Covers pool target cost cap S { currAvailableValue := available } :=
  ⟨⟨fun _ => rfl, fun hne => absurd rfl hne⟩, nofun, .inl (pending_start S)⟩

theorem pos_of_changeless (hS : Changeless pool target cost cap S) : 0 < target := by
  obtain ⟨last, -, -, _⟩ := hS.needed
  have : 0 ≤ ∑ k ∈ S.erase last, amounts pool k :=
    sum_nonneg fun k hk => (h.amounts_pos (mem_range.mp (hS.inPool (mem_of_mem_erase hk)))).le
  omega

end Searchable

/-! ## The result -/

/-- The result wastes least, and an error says that there is none. -/
def LeastWasteful (pool : List OutputGroup) (target cost cap : Int) : Result SelectionResult → Prop
  | .ok result => ∃ chosen waste, Selects pool cap target chosen result ∧ result.waste = some waste ∧
      ∀ S, Changeless pool target cost cap S → waste ≤ selectionWaste pool target S
  | .error _ => ∀ S, ¬ Changeless pool target cost cap S

def StopsEarly (sorter : Sorter OutputGroup) (utxos : List OutputGroup) (target cost cap : Int) : Prop :=
  ∀ s, bnbSearch (sorter.sort descending utxos) target cost cap
    (utxos.map OutputGroup.getSelectionAmount).sum = .ok s → s.currTry < TOTAL_TRIES

theorem selectCoinsBnB_empty (sorter : Sorter OutputGroup) (hle : target ≤ 0) :
    selectCoinsBnB sorter [] target cost cap = .error outOfRange := by
  have hsort : sorter.sort descending [] = [] := List.perm_nil.mp (sorter.perm descending descending_strictWeak [])
  unfold selectCoinsBnB
  rw [availableValue, List.foldlM_nil]
  simp only [pure_bind]
  rw [if_neg (by omega), hsort]
  rfl

theorem bnbResult_least {params : CoinSelectionParams} (h : Payable params pool target cost)
    (hbest : s.bestSelection ≠ [] → Recorded pool target cost cap s.bestSelection s.bestWaste)
    (hkept : ∀ S0, Changeless pool target cost cap S0 → ∃ S, Champion pool target cost cap S)
    (hdominated : ∀ S, Champion pool target cost cap S →
      (s.bestSelection = [] → s.bestWaste = MAX_MONEY) ∧ Dominated pool target s S) :
    Ensures (SelectionResult.SharedAmong (pool.flatMap OutputGroup.outputs)) (LeastWasteful pool target cost cap)
      (bnbResult pool target cost s) := by
  by_cases hnone : s.bestSelection = []
  · rw [bnbResult, hnone]
    intro S0 hS0
    obtain ⟨S, hS⟩ := hkept S0 hS0
    obtain ⟨hunset, hdom⟩ := hdominated S hS
    have hlt := hdom.lt hnone
    rw [hunset hnone] at hlt
    exact absurd hS.bounded (not_le.mpr hlt)
  · refine (bnbResult_spec h.searchable (fun group hgroup => (h.made group hgroup).sumsUp) h.coins
      (hbest hnone) hnone).mono ?_
    rintro r ⟨_, rfl, hselects, -, hwaste⟩
    refine ⟨_, _, hselects, hwaste, fun S0 hS0 => ?_⟩
    obtain ⟨S, hS⟩ := hkept S0 hS0
    exact (hdominated S hS).2.le.trans (hS.least S0 hS0)

/-- A search within its tries is optimal, if the shortcuts keep a least wasteful selection. -/
theorem least_wasteful (sorter : Sorter OutputGroup) {params : CoinSelectionParams} {utxos : List OutputGroup}
    (h : Payable params utxos target cost)
    (hkept : ∀ S0, Changeless (sorter.sort descending utxos) target cost cap S0 →
      ∃ S, Champion (sorter.sort descending utxos) target cost cap S)
    (hearly : StopsEarly sorter utxos target cost cap) :
    Ensures (fun e => SelectionResult.SharedAmong (utxos.flatMap OutputGroup.outputs) e ∨ utxos = [] ∧ e = outOfRange)
      (LeastWasteful (sorter.sort descending utxos) target cost cap)
      (selectCoinsBnB sorter utxos target cost cap) := by
  have hperm := sorter.perm descending descending_strictWeak utxos
  by_cases hne : 0 < target ∨ utxos ≠ []
  · have hpool := h.perm hperm
    have hpos {S} (hS : Champion (sorter.sort descending utxos) target cost cap S) :
        0 < target := hpool.searchable.pos_of_changeless hS.changeless
    have hrule := h.selectCoinsBnB_rule sorter cap hne
      (P := fun s => ∀ S, Champion (sorter.sort descending utxos) target cost cap S →
        Covers (sorter.sort descending utxos) target cost cap S s)
      (Q := fun s => ∀ S, Champion (sorter.sort descending utxos) target cost cap S →
        (s.bestSelection = [] → s.bestWaste = MAX_MONEY) ∧ Dominated (sorter.sort descending utxos) target s S)
      (fun available S _ => Searchable.covers_start available S)
      (fun s s' hs hmove hP S hS => hpool.searchable.covers_move hS of_decide_eq_true (hpos hS) hs hmove (hP S hS))
      (fun s s' hs hsel hleaves hP S hS =>
        hpool.searchable.covers_done hS of_decide_eq_true (hpos hS) hs hsel hleaves (hP S hS))
    rcases hrule with ⟨_, hrun⟩ | ⟨s, hsearch, hrun, htracks, hQ⟩
    · rw [hrun]
      intro S hS
      have hle := sum_le_sum_of_subset_of_nonneg (f := amounts (sorter.sort descending utxos)) hS.inPool fun k hk _ =>
        (hpool.searchable.amounts_pos (Finset.mem_range.mp hk)).le
      have hall := (sum_nth OutputGroup.getSelectionAmount (sorter.sort descending utxos)).trans (hperm.map _).sum_eq
      have := hS.least.trans (hle.trans_eq hall)
      omega
    · rw [hrun]
      exact (bnbResult_least hpool htracks.best hkept (hQ (hearly s hsearch))).weaken
        fun e he => .inl (sharedAmong_of_subperm hperm.subperm he)
  · rw [not_or, not_not] at hne
    obtain ⟨hle, rfl⟩ := hne
    rw [selectCoinsBnB_empty sorter (not_lt.mp hle)]
    exact .inr ⟨rfl, rfl⟩

/-! ## At one feerate -/

/-- The groups made at one feerate, with fees by size and bump fees. -/
inductive OutputGroup.MadeAt (feerate : Int) (params : CoinSelectionParams) : OutputGroup → Prop where
  | new : MadeAt feerate params (.new params)
  | insert {group group' : OutputGroup} {outpoint : COutPoint} {txout : CTxOut} {depth inputBytes bumpFee : Int}
      {fromMe : Bool} {output : COutput} {ancestors descendants : ℕ} (h : MadeAt feerate params group)
      (hbump : (COutput.new outpoint txout depth inputBytes fromMe (some feerate)).applyBumpFee bumpFee = .ok output)
      (hinsert : group.insert output ancestors descendants = .ok group') : MadeAt feerate params group'

variable {group : OutputGroup} {coins : List (Int × Int × Int)}

theorem OutputGroup.MadeAt.made {feerate : Int} {params : CoinSelectionParams} (h : group.MadeAt feerate params) :
    group.Made params := by
  induction h with
  | new => exact .new
  | insert _ _ hinsert ih => exact .insert ih hinsert

def cheapParams : CoinSelectionParams where
  longTermFeerate := 10000
  subtractFeeOutputs := false
  avoidPartialSpends := false
  includeUnsafeInputs := false

def coinGroup (n : ℕ) (value inputBytes bumpFee : Int) : Checked OutputGroup := do
  let output ← (COutput.new ⟨0, n⟩ ⟨value, []⟩ 0 inputBytes true (some 1000)).applyBumpFee bumpFee
  (OutputGroup.new cheapParams).insert output 1 1

def coinPool (coins : List (Int × Int × Int)) : List OutputGroup :=
  coins.zipIdx.filterMap fun coin => (coinGroup coin.2 coin.1.1 coin.1.2.1 coin.1.2.2).toOption

theorem coinPool_madeAt (h : group ∈ coinPool coins) : group.MadeAt 1000 cheapParams := by
  obtain ⟨coin, -, hgroup⟩ := List.mem_filterMap.mp h
  cases hmade : coinGroup coin.2 coin.1.1 coin.1.2.1 coin.1.2.2 with
  | error e =>
    rw [hmade] at hgroup
    cases hgroup
  | ok made =>
    rw [hmade] at hgroup
    cases hgroup
    obtain ⟨_, hbump, hinsert⟩ := bind_ok.mp hmade
    exact .insert .new hbump hinsert

theorem coinPool_payable {target cost : Int}
    (hpositive : ∀ group ∈ coinPool coins, 0 < group.getSelectionAmount)
    (hamounts : ((coinPool coins).map fun group => |group.getSelectionAmount|).sum ≤ MAX_MONEY)
    (hweights : ((coinPool coins).map OutputGroup.weight).sum < 2 ^ 31)
    (hcoins : CoinsFit ((coinPool coins).flatMap OutputGroup.outputs)) (htarget : |target| ≤ MAX_MONEY)
    (hcost : |cost| ≤ MAX_MONEY) : Payable cheapParams (coinPool coins) target cost where
  made _ hgroup := (coinPool_madeAt hgroup).made
  positive := hpositive
  fits := ⟨hamounts, fun _ hgroup => (coinPool_madeAt hgroup).made.sumsUp.weight, hweights⟩
  coins := hcoins
  target := htarget
  cost := hcost

def plainPool : List OutputGroup := coinPool [(100068, 68, 0), (50068, 68, 0)]

/-- The first coin has a bump fee that the second has not. -/
def bumpedPool : List OutputGroup := coinPool [(102068, 68, 2000), (50068, 68, 0)]

theorem bumped_champion : Champion bumpedPool 100000 300 400000 {0} := by
  have hlength : bumpedPool.length = 2 := by decide
  have honly (S : Finset ℕ) (hS : Changeless bumpedPool 100000 300 400000 S) : S = {0} := by
    have hall : ∀ S ∈ (range 2).powerset, 100000 ≤ ∑ k ∈ S, amounts bumpedPool k →
        ∑ k ∈ S, amounts bumpedPool k ≤ 100300 → S = {0} := by decide
    exact hall S (mem_powerset.mpr (hlength ▸ hS.inPool)) hS.least hS.most
  refine ⟨⟨by decide, by decide, by decide, by decide, 0, by decide⟩, fun S hS => by rw [honly S hS], by decide,
    ⟨?_, fun _ i => ⟨?_, ?_⟩⟩⟩
  · intro p _ hp
    simp at hp
  · have hsum : ∀ V ∈ ({0} : Finset ℕ).powerset, ∑ k ∈ V, wastes bumpedPool k ≤ MAX_MONEY := by decide
    exact hsum _ (mem_powerset.mpr (filter_subset _ _))
  · rintro T hT -
    rw [honly T hT]
    exact .inr le_rfl

theorem bumped_least_wasteful : Ensures
    (fun e => SelectionResult.SharedAmong (bumpedPool.flatMap OutputGroup.outputs) e ∨ bumpedPool = [] ∧ e = outOfRange)
    (LeastWasteful (Sorter.stable.sort descending bumpedPool) 100000 300 400000)
    (selectCoinsBnB .stable bumpedPool 100000 300 400000) := by
  have hsorted : Sorter.stable.sort descending bumpedPool = bumpedPool := by decide
  have hpayable : Payable cheapParams bumpedPool 100000 300 := coinPool_payable (by decide) (by decide) (by decide)
    ⟨by decide, by decide, by decide⟩ (by decide) (by decide)
  refine least_wasteful .stable hpayable (fun _ _ => ⟨{0}, ?_⟩) ?_
  · rw [hsorted]
    exact bumped_champion
  · rw [StopsEarly, hsorted]
    intro s hs
    have htries : (bnbSearch bumpedPool 100000 300 400000 (bumpedPool.map OutputGroup.getSelectionAmount).sum).map
        (fun s => decide (s.currTry < TOTAL_TRIES)) = .ok true := by decide
    rw [hs] at htries
    exact of_decide_eq_true (Except.ok.inj htries)

def cheapPool : List OutputGroup := coinPool [(102068, 68, 2000), (50068, 68, 0), (50048, 148, 0)]

/-- The first two are returned. The first and the last waste less. -/
theorem cheap_group_missed : (∀ group ∈ cheapPool, group.MadeAt 1000 cheapParams) ∧
    StopsEarly .stable cheapPool 149800 300 400000 ∧
    (selectCoinsBnB .stable cheapPool 149800 300 400000).map (fun r => r.toOption.bind SelectionResult.waste) = .ok
    (some 976) ∧ Changeless (Sorter.stable.sort descending cheapPool) 149800 300 400000 {0, 2} ∧
    selectionWaste (Sorter.stable.sort descending cheapPool) 149800 {0, 2} = 156 := by
  have hsorted : Sorter.stable.sort descending cheapPool = cheapPool := by decide
  refine ⟨fun _ hgroup => coinPool_madeAt hgroup, ?_, by decide, ?_, by decide⟩
  · rw [StopsEarly, hsorted]
    intro s hs
    have htries : (bnbSearch cheapPool 149800 300 400000 (cheapPool.map OutputGroup.getSelectionAmount).sum).map
        (fun s => decide (s.currTry < TOTAL_TRIES)) = .ok true := by decide
    rw [hs] at htries
    exact of_decide_eq_true (Except.ok.inj htries)
  · rw [hsorted]
    exact ⟨by decide, by decide, by decide, by decide, 2, by decide⟩

end FullNode.CoinSelection

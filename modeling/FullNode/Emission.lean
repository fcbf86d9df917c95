import FullNode.Supply

/-! # The emission of the main network -/

open FullNode.CoinsView Finset

namespace FullNode

variable {v w : CoinsView} {b : Int}

/-! ## The inputs of a transaction -/

variable {vin : List CTxIn} {r : Except TxInvalid Int}

section

variable (h : Holds b v)
include h

theorem valueIn_le (hnodup : (vin.map CTxIn.prevout).Nodup) : valueIn v vin ≤ b := by
  have hsum : valueIn v vin = ∑ o ∈ (vin.map CTxIn.prevout).toFinset, valueAt v o := by
    rw [List.sum_toFinset _ hnodup, List.map_map]
    rfl
  rw [hsum]
  exact (sum_le_sum fun o _ => valueAt_le_claims v o).trans (h.within _)

theorem valueAt_nonneg (o : COutPoint) : 0 ≤ valueAt v o := by
  unfold valueAt
  cases hpeek : v.peek o with
  | none => exact le_refl 0
  | some coin => exact h.value_nonneg hpeek

theorem valueIn_nonneg (vin : List CTxIn) : 0 ≤ valueIn v vin := by
  apply List.sum_nonneg
  intro x hx
  obtain ⟨i, -, rfl⟩ := List.mem_map.mp hx
  exact valueAt_nonneg h i.prevout

theorem sumInputs_inRange {nSpendHeight n : Int} (hn : 0 ≤ n) (hfits : n + valueIn v vin ≤ MAX_MONEY)
    (hsum : sumInputs nSpendHeight n vin v = .ok (r, w)) : r ≠ .error inputValuesOutOfRange := by
  induction vin generalizing v n with
  | nil =>
    cases hsum
    simp
  | cons i vin ih =>
    have hread := Reads.refl.access (v := v) i.prevout
    obtain ⟨hcoin, -, -, -⟩ := accessCoin_spec h.usable.valid i.prevout h.usable.nonempty
    have h' := h.reads hread
    have hpeek := (hread.spec h.usable).2
    rw [sumInputs] at hsum
    simp only at hsum
    generalize v.accessCoin i.prevout = p at hsum hcoin h' hpeek
    obtain ⟨coin, v'⟩ := p
    simp only at hsum hcoin h' hpeek
    rw [bind_ok] at hsum
    obtain ⟨_, hun, hsum⟩ := hsum
    rw [check_ok, Bool.not_eq_true'] at hun
    rw [unspent_eq_some hun] at hcoin
    have hvalue : valueIn v (i :: vin) = coin.out.nValue + valueIn v' vin := by
      rw [valueIn_congr hpeek]
      simp only [valueIn, List.map_cons, List.sum_cons, valueAt, ← hcoin, Option.elim_some]
    have hnonneg := h.value_nonneg hcoin.symm
    have hrest := valueIn_nonneg h' vin
    have hone : moneyRange coin.out.nValue = true := (moneyRange_iff _).mpr (by omega)
    have htotal : moneyRange (n + coin.out.nValue) = true := (moneyRange_iff _).mpr (by omega)
    split at hsum
    · cases hsum
      simp [prematureSpend, inputValuesOutOfRange]
    · simp only [hone, htotal, Bool.not_true, Bool.or_self, Bool.false_eq_true, if_false] at hsum
      exact ih h' (by omega) (by omega) hsum

theorem checkTxInputs_inRange {tx : CTransaction} {nSpendHeight : Int}
    (hnodup : (tx.vin.map CTxIn.prevout).Nodup) (hb : b ≤ MAX_MONEY)
    (hcheck : checkTxInputs tx v nSpendHeight = .ok (r, w)) : r ≠ .error inputValuesOutOfRange := by
  have hread := haveInputs_reads v tx
  unfold checkTxInputs at hcheck
  generalize haveInputs v tx = p at hcheck hread
  obtain ⟨_, _⟩ := p
  simp only at hcheck hread
  have h' := h.reads hread
  have hfits := valueIn_le h' hnodup
  split at hcheck
  · cases hcheck
    simp [inputsMissing, inputValuesOutOfRange]
  · rw [bind_ok] at hcheck
    obtain ⟨⟨_, _⟩, hsum, hcheck⟩ := hcheck
    have hrange := sumInputs_inRange h' (le_refl 0) (by omega) hsum
    simp only at hcheck
    split at hcheck
    · cases hcheck
      exact hrange
    · rw [bind_ok] at hcheck
      obtain ⟨_, -, hcheck⟩ := hcheck
      split at hcheck
      · cases hcheck
        simp [inputValuesOutOfRange]
      · split at hcheck
        · cases hcheck
          simp [inputValuesOutOfRange]
        · cases hcheck
          simp

end

/-! ## The subsidies -/

variable {hashGenesisBlock : Uint256}

theorem subsidyAt_main {i : Nat} (h : i < 87600) : subsidyAt (mainParams hashGenesisBlock) i = 239726000000 := by
  have hdiv : cdiv (i : Int) (mainParams hashGenesisBlock).nSubsidyHalvingInterval = .ok 0 := by
    have hinterval : (mainParams hashGenesisBlock).nSubsidyHalvingInterval = 87600 := rfl
    rw [hinterval, cdiv, if_neg (by decide), Int.tdiv_eq_zero_of_lt (by omega) (by omega)]
  simp only [subsidyAt, getBlockSubsidy, hdiv]
  rfl

theorem sum_subsidyAt_main {n : Nat} (h : n ≤ 87600) :
    ∑ i ∈ Finset.range n, subsidyAt (mainParams hashGenesisBlock) i = n * 239726000000 := by
  rw [sum_congr rfl fun i hi => subsidyAt_main (lt_of_lt_of_le (mem_range.mp hi) h)]
  rw [sum_const, card_range, nsmul_eq_mul]

theorem subsidies_mono (params : Params) {m n : Nat} (h : m ≤ n) :
    ∑ i ∈ Finset.range m, subsidyAt params i ≤ ∑ i ∈ Finset.range n, subsidyAt params i := by
  apply sum_le_sum_of_subset_of_nonneg
  · exact range_mono h
  · intro i _ _
    exact subsidyAt_nonneg params i

/-- The subsidies up to height `h`, and what spends coins of them, fit. -/
structure FitsMoneyRange (hashGenesisBlock : Uint256) (h : Nat) : Prop where
  subsidies : ∑ i ∈ Finset.range (h + 1), subsidyAt (mainParams hashGenesisBlock) i ≤ MAX_MONEY
  spends : ∀ (rules : Rules) (n : Nat) (v w : CoinsView) (tx : CTransaction) (nSpendHeight : Int)
    (r : Except TxInvalid Int), rules.params = mainParams hashGenesisBlock → n ≤ h → ChainRun rules n v →
    (tx.vin.map CTxIn.prevout).Nodup → checkTxInputs tx v nSpendHeight = .ok (r, w) → r ≠ .error inputValuesOutOfRange

/-- The emission fits for the first 8760 heights only. -/
theorem fitsMoneyRange_iff (hashGenesisBlock : Uint256) (h : Nat) : FitsMoneyRange hashGenesisBlock h ↔ h < 8760 := by
  constructor
  · intro hfits
    by_contra hlate
    have hsum := subsidies_mono (mainParams hashGenesisBlock) (m := 8761) (n := h + 1) (by omega)
    rw [sum_subsidyAt_main (by omega)] at hsum
    have := hfits.subsidies
    simp only [MAX_MONEY, COIN] at this
    omega
  · intro hearly
    have hmax : ∑ i ∈ range (h + 1), subsidyAt (mainParams hashGenesisBlock) i ≤ MAX_MONEY := by
      rw [sum_subsidyAt_main (by omega)]
      simp only [MAX_MONEY, COIN]
      omega
    refine ⟨hmax, ?_⟩
    intro rules n v w tx nSpendHeight r hparams hn hrun hnodup hcheck
    have hholds := hrun.holds
    rw [hparams] at hholds
    apply checkTxInputs_inRange hholds hnodup ?_ hcheck
    calc ∑ i ∈ Icc 1 n, subsidyAt (mainParams hashGenesisBlock) i
      _ ≤ ∑ i ∈ range (h + 1), subsidyAt (mainParams hashGenesisBlock) i := by
        apply sum_le_sum_of_subset_of_nonneg
        · intro i hi
          rw [mem_Icc] at hi
          exact mem_range.mpr (by omega)
        · intro i _ _
          exact subsidyAt_nonneg _ i
      _ ≤ MAX_MONEY := hmax

/-- The subsidies up to height 8760 are more than `MAX_MONEY`. -/
theorem subsidies_above_max : ∑ i ∈ Finset.range 8761, subsidyAt (mainParams 0) i = 2100239486000000 ∧
    MAX_MONEY < ∑ i ∈ Finset.range 8761, subsidyAt (mainParams 0) i ∧ ¬ FitsMoneyRange 0 8760 := by
  have hsum : ∑ i ∈ range 8761, subsidyAt (mainParams 0) i = 2100239486000000 := by
    rw [sum_subsidyAt_main (by omega)]
    norm_num
  have hmax : MAX_MONEY < 2100239486000000 := by decide
  refine ⟨hsum, ?_, ?_⟩
  · rw [hsum]
    exact hmax
  · intro hfits
    have := hfits.subsidies
    rw [hsum] at this
    omega

end FullNode

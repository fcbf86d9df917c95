import FullNode.BumpFees

/-! # The discount of a selection -/

namespace FullNode

open List

namespace MiniMiner

open Ancestry
open Relation

structure COutput where
  outpoint : COutPoint
  depth : Int
  ancestor_bump_fees : Int := 0

structure SelectionResult where
  m_selected_inputs : List COutput
  bump_fee_group_discount : Int := 0

variable {pool : MockEntryMap} {rate : Int} {outpoints : List COutPoint}

def calculateIndividualBumpFees (mempool : Option MockEntryMap) (outpoints : List COutPoint) (target_feerate : Int) :
    Checked (AssocMap COutPoint Int) :=
  match mempool with
  | none => .ok (outpoints.foldl (fun bump_fees outpoint => emplace bump_fees outpoint 0) ∅)
  | some mempool => do (← new mempool outpoints).calculateBumpFees target_feerate

def calculateCombinedBumpFee (mempool : Option MockEntryMap) (outpoints : List COutPoint)
    (target_feerate : Int) : Checked (Option Int) :=
  match mempool with
  | none => .ok (some 0)
  | some mempool => do (← new mempool outpoints).calculateTotalBumpFees target_feerate

def setBumpFeeDiscount (discount : Int) (result : SelectionResult) : Checked SelectionResult := do
  check (discount ≥ 0)
  return { result with bump_fee_group_discount := discount }

def unconfirmed (result : SelectionResult) : List COutput := result.m_selected_inputs.filter (¬ ·.depth > 0)

def enormousCluster : String :=
  "Failed to calculate bump fees, because unconfirmed UTXOs depend on enormous cluster of unconfirmed transactions."

/-- What `ChooseSelectionResult` does with one result. -/
def checkForSynergies (mempool : Option MockEntryMap) (m_effective_feerate : Int) (result : SelectionResult) :
    Checked (Except String SelectionResult) := do
  let outpoints := (unconfirmed result).map (·.outpoint)
  let summed_bump_fees := ((unconfirmed result).map (·.ancestor_bump_fees)).sum
  match ← calculateCombinedBumpFee mempool outpoints m_effective_feerate with
  | none => return .error enormousCluster
  | some combined_bump_fee =>
    let bump_fee_overestimate := summed_bump_fees - combined_bump_fee
    if bump_fee_overestimate ≠ 0 then return .ok (← setBumpFeeDiscount bump_fee_overestimate result)
    else return .ok result

/-! ## When the discount is one -/

def Quoted (fees : AssocMap COutPoint Int) (outpoints : List COutPoint) (result : SelectionResult) : Prop :=
  (unconfirmed result).map (·.outpoint) = outpoints ∧
    ∀ coin ∈ unconfirmed result, fees.lookup coin.outpoint = some coin.ancestor_bump_fees

variable {fees : AssocMap COutPoint Int} {result : SelectionResult}

theorem Quoted.sum (h : Quoted fees outpoints result) :
    ((unconfirmed result).map (·.ancestor_bump_fees)).sum = (outpoints.map fun o => (fees.lookup o).getD 0).sum := by
  rw [← h.1, List.map_map]
  congr 1
  refine map_congr_left fun coin hcoin => ?_
  rw [Function.comp_apply, h.2 coin hcoin]
  rfl

theorem checkForSynergies_ok {combined : Option Int}
    (hcombined : calculateCombinedBumpFee (some pool) outpoints rate = .ok combined)
    (hquoted : Quoted fees outpoints result)
    (hle : ∀ total ∈ combined, total ≤ (outpoints.map fun o => (fees.lookup o).getD 0).sum) :
    ∃ r, checkForSynergies (some pool) rate result = .ok r := by
  unfold checkForSynergies
  dsimp only
  rw [hquoted.1, hcombined, hquoted.sum, ok_bind]
  cases combined with
  | none => exact ⟨_, rfl⟩
  | some total =>
    dsimp only
    split
    · have hdiscount := hle total rfl
      rw [setBumpFeeDiscount, decide_eq_true (by omega)]
      exact ⟨_, rfl⟩
    · exact ⟨_, rfl⟩

def hasExactTotals (pool : MockEntryMap) : Bool :=
  pool.entries.all fun r =>
    match closure pool (parentsIn pool) [r.1] with
    | .error _ => false
    | .ok out => ((r.2.vsize_with_ancestors, r.2.fee_with_ancestors) : Int × Int) = (out.map (own pool)).sum

theorem exactTotals_of_hasExactTotals (h : hasExactTotals pool = true) : ExactTotals pool := by
  have hcopied : Copied pool pool := fun k e he => ⟨e, he, rfl, rfl, rfl⟩
  have hconvex : Convex pool pool := by
    intro k n a _ ha _ hna
    rcases hna.cases_head with rfl | ⟨_, hparent, -⟩
    · exact ha
    · exact (parent_mem hparent).1
  intro k e he
  have hstage : ∀ x ∈ [k], x ∈ pool := by simpa using mem_iff_lookup.mpr ⟨e, he⟩
  obtain ⟨_, hclosure, hnodup, hmem⟩ := closure_parentsIn hcopied hconvex hstage (nodup_singleton k)
  have hcheck := all_eq_true.mp h ⟨k, e⟩ (AList.mem_lookup_iff.mp he)
  dsimp only at hcheck
  rw [hclosure] at hcheck
  rw [of_decide_eq_true hcheck, ← sum_toFinset _ hnodup]
  refine Finset.sum_congr ?_ fun _ _ => rfl
  ext a
  rw [mem_toFinset, hmem, mem_ancestors, mem_toFinset]
  simp [AList.mem_keys]

def Acyclic (pool : MockEntryMap) : Prop := ∀ k, ¬TransGen (Parent pool) k k

def parentsAreLower (pool : MockEntryMap) : Bool :=
  pool.keys.all fun k => (parentsIn pool k).all fun p => p.toNat < k.toNat

theorem acyclic_of_parentsAreLower (h : parentsAreLower pool = true) : Acyclic pool := by
  have hstep : ∀ k p, Parent pool k p → p.toNat < k.toNat := by
    intro k p hparent
    have hall := all_eq_true.mp h k (AList.mem_keys.mpr (parent_mem hparent).1)
    exact of_decide_eq_true (all_eq_true.mp hall p hparent)
  have hlt : ∀ k p, TransGen (Parent pool) k p → p.toNat < k.toNat := by
    intro k p hreach
    induction hreach with
    | single hparent => exact hstep _ _ hparent
    | tail _ hparent ih => exact (hstep _ _ hparent).trans ih
  exact fun k hk => Nat.lt_irrefl _ (hlt k k hk)

def entry (txid : Uint256) (parents : List Uint256) (vsize fee vsize_with_ancestors fee_with_ancestors : Int) :
    Sigma fun _ : Uint256 => MiniMinerMempoolEntry :=
  ⟨txid, ⟨⟨parents.map fun p => { prevout := ⟨p, 0⟩, scriptSig := [], nSequence := 0xffffffff }, [], 2, 0, txid⟩,
    vsize, vsize_with_ancestors, fee, fee_with_ancestors⟩⟩

theorem reach_closed {S : List Uint256} (hclosed : (S.all fun k => (parentsIn pool k).all (· ∈ S)) = true)
    {k a : Uint256} (hk : k ∈ S) (h : ReflTransGen (Parent pool) k a) : a ∈ S := by
  induction h with
  | refl => exact hk
  | tail _ hparent ih => exact of_decide_eq_true (all_eq_true.mp (all_eq_true.mp hclosed _ ih) _ hparent)

/-- Two transactions that pay need a parent that does not. -/
def poorParent : MockEntryMap :=
  ⟨[entry 1 [] 1000 0 1000 0, entry 2 [1] 100 5000 1100 5000, entry 3 [1] 100 5000 1100 5000],
    by simp [List.NodupKeys, List.keys, entry]⟩

theorem poorParent_shares : SharesNoSurplus poorParent [⟨2, 0⟩, ⟨3, 0⟩] 10000 := by
  rintro L -
  refine pairwise_pair.mpr fun _ _ a ha ha' => ?_
  have hfirst := reach_closed (S := [2, 1]) (by decide) (by decide) (mem_ancestors.mp ha).2
  have hsecond := reach_closed (S := [3, 1]) (by decide) (by decide) (mem_ancestors.mp ha').2
  obtain rfl : a = 1 := by
    simp only [mem_cons, not_mem_nil, or_false] at hfirst hsecond
    grind
  decide

/-- Two transactions pay for a heavy parent that both outpoints need. -/
def richParents : MockEntryMap :=
  ⟨[entry 1 [] 1000 0 1000 0, entry 2 [1] 100 10500 1100 10500, entry 3 [1] 100 10500 1100 10500,
    entry 4 [] 900 0 900 0, entry 5 [] 900 0 900 0, entry 6 [2, 3, 4] 100 0 2200 21000,
    entry 7 [2, 3, 5] 100 0 2200 21000], by simp [List.NodupKeys, List.keys, entry]⟩

def richOutpoints : List COutPoint := [⟨6, 0⟩, ⟨7, 0⟩]

def richSelection : SelectionResult := ⟨richOutpoints.map fun o => ⟨o, 0, 1000⟩, 0⟩

end MiniMiner
end FullNode

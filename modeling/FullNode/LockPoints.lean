import FullNode.LockTimes

/-!
# Lock points

The memory pool keeps the sequence locks of a transaction for the block after the tip, with the highest block they
were read from.
-/

namespace FullNode

open CBlockIndex List

/-! ## The code -/

def MEMPOOL_HEIGHT : Nat := 0x7FFFFFFF

/-- A coin of the pool is taken to be confirmed in the next block. -/
def calculatePrevHeights (tip : CBlockIndex) (getCoin : COutPoint → Option Coin)
    (tx : CTransaction) : Option (List Int) :=
  tx.vin.mapM fun txin => (getCoin txin.prevout).map fun coin =>
    if coin.nHeight = MEMPOOL_HEIGHT then (tip.nHeight + 1 : Int) else coin.nHeight

/-- The block after the tip, with its height and parent. -/
def nextTip (tip : CBlockIndex) : CBlockIndex :=
  .mk { null.entry with nHeight := tip.nHeight + 1 } tip .null

/-- What `CalculateSequenceLocks` leaves in `prevHeights`. -/
def lockedHeights (tx : CTransaction) (verifySequence : Bool) (prevHeights : List Int) : List Int :=
  if tx.version ≥ 2#32 ∧ verifySequence then
    (tx.vin.zip prevHeights).map fun p => if p.1.nSequence &&& SEQUENCE_LOCKTIME_DISABLE_FLAG ≠ 0 then 0 else p.2
  else prevHeights

structure LockPoints where
  height : Int
  time : Int
  maxInputBlock : CBlockIndex
  deriving DecidableEq

/-- The loop over `prev_heights`. -/
def maxInputHeight (tip : CBlockIndex) (prevHeights : List Int) : Int :=
  prevHeights.foldl (fun m height => if height ≠ (tip.nHeight + 1 : Int) then max m height else m) 0

def calculateLockPointsAtTip (tip : CBlockIndex) (getCoin : COutPoint → Option Coin) (tx : CTransaction) :
    Checked (Option LockPoints) := do
  check !tip.isNull
  match calculatePrevHeights tip getCoin tx with
  | none => return none
  | some prevHeights =>
    let locks ← locksOf tx true prevHeights (nextTip tip)
    let maxInputBlock ← tip.getAncestor (maxInputHeight tip (lockedHeights tx true prevHeights))
    check !maxInputBlock.isNull
    return some ⟨locks.1, locks.2, maxInputBlock⟩

def checkSequenceLocksAtTip (tip : CBlockIndex) (lockPoints : LockPoints) : Checked Bool := do
  check !tip.isNull
  evaluateSequenceLocks (nextTip tip) (lockPoints.height, lockPoints.time)

/-- The chain that ends in a tip, by height. -/
def setTip : CBlockIndex → List CBlockIndex
  | .null => []
  | .mk entry pprev pskip => setTip pprev ++ [.mk entry pprev pskip]

def chainContains (vChain : List CBlockIndex) (pindex : CBlockIndex) : Bool := vChain[pindex.nHeight]? = some pindex

def testLockPointValidity (vChain : List CBlockIndex) (lp : LockPoints) : Bool :=
  lp.maxInputBlock.isNull || chainContains vChain lp.maxInputBlock

/-! ## Heights -/

/-- The height of a spent coin, `assumed` for one of the pool. -/
def coinHeight (assumed : Int) (getCoin : COutPoint → Option Coin) (txin : CTxIn) : Int :=
  match getCoin txin.prevout with
  | none => 0
  | some coin => if coin.nHeight = MEMPOOL_HEIGHT then assumed else coin.nHeight

def ViewAt (tip : CBlockIndex) (getCoin : COutPoint → Option Coin) : Prop :=
  ∀ outpoint coin, getCoin outpoint = some coin → coin.nHeight = MEMPOOL_HEIGHT ∨ coin.nHeight ≤ tip.nHeight

variable {tip : CBlockIndex} {getCoin : COutPoint → Option Coin} {tx : CTransaction}

theorem calculatePrevHeights_eq (hfound : ∀ txin ∈ tx.vin, ∃ coin, getCoin txin.prevout = some coin) :
    calculatePrevHeights tip getCoin tx = some (tx.vin.map (coinHeight (tip.nHeight + 1) getCoin)) := by
  rw [calculatePrevHeights]
  generalize tx.vin = vin at hfound ⊢
  induction vin with
  | nil => rfl
  | cons txin vin ih =>
    obtain ⟨coin, hcoin⟩ := hfound txin mem_cons_self
    rw [mapM_cons, ih fun t ht => hfound t (mem_cons_of_mem _ ht), map_cons, coinHeight, hcoin]
    rfl

theorem coinHeight_range (hview : ViewAt tip getCoin) (txin : CTxIn) : 0 ≤ coinHeight (tip.nHeight + 1) getCoin txin ∧
    (coinHeight (tip.nHeight + 1) getCoin txin = tip.nHeight + 1 ∨
      coinHeight (tip.nHeight + 1) getCoin txin ≤ tip.nHeight) := by
  unfold coinHeight
  split
  · exact ⟨le_rfl, Or.inr (Int.natCast_nonneg _)⟩
  · next coin hcoin =>
    split
    · exact ⟨by omega, Or.inl rfl⟩
    · next hpool =>
      have hle := (hview _ _ hcoin).resolve_left hpool
      exact ⟨Int.natCast_nonneg _, Or.inr (by omega)⟩

theorem zip_map_self {α β : Type} (f : α → β) (l : List α) : l.zip (l.map f) = l.map fun a => (a, f a) := by
  induction l with
  | nil => rfl
  | cons a l ih => rw [map_cons, zip_cons_cons, ih, map_cons]

theorem lockedHeights_map (verifySequence : Bool) (f : CTxIn → Int) :
    lockedHeights tx verifySequence (tx.vin.map f) = tx.vin.map fun txin =>
      if (tx.version ≥ 2#32 ∧ verifySequence) ∧ txin.nSequence &&& SEQUENCE_LOCKTIME_DISABLE_FLAG ≠ 0 then 0
      else f txin := by
  unfold lockedHeights
  split
  · next henforced =>
    rw [zip_map_self, map_map]
    simp only [henforced, true_and]
    rfl
  · next henforced =>
    simp only [henforced, false_and, if_false]

variable {heights : List Int} {tip block tip' : CBlockIndex} {lp : LockPoints} {k : Nat}

theorem foldl_maxInput {m : Int} (hm : m ≤ tip.nHeight)
    (h : ∀ height ∈ heights, height = tip.nHeight + 1 ∨ height ≤ tip.nHeight) :
    m ≤ heights.foldl (fun m height => if height ≠ (tip.nHeight + 1 : Int) then max m height else m) m ∧
      heights.foldl (fun m height => if height ≠ (tip.nHeight + 1 : Int) then max m height else m) m ≤ tip.nHeight ∧
      ∀ height ∈ heights, height ≤ tip.nHeight →
        height ≤ heights.foldl (fun m height => if height ≠ (tip.nHeight + 1 : Int) then max m height else m) m := by
  induction heights generalizing m with
  | nil => exact ⟨le_rfl, hm, fun _ hmem => absurd hmem not_mem_nil⟩
  | cons x heights ih =>
    have hx := h x mem_cons_self
    rw [foldl_cons]
    obtain ⟨hlow, hhigh, hall⟩ := @ih (if x ≠ (tip.nHeight + 1 : Int) then max m x else m)
      (by split <;> omega) fun y hy => h y (mem_cons_of_mem _ hy)
    have hstart : m ≤ if x ≠ (tip.nHeight + 1 : Int) then max m x else m := by split <;> omega
    refine ⟨hstart.trans hlow, hhigh, ?_⟩
    intro y hy hle
    rcases mem_cons.mp hy with rfl | hy
    · refine le_trans ?_ hlow
      rw [if_pos (by omega)]
      exact le_max_right _ _
    · exact hall y hy hle

theorem maxInputHeight_spec (h : ∀ height ∈ heights, height = tip.nHeight + 1 ∨ height ≤ tip.nHeight) :
    0 ≤ maxInputHeight tip heights ∧ maxInputHeight tip heights ≤ tip.nHeight ∧
      ∀ height ∈ heights, height ≤ tip.nHeight → height ≤ maxInputHeight tip heights :=
  foldl_maxInput (Int.natCast_nonneg _) h

/-! ## The chain -/

theorem setTip_length (h : Linked tip) (hne : tip ≠ null) : (setTip tip).length = tip.nHeight + 1 := by
  induction tip with
  | null => exact absurd rfl hne
  | mk e p s ihp _ =>
    have hheight := h.2.1
    rw [setTip, length_append, length_singleton, nHeight_mk, hheight]
    cases p with
    | null => rfl
    | mk e' p' s' =>
      rw [ihp h.1 (by simp)]
      rfl

theorem setTip_getElem (h : Linked tip) {height : Nat} (hle : height ≤ tip.nHeight) (hne : tip ≠ null) :
    (setTip tip)[height]? = some (tip.ancestor height) := by
  induction tip with
  | null => exact absurd rfl hne
  | mk e p s ihp _ =>
    have hheight := h.2.1
    rw [setTip]
    rw [nHeight_mk] at hle
    cases p with
    | null =>
      rw [hheight] at hle
      simp only [isNull, if_true, Nat.le_zero] at hle
      subst hle
      rw [ancestor_self _ _ (by rw [nHeight_mk, hheight]; rfl)]
      rfl
    | mk e' p' s' =>
      have hlength := setTip_length h.1 (by simp)
      simp only [isNull, Bool.false_eq_true, if_false] at hheight
      rcases Nat.lt_or_ge height e.nHeight with hlt | hge
      · rw [getElem?_append_left (by omega), ihp h.1 (by omega) (by simp), ancestor_mk _ _ _ _ hlt]
      · rw [ancestor_self _ _ hge, getElem?_append_right (by omega),
          show height - (setTip (mk e' p' s')).length = 0 by omega]
        rfl

/-! ## Locks -/

/-- The locks depend on heights of inputs and blocks below. -/
theorem calculateSequenceLocks_congr (b b' : CBlockIndex) (f f' : CTxIn → Int) (vin : List CTxIn)
    (h : ∀ txin ∈ vin, txin.nSequence &&& SEQUENCE_LOCKTIME_DISABLE_FLAG = 0 →
      f txin = f' txin ∧ b.getAncestor (max (f txin - 1) 0) = b'.getAncestor (max (f txin - 1) 0))
    (locks : Int × Int) :
    calculateSequenceLocks b locks (vin.map fun txin => (txin, f txin)) =
      calculateSequenceLocks b' locks (vin.map fun txin => (txin, f' txin)) := by
  induction vin generalizing locks with
  | nil => rfl
  | cons txin vin ih =>
    have hrest := ih fun t ht => h t (mem_cons_of_mem _ ht)
    rw [map_cons, map_cons, calculateSequenceLocks_cons, calculateSequenceLocks_cons]
    split
    · exact hrest _
    · next henabled =>
      obtain ⟨hheight, hancestor⟩ := h txin mem_cons_self (not_not.mp henabled)
      rw [← hheight, hancestor]
      simp only [hrest]

theorem calculateSequenceLocks_isOk {b : CBlockIndex} {f : CTxIn → Int} {vin : List CTxIn}
    (h : ∀ txin ∈ vin, ∃ a, b.getAncestor (max (f txin - 1) 0) = .ok a ∧ a.isNull = false) (locks : Int × Int) :
    ∃ r, calculateSequenceLocks b locks (vin.map fun txin => (txin, f txin)) = .ok r := by
  induction vin generalizing locks with
  | nil => exact ⟨locks, rfl⟩
  | cons txin vin ih =>
    have hrest := ih fun t ht => h t (mem_cons_of_mem _ ht)
    obtain ⟨a, ha, hnull⟩ := h txin mem_cons_self
    rw [map_cons, calculateSequenceLocks_cons, ha, ok_bind, hnull]
    split
    · exact hrest _
    · split
      · exact hrest _
      · exact hrest _

theorem getAncestor_above (hblock : Linked block) (hparent : block.pprev = tip) (hne : tip ≠ null)
    (hk : k ≤ tip.nHeight) : block.getAncestor k = .ok (tip.ancestor k) := by
  cases block with
  | null => exact absurd hparent.symm hne
  | mk e p s =>
    obtain rfl : p = tip := hparent
    have hheight := hblock.2.1
    rw [if_neg (by rw [isNull_iff]; exact hne)] at hheight
    rw [hblock.getAncestor_eq (by simp) (by rw [nHeight_mk]; omega), ancestor_mk _ _ _ _ (by omega)]

theorem linked_pprev (h : Linked block) : Linked block.pprev := by
  cases block with
  | null => trivial
  | mk e p s => exact h.parent

theorem nHeight_above (hblock : Linked block) (hparent : block.pprev = tip) (hne : tip ≠ null) :
    block.nHeight = tip.nHeight + 1 := by
  cases block with
  | null => exact absurd hparent.symm hne
  | mk e p s =>
    obtain rfl : p = tip := hparent
    have hheight := hblock.2.1
    rwa [if_neg (by rw [isNull_iff]; exact hne)] at hheight

theorem getAncestor_nextTip (htip : Linked tip) (hne : tip ≠ null) (hk : k ≤ tip.nHeight) :
    (nextTip tip).getAncestor k = .ok (tip.ancestor k) := by
  have hnull : tip.isNull = false := by simpa using mt (isNull_iff tip).mp hne
  have hheight : (nextTip tip).nHeight = tip.nHeight + 1 := rfl
  rw [getAncestor, if_neg (by omega), Int.toNat_natCast, hheight, nextTip, ancestorWalk, if_pos (by omega),
    if_neg (by simp [isNull])]
  simp only [hnull, Bool.not_false, check_true, ok_bind, Nat.add_sub_cancel]
  exact htip.ancestorWalk_eq hne hk

/-! ## At the tip -/

theorem prior_height {h : Int} {n : Nat} (hle : h ≤ n + 1) : ∃ k : Nat, k ≤ n ∧ max (h - 1) 0 = k := by
  obtain ⟨k, hk⟩ := Int.eq_ofNat_of_zero_le (le_max_right (h - 1) 0)
  exact ⟨k, by omega, hk⟩

theorem locksOf_isOk (tx : CTransaction) (htip : Linked tip) (hne : tip ≠ null) (hview : ViewAt tip getCoin) :
    ∃ locks, locksOf tx true (tx.vin.map (coinHeight (tip.nHeight + 1) getCoin)) (nextTip tip) = .ok locks := by
  unfold locksOf
  split
  · rw [zip_map_self]
    refine calculateSequenceLocks_isOk (fun txin _ => ?_) _
    have hrange := coinHeight_range hview txin
    obtain ⟨_, hk, heq⟩ := prior_height (h := coinHeight (tip.nHeight + 1) getCoin txin) (n := tip.nHeight) (by omega)
    rw [heq]
    refine ⟨_, getAncestor_nextTip htip hne hk, ?_⟩
    simpa using mt (isNull_iff _).mp (htip.ancestor_spec hne hk).1
  · exact ⟨_, rfl⟩

theorem maxInput_le_tip (tx : CTransaction) (hview : ViewAt tip getCoin) :
    ∀ height ∈ lockedHeights tx true (tx.vin.map (coinHeight (tip.nHeight + 1) getCoin)),
      height = tip.nHeight + 1 ∨ height ≤ tip.nHeight := by
  intro height hmem
  rw [lockedHeights_map] at hmem
  obtain ⟨txin, -, rfl⟩ := mem_map.mp hmem
  split
  · exact Or.inr (Int.natCast_nonneg _)
  · exact (coinHeight_range hview txin).2

theorem calculateLockPointsAtTip_spec (tx : CTransaction) (htip : Linked tip) (hne : tip ≠ null)
    (hview : ViewAt tip getCoin) (hfound : ∀ txin ∈ tx.vin, ∃ coin, getCoin txin.prevout = some coin) :
    ∃ (locks : Int × Int) (m : Nat),
      locksOf tx true (tx.vin.map (coinHeight (tip.nHeight + 1) getCoin)) (nextTip tip) = .ok locks ∧
      (m : Int) = maxInputHeight tip (lockedHeights tx true (tx.vin.map (coinHeight (tip.nHeight + 1) getCoin))) ∧
        m ≤ tip.nHeight ∧
      calculateLockPointsAtTip tip getCoin tx = .ok (some ⟨locks.1, locks.2, tip.ancestor m⟩) := by
  have hnull : tip.isNull = false := by simpa using mt (isNull_iff tip).mp hne
  obtain ⟨locks, hlocks⟩ := locksOf_isOk tx htip hne hview
  obtain ⟨hlow, _, -⟩ := maxInputHeight_spec (maxInput_le_tip tx hview)
  obtain ⟨m, hm⟩ := Int.eq_ofNat_of_zero_le hlow
  have hmle : m ≤ tip.nHeight := by omega
  have hmax : (tip.ancestor m).isNull = false := by
    simpa using mt (isNull_iff _).mp (htip.ancestor_spec hne hmle).1
  refine ⟨locks, m, hlocks, hm.symm, hmle, ?_⟩
  rw [calculateLockPointsAtTip, hnull, calculatePrevHeights_eq hfound]
  simp only [Bool.not_false, check_true, ok_bind, hlocks, hm, htip.getAncestor_eq hne hmle, hmax]
  rfl

theorem checkSequenceLocksAtTip_eq (hblock : Linked block) (hparent : block.pprev = tip)
    (hne : tip ≠ null) (hview : ViewAt tip getCoin)
    (hfound : ∀ txin ∈ tx.vin, ∃ coin, getCoin txin.prevout = some coin) :
    ∃ lp, calculateLockPointsAtTip tip getCoin tx = .ok (some lp) ∧
      checkSequenceLocksAtTip tip lp = sequenceLocks tx true (tx.vin.map (coinHeight block.nHeight getCoin)) block := by
  obtain ⟨locks, _, hlocks, -, -, hlp⟩ :=
      calculateLockPointsAtTip_spec tx (hparent ▸ linked_pprev hblock) hne hview hfound
  refine ⟨_, hlp, ?_⟩
  have hnull : tip.isNull = false := by simpa using mt (isNull_iff tip).mp hne
  have hheight := nHeight_above hblock hparent hne
  have hsame : locksOf tx true (tx.vin.map (coinHeight block.nHeight getCoin)) block = .ok locks := by
    rw [← hlocks, hheight]
    unfold locksOf
    split
    · push_cast
      rw [zip_map_self]
      refine calculateSequenceLocks_congr _ _ _ _ _ (fun txin _ _ => ⟨rfl, ?_⟩) _
      have hrange := coinHeight_range hview txin
      obtain ⟨_, hk, heq⟩ := prior_height (h := coinHeight (tip.nHeight + 1) getCoin txin) (n := tip.nHeight) (by omega)
      rw [heq, getAncestor_above hblock hparent hne hk, getAncestor_nextTip (hparent ▸ linked_pprev hblock) hne hk]
    · rfl
  rw [sequenceLocks_eq, hsame, checkSequenceLocksAtTip, hnull, Bool.not_false, check_true, ok_bind, ok_bind]
  unfold evaluateSequenceLocks
  rw [hparent, hheight]
  rfl

/-! ## At a later tip -/

theorem chain_of_valid (htip' : Linked tip') (hne' : tip' ≠ null)
    (hmax : lp.maxInputBlock.isNull = false) (hvalid : testLockPointValidity (setTip tip') lp = true) :
    lp.maxInputBlock.nHeight ≤ tip'.nHeight ∧ tip'.ancestor lp.maxInputBlock.nHeight = lp.maxInputBlock := by
  rw [testLockPointValidity, hmax, Bool.false_or, chainContains, decide_eq_true_iff] at hvalid
  have hlt := (List.getElem?_eq_some_iff.mp hvalid).1
  rw [setTip_length htip' hne'] at hlt
  have hle : lp.maxInputBlock.nHeight ≤ tip'.nHeight := by omega
  rw [setTip_getElem htip' hle hne'] at hvalid
  exact ⟨hle, Option.some.inj hvalid⟩

/-- Valid lock points are what would be calculated again. -/
theorem lockPoints_stay {getCoin' : COutPoint → Option Coin} (htip : Linked tip)
    (hne : tip ≠ null) (hview : ViewAt tip getCoin) (hlp : calculateLockPointsAtTip tip getCoin tx = .ok (some lp))
    (htip' : Linked tip') (hne' : tip' ≠ null) (hview' : ViewAt tip' getCoin')
    (hsame : ∀ txin ∈ tx.vin, ∃ coin coin', getCoin txin.prevout = some coin ∧ getCoin' txin.prevout = some coin' ∧
      (txin.nSequence &&& SEQUENCE_LOCKTIME_DISABLE_FLAG = 0 →
        coin.nHeight ≠ MEMPOOL_HEIGHT ∧ coin'.nHeight = coin.nHeight))
    (hvalid : testLockPointValidity (setTip tip') lp = true) :
    ∃ lp', calculateLockPointsAtTip tip' getCoin' tx = .ok (some lp') ∧ lp'.height = lp.height ∧
      lp'.time = lp.time := by
  have hfound : ∀ txin ∈ tx.vin, ∃ coin, getCoin txin.prevout = some coin := fun txin hmem => by
    obtain ⟨coin, -, hcoin, -⟩ := hsame txin hmem
    exact ⟨coin, hcoin⟩
  have hfound' : ∀ txin ∈ tx.vin, ∃ coin, getCoin' txin.prevout = some coin := fun txin hmem => by
    obtain ⟨-, coin', -, hcoin', -⟩ := hsame txin hmem
    exact ⟨coin', hcoin'⟩
  obtain ⟨locks, m, hlocks, _, hmle, heq⟩ := calculateLockPointsAtTip_spec tx htip hne hview hfound
  obtain ⟨locks', _, hlocks', -, -, heq'⟩ := calculateLockPointsAtTip_spec tx htip' hne' hview' hfound'
  cases Except.ok.inj (hlp.symm.trans heq)
  obtain ⟨hmaxne, hmaxheight, -⟩ := htip.ancestor_spec hne hmle
  obtain ⟨hmle', hchain⟩ := chain_of_valid htip' hne' (by simpa using mt (isNull_iff _).mp hmaxne) hvalid
  simp only [hmaxheight] at hmle' hchain
  have hancestor {k : Nat} (hk : k ≤ m) : tip'.ancestor k = tip.ancestor k := by
    rw [← ancestor_ancestor tip' hk, hchain, ancestor_ancestor tip hk]
  have hstay : locks' = locks := by
    rw [locksOf] at hlocks hlocks'
    split at hlocks
    · next henforced =>
      rw [if_pos henforced, zip_map_self] at hlocks'
      rw [zip_map_self] at hlocks
      have hcongr := calculateSequenceLocks_congr (nextTip tip') (nextTip tip)
        (coinHeight (tip'.nHeight + 1) getCoin') (coinHeight (tip.nHeight + 1) getCoin) tx.vin
        (fun txin hmem henabled => ?_) (-1, -1)
      · rw [hcongr, hlocks] at hlocks'
        exact (Except.ok.inj hlocks').symm
      · obtain ⟨coin, coin', hcoin, hcoin', hconfirmed⟩ := hsame txin hmem
        obtain ⟨hpool, hheight⟩ := hconfirmed henabled
        have hold : coinHeight (tip.nHeight + 1) getCoin txin = coin.nHeight := by
          simp only [coinHeight, hcoin, if_neg hpool]
        have hnew : coinHeight (tip'.nHeight + 1) getCoin' txin = coin.nHeight := by
          simp only [coinHeight, hcoin', hheight, if_neg hpool]
        have hle := (hview _ _ hcoin).resolve_left hpool
        have hmem' : (coin.nHeight : Int) ∈
            lockedHeights tx true (tx.vin.map (coinHeight (tip.nHeight + 1) getCoin)) := by
          rw [lockedHeights_map]
          refine mem_map.mpr ⟨txin, hmem, ?_⟩
          rw [if_neg (fun h => h.2 henabled), hold]
        have hmax := (maxInputHeight_spec (maxInput_le_tip tx hview)).2.2 _ hmem' (by omega)
        obtain ⟨k, hk, hprior⟩ := prior_height (h := (coin.nHeight : Int)) (n := coin.nHeight) (by omega)
        rw [hold, hnew]
        refine ⟨rfl, ?_⟩
        rw [hprior, getAncestor_nextTip htip' hne' (by omega), getAncestor_nextTip htip hne (by omega),
          hancestor (by omega)]
    · next henforced =>
      rw [if_neg henforced] at hlocks'
      exact Except.ok.inj (hlocks'.symm.trans hlocks)
  exact ⟨_, heq', by rw [hstay], by rw [hstay]⟩

/-- Lock points decide as the next block, and while valid they stay. -/
theorem lockPoints_agree {tip : CBlockIndex} {getCoin : COutPoint → Option Coin} {tx : CTransaction} (htip : Linked tip)
    (hne : tip ≠ null) (hview : ViewAt tip getCoin)
    (hfound : ∀ txin ∈ tx.vin, ∃ coin, getCoin txin.prevout = some coin) :
    ∃ lp, calculateLockPointsAtTip tip getCoin tx = .ok (some lp) ∧
      (∀ block, Linked block → block.pprev = tip → checkSequenceLocksAtTip tip lp =
          sequenceLocks tx true (tx.vin.map (coinHeight block.nHeight getCoin)) block) ∧
      ∀ tip' getCoin', Linked tip' → tip' ≠ null → ViewAt tip' getCoin' →
        (∀ txin ∈ tx.vin, ∃ coin coin', getCoin txin.prevout = some coin ∧ getCoin' txin.prevout = some coin' ∧
          (txin.nSequence &&& SEQUENCE_LOCKTIME_DISABLE_FLAG = 0 →
            coin.nHeight ≠ MEMPOOL_HEIGHT ∧ coin'.nHeight = coin.nHeight)) →
        testLockPointValidity (setTip tip') lp = true →
        ∃ lp', calculateLockPointsAtTip tip' getCoin' tx = .ok (some lp') ∧ lp'.height = lp.height ∧
          lp'.time = lp.time := by
  obtain ⟨_, _, -, -, -, hlp⟩ := calculateLockPointsAtTip_spec tx htip hne hview hfound
  refine ⟨_, hlp, ?_, ?_⟩
  · intro block hblock hparent
    obtain ⟨lp, hlp', hcheck⟩ := checkSequenceLocksAtTip_eq hblock hparent hne hview hfound
    cases Except.ok.inj (hlp.symm.trans hlp')
    exact hcheck
  · intro tip' getCoin' htip' hne' hview' hsame hvalid
    exact lockPoints_stay htip hne hview hlp htip' hne' hview' hsame hvalid

def thirdBlock : CBlockIndex := .mk ⟨3, 2, 3, 0, 0, 1800, 0, 0⟩ secondBlock firstBlock

def secondCoin : COutPoint → Option Coin := fun _ => some ⟨⟨0, []⟩, false, 1⟩

theorem waitingTx_lockPoints : ∃ lp, calculateLockPointsAtTip secondBlock secondCoin waitingTx = .ok (some lp) ∧
    checkSequenceLocksAtTip secondBlock lp = sequenceLocks waitingTx true [1] thirdBlock ∧
    ∃ lp', calculateLockPointsAtTip thirdBlock secondCoin waitingTx = .ok (some lp') ∧ lp'.height = lp.height ∧
      lp'.time = lp.time := by
  have hlinked : Linked thirdBlock := by
    refine ⟨⟨⟨trivial, ?_⟩, ?_⟩, ?_⟩ <;> decide
  have hview (tip : CBlockIndex) (h : 1 ≤ tip.nHeight) : ViewAt tip secondCoin := by
    intro outpoint coin hcoin
    cases hcoin
    exact Or.inr h
  obtain ⟨lp, hlp, hblock, hlater⟩ := @lockPoints_agree secondBlock secondCoin waitingTx
    hlinked.parent (by decide) (hview _ (by decide)) fun _ _ => ⟨_, rfl⟩
  have hvalue : calculateLockPointsAtTip secondBlock secondCoin waitingTx = .ok (some ⟨1, -1, secondBlock⟩) := by decide
  cases Except.ok.inj (hlp.symm.trans hvalue)
  exact ⟨_, hlp, hblock thirdBlock hlinked rfl, hlater thirdBlock secondCoin hlinked (by decide) (hview _ (by decide))
      (fun _ _ => ⟨_, _, rfl, rfl, fun _ => ⟨by decide, rfl⟩⟩) (by decide)⟩

variable {b : CBlockIndex}

/-! ## How the chain is set -/

def CChain.resize (vChain : List CBlockIndex) (size : Nat) : List CBlockIndex :=
  vChain.take size ++ replicate (size - vChain.length) null

/-- The loop of `SetTip`, which ends at a block that is in place. -/
def CChain.setTipLoop : CBlockIndex → List CBlockIndex → List CBlockIndex
  | .null, vChain => vChain
  | .mk entry pprev pskip, vChain =>
    if vChain[entry.nHeight]? = some (.mk entry pprev pskip) then vChain
    else setTipLoop pprev (vChain.set entry.nHeight (.mk entry pprev pskip))

def CChain.setTip (vChain : List CBlockIndex) (block : CBlockIndex) : List CBlockIndex :=
  setTipLoop block (resize vChain (block.nHeight + 1))

theorem setTip_take (h : (setTip tip)[k]? = some b) : (setTip tip).take (k + 1) = setTip b := by
  induction tip with
  | null => cases h
  | mk e p s ihp _ =>
    rw [setTip] at h ⊢
    rcases Nat.lt_or_ge k (setTip p).length with hlt | hge
    · rw [getElem?_append_left hlt] at h
      rw [take_append_of_le_length hlt, ihp h]
    · obtain ⟨hlast, hb⟩ := List.getElem?_eq_some_iff.mp h
      rw [length_append, length_singleton] at hlast
      rw [getElem_append_right hge, getElem_singleton] at hb
      rw [take_of_length_le (by rw [length_append, length_singleton]; omega), ← hb, setTip]

/-- Below the round's block the old chain is in place, and all below a block in place is. -/
theorem setTipLoop_getElem (h : Linked b) {vChain : List CBlockIndex}
    (hold : ∀ i, i < (setTip b).length → vChain[i]? = some ((setTip tip)[i]?.getD null)) (i : Nat) :
    (CChain.setTipLoop b vChain)[i]? = if i < (setTip b).length then (setTip b)[i]? else vChain[i]? := by
  induction b generalizing vChain with
  | null => simp [CChain.setTipLoop, setTip]
  | mk e p s ihp _ =>
    have hlength := setTip_length h (by simp)
    rw [setTip, length_append, length_singleton] at hold hlength ⊢
    rw [nHeight_mk] at hlength
    rw [CChain.setTipLoop]
    split
    · next hsame =>
      rw [hold _ (by omega), Option.some_inj] at hsame
      have hsome : (setTip tip)[e.nHeight]? = some (mk e p s) := by grind
      have htake := setTip_take hsome
      rw [setTip] at htake
      rw [← htake]
      grind
    · rw [ihp h.1 fun j hj => ?_]
      · grind
      · rw [getElem?_set_ne (by omega), hold j (by omega)]

theorem setTip_chain (tip : CBlockIndex) (h : Linked b) (hne : b ≠ null) : CChain.setTip (setTip tip) b = setTip b := by
  have hlength := setTip_length h hne
  have hresize : ∀ i, (CChain.resize (setTip tip) (b.nHeight + 1))[i]? =
      if i < b.nHeight + 1 then some ((setTip tip)[i]?.getD null) else none := by
    intro i
    rw [CChain.resize, getElem?_append, length_take, getElem?_take, getElem?_replicate]
    grind
  apply ext_getElem?
  intro i
  rw [CChain.setTip, @setTipLoop_getElem tip b h _ fun j hj => by rw [hresize, if_pos (by omega)], hresize]
  grind

/-- After any calls the chain is that of the last tip. -/
theorem setTip_calls (tip : CBlockIndex) {blocks : List CBlockIndex} (h : ∀ b ∈ blocks, Linked b ∧ b ≠ null) :
    blocks.foldl CChain.setTip (setTip tip) = setTip (blocks.getLast?.getD tip) := by
  induction blocks generalizing tip with
  | nil => rfl
  | cons b blocks ih =>
    obtain ⟨⟨hb, hne⟩, hrest⟩ := forall_mem_cons.mp h
    rw [foldl_cons, setTip_chain tip hb hne, ih b hrest, getLast?_cons]
    rfl

theorem thirdBlock_calls : [thirdBlock, secondBlock].foldl CChain.setTip (setTip .null) = setTip secondBlock := by
  have hlinked : Linked thirdBlock := by
    refine ⟨⟨⟨trivial, ?_⟩, ?_⟩, ?_⟩ <;> decide
  exact setTip_calls .null (by simpa using ⟨⟨hlinked, by decide⟩, hlinked.1, by decide⟩)

end FullNode

import FullNode.CompactBlockSlots

/-! # The counters of `InitData` -/

namespace FullNode.CompactBlock

open List Slot
open Wire (CMutableTransaction)

/-! ## Collisions -/

section Collisions

variable (getWitnessHash : CMutableTransaction → Uint256) (getShortID : CMutableTransaction → Uint64)
  (pool extra : List CMutableTransaction) (sid : Uint64)

/-- Only extra transactions have the id, all of the same wtxid. -/
def onlyExtra : Bool :=
  pool.all (getShortID · ≠ sid) &&
    match extra.filter (getShortID · = sid) with
    | [] => false
    | tx :: others => others.all fun other => decide (getWitnessHash tx = getWitnessHash other)

/-- The id of one in the mempool and of another extra one. -/
def collides : Bool :=
  match pool.filter (getShortID · = sid) with
  | [tx] => (extra.filter (getShortID · = sid)).any fun other => !decide (getWitnessHash tx = getWitnessHash other)
  | _ => false

end Collisions

variable {getWitnessHash : CMutableTransaction → Uint256} {getShortID : CMutableTransaction → Uint64}

variable (others : List CMutableTransaction)

theorem offer_withdrawn : others.foldl (offer getWitnessHash) .withdrawn = .withdrawn := by
  induction others with
  | nil => rfl
  | cons other others ih => exact ih

theorem offer_displaced : others.foldl (offer getWitnessHash) .displaced = .displaced := by
  induction others with
  | nil => rfl
  | cons other others ih => exact ih

theorem offer_extra (tx : CMutableTransaction) (others : List CMutableTransaction) :
    others.foldl (offer getWitnessHash) (.extra tx) =
    if (others.all fun other => decide (getWitnessHash tx = getWitnessHash other)) then .extra tx else .withdrawn := by
  induction others with
  | nil => rfl
  | cons other others ih =>
    rw [foldl_cons, all_cons, offer]
    split
    · next hsame => rw [ih, decide_eq_true hsame, Bool.true_and]
    · next hother => rw [offer_withdrawn, decide_eq_false hother, Bool.false_and, if_neg Bool.false_ne_true]

theorem offer_mempool (tx : CMutableTransaction) (others : List CMutableTransaction) :
    others.foldl (offer getWitnessHash) (.mempool tx) =
    if (others.any fun other => !decide (getWitnessHash tx = getWitnessHash other)) then .displaced
      else .mempool tx := by
  induction others with
  | nil => rfl
  | cons other others ih =>
    rw [foldl_cons, any_cons, offer]
    split
    · next hsame => rw [ih, decide_eq_true hsame, Bool.not_true, Bool.false_or]
    · next hother => rw [offer_displaced, decide_eq_false hother, Bool.not_false, Bool.true_or, if_pos rfl]

theorem filter_eq_nil {pool : List CMutableTransaction} {sid : Uint64} :
    pool.filter (getShortID · = sid) = [] ↔ pool.all (getShortID · ≠ sid) = true := by
  simp [filter_eq_nil_iff]

theorem slotOf_isExtra (pool extra : List CMutableTransaction) (sid : Uint64) :
    (slotOf getWitnessHash getShortID pool extra sid).isExtra = onlyExtra getWitnessHash getShortID pool extra sid := by
  unfold slotOf onlyExtra
  rcases hpool : pool.filter (getShortID · = sid) with _ | ⟨tx, _ | ⟨tx', rest⟩⟩
  · rw [filter_eq_nil.mp hpool, Bool.true_and]
    cases hextra : extra.filter (getShortID · = sid) with
    | nil => rfl
    | cons tx others =>
      dsimp only
      rw [ofMempool, foldl_cons, offer, offer_extra]
      cases others.all _ <;> rfl
  · have hnot : pool.all (getShortID · ≠ sid) = false := by
      rw [← Bool.not_eq_true, ← filter_eq_nil, hpool]
      exact cons_ne_nil _ _
    rw [hnot, Bool.false_and, ofMempool, offer_mempool]
    split <;> rfl
  · have hnot : pool.all (getShortID · ≠ sid) = false := by
      rw [← Bool.not_eq_true, ← filter_eq_nil, hpool]
      exact cons_ne_nil _ _
    rw [hnot, Bool.false_and, show ofMempool (tx :: tx' :: rest) = .withdrawn from rfl, offer_withdrawn]
    rfl

theorem slotOf_isDisplaced (pool extra : List CMutableTransaction) (sid : Uint64) :
    (slotOf getWitnessHash getShortID pool extra sid).isDisplaced =
      collides getWitnessHash getShortID pool extra sid := by
  unfold slotOf collides
  rcases pool.filter (getShortID · = sid) with _ | ⟨tx, _ | ⟨tx', rest⟩⟩
  · cases extra.filter (getShortID · = sid) with
    | nil => rfl
    | cons tx others =>
      rw [ofMempool, foldl_cons, offer, offer_extra]
      split <;> rfl
  · dsimp only
    rw [ofMempool, offer_mempool]
    cases (extra.filter (getShortID · = sid)).any _ <;> rfl
  · rw [show ofMempool (tx :: tx' :: rest) = .withdrawn from rfl, offer_withdrawn]
    rfl

/-! ## Prefixes of the extra transactions -/

theorem scanned_append {α : Type} (stop : List α → Bool) (done l : List α) (a : α) :
    scanned stop done (l ++ [a]) = scanned stop done l ∨ scanned stop done (l ++ [a]) = scanned stop done l ++ [a] := by
  induction l generalizing done with
  | nil =>
    right
    simp [scanned]
  | cons b l ih =>
    rw [cons_append, scanned, scanned]
    split
    · exact .inl rfl
    · exact ih _

variable {msg : CBlockHeaderAndShortTxIDs} {pool : List CMutableTransaction}
  {extraTxn : List (Option CMutableTransaction)}

theorem scannedExtra_take (msg : CBlockHeaderAndShortTxIDs) (pool : List CMutableTransaction)
    (extraTxn : List (Option CMutableTransaction)) (k : Nat) :
    scannedExtra msg pool (extraTxn.take (k + 1)) = scannedExtra msg pool (extraTxn.take k) ∨
      ∃ tx, scannedExtra msg pool (extraTxn.take (k + 1)) = scannedExtra msg pool (extraTxn.take k) ++ [tx] := by
  rw [take_add_one]
  unfold scannedExtra
  rcases extraTxn[k]? with _ | _ | tx
  · left
    rw [Option.toList_none, append_nil]
  · left
    rw [Option.toList_some, reduceOption_append]
    simp
  · rw [Option.toList_some, reduceOption_append]
    rcases scanned_append (filledIn msg (scannedMempool msg pool)) [] (extraTxn.take k).reduceOption tx with h | h
    · exact .inl h
    · exact .inr ⟨tx, h⟩

/-! ## The surplus of extra transactions -/

/-- The number that `extra_count` stands for. -/
def surplus (msg : CBlockHeaderAndShortTxIDs) (pool extra : List CMutableTransaction) : Int :=
  msg.shorttxids.countP (fun sid => (slotIn msg pool extra sid).isExtra) -
    msg.shorttxids.countP fun sid => (slotIn msg pool extra sid).isDisplaced

theorem surplus_nil (msg : CBlockHeaderAndShortTxIDs) (pool : List CMutableTransaction) : 0 ≤ surplus msg pool [] := by
  have hzero : msg.shorttxids.countP (fun sid => (slotIn msg pool [] sid).isDisplaced) = 0 := by
    rw [countP_eq_zero]
    intro sid _
    unfold slotIn
    rw [slotOf_isDisplaced]
    unfold collides
    rcases pool.filter (msg.getShortID · = sid) with _ | ⟨_, _ | ⟨_, _⟩⟩
    all_goals exact Bool.false_ne_true
  unfold surplus
  omega

theorem surplus_append (hnodup : msg.shorttxids.Nodup) (pool extra : List CMutableTransaction)
    (tx : CMutableTransaction) : surplus msg pool extra - 1 ≤ surplus msg pool (extra ++ [tx]) := by
  have happend := @slotOf_extra Pool.getWitnessHash msg.getShortID pool extra tx
  by_cases hmem : msg.getShortID tx ∈ msg.shorttxids
  · have hcount (P : Slot → Bool) := countP_change
      (P := fun sid => P (slotIn msg pool (extra ++ [tx]) sid)) (Q := fun sid => P (slotIn msg pool extra sid))
      hnodup hmem fun sid hne => by
        unfold slotIn
        rw [happend, if_neg hne.symm]
    have hself : slotIn msg pool (extra ++ [tx]) (msg.getShortID tx) =
        (slotIn msg pool extra (msg.getShortID tx)).offer Pool.getWitnessHash tx := by
      unfold slotIn
      rw [happend, if_pos rfl]
    have hextra := hcount isExtra
    have hdisplaced := hcount isDisplaced
    rw [hself] at hextra hdisplaced
    unfold surplus
    generalize slotIn msg pool extra (msg.getShortID tx) = slot at hextra hdisplaced
    have hone : (slot.isExtra.toNat : Int) + (slot.offer Pool.getWitnessHash tx).isDisplaced.toNat ≤
        (slot.offer Pool.getWitnessHash tx).isExtra.toNat + slot.isDisplaced.toNat + 1 := by
      generalize Pool.getWitnessHash = wtxid
      cases slot with
      | free => simp [offer, isExtra, isDisplaced]
      | mempool tx' | extra tx' =>
        rw [offer]
        split <;> simp [isExtra, isDisplaced]
      | withdrawn | displaced => simp [offer, isExtra, isDisplaced]
    omega
  · have hsame : ∀ P : Slot → Bool, msg.shorttxids.countP (fun sid => P (slotIn msg pool (extra ++ [tx]) sid)) =
        msg.shorttxids.countP fun sid => P (slotIn msg pool extra sid) := by
      intro P
      refine countP_congr fun sid hmem' => ?_
      have hne : msg.getShortID tx ≠ sid := by
        rintro rfl
        exact hmem hmem'
      unfold slotIn
      rw [happend, if_neg hne]
    unfold surplus
    rw [hsame, hsame]
    omega

/-! ## The counters -/

def filledCount (msg : CBlockHeaderAndShortTxIDs) (s : PartiallyDownloadedBlock) : Nat :=
  (List.range s.txnAvailable.length).countP fun p : Nat =>
    s.txnAvailable[p]?.join.isSome && decide ((p : Int) ∉ absoluteIndexes (-1) msg.prefilledtxn)

theorem absoluteIndexes_length (last : Int) (prefilledtxn : List PrefilledTransaction) :
    (absoluteIndexes last prefilledtxn).length = prefilledtxn.length := by
  fun_induction absoluteIndexes last prefilledtxn with
  | case1 => rfl
  | case2 last prefilled prefilledtxn ih => rw [length_cons, length_cons, ih]

theorem free_iff {last : Int} {prefilledtxn : List PrefilledTransaction}
    {before after : List (Option CMutableTransaction)} {p : Nat} (h : Placed last prefilledtxn before after)
    (hbefore : before[p]? = some none) :
    after[p]? = some none ↔ (p : Int) ∉ absoluteIndexes last prefilledtxn := by
  constructor
  · intro hnone hmem
    rw [← map_fst_zip (absoluteIndexes_length last prefilledtxn).le] at hmem
    obtain ⟨entry, hentry, heq⟩ := mem_map.mp hmem
    have hplaced := h.placed entry hentry
    rw [heq, Int.toNat_natCast, hnone] at hplaced
    cases hplaced
  · intro hmem
    rw [h.kept p hmem, hbefore]

variable {base : List (Option CMutableTransaction)} {positions : AssocMap Uint64 (BitVec 16)}
  {s : PartiallyDownloadedBlock}

theorem Initialized.filledCount_eq (h : Initialized msg pool extraTxn base positions s) :
    filledCount msg s = msg.shorttxids.countP fun sid =>
      (slotIn msg (scannedMempool msg pool) (scannedExtra msg pool extraTxn) sid).isFilled := by
  obtain ⟨_, htracks⟩ := h.tracks
  have hlength : s.txnAvailable.length = base.length := htracks.length
  have hbase : base.length = msg.blockTxCount := h.placed.length.trans length_replicate
  have hperm : ((range base.length).filter fun p : Nat =>
      decide ((p : Int) ∉ absoluteIndexes (-1) msg.prefilledtxn)).Perm (freeFrom 0 base) := by
    rw [perm_ext_iff_of_nodup (nodup_range.filter _) nodup_freeFrom]
    intro p
    rw [mem_filter, mem_range, decide_eq_true_eq, mem_freeFrom, Nat.sub_zero]
    constructor
    · rintro ⟨hlt, hnot⟩
      refine ⟨Nat.zero_le _, (free_iff h.placed ?_).mpr hnot⟩
      rw [getElem?_replicate, if_pos (hbase ▸ hlt)]
    · rintro ⟨-, hnone⟩
      have hlt := (List.getElem?_eq_some_iff.mp hnone).1
      refine ⟨hlt, (free_iff h.placed ?_).mp hnone⟩
      rw [getElem?_replicate, if_pos (hbase ▸ hlt)]
  have hfilled : (freeFrom 0 base).map (fun f => s.txnAvailable[f]?.join.isSome) = msg.shorttxids.map fun sid =>
      (slotIn msg (scannedMempool msg pool) (scannedExtra msg pool extraTxn) sid).isFilled := by
    apply ext_getElem
    · rw [length_map, length_map, h.slots.enough]
    · intro k hk _
      rw [length_map] at hk
      obtain ⟨sid, hget, hlookup⟩ := h.slots.place k _ (getElem?_eq_getElem hk)
      obtain ⟨k', hget', hplace⟩ := h.slots.known hlookup
      have hkk : k' = k := by
        obtain ⟨hlt, hk1⟩ := List.getElem?_eq_some_iff.mp hget
        obtain ⟨_, hk2⟩ := List.getElem?_eq_some_iff.mp hget'
        exact h.slots.nodup.getElem_inj_iff.mp (hk2.trans hk1.symm)
      subst hkk
      have hpos := Option.some.inj ((getElem?_eq_getElem hk).symm.trans hplace)
      have havailable := htracks.available hlookup
      rw [← hpos] at havailable
      rw [getElem_map, getElem_map, havailable, (List.getElem?_eq_some_iff.mp hget).2]
      rfl
  have hcount : ∀ {α : Type} (P : α → Bool) (l : List α), l.countP P = (l.map P).countP id := by
    intro α P l
    rw [countP_map]
    rfl
  unfold filledCount
  rw [hlength, ← countP_filter, hperm.countP_eq, hcount, hfilled, ← hcount]

def Wraps (before after : Uint64) : Prop := before = 0 ∧ after = BitVec.allOnes 64

/-- The counters are exact at the end, and no round wraps one. -/
structure CountersExact (bucketSize : BucketSize) (msg : CBlockHeaderAndShortTxIDs) (pool : List CMutableTransaction)
    (extraTxn : List (Option CMutableTransaction)) (s : PartiallyDownloadedBlock) : Prop where
  mempoolCount : s.mempoolCount.toNat = filledCount msg s
  extraCount : s.extraCount ≤ s.mempoolCount
  mempoolRounds : ∀ k before after, initData bucketSize msg (pool.take k) [] {} = .ok (.ok, before) →
    initData bucketSize msg (pool.take (k + 1)) [] {} = .ok (.ok, after) →
      ¬ Wraps before.mempoolCount after.mempoolCount ∧ ¬ Wraps before.extraCount after.extraCount
  extraRounds : ∀ k before after, initData bucketSize msg pool (extraTxn.take k) {} = .ok (.ok, before) →
    initData bucketSize msg pool (extraTxn.take (k + 1)) {} = .ok (.ok, after) →
      ¬ Wraps before.mempoolCount after.mempoolCount ∧ ¬ Wraps before.extraCount after.extraCount

/-- The ids only extra ones have are as many as those one of the mempool shares with another. -/
def Balanced (msg : CBlockHeaderAndShortTxIDs) (pool : List CMutableTransaction)
    (extraTxn : List (Option CMutableTransaction)) : Prop :=
  ∀ k, msg.shorttxids.countP (collides Pool.getWitnessHash msg.getShortID (scannedMempool msg pool)
      (scannedExtra msg pool (extraTxn.take k))) ≤
    msg.shorttxids.countP (onlyExtra Pool.getWitnessHash msg.getShortID (scannedMempool msg pool)
      (scannedExtra msg pool (extraTxn.take k)))

theorem balanced_iff : Balanced msg pool extraTxn ↔
    ∀ k, 0 ≤ surplus msg (scannedMempool msg pool) (scannedExtra msg pool (extraTxn.take k)) := by
  refine forall_congr' fun k => ?_
  unfold surplus slotIn
  simp only [slotOf_isExtra, slotOf_isDisplaced]
  rw [Int.sub_nonneg, Int.ofNat_le]

variable (h : Initialized msg pool extraTxn base positions s)
include h

theorem Initialized.mempoolCount_eq (hshort : msg.blockTxCount ≤ 0xffff) :
    s.mempoolCount.toNat = filledCount msg s ∧ filledCount msg s ≤ 0xffff := by
  obtain ⟨_, htracks⟩ := h.tracks
  have hle : filledCount msg s ≤ msg.shorttxids.length := by
    rw [h.filledCount_eq]
    exact countP_le_length
  have hids : msg.shorttxids.length ≤ 0xffff := by
    unfold CBlockHeaderAndShortTxIDs.blockTxCount at hshort
    omega
  have hcount : s.mempoolCount = _ := htracks.mempoolCount
  refine ⟨?_, hle.trans hids⟩
  rw [hcount, ← h.filledCount_eq, BitVec.toNat_ofNat]
  exact Nat.mod_eq_of_lt (by omega)

theorem Initialized.extraCount_eq (hshort : msg.blockTxCount ≤ 0xffff)
    (hpos : 0 ≤ surplus msg (scannedMempool msg pool) (scannedExtra msg pool extraTxn)) :
    (s.extraCount.toNat : Int) = surplus msg (scannedMempool msg pool) (scannedExtra msg pool extraTxn) ∧
      s.extraCount.toNat ≤ s.mempoolCount.toNat := by
  obtain ⟨_, htracks⟩ := h.tracks
  obtain ⟨_, _⟩ := h.mempoolCount_eq hshort
  have hcount : s.extraCount = _ := htracks.extraCount
  unfold surplus at hpos ⊢
  have hextra : msg.shorttxids.countP (fun sid =>
      (slotIn msg (scannedMempool msg pool) (scannedExtra msg pool extraTxn) sid).isExtra) ≤
        filledCount msg s := by
    rw [h.filledCount_eq]
    refine countP_mono_left fun sid _ hisExtra => ?_
    cases hslot : slotIn msg (scannedMempool msg pool) (scannedExtra msg pool extraTxn) sid with
    | extra tx => rfl
    | free | mempool tx | withdrawn | displaced =>
      rw [hslot] at hisExtra
      cases hisExtra
  rw [BitVec.ofNat_sub_ofNat_of_le _ _ (by omega) (by omega)] at hcount
  rw [hcount, BitVec.toNat_ofNat, Nat.mod_eq_of_lt (by omega)]
  omega

theorem Initialized.extraCount_wrapped
    (hneg : surplus msg (scannedMempool msg pool) (scannedExtra msg pool extraTxn) = -1) :
    s.extraCount = BitVec.allOnes 64 := by
  obtain ⟨_, htracks⟩ := h.tracks
  have hcount : s.extraCount = _ := htracks.extraCount
  unfold surplus at hneg
  rw [hcount, show msg.shorttxids.countP (fun sid =>
      (slotIn msg (scannedMempool msg pool) (scannedExtra msg pool extraTxn) sid).isDisplaced) =
    msg.shorttxids.countP (fun sid =>
      (slotIn msg (scannedMempool msg pool) (scannedExtra msg pool extraTxn) sid).isExtra) + 1 by omega,
    BitVec.ofNat_add]
  grind

omit h

/-- Exact just if extra ones take no more than extra ones gave. -/
theorem counters_exact_iff {bucketSize : BucketSize} (hread : Deserialized msg)
    (hok : initData bucketSize msg pool extraTxn {} = .ok (.ok, s)) :
    CountersExact bucketSize msg pool extraTxn s ↔ Balanced msg pool extraTxn := by
  have hshort := hread.blockTxCount_le
  obtain ⟨_, hall⟩ := initData_spec bucketSize hshort
  obtain ⟨_, hrun, -⟩ := hall pool extraTxn
  rw [hok] at hrun
  obtain ⟨rfl, -⟩ := Prod.mk.inj (Except.ok.inj hrun)
  have hinit : ∀ {pool extraTxn s}, initData bucketSize msg pool extraTxn {} = .ok (.ok, s) →
      ∃ base positions, Initialized msg pool extraTxn base positions s := by
    intro pool extraTxn s hs
    obtain ⟨_, hs', h⟩ := hall pool extraTxn
    rw [hs] at hs'
    obtain ⟨-, rfl⟩ := Prod.mk.inj (Except.ok.inj hs')
    exact h rfl
  have hempty : ∀ pool, scannedExtra msg pool [] = [] := fun _ => rfl
  rw [balanced_iff]
  constructor
  · intro hexact k
    induction k with
    | zero =>
      rw [take_zero, hempty]
      exact surplus_nil _ _
    | succ k ih =>
      obtain ⟨before, hbefore, hb⟩ := hall pool (extraTxn.take k)
      obtain ⟨after, hafter, ha⟩ := hall pool (extraTxn.take (k + 1))
      obtain ⟨_, _, hb⟩ := hb rfl
      obtain ⟨_, _, ha⟩ := ha rfl
      rcases scannedExtra_take msg pool extraTxn k with hsame | ⟨tx, hmore⟩
      · rw [hsame]
        exact ih
      by_contra hneg
      have hstep := surplus_append hb.slots.nodup (scannedMempool msg pool) (scannedExtra msg pool (extraTxn.take k)) tx
      rw [← hmore] at hstep
      -- the first round that takes too much away starts from zero
      have hzero := (hb.extraCount_eq hshort ih).1
      apply (hexact.extraRounds k before after hbefore hafter).2
      refine ⟨?_, ha.extraCount_wrapped (by omega)⟩
      have htoNat : before.extraCount.toNat = 0 := by omega
      exact BitVec.eq_of_toNat_eq htoNat
  · intro hbalanced
    have hlarge : (BitVec.allOnes 64).toNat = 2 ^ 64 - 1 := BitVec.toNat_allOnes
    have hnowrap : ∀ {pool extraTxn base positions s} {before : PartiallyDownloadedBlock},
        Initialized msg pool extraTxn base positions s →
        0 ≤ surplus msg (scannedMempool msg pool) (scannedExtra msg pool extraTxn) →
          ¬ Wraps before.mempoolCount s.mempoolCount ∧ ¬ Wraps before.extraCount s.extraCount := by
      intro pool extraTxn base positions s before h hpos
      have hmempool := h.mempoolCount_eq hshort
      have hextra := h.extraCount_eq hshort hpos
      refine ⟨fun hwraps => ?_, fun hwraps => ?_⟩
      · rw [hwraps.2, hlarge] at hmempool
        omega
      · rw [hwraps.2, hlarge] at hextra
        omega
    obtain ⟨_, _, h⟩ := hinit hok
    have hlast := hbalanced extraTxn.length
    rw [take_length] at hlast
    refine ⟨(h.mempoolCount_eq hshort).1, (h.extraCount_eq hshort hlast).2, fun k before after _ hafter => ?_,
      fun k before after _ hafter => ?_⟩
    · obtain ⟨_, _, ha⟩ := hinit hafter
      exact hnowrap ha (by rw [hempty]; exact surplus_nil _ _)
    · obtain ⟨_, _, ha⟩ := hinit hafter
      exact hnowrap ha (hbalanced (k + 1))

/-! ## A collision -/

def collidingTx (nLockTime : Uint32) : CMutableTransaction :=
  ⟨[⟨⟨1, 0⟩, [], 0xffffffff, []⟩], [⟨1000, [0x51]⟩], 2, nLockTime⟩

def collidingBlock : CBlockHeaderAndShortTxIDs where
  header := ⟨1, 0, 0, 0, 0x207fffff, 0⟩
  nonce := 0
  shorttxids := [0x0d80e615b5e4]
  prefilledtxn := [⟨0, Pool.subsidyTx⟩]

theorem collidingBlock_read : Deserialized collidingBlock := by
  refine ⟨writeBlockHeader collidingBlock.header ++ (replicate 8 0 ++ (1 :: leBytes 6 0x0d80e615b5e4 ++
    (1 :: 0 :: Wire.serializeTransaction true Pool.subsidyTx))), [], ?_⟩
  decide +kernel

theorem of_map_ok {ε α β : Type} {x : Except ε α} {f : α → β} {b : β} (h : x.map f = .ok b) :
    ∃ a, x = .ok a ∧ f a = b := by
  cases x with
  | error e => cases h
  | ok a => exact ⟨a, rfl, Except.ok.inj h⟩

/-- An extra transaction fills the slot and counts twice. -/
theorem extra_counters_exact : ∃ s, initData (fun _ _ => 1) collidingBlock [] [some (collidingTx 21661870)] {} =
    .ok (.ok, s) ∧ s.mempoolCount = 1 ∧ s.extraCount = 1 ∧
    CountersExact (fun _ _ => 1) collidingBlock [] [some (collidingTx 21661870)] s := by
  have hcounts : (initData (fun _ _ => 1) collidingBlock [] [some (collidingTx 21661870)] {}).map
      (fun r => (r.1, r.2.mempoolCount, r.2.extraCount)) = .ok (.ok, 1, 1) := by decide +kernel
  obtain ⟨⟨_, s⟩, hrun, hcounts⟩ := of_map_ok hcounts
  obtain ⟨rfl, hmempool, hextra⟩ := by simpa only [Prod.mk.injEq] using hcounts
  refine ⟨s, hrun, hmempool, hextra, (counters_exact_iff collidingBlock_read hrun).mpr fun k => ?_⟩
  have hnone : ∀ sid ∈ collidingBlock.shorttxids, ¬collides Pool.getWitnessHash collidingBlock.getShortID
      (scannedMempool collidingBlock []) (scannedExtra collidingBlock [] ([some (collidingTx 21661870)].take k))
        sid = true :=
    fun _ _ => Bool.false_ne_true
  rw [countP_eq_zero.mpr hnone]
  exact Nat.zero_le _

/-- The extra one takes the mempool's from `extra_count`. -/
theorem colliding_counters_wrap : Deserialized collidingBlock ∧
    ∃ s, initData (fun _ _ => 1) collidingBlock [collidingTx 21661870] [some (collidingTx 28627659)] {} = .ok (.ok, s) ∧
      ¬ CountersExact (fun _ _ => 1) collidingBlock [collidingTx 21661870] [some (collidingTx 28627659)] s := by
  have hcounts : (initData (fun _ _ => 1) collidingBlock [collidingTx 21661870] [some (collidingTx 28627659)] {}).map
      (fun r => (r.1, r.2.mempoolCount, r.2.extraCount)) = .ok (.ok, 0, BitVec.allOnes 64) := by decide +kernel
  obtain ⟨⟨_, s⟩, hrun, hcounts⟩ := of_map_ok hcounts
  obtain ⟨rfl, hmempool, hextra⟩ := by simpa only [Prod.mk.injEq] using hcounts
  refine ⟨collidingBlock_read, s, hrun, fun hexact => ?_⟩
  have hle : s.extraCount ≤ s.mempoolCount := hexact.extraCount
  rw [hmempool, hextra] at hle
  revert hle
  decide

end FullNode.CompactBlock

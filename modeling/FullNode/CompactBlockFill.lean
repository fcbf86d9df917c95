import FullNode.CompactBlockSlots

/-! # The block that comes back -/

namespace FullNode.CompactBlock

open List CBlockHeaderAndShortTxIDs
open Wire (CMutableTransaction)
open Pool (getWitnessHash)

variable {msg : CBlockHeaderAndShortTxIDs} {pool : List CMutableTransaction}
  {extraTxn : List (Option CMutableTransaction)} {base : List (Option CMutableTransaction)}
  {positions : AssocMap Uint64 (BitVec 16)} {s : PartiallyDownloadedBlock}
  {txns : List (Option CMutableTransaction)} {tx tx' : CMutableTransaction}

/-! ## Prefilled transactions stay -/

theorem Initialized.prefilled (h : Initialized msg pool extraTxn base positions s) {entry : Int × PrefilledTransaction}
    (hentry : entry ∈ (absoluteIndexes (-1) msg.prefilledtxn).zip msg.prefilledtxn) :
    s.txnAvailable[entry.1.toNat]? = some (some entry.2.tx) := by
  obtain ⟨_, htracks⟩ := h.tracks
  have hplaced := h.placed.placed entry hentry
  have hother : s.txnAvailable[entry.1.toNat]? = base[entry.1.toNat]? := by
    refine htracks.other _ fun hlookup hpos => ?_
    have hfree := h.slots.free hlookup
    rw [hpos, hplaced] at hfree
    cases hfree
  rw [hother, hplaced]

/-! ## What a slot can hold -/

theorem scanned_subset {α : Type} (stop : List α → Bool) (done l : List α) : scanned stop done l ⊆ done ++ l := by
  induction l generalizing done with
  | nil => simp [scanned]
  | cons a l ih =>
    rw [scanned, append_cons done a l]
    split
    · exact subset_append_left _ _
    · exact ih _

theorem offer_tx {getWitnessHash : CMutableTransaction → Uint256} {slot : Slot}
    (h : (slot.offer getWitnessHash tx).tx = some tx') : tx' = tx ∨ slot.tx = some tx' := by
  cases slot with
  | free =>
    cases h
    exact .inl rfl
  | mempool tx'' | extra tx'' =>
    rw [Slot.offer] at h
    split at h
    · exact .inr h
    · cases h
  | withdrawn => cases h
  | displaced => cases h

theorem slotOf_tx {getWitnessHash : CMutableTransaction → Uint256} {getShortID : CMutableTransaction → Uint64}
    {pool extra : List CMutableTransaction} {sid : Uint64} {tx : CMutableTransaction}
    (h : (slotOf getWitnessHash getShortID pool extra sid).tx = some tx) :
    (tx ∈ pool ∨ tx ∈ extra) ∧ getShortID tx = sid := by
  induction extra using reverseRecOn with
  | nil =>
    rcases @mempool_slot getWitnessHash getShortID pool sid with
      ⟨hslot, -⟩ | ⟨tx', hslot, hmatches⟩ | ⟨hslot, -⟩
    · rw [hslot] at h
      cases h
    · rw [hslot] at h
      obtain rfl := Option.some.inj h
      have hmem : tx' ∈ pool.filter (getShortID · = sid) := by rw [hmatches]; exact mem_singleton_self _
      obtain ⟨hmem, hid⟩ := mem_filter.mp hmem
      exact ⟨.inl hmem, by simpa using hid⟩
    · rw [hslot] at h
      cases h
  | append_singleton extra last ih =>
    rw [slotOf_extra] at h
    split at h
    · next hid =>
      rcases offer_tx h with rfl | h
      · exact ⟨.inr (by simp), hid⟩
      · obtain ⟨hmem, hid'⟩ := ih h
        exact ⟨hmem.imp_right (mem_append_left _), hid'⟩
    · obtain ⟨hmem, hid'⟩ := ih h
      exact ⟨hmem.imp_right (mem_append_left _), hid'⟩

/-! ## `FillBlock` -/

def missing (txns : List (Option CMutableTransaction)) (vtx : List CMutableTransaction) : List CMutableTransaction :=
  (txns.zip vtx).filterMap fun entry => if entry.1.isNone then some entry.2 else none

theorem takeMissing_missing {vtx : List CMutableTransaction}
    (h : Forall₂ (fun available tx => available = none ∨ available = some tx) txns vtx) :
    takeMissing txns (missing txns vtx) = .ok (vtx, []) := by
  induction h with
  | nil => rfl
  | @cons available tx txns vtx hhead _ ih =>
    rcases hhead with rfl | rfl
    · rw [show missing (none :: txns) (tx :: vtx) = tx :: missing txns vtx from rfl, takeMissing, ih]
      rfl
    · rw [show missing (some tx :: txns) (tx :: vtx) = missing txns vtx from rfl, takeMissing, ih]
      rfl

theorem fillBlock_ok {vtxMissing : List CMutableTransaction} {segwitActive : Bool} {result : Option CBlock}
    {s' : PartiallyDownloadedBlock} (h : fillBlock s vtxMissing segwitActive = .ok (.ok, result, s')) :
    ∃ block, result = some block ∧ block.header = s.header ∧ isBlockMutated block segwitActive = .ok false := by
  unfold fillBlock at h
  split at h
  · cases h
  split at h
  · cases h
  next vtx rest _ =>
  dsimp only at h
  split at h
  · cases h
  obtain ⟨mutated, hmutated, h⟩ := bind_ok.mp h
  cases mutated with
  | true => cases h
  | false =>
    cases h
    exact ⟨_, rfl, rfl, hmutated⟩

/-! ## A message made from a block -/

variable {block : CBlock} {nonce : Uint64} {gentx : CMutableTransaction} {rest : List CMutableTransaction}

theorem coinbase_placed {after : List (Option CMutableTransaction)} {n : Nat}
    (h : Placed (-1) [⟨0, gentx⟩] (replicate (n + 1) none) after) : after = some gentx :: replicate n none := by
  apply ext_getElem?
  intro p
  cases p with
  | zero => exact h.placed (0, ⟨0, gentx⟩) mem_cons_self
  | succ p =>
    have hnot : ((p + 1 : Nat) : Int) ∉ absoluteIndexes (-1) [⟨0, gentx⟩] := by
      rw [absoluteIndexes, absoluteIndexes, mem_singleton]
      show ((p + 1 : Nat) : Int) ≠ 0
      omega
    rw [h.kept _ hnot, replicate_succ, getElem?_cons_succ, getElem?_cons_succ]

theorem freeFrom_replicate (p n : Nat) : freeFrom p (replicate n none) = range' p n := by
  induction n generalizing p with
  | zero => rfl
  | succ n ih => rw [replicate_succ, freeFrom, ih, range'_succ]

def BucketsFit (bucketSize : BucketSize) (shorttxids : List Uint64) : Prop :=
  ∀ k sid, shorttxids[k]? = some sid → bucketSize (shorttxids.take (k + 1)) sid ≤ 12

theorem mapShortIDs_fits {bucketSize : BucketSize} {shorttxids : List Uint64}
    (hfits : BucketsFit bucketSize shorttxids) (hnodup : shorttxids.Nodup) (hshort : txns.length ≤ 0xffff)
    (henough : shorttxids.length ≤ (freeFrom 0 txns).length) :
    mapShortIDs bucketSize txns 0 0 shorttxids ∅ = .ok (some (assign ∅ (shorttxids.zip (freeFrom 0 txns)))) := by
  rcases mapShortIDs_start bucketSize hshort henough with hmap | ⟨-, k, sid, hget, hfull⟩
  · exact hmap
  · have hfst : ((shorttxids.zip (freeFrom 0 txns)).take (k + 1)).map Prod.fst = shorttxids.take (k + 1) := by
      rw [map_take, map_fst_zip henough]
    have htake := hnodup.sublist (take_sublist (k + 1) shorttxids)
    rw [keys_assign (hfst.symm ▸ htake) (by simp), hfst] at hfull
    have hkeys : ((shorttxids.take (k + 1)).reverse ++ (∅ : AssocMap Uint64 (BitVec 16)).keys).reverse =
        shorttxids.take (k + 1) := by
      rw [AList.keys_empty, append_nil, reverse_reverse]
    rw [hkeys] at hfull
    exact absurd (hfits k sid hget) (not_le.mpr hfull)

structure Sent (block : CBlock) (nonce : Uint64) (gentx : CMutableTransaction) (rest : List CMutableTransaction)
    (msg : CBlockHeaderAndShortTxIDs) : Prop where
  vtx : block.vtx = gentx :: rest
  made : CBlockHeaderAndShortTxIDs.ofBlock block nonce = some msg
  header : headerIsNull block.header = false
  coinbase : isNull gentx = false
  short : block.vtx.length ≤ 0xffff
  nodup : msg.shorttxids.Nodup

namespace Sent

theorem eq (h : Sent block nonce gentx rest msg) :
    msg = ⟨block.header, nonce, rest.map msg.getShortID, [⟨0, gentx⟩]⟩ := by
  have hmade := h.made
  unfold ofBlock at hmade
  rw [h.vtx] at hmade
  cases hmade
  rfl

theorem initData_ok {bucketSize : BucketSize} (h : Sent block nonce gentx rest msg)
    (hfits : BucketsFit bucketSize msg.shorttxids) (pool : List CMutableTransaction)
    (extraTxn : List (Option CMutableTransaction)) :
    ∃ base positions s, initData bucketSize msg pool extraTxn {} = .ok (.ok, s) ∧
      Initialized msg pool extraTxn base positions s := by
  have hids : msg.shorttxids = rest.map msg.getShortID := congrArg CBlockHeaderAndShortTxIDs.shorttxids h.eq
  have hprefilled : msg.prefilledtxn = [⟨0, gentx⟩] := congrArg prefilledtxn h.eq
  have hheader : msg.header = block.header := congrArg CBlockHeaderAndShortTxIDs.header h.eq
  have hlength : msg.shorttxids.length = rest.length := by rw [hids, length_map]
  have hcount : msg.blockTxCount = rest.length + 1 := by
    unfold blockTxCount
    rw [hlength, hprefilled]
    rfl
  have hshort : rest.length + 1 ≤ 0xffff := by
    have hle := h.short
    rw [h.vtx, length_cons] at hle
    exact hle
  obtain ⟨status, hall⟩ := initData_spec bucketSize (hcount.trans_le hshort)
  obtain ⟨s, hrun, hinit⟩ := hall pool extraTxn
  suffices hok : status = .ok by
    subst hok
    obtain ⟨base, positions, hinit⟩ := hinit rfl
    exact ⟨base, positions, s, hrun, hinit⟩
  have hplace : placePrefilled msg.shorttxids.length 0 (-1) msg.prefilledtxn (replicate msg.blockTxCount none) =
      .ok (.ok, some gentx :: replicate rest.length none) := by
    rw [hprefilled, hcount]
    unfold placePrefilled
    rw [h.coinbase]
    rfl
  have hfree : freeFrom 0 (some gentx :: replicate rest.length none) = range' 1 rest.length := freeFrom_replicate 1 _
  have henough : (freeFrom 0 (some gentx :: replicate rest.length none)).length = msg.shorttxids.length := by
    rw [hfree, length_range', hlength]
  have hbase : (some gentx :: replicate rest.length (none : Option CMutableTransaction)).length ≤ 0xffff := by
    rw [length_cons, length_replicate]
    exact hshort
  have hmap := mapShortIDs_fits hfits h.nodup hbase henough.ge
  have hsize := (slots_of_assign hbase ((freeFrom_length 0 _).symm.trans henough) h.nodup).size
  unfold initData at hrun
  rw [if_neg (by rw [hheader, h.header, hprefilled]; simp), if_neg (by
    rw [hlength, hprefilled]
    show ¬ rest.length + 1 > 4000000 / 40
    omega), if_neg (by simp [headerIsNull, nullHeader])] at hrun
  dsimp only at hrun
  rw [hplace, ok_bind] at hrun
  dsimp only at hrun
  rw [if_neg (by simp), hmap, ok_bind] at hrun
  dsimp only at hrun
  rw [if_neg (by rw [hsize]; simp)] at hrun
  obtain ⟨_, -, hrun⟩ := bind_ok.mp hrun
  obtain ⟨_, -, hrun⟩ := bind_ok.mp hrun
  cases hrun
  rfl

end Sent

/-- No two wtxids share an id, and each is of one transaction. -/
structure Unambiguous (msg : CBlockHeaderAndShortTxIDs) (txs : List CMutableTransaction) : Prop where
  shortID : ∀ tx ∈ txs, ∀ tx' ∈ txs, msg.getShortID tx = msg.getShortID tx' → getWitnessHash tx = getWitnessHash tx'
  wtxid : ∀ tx ∈ txs, ∀ tx' ∈ txs, getWitnessHash tx = getWitnessHash tx' → tx = tx'

theorem Unambiguous.inj {txs : List CMutableTransaction} (h : Unambiguous msg txs) (hmem : tx ∈ txs)
    (hmem' : tx' ∈ txs) (heq : msg.getShortID tx = msg.getShortID tx') : tx = tx' :=
  h.wtxid tx hmem tx' hmem' (h.shortID tx hmem tx' hmem' heq)

theorem Sent.available (h : Sent block nonce gentx rest msg) (hinit : Initialized msg pool extraTxn base positions s)
    (hclear : Unambiguous msg (block.vtx ++ (pool ++ extraTxn.reduceOption))) :
    Forall₂ (fun available tx => available = none ∨ available = some tx) s.txnAvailable block.vtx := by
  obtain ⟨_, htracks⟩ := hinit.tracks
  have hids : msg.shorttxids = rest.map msg.getShortID := congrArg CBlockHeaderAndShortTxIDs.shorttxids h.eq
  have hprefilled : msg.prefilledtxn = [⟨0, gentx⟩] := congrArg prefilledtxn h.eq
  have hplaced := hinit.placed
  have hcount : msg.blockTxCount = rest.length + 1 := by
    unfold blockTxCount
    rw [hids, hprefilled, length_map]
    rfl
  rw [hprefilled, hcount] at hplaced
  have hbase := coinbase_placed hplaced
  subst hbase
  have hlength : s.txnAvailable.length = block.vtx.length := by
    rw [show s.txnAvailable.length = _ from htracks.length, h.vtx, length_cons, length_cons, length_replicate]
  rw [forall₂_iff_get]
  refine ⟨hlength, fun i hi hi' => ?_⟩
  simp only [get_eq_getElem]
  cases i with
  | zero =>
    right
    have hentry : ((0 : Int), (⟨0, gentx⟩ : PrefilledTransaction)) ∈
        (absoluteIndexes (-1) msg.prefilledtxn).zip msg.prefilledtxn := by
      rw [hprefilled]
      exact mem_cons_self
    obtain ⟨_, hcoinbase⟩ := List.getElem?_eq_some_iff.mp (hinit.prefilled hentry)
    simp only [h.vtx, getElem_cons_zero]
    exact hcoinbase
  | succ k =>
    have hk : k < rest.length := by
      rw [h.vtx, length_cons] at hi'
      omega
    have htx : block.vtx[k + 1] = rest[k] := by simp only [h.vtx, getElem_cons_succ]
    have hfree : (freeFrom 0 (some gentx :: replicate rest.length none))[k]? = some (k + 1) := by
      rw [show freeFrom 0 (some gentx :: replicate rest.length none) = range' 1 rest.length from freeFrom_replicate 1 _,
        getElem?_range' hk, Nat.one_mul, Nat.add_comm]
    obtain ⟨sid, hget, hlookup⟩ := hinit.slots.place k (k + 1) hfree
    have hshortid : msg.getShortID rest[k] = sid := by
      rw [hids, getElem?_map, getElem?_eq_getElem hk] at hget
      exact Option.some.inj hget
    have hshort := h.short
    rw [h.vtx, length_cons] at hshort
    have hslot := htracks.available hlookup
    rw [BitVec.toNat_ofNat, Nat.mod_eq_of_lt (by omega)] at hslot
    obtain ⟨_, hslot⟩ := List.getElem?_eq_some_iff.mp hslot
    rw [htx, show s.txnAvailable[k + 1] = _ from hslot]
    cases hcontent : (slotIn msg (scannedMempool msg pool) (scannedExtra msg pool extraTxn) sid).tx with
    | none => exact .inl rfl
    | some tx =>
      right
      obtain ⟨hmem, hid⟩ := slotOf_tx hcontent
      have hsource : tx ∈ pool ++ extraTxn.reduceOption := by
        rw [mem_append]
        exact hmem.imp (fun hpool => scanned_subset _ [] _ hpool) fun hextra => scanned_subset _ [] _ hextra
      have hblock : rest[k] ∈ block.vtx := by
        rw [h.vtx]
        exact mem_cons_of_mem _ (getElem_mem hk)
      rw [hclear.inj (mem_append_right _ hsource) (mem_append_left _ hblock) (hid.trans hshortid.symm)]

/-- Prefilled transactions keep their places, a filled block is not mutated, and one without repetition comes back. -/
theorem compact_block_reconstructed {bucketSize : BucketSize} (hread : Deserialized msg)
    (pool : List CMutableTransaction) (extraTxn : List (Option CMutableTransaction)) :
    (∃ status s, initData bucketSize msg pool extraTxn {} = .ok (status, s) ∧ (status = .ok →
      ∀ entry ∈ (absoluteIndexes (-1) msg.prefilledtxn).zip msg.prefilledtxn,
        s.txnAvailable[entry.1.toNat]? = some (some entry.2.tx))) ∧
    (∀ s vtxMissing segwitActive result s', fillBlock s vtxMissing segwitActive = .ok (.ok, result, s') →
      ∃ block, result = some block ∧ block.header = s.header ∧ isBlockMutated block segwitActive = .ok false) ∧
    ∀ block nonce gentx rest msg segwitActive, block.vtx = gentx :: rest →
      CBlockHeaderAndShortTxIDs.ofBlock block nonce = some msg → headerIsNull block.header = false →
        isNull gentx = false →
      block.vtx.length ≤ 0xffff → rest.Nodup → isBlockMutated block segwitActive = .ok false →
      Unambiguous msg (block.vtx ++ (pool ++ extraTxn.reduceOption)) → BucketsFit bucketSize msg.shorttxids →
      ∃ s s', initData bucketSize msg pool extraTxn {} = .ok (.ok, s) ∧
        fillBlock s (missing s.txnAvailable block.vtx) segwitActive = .ok (.ok, some block, s') := by
  refine ⟨?_, fun s vtxMissing segwitActive result s' => fillBlock_ok, ?_⟩
  · obtain ⟨status, hall⟩ := initData_spec bucketSize hread.blockTxCount_le
    obtain ⟨s, hrun, hinit⟩ := hall pool extraTxn
    refine ⟨status, s, hrun, fun hok entry hentry => ?_⟩
    obtain ⟨base, positions, h⟩ := hinit hok
    exact h.prefilled hentry
  · intro block nonce gentx rest msg segwitActive hvtx hmade hheader hcoinbase hshort hnodup hmutated hclear hfits
    have hids : msg.shorttxids = rest.map msg.getShortID := by
      unfold ofBlock at hmade
      rw [hvtx] at hmade
      cases hmade
      rfl
    have hsent : Sent block nonce gentx rest msg := by
      refine ⟨hvtx, hmade, hheader, hcoinbase, hshort, ?_⟩
      rw [hids]
      refine hnodup.map_on fun tx hmem tx' hmem' heq => ?_
      have hin : ∀ tx ∈ rest, tx ∈ block.vtx ++ (pool ++ extraTxn.reduceOption) := fun tx hmem =>
        mem_append_left _ (hvtx ▸ mem_cons_of_mem _ hmem)
      exact hclear.inj (hin tx hmem) (hin tx' hmem') heq
    obtain ⟨base, positions, s, hrun, hinit⟩ := hsent.initData_ok hfits pool extraTxn
    have hheader' : s.header = block.header := hinit.header.trans (congrArg header hsent.eq)
    refine ⟨s, { s with header := nullHeader, txnAvailable := [] }, hrun, ?_⟩
    unfold fillBlock
    rw [hheader', hheader, if_neg Bool.false_ne_true, takeMissing_missing (hsent.available hinit hclear)]
    dsimp only
    rw [hmutated]
    rfl

/-! ## Two blocks -/

def blockOf (vtx : List CMutableTransaction) : CBlock := ⟨⟨1, 0, (Pool.blockMerkleRoot vtx).1, 0, 0x207fffff, 0⟩, vtx⟩

def spendingTx : CMutableTransaction := ⟨[⟨⟨1, 0⟩, [], 0xffffffff, []⟩], [⟨1000, [0x51]⟩], 2, 0⟩

def smallBlock : CBlock := blockOf [Pool.subsidyTx, spendingTx]

def smallMessage : CBlockHeaderAndShortTxIDs :=
  ⟨smallBlock.header, 0, [CBlockHeaderAndShortTxIDs.shortIDOf smallBlock.header 0 (getWitnessHash spendingTx)],
    [⟨0, Pool.subsidyTx⟩]⟩

theorem smallMessage_read : Deserialized smallMessage := by
  refine ⟨writeBlockHeader smallBlock.header ++
    (replicate 8 0 ++ (1 :: leBytes 6 (smallMessage.shorttxids.headD 0).toNat ++
    (1 :: 0 :: Wire.serializeTransaction true Pool.subsidyTx))), [], ?_⟩
  decide +kernel

theorem small_block_reconstructed : ∃ s s', initData (fun _ _ => 1) smallMessage [spendingTx] [] {} = .ok (.ok, s) ∧
    fillBlock s (missing s.txnAvailable smallBlock.vtx) true = .ok (.ok, some smallBlock, s') := by
  refine (compact_block_reconstructed smallMessage_read [spendingTx] []).2.2 smallBlock 0 Pool.subsidyTx [spendingTx]
    smallMessage true rfl rfl (by decide) (by decide) (by decide) (by decide) (by decide +kernel) ?_ ?_
  · exact ⟨by decide +kernel, by decide +kernel⟩
  · intro k sid _
    show 1 ≤ 12
    decide

/-- The same transaction twice, and no check calls it mutated. -/
theorem repeated_transaction_fails :
    isBlockMutated (blockOf [Pool.subsidyTx, spendingTx, spendingTx]) true = .ok false ∧
    ∃ msg, CBlockHeaderAndShortTxIDs.ofBlock (blockOf [Pool.subsidyTx, spendingTx, spendingTx]) 0 = some msg ∧
      Unambiguous msg [Pool.subsidyTx, spendingTx, spendingTx] ∧ BucketsFit (fun _ _ => 1) msg.shorttxids ∧
        (initData (fun _ _ => 1) msg [] [] {}).map Prod.fst = .ok .failed := by
  refine ⟨by decide +kernel, _, rfl, ⟨by decide +kernel, by decide +kernel⟩, fun k sid _ => ?_, by decide +kernel⟩
  show 1 ≤ 12
  decide

end FullNode.CompactBlock

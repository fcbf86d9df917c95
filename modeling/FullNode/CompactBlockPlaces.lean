import FullNode.CompactBlock
import FullNode.Lib.Outcome

/-! # The places in a compact block -/

namespace FullNode.CompactBlock

open List Prod
open Wire (CMutableTransaction)

variable {α : Type} {v : List α} {a : α} {p : Nat} {txns : List (Option CMutableTransaction)} {shorttxids : List Uint64}
  {prefilledtxn : List PrefilledTransaction}

theorem readAt_ok (h : v[p]? = some a) : readAt v p = .ok a := by
  unfold readAt
  rw [h]

theorem writeAt_ok (h : p < v.length) (a : α) : writeAt v p a = .ok (v.set p a) := if_pos h

theorem Deserialized.blockTxCount_le {msg : CBlockHeaderAndShortTxIDs} (h : Deserialized msg) :
    msg.blockTxCount ≤ 0xffff := by
  obtain ⟨_, _, hrun⟩ := h
  obtain ⟨_, _, -, hrun⟩ := Reader.run_bind_ok.mp hrun
  obtain ⟨_, _, -, hrun⟩ := Reader.run_bind_ok.mp hrun
  obtain ⟨_, _, -, hrun⟩ := Reader.run_bind_ok.mp hrun
  obtain ⟨_, _, -, hrun⟩ := Reader.run_bind_ok.mp hrun
  dsimp only at hrun
  split at hrun
  · cases hrun
  · next hle =>
    cases hrun
    exact not_lt.mp hle

/-! ## Prefilled transactions -/

/-- The announced indexes, after the last prefilled one. -/
def absoluteIndexes : Int → List PrefilledTransaction → List Int
  | _, [] => []
  | last, prefilled :: prefilledtxn =>
    (last + (prefilled.index.toNat + 1)) :: absoluteIndexes (last + (prefilled.index.toNat + 1)) prefilledtxn

theorem lt_of_mem_absoluteIndexes {last index : Int}
    (h : index ∈ absoluteIndexes last prefilledtxn) : last < index := by
  induction prefilledtxn generalizing last with
  | nil => simp [absoluteIndexes] at h
  | cons prefilled prefilledtxn ih =>
    rcases mem_cons.mp h with rfl | h
    · omega
    · have hlt := ih h
      omega

abbrev freeCount (txns : List (Option CMutableTransaction)) : Nat := txns.countP Option.isNone

/-- What the loop leaves when it is not stopped. -/
structure Placed (last : Int) (prefilledtxn : List PrefilledTransaction)
    (before after : List (Option CMutableTransaction)) : Prop where
  length : after.length = before.length
  free : freeCount after + prefilledtxn.length = freeCount before
  placed : ∀ entry ∈ (absoluteIndexes last prefilledtxn).zip prefilledtxn,
      after[entry.1.toNat]? = some (some entry.2.tx)
  kept : ∀ p : Nat, (p : Int) ∉ absoluteIndexes last prefilledtxn → after[p]? = before[p]?

theorem freeCount_set (tx : CMutableTransaction) (h : txns[p]? = some none) :
    freeCount (txns.set p (some tx)) + 1 = freeCount txns := by
  obtain ⟨hlt, hget⟩ := List.getElem?_eq_some_iff.mp h
  have hpos : 0 < freeCount txns := by
    rw [countP_pos_iff]
    exact ⟨none, mem_of_getElem? h, rfl⟩
  have hset := countP_set (p := Option.isNone) (a := some tx) hlt
  rw [hget] at hset
  simp only [Option.isNone_none, if_pos, Option.isNone_some, Bool.false_eq_true, if_false, Nat.add_zero] at hset
  unfold freeCount
  unfold freeCount at hpos
  omega

theorem placePrefilled_spec {n i : Nat} {last : Int}
    (hlast : -1 ≤ last) (hlength : txns.length = n + i + prefilledtxn.length)
    (hfree : ∀ p : Nat, last < p → p < txns.length → txns[p]? = some none) :
    ∃ status after, placePrefilled n i last prefilledtxn txns = .ok (status, after) ∧
      (status = .ok → Placed last prefilledtxn txns after) := by
  induction prefilledtxn generalizing i last txns with
  | nil => exact ⟨.ok, txns, rfl, fun _ => ⟨rfl, rfl, by simp [absoluteIndexes], fun _ _ => rfl⟩⟩
  | cons prefilled prefilledtxn ih =>
    unfold placePrefilled
    split
    · exact ⟨.invalid, txns, rfl, fun h => by cases h⟩
    dsimp only
    split
    · exact ⟨.invalid, txns, rfl, fun h => by cases h⟩
    split
    · exact ⟨.invalid, txns, rfl, fun h => by cases h⟩
    next hbound =>
    rw [length_cons] at hlength
    obtain ⟨p, hp⟩ : ∃ p : Nat, last + (prefilled.index.toNat + 1) = p := ⟨_, (Int.toNat_of_nonneg (by omega)).symm⟩
    rw [hp, Int.toNat_natCast] at hbound ⊢
    have hlt : p < txns.length := by omega
    have hnone := hfree p (by omega) hlt
    rw [writeAt_ok hlt, ok_bind]
    obtain ⟨status, after, hrun, hplaced⟩ : ∃ status after,
        placePrefilled n (i + 1) p prefilledtxn (txns.set p (some prefilled.tx)) = .ok (status, after) ∧
          (status = .ok → Placed p prefilledtxn (txns.set p (some prefilled.tx)) after) := by
      refine ih (by omega) (by rw [length_set]; omega) fun q hq hq' => ?_
      rw [length_set] at hq'
      rw [getElem?_set_ne (by omega)]
      exact hfree q (by omega) hq'
    refine ⟨status, after, hrun, fun hok => ?_⟩
    have h := hplaced hok
    have hset := freeCount_set prefilled.tx hnone
    refine ⟨h.length.trans length_set, ?_, ?_, fun q hq => ?_⟩
    · have hcount := h.free
      rw [length_cons]
      omega
    · intro entry hentry
      rw [absoluteIndexes, hp, zip_cons_cons] at hentry
      rcases mem_cons.mp hentry with rfl | hentry
      · have hold : ((p : Int).toNat : Int) ∉ absoluteIndexes p prefilledtxn := by
          intro hmem
          have hlt' := lt_of_mem_absoluteIndexes hmem
          omega
        rw [h.kept _ hold, Int.toNat_natCast, getElem?_set_self hlt]
      · exact h.placed entry hentry
    · rw [absoluteIndexes, hp, mem_cons, not_or] at hq
      rw [h.kept q hq.2, getElem?_set_ne (by omega)]

/-! ## Free places -/

/-- The free places, when the first place has the number `p`. -/
def freeFrom : Nat → List (Option CMutableTransaction) → List Nat
  | _, [] => []
  | p, none :: txns => p :: freeFrom (p + 1) txns
  | p, some _ :: txns => freeFrom (p + 1) txns

theorem freeFrom_length (p : Nat) (txns : List (Option CMutableTransaction)) :
    (freeFrom p txns).length = freeCount txns := by
  fun_induction freeFrom p txns with
  | case1 => rfl
  | case2 p txns ih => rw [length_cons, ih, freeCount, freeCount, countP_cons]; rfl
  | case3 p tx txns ih => rw [ih, freeCount, freeCount, countP_cons, if_neg (by simp), Nat.add_zero]

theorem mem_freeFrom {q : Nat} : q ∈ freeFrom p txns ↔ p ≤ q ∧ txns[q - p]? = some none := by
  fun_induction freeFrom p txns with
  | case1 => simp
  | case2 p txns ih =>
    rw [mem_cons, ih]
    rcases Nat.lt_trichotomy q p with hlt | rfl | hgt
    · omega
    · simp
    · obtain ⟨d, rfl⟩ : ∃ d, q = p + (d + 1) := ⟨q - p - 1, by omega⟩
      rw [show p + (d + 1) - (p + 1) = d by omega, show p + (d + 1) - p = d + 1 by omega, getElem?_cons_succ]
      exact ⟨fun h => ⟨by omega, (h.resolve_left (by omega)).2⟩, fun h => .inr ⟨by omega, h.2⟩⟩
  | case3 p tx txns ih =>
    rw [ih]
    rcases Nat.lt_trichotomy q p with hlt | rfl | hgt
    · omega
    · simp
    · obtain ⟨d, rfl⟩ : ∃ d, q = p + (d + 1) := ⟨q - p - 1, by omega⟩
      rw [show p + (d + 1) - (p + 1) = d by omega, show p + (d + 1) - p = d + 1 by omega, getElem?_cons_succ]
      exact and_congr_left fun _ => by omega

theorem nodup_freeFrom : (freeFrom p txns).Nodup := by
  fun_induction freeFrom p txns with
  | case1 => exact nodup_nil
  | case2 p txns ih =>
    refine nodup_cons.mpr ⟨fun hmem => ?_, ih⟩
    have hle := (mem_freeFrom.mp hmem).1
    omega
  | case3 p tx txns ih => exact ih

theorem freeFrom_drop {f : Nat} {frees : List Nat} (h : freeFrom p (txns.drop p) = f :: frees) :
    p ≤ f ∧ txns[f]? = some none ∧ frees = freeFrom (f + 1) (txns.drop (f + 1)) ∧
      ∀ q, p ≤ q → q < f → ∃ tx, txns[q]? = some (some tx) := by
  obtain ⟨n, _⟩ : ∃ n, txns.length - p = n := ⟨_, rfl⟩
  induction n generalizing p with
  | zero =>
    rw [drop_of_length_le (by omega)] at h
    cases h
  | succ n ih =>
    have hlt : p < txns.length := by omega
    rw [drop_eq_getElem_cons hlt] at h
    cases hget : txns[p] with
    | none =>
      rw [hget, freeFrom] at h
      obtain ⟨rfl, rfl⟩ := List.cons.inj h
      exact ⟨le_rfl, List.getElem?_eq_some_iff.mpr ⟨hlt, hget⟩, rfl, fun q hq hq' => by omega⟩
    | some tx =>
      rw [hget, freeFrom] at h
      obtain ⟨_, hnone, hrest, hbetween⟩ := ih h (by omega)
      refine ⟨by omega, hnone, hrest, fun q hq hq' => ?_⟩
      rcases Nat.eq_or_lt_of_le hq with rfl | hlt'
      · exact ⟨tx, List.getElem?_eq_some_iff.mpr ⟨hlt, hget⟩⟩
      · exact hbetween q hlt' hq'

/-! ## Short ids -/

theorem skipAvailable_spec {i fuel f : Nat} {indexOffset : BitVec 16} (hshort : txns.length ≤ 0xffff)
    (hle : i + indexOffset.toNat ≤ f) (hfree : txns[f]? = some none)
    (hbetween : ∀ q, i + indexOffset.toNat ≤ q → q < f → ∃ tx, txns[q]? = some (some tx))
    (hfuel : f - (i + indexOffset.toNat) < fuel) :
    skipAvailable txns i fuel indexOffset = .ok (BitVec.ofNat 16 (f - i)) := by
  have hlt := (List.getElem?_eq_some_iff.mp hfree).1
  induction fuel generalizing indexOffset with
  | zero => omega
  | succ fuel ih =>
    unfold skipAvailable
    rcases Nat.eq_or_lt_of_le hle with heq | hlt'
    · rw [heq, readAt_ok hfree, ok_bind]
      have hoffset : indexOffset = BitVec.ofNat 16 (f - i) := by
        rw [show f - i = indexOffset.toNat by omega, BitVec.ofNat_toNat, BitVec.setWidth_eq]
      rw [hoffset]
      rfl
    · obtain ⟨tx, htx⟩ := hbetween _ le_rfl hlt'
      have hnext : (indexOffset + 1).toNat = indexOffset.toNat + 1 := by
        rw [BitVec.toNat_add]
        exact Nat.mod_eq_of_lt (by change indexOffset.toNat + 1 < 65536; omega)
      rw [readAt_ok htx, ok_bind]
      exact ih (by omega) (fun q hq hq' => hbetween q (by omega) hq') (by omega)

def assign (positions : AssocMap Uint64 (BitVec 16)) (entries : List (Uint64 × Nat)) : AssocMap Uint64 (BitVec 16) :=
  entries.foldl (fun positions entry => positions.insert entry.1 (BitVec.ofNat 16 entry.2)) positions

/-- Each id gets the next free place, up to a full bucket. -/
theorem mapShortIDs_spec {bucketSize : BucketSize} {i : Nat} {indexOffset : BitVec 16}
    {positions : AssocMap Uint64 (BitVec 16)} {frees : List Nat} (hshort : txns.length ≤ 0xffff)
    (hfrees : freeFrom (i + indexOffset.toNat) (txns.drop (i + indexOffset.toNat)) = frees)
    (henough : shorttxids.length ≤ frees.length) :
    mapShortIDs bucketSize txns i indexOffset shorttxids positions =
      .ok (some (assign positions (shorttxids.zip frees))) ∨
      mapShortIDs bucketSize txns i indexOffset shorttxids positions = .ok none ∧ ∃ k sid, shorttxids[k]? = some sid ∧
          12 < bucketSize (assign positions ((shorttxids.zip frees).take (k + 1))).keys.reverse sid := by
  induction shorttxids generalizing i indexOffset positions frees with
  | nil => exact .inl rfl
  | cons sid shorttxids ih =>
    rcases frees with _ | ⟨f, frees⟩
    · simp at henough
    obtain ⟨hle, hnone, hrest, hbetween⟩ := freeFrom_drop hfrees
    have hlt := (List.getElem?_eq_some_iff.mp hnone).1
    have hskip := @skipAvailable_spec _ i 0x10000 f indexOffset hshort hle hnone hbetween (by omega)
    have hoffset : (BitVec.ofNat 16 (f - i)).toNat = f - i := by
      rw [BitVec.toNat_ofNat]
      exact Nat.mod_eq_of_lt (by omega)
    unfold mapShortIDs
    rw [hskip, ok_bind, hoffset, show i + (f - i) = f by omega]
    dsimp only
    split
    · next hfull => exact .inr ⟨rfl, 0, sid, rfl, hfull⟩
    · have hnext : i + 1 + (BitVec.ofNat 16 (f - i)).toNat = f + 1 := by omega
      have hrun := @ih (i + 1) (BitVec.ofNat 16 (f - i)) (positions.insert sid (BitVec.ofNat 16 f)) frees
        (by rw [hnext, hrest]) (by simpa using henough)
      rcases hrun with hrun | ⟨hrun, k, sid', hget, hfull⟩
      · exact .inl hrun
      · exact .inr ⟨hrun, k + 1, sid', hget, hfull⟩

theorem mapShortIDs_start (bucketSize : BucketSize) (hshort : txns.length ≤ 0xffff)
    (henough : shorttxids.length ≤ (freeFrom 0 txns).length) :
    mapShortIDs bucketSize txns 0 0 shorttxids ∅ = .ok (some (assign ∅ (shorttxids.zip (freeFrom 0 txns)))) ∨
      mapShortIDs bucketSize txns 0 0 shorttxids ∅ = .ok none ∧ ∃ k sid, shorttxids[k]? = some sid ∧
        12 < bucketSize (assign ∅ ((shorttxids.zip (freeFrom 0 txns)).take (k + 1))).keys.reverse sid :=
  mapShortIDs_spec hshort rfl henough

/-! ## The map -/

variable {positions : AssocMap Uint64 (BitVec 16)} {entries : List (Uint64 × Nat)} {sid : Uint64}

theorem mem_keys_assign :
    sid ∈ (assign positions entries).keys ↔ sid ∈ entries.map fst ∨ sid ∈ positions.keys := by
  induction entries generalizing positions with
  | nil => simp [assign]
  | cons entry entries ih =>
    rw [assign, foldl_cons]
    rw [show entries.foldl _ _ = assign (positions.insert entry.1 (BitVec.ofNat 16 entry.2)) entries from rfl, ih,
      map_cons, mem_cons, ← AList.mem_keys, AList.mem_insert, AList.mem_keys]
    tauto

theorem nodup_of_assign (h : (assign ∅ entries).keys.length = entries.length) : (entries.map fst).Nodup := by
  have hperm : (assign ∅ entries).keys.Perm (entries.map fst).dedup := by
    rw [perm_ext_iff_of_nodup (AList.keys_nodup _) (nodup_dedup _)]
    intro sid
    rw [mem_keys_assign, mem_dedup]
    simp
  have hdedup : (entries.map fst).dedup = entries.map fst := by
    apply (dedup_sublist _).eq_of_length
    rw [← hperm.length_eq, h, length_map]
  exact dedup_eq_self.mp hdedup

theorem keys_assign (hnodup : (entries.map fst).Nodup) (hnew : ∀ sid ∈ entries.map fst, sid ∉ positions.keys) :
    (assign positions entries).keys = (entries.map fst).reverse ++ positions.keys := by
  induction entries generalizing positions with
  | nil => rfl
  | cons entry entries ih =>
    rw [map_cons, nodup_cons] at hnodup
    have hkeys : (positions.insert entry.1 (BitVec.ofNat 16 entry.2)).keys = entry.1 :: positions.keys := by
      rw [AList.keys_insert, erase_of_not_mem (hnew _ mem_cons_self)]
    rw [assign, foldl_cons]
    rw [show entries.foldl _ _ = assign (positions.insert entry.1 (BitVec.ofNat 16 entry.2)) entries from rfl]
    rw [ih hnodup.2, hkeys, map_cons, reverse_cons, append_assoc, singleton_append]
    intro sid hmem hold
    rw [hkeys] at hold
    rcases mem_cons.mp hold with rfl | hold
    · exact hnodup.1 hmem
    · exact hnew sid (mem_cons_of_mem _ hmem) hold

theorem lookup_assign {pos : BitVec 16} (hnodup : (entries.map fst).Nodup) :
    (assign positions entries).lookup sid = some pos ↔
      (∃ f, (sid, f) ∈ entries ∧ pos = BitVec.ofNat 16 f) ∨
        sid ∉ entries.map fst ∧ positions.lookup sid = some pos := by
  induction entries generalizing positions with
  | nil => simp [assign]
  | cons entry entries ih =>
    rw [map_cons, nodup_cons] at hnodup
    rw [assign, foldl_cons]
    rw [show entries.foldl _ _ = assign (positions.insert entry.1 (BitVec.ofNat 16 entry.2)) entries from rfl,
      ih hnodup.2]
    obtain ⟨sid', f'⟩ := entry
    by_cases heq : sid = sid'
    · subst heq
      have hnone : ∀ f, (sid, f) ∉ entries := fun f hmem => hnodup.1 (mem_map.mpr ⟨_, hmem, rfl⟩)
      rw [AList.lookup_insert, Option.some.injEq]
      constructor
      · rintro (⟨f, hmem, -⟩ | ⟨-, h⟩)
        · exact absurd hmem (hnone f)
        · exact .inl ⟨f', mem_cons_self, h.symm⟩
      · rintro (⟨f, hmem, h⟩ | ⟨hnotin, -⟩)
        · rcases mem_cons.mp hmem with heq | hmem
          · obtain ⟨-, rfl⟩ := mk.inj heq
            exact .inr ⟨hnodup.1, h.symm⟩
          · exact absurd hmem (hnone f)
        · exact absurd mem_cons_self hnotin
    · rw [AList.lookup_insert_ne heq]
      simp only [mem_cons, mk.injEq, heq, false_and, false_or, map_cons]

structure Slots (shorttxids : List Uint64) (txns : List (Option CMutableTransaction))
    (positions : AssocMap Uint64 (BitVec 16)) : Prop where
  nodup : shorttxids.Nodup
  size : positions.keys.length = shorttxids.length
  enough : (freeFrom 0 txns).length = shorttxids.length
  place : ∀ (k f : Nat), (freeFrom 0 txns)[k]? = some f → ∃ sid, shorttxids[k]? = some sid ∧
    positions.lookup sid = some (BitVec.ofNat 16 f)
  known : ∀ {sid pos}, positions.lookup sid = some pos → ∃ k : Nat, shorttxids[k]? = some sid ∧
    (freeFrom 0 txns)[k]? = some pos.toNat

theorem slots_of_assign (hshort : txns.length ≤ 0xffff) (henough : freeCount txns = shorttxids.length)
    (hnodup : shorttxids.Nodup) : Slots shorttxids txns (assign ∅ (shorttxids.zip (freeFrom 0 txns))) := by
  have hlength : (freeFrom 0 txns).length = shorttxids.length := (freeFrom_length 0 txns).trans henough
  have hfst : (shorttxids.zip (freeFrom 0 txns)).map fst = shorttxids := map_fst_zip hlength.ge
  have hentries : ((shorttxids.zip (freeFrom 0 txns)).map fst).Nodup := hfst.symm ▸ hnodup
  have hlt : ∀ f ∈ freeFrom 0 txns, f < 0x10000 := by
    intro f hf
    have hget := (List.getElem?_eq_some_iff.mp (mem_freeFrom.mp hf).2).1
    omega
  refine ⟨hnodup, ?_, hlength, fun k f hf => ?_, fun {sid pos} hlookup => ?_⟩
  · rw [keys_assign hentries (by simp), length_append, length_reverse, hfst]
    rfl
  · have hk : k < shorttxids.length := by
      rw [← hlength]
      exact (List.getElem?_eq_some_iff.mp hf).1
    refine ⟨shorttxids[k], getElem?_eq_getElem hk, (lookup_assign hentries).mpr (.inl ⟨f, ?_, rfl⟩)⟩
    refine mem_of_getElem? (i := k) ?_
    rw [getElem?_zip_eq_some]
    exact ⟨getElem?_eq_getElem hk, hf⟩
  · rcases (lookup_assign hentries).mp hlookup with ⟨f, hmem, rfl⟩ | ⟨-, hnone⟩
    · obtain ⟨k, hk⟩ := mem_iff_getElem?.mp hmem
      rw [getElem?_zip_eq_some] at hk
      refine ⟨k, hk.1, ?_⟩
      rw [BitVec.toNat_ofNat, Nat.mod_eq_of_lt (hlt f (mem_of_getElem? hk.2))]
      exact hk.2
    · cases hnone

end FullNode.CompactBlock

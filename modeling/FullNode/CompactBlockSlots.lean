import FullNode.CompactBlockPlaces
import Mathlib.Data.List.ReduceOption

/-! # Who filled a slot -/

namespace FullNode.CompactBlock

open List
open Wire (CMutableTransaction)
/-! ## Slots -/

inductive Slot where
  | free
  | mempool (tx : CMutableTransaction)
  | extra (tx : CMutableTransaction)
  /-- Emptied by a second transaction of the same source. -/
  | withdrawn
  /-- A transaction of the mempool, withdrawn by an extra one. -/
  | displaced

namespace Slot

def tx : Slot → Option CMutableTransaction
  | mempool tx => some tx
  | extra tx => some tx
  | _ => none

def isFree : Slot → Bool
  | free => true
  | _ => false

def isExtra : Slot → Bool
  | extra _ => true
  | _ => false

def isDisplaced : Slot → Bool
  | displaced => true
  | _ => false

def isFilled (slot : Slot) : Bool := slot.tx.isSome

def ofMempool : List CMutableTransaction → Slot
  | [] => free
  | [tx] => mempool tx
  | _ => withdrawn

def offer (getWitnessHash : CMutableTransaction → Uint256) (slot : Slot) (tx : CMutableTransaction) : Slot :=
  match slot with
  | free => extra tx
  | mempool tx' => if getWitnessHash tx' = getWitnessHash tx then mempool tx' else displaced
  | extra tx' => if getWitnessHash tx' = getWitnessHash tx then extra tx' else withdrawn
  | withdrawn => withdrawn
  | displaced => displaced

end Slot

/-- The slot of an id after some of the mempool and some extra ones. -/
def slotOf (getWitnessHash : CMutableTransaction → Uint256) (getShortID : CMutableTransaction → Uint64)
    (pool extra : List CMutableTransaction) (sid : Uint64) : Slot :=
  (extra.filter (getShortID · = sid)).foldl (Slot.offer getWitnessHash) (.ofMempool (pool.filter (getShortID · = sid)))

def scanned {α : Type} (stop : List α → Bool) (done : List α) : List α → List α
  | [] => done
  | a :: rest => if stop (done ++ [a]) then done ++ [a] else scanned stop (done ++ [a]) rest

def allFilled (getWitnessHash : CMutableTransaction → Uint256) (getShortID : CMutableTransaction → Uint64)
    (shorttxids : List Uint64) (pool extra : List CMutableTransaction) : Bool :=
  shorttxids.all fun sid => (slotOf getWitnessHash getShortID pool extra sid).isFilled

variable {getWitnessHash : CMutableTransaction → Uint256} {getShortID : CMutableTransaction → Uint64}
  {shorttxids : List Uint64} {base : List (Option CMutableTransaction)}
  {positions : AssocMap Uint64 (BitVec 16)} {slot slot' : Uint64 → Slot} {s s' : Matching} {sid : Uint64}
  {pos : BitVec 16}
  {pool extra : List CMutableTransaction} {tx : CMutableTransaction}

theorem slotOf_mempool (pool : List CMutableTransaction) (tx : CMutableTransaction) (h : sid ≠ getShortID tx) :
    slotOf getWitnessHash getShortID (pool ++ [tx]) [] sid = slotOf getWitnessHash getShortID pool [] sid := by
  unfold slotOf
  rw [filter_append, filter_cons_of_neg (by simpa using h.symm), filter_nil, append_nil]

theorem slotOf_mempool_self (pool : List CMutableTransaction) (tx : CMutableTransaction) :
    slotOf getWitnessHash getShortID (pool ++ [tx]) [] (getShortID tx) =
      .ofMempool (pool.filter (getShortID · = getShortID tx) ++ [tx]) := by
  unfold slotOf
  rw [filter_append, filter_cons_of_pos (by simp)]
  rfl

theorem slotOf_extra (pool extra : List CMutableTransaction) (tx : CMutableTransaction) (sid : Uint64) :
    slotOf getWitnessHash getShortID pool (extra ++ [tx]) sid =
      if getShortID tx = sid then (slotOf getWitnessHash getShortID pool extra sid).offer getWitnessHash tx
        else slotOf getWitnessHash getShortID pool extra sid := by
  unfold slotOf
  rw [filter_append]
  split
  · next h => rw [filter_cons_of_pos (by simpa using h), filter_nil, foldl_append, foldl_cons, foldl_nil]
  · next h => rw [filter_cons_of_neg (by simpa using h), filter_nil, append_nil]

/-! ## The state of the loops -/

structure Tracks (shorttxids : List Uint64) (base : List (Option CMutableTransaction))
    (positions : AssocMap Uint64 (BitVec 16)) (slot : Uint64 → Slot) (s : Matching) : Prop where
  length : s.txnAvailable.length = base.length
  haveLength : s.haveTxn.length = base.length
  available : ∀ {sid pos}, positions.lookup sid = some pos → s.txnAvailable[pos.toNat]? = some (slot sid).tx
  haveTxn : ∀ {sid pos}, positions.lookup sid = some pos → s.haveTxn[pos.toNat]? = some !(slot sid).isFree
  other : ∀ p : Nat, (∀ {sid pos}, positions.lookup sid = some pos → pos.toNat ≠ p) → s.txnAvailable[p]? = base[p]?
  mempoolCount : s.mempoolCount = BitVec.ofNat 64 (shorttxids.countP fun sid => (slot sid).isFilled)
  extraCount : s.extraCount = BitVec.ofNat 64 (shorttxids.countP fun sid => (slot sid).isExtra) -
    BitVec.ofNat 64 (shorttxids.countP fun sid => (slot sid).isDisplaced)

namespace Slots

variable (h : Slots shorttxids base positions)
include h

theorem mem (hlookup : positions.lookup sid = some pos) : sid ∈ shorttxids := by
  obtain ⟨_, hk, -⟩ := h.known hlookup
  exact mem_of_getElem? hk

theorem total (hmem : sid ∈ shorttxids) : ∃ pos, positions.lookup sid = some pos := by
  obtain ⟨k, hk⟩ := mem_iff_getElem?.mp hmem
  have hlt := (List.getElem?_eq_some_iff.mp hk).1
  rw [← h.enough] at hlt
  obtain ⟨_, hk', hlookup⟩ := h.place k _ (getElem?_eq_getElem hlt)
  cases hk.symm.trans hk'
  exact ⟨_, hlookup⟩

theorem free (hlookup : positions.lookup sid = some pos) : base[pos.toNat]? = some none := by
  obtain ⟨_, -, hk⟩ := h.known hlookup
  exact (mem_freeFrom.mp (mem_of_getElem? hk)).2

theorem inj {sid' : Uint64} {pos' : BitVec 16} (hlookup : positions.lookup sid = some pos)
    (hlookup' : positions.lookup sid' = some pos') (heq : pos.toNat = pos'.toNat) : sid = sid' := by
  obtain ⟨k, hk, hf⟩ := h.known hlookup
  obtain ⟨k', hk', hf'⟩ := h.known hlookup'
  rw [heq] at hf
  have hkk : k = k' := by
    rw [getElem?_eq_some_iff] at hf hf'
    obtain ⟨_, hf⟩ := hf
    obtain ⟨_, hf'⟩ := hf'
    exact nodup_freeFrom.getElem_inj_iff.mp (hf.trans hf'.symm)
  subst hkk
  exact Option.some.inj (hk.symm.trans hk')

omit h

end Slots

theorem countP_change {P Q : Uint64 → Bool} (hnodup : shorttxids.Nodup) (hmem : sid ∈ shorttxids)
    (hother : ∀ sid', sid' ≠ sid → P sid' = Q sid') :
    shorttxids.countP P + (Q sid).toNat = shorttxids.countP Q + (P sid).toNat := by
  obtain ⟨before, after, rfl⟩ := append_of_mem hmem
  have hnotin : ∀ l, l = before ∨ l = after → l.countP P = l.countP Q := by
    intro l hl
    refine countP_congr fun sid' hmem' => ?_
    rw [hother sid' ?_]
    rintro rfl
    rw [nodup_append, nodup_cons] at hnodup
    rcases hl with rfl | rfl
    · exact hnodup.2.2 _ hmem' _ mem_cons_self rfl
    · exact hnodup.2.1.1 hmem'
  rw [countP_append, countP_append, countP_cons, countP_cons, hnotin before (.inl rfl), hnotin after (.inr rfl)]
  cases P sid <;> cases Q sid <;> simp <;> omega

namespace Tracks

variable (h : Tracks shorttxids base positions slot s) (hslots : Slots shorttxids base positions)
include h hslots

theorem congr (heq : ∀ sid ∈ shorttxids, slot' sid = slot sid) : Tracks shorttxids base positions slot' s := by
  have hcount : ∀ P : Slot → Bool, shorttxids.countP (fun sid => P (slot' sid)) = shorttxids.countP fun sid =>
    P (slot sid) := fun P => countP_congr fun sid hmem => by rw [heq sid hmem]
  refine ⟨h.length, h.haveLength, fun hlookup => ?_, fun hlookup => ?_, h.other, ?_, ?_⟩
  · rw [heq _ (hslots.mem hlookup)]
    exact h.available hlookup
  · rw [heq _ (hslots.mem hlookup)]
    exact h.haveTxn hlookup
  · rw [h.mempoolCount, hcount]
  · rw [h.extraCount, hcount, hcount]

variable (hother : ∀ sid', sid' ≠ sid → slot' sid' = slot sid')
include hother

theorem same (hsame : slot' sid = slot sid) : Tracks shorttxids base positions slot' s := by
  refine h.congr hslots fun sid' _ => ?_
  by_cases heq : sid' = sid
  · rw [heq, hsame]
  · exact hother sid' heq

theorem unknown (hlookup : positions.lookup sid = none) : Tracks shorttxids base positions slot' s := by
  refine h.congr hslots fun sid' hmem => hother sid' ?_
  rintro rfl
  obtain ⟨_, hpos⟩ := hslots.total hmem
  rw [hlookup] at hpos
  cases hpos

theorem change (hlookup : positions.lookup sid = some pos)
    (havailable : s'.txnAvailable = s.txnAvailable.set pos.toNat (slot' sid).tx)
    (hhave : s'.haveTxn = s.haveTxn.set pos.toNat true) (hfree : (slot' sid).isFree = false)
    (hmempool : s'.mempoolCount + BitVec.ofNat 64 (slot sid).isFilled.toNat =
      s.mempoolCount + BitVec.ofNat 64 (slot' sid).isFilled.toNat)
    (hextra : s'.extraCount + BitVec.ofNat 64 (slot sid).isExtra.toNat + BitVec.ofNat 64 (slot' sid).isDisplaced.toNat =
      s.extraCount + BitVec.ofNat 64 (slot' sid).isExtra.toNat + BitVec.ofNat 64 (slot sid).isDisplaced.toNat) :
    Tracks shorttxids base positions slot' s' := by
  have hmem := hslots.mem hlookup
  have hcount : ∀ P : Slot → Bool, BitVec.ofNat 64 (shorttxids.countP fun sid => P (slot' sid)) +
      BitVec.ofNat 64 (P (slot sid)).toNat =
      BitVec.ofNat 64 (shorttxids.countP fun sid => P (slot sid)) + BitVec.ofNat 64 (P (slot' sid)).toNat := by
    intro P
    have hnat := countP_change (P := fun sid => P (slot' sid)) (Q := fun sid => P (slot sid)) hslots.nodup hmem
      fun sid' hne => by rw [hother sid' hne]
    rw [← BitVec.ofNat_add, ← BitVec.ofNat_add, hnat]
  have hlt : pos.toNat < base.length := (List.getElem?_eq_some_iff.mp (hslots.free hlookup)).1
  refine ⟨?_, ?_, fun {sid' pos'} hlookup' => ?_, fun {sid' pos'} hlookup' => ?_, fun p hp => ?_, ?_, ?_⟩
  · rw [havailable, length_set, h.length]
  · rw [hhave, length_set, h.haveLength]
  · rw [havailable]
    by_cases heq : sid' = sid
    · subst heq
      cases hlookup'.symm.trans hlookup
      exact getElem?_set_self (by rw [h.length]; exact hlt)
    · rw [getElem?_set_ne fun hpos => heq (hslots.inj hlookup' hlookup hpos.symm), hother _ heq]
      exact h.available hlookup'
  · rw [hhave]
    by_cases heq : sid' = sid
    · subst heq
      cases hlookup'.symm.trans hlookup
      rw [hfree]
      exact getElem?_set_self (by rw [h.haveLength]; exact hlt)
    · rw [getElem?_set_ne fun hpos => heq (hslots.inj hlookup' hlookup hpos.symm), hother _ heq]
      exact h.haveTxn hlookup'
  · rw [havailable, getElem?_set_ne (hp hlookup)]
    exact h.other p hp
  · have hfilled := hcount Slot.isFilled
    rw [h.mempoolCount] at hmempool
    grind
  · have hisExtra := hcount Slot.isExtra
    have hisDisplaced := hcount Slot.isDisplaced
    rw [h.extraCount] at hextra
    grind

omit h hslots hother

theorem start (hslots : Slots shorttxids base positions) :
    Tracks shorttxids base positions (slotOf getWitnessHash getShortID [] []) ⟨base,
      replicate base.length false, 0, 0⟩ := by
  have hzero : ∀ P : Slot → Bool, P .free = false →
      shorttxids.countP (fun sid => P (slotOf getWitnessHash getShortID [] [] sid)) = 0 := by
    intro P hP
    rw [countP_eq_zero]
    intro sid _
    rw [show slotOf getWitnessHash getShortID [] [] sid = .free from rfl, hP]
    exact Bool.false_ne_true
  refine ⟨rfl, length_replicate, fun hlookup => hslots.free hlookup, fun hlookup => ?_, fun _ _ => rfl, ?_, ?_⟩
  · have hlt := (List.getElem?_eq_some_iff.mp (hslots.free hlookup)).1
    rw [getElem?_replicate, if_pos hlt]
    rfl
  · rw [hzero _ rfl]
    rfl
  · rw [hzero _ rfl, hzero _ rfl]
    rfl

end Tracks

/-! ## One round -/

theorem set_of_getElem? {α : Type} {v : List α} {p : Nat} {a : α} (h : v[p]? = some a) : v.set p a = v := by
  obtain ⟨hlt, rfl⟩ := List.getElem?_eq_some_iff.mp h
  exact set_getElem_self hlt

theorem mempool_slot (pool : List CMutableTransaction) (sid : Uint64) :
    slotOf getWitnessHash getShortID pool [] sid = .free ∧ pool.filter (getShortID · = sid) = [] ∨
      (∃ tx, slotOf getWitnessHash getShortID pool [] sid = .mempool tx ∧ pool.filter (getShortID · = sid) = [tx]) ∨
      slotOf getWitnessHash getShortID pool [] sid = .withdrawn ∧ 2 ≤ (pool.filter (getShortID · = sid)).length := by
  unfold slotOf
  rcases pool.filter (getShortID · = sid) with _ | ⟨tx, _ | ⟨_, _⟩⟩
  · exact .inl ⟨rfl, rfl⟩
  · exact .inr (.inl ⟨tx, rfl, rfl⟩)
  · exact .inr (.inr ⟨rfl, by simp⟩)

theorem matchMempool_spec (hslots : Slots shorttxids base positions)
    (h : Tracks shorttxids base positions (slotOf getWitnessHash getShortID pool []) s) (tx : CMutableTransaction) :
    ∃ s', matchMempool getShortID positions s tx = .ok s' ∧
      Tracks shorttxids base positions (slotOf getWitnessHash getShortID (pool ++ [tx]) []) s' := by
  have hother : ∀ sid', sid' ≠ getShortID tx →
      slotOf getWitnessHash getShortID (pool ++ [tx]) [] sid' = slotOf getWitnessHash getShortID pool [] sid' :=
    fun sid' hne => slotOf_mempool pool tx hne
  have hself : slotOf getWitnessHash getShortID (pool ++ [tx]) [] (getShortID tx) =
      .ofMempool (pool.filter (getShortID · = getShortID tx) ++ [tx]) := slotOf_mempool_self pool tx
  unfold matchMempool
  cases hlookup : positions.lookup (getShortID tx) with
  | none => exact ⟨s, rfl, h.unknown hslots hother hlookup⟩
  | some pos =>
    have hlt : pos.toNat < base.length := (List.getElem?_eq_some_iff.mp (hslots.free hlookup)).1
    have hhave := h.haveTxn hlookup
    have havailable := h.available hlookup
    dsimp only
    rw [readAt_ok hhave, ok_bind]
    rcases mempool_slot pool (getShortID tx) with ⟨hslot, hmatches⟩ | ⟨_, hslot, hmatches⟩ | ⟨hslot, hmatches⟩
    · have hself' : slotOf getWitnessHash getShortID (pool ++ [tx]) [] (getShortID tx) =
          .mempool tx := by rw [hself, hmatches]; rfl
      rw [hslot, if_pos (by rfl), writeAt_ok (by rw [h.length]; exact hlt), ok_bind,
        writeAt_ok (by rw [h.haveLength]; exact hlt), ok_bind]
      refine ⟨_, rfl, h.change hslots hother hlookup ?_ rfl ?_ ?_ ?_⟩
      all_goals rw [hself']
      · rfl
      · rfl
      · rw [hslot]
        exact BitVec.add_zero (s.mempoolCount + 1)
      · rw [hslot]
        rfl
    · have hself' : slotOf getWitnessHash getShortID (pool ++ [tx]) [] (getShortID tx) =
          .withdrawn := by rw [hself, hmatches]; rfl
      rw [hslot] at hhave
      rw [hslot] at havailable
      rw [hslot, if_neg (by simp [Slot.isFree]), readAt_ok havailable, ok_bind, if_pos (by rfl),
        writeAt_ok (by rw [h.length]; exact hlt), ok_bind]
      refine ⟨_, rfl, h.change hslots hother hlookup ?_ (set_of_getElem? hhave).symm ?_ ?_ ?_⟩
      all_goals rw [hself']
      · rfl
      · rfl
      · rw [hslot]
        show s.mempoolCount - 1 + 1#64 = s.mempoolCount + 0#64
        grind
      · rw [hslot]
        rfl
    · have hself' : slotOf getWitnessHash getShortID (pool ++ [tx]) [] (getShortID tx) =
          slotOf getWitnessHash getShortID pool [] (getShortID tx) := by
        rw [hself, hslot]
        rcases hmatching : pool.filter (getShortID · = getShortID tx) with _ | ⟨_, _ | ⟨_, _⟩⟩
        · rw [hmatching] at hmatches
          simp at hmatches
        · rw [hmatching] at hmatches
          simp at hmatches
        · rfl
      rw [hslot] at havailable
      rw [hslot, if_neg (by simp [Slot.isFree]), readAt_ok havailable, ok_bind, if_neg (by simp [Slot.tx])]
      exact ⟨s, rfl, h.same hslots hother hself'⟩

variable (hlookup : positions.lookup (getShortID tx) = some pos)
include hlookup

theorem matchExtra_free (hhave : s.haveTxn[pos.toNat]? = some false)
    (hlt : pos.toNat < s.txnAvailable.length) : matchExtra getWitnessHash getShortID positions s tx = .ok {
      txnAvailable := s.txnAvailable.set pos.toNat (some tx)
      haveTxn := s.haveTxn.set pos.toNat true
      mempoolCount := s.mempoolCount + 1
      extraCount := s.extraCount + 1 } := by
  unfold matchExtra
  rw [hlookup]
  dsimp only
  rw [readAt_ok hhave, ok_bind, if_pos (by rfl), writeAt_ok hlt, ok_bind,
    writeAt_ok (List.getElem?_eq_some_iff.mp hhave).1]
  rfl

theorem matchExtra_kept {available : Option CMutableTransaction}
    (hhave : s.haveTxn[pos.toNat]? = some true) (havailable : s.txnAvailable[pos.toNat]? = some available)
    (hsame : ∀ tx', available = some tx' → getWitnessHash tx' = getWitnessHash tx) :
    matchExtra getWitnessHash getShortID positions s tx = .ok s := by
  have hany : (available.any fun available => getWitnessHash available != getWitnessHash tx) = false := by
    cases available with
    | none => rfl
    | some tx' => simp [hsame tx' rfl]
  unfold matchExtra
  rw [hlookup]
  dsimp only
  rw [readAt_ok hhave, ok_bind, if_neg (by simp), readAt_ok havailable, ok_bind, hany, if_neg Bool.false_ne_true]
  rfl

theorem matchExtra_other {tx' : CMutableTransaction}
    (hhave : s.haveTxn[pos.toNat]? = some true) (havailable : s.txnAvailable[pos.toNat]? = some (some tx'))
    (hother : getWitnessHash tx' ≠ getWitnessHash tx) :
    matchExtra getWitnessHash getShortID positions s tx = .ok { s with
      txnAvailable := s.txnAvailable.set pos.toNat none
      mempoolCount := s.mempoolCount - 1
      extraCount := s.extraCount - 1 } := by
  have hany : ((some tx').any fun available => getWitnessHash available != getWitnessHash tx) =
      true := by simpa using hother
  unfold matchExtra
  rw [hlookup]
  dsimp only
  rw [readAt_ok hhave, ok_bind, if_neg (by simp), readAt_ok havailable, ok_bind, hany, if_pos rfl,
    writeAt_ok (List.getElem?_eq_some_iff.mp havailable).1]
  rfl

omit hlookup

theorem offer_spec (hslots : Slots shorttxids base positions) (h : Tracks shorttxids base positions slot s)
    (hother : ∀ sid', sid' ≠ getShortID tx → slot' sid' = slot sid')
    (hself : slot' (getShortID tx) = (slot (getShortID tx)).offer getWitnessHash tx) :
    ∃ s', matchExtra getWitnessHash getShortID positions s tx = .ok s' ∧ Tracks shorttxids base positions slot' s' := by
  cases hlookup : positions.lookup (getShortID tx) with
  | none => exact ⟨s, by unfold matchExtra; rw [hlookup], h.unknown hslots hother hlookup⟩
  | some pos =>
    have hlt : pos.toNat < base.length := (List.getElem?_eq_some_iff.mp (hslots.free hlookup)).1
    have hhave := h.haveTxn hlookup
    have havailable := h.available hlookup
    have hkept (hsame : (slot (getShortID tx)).offer getWitnessHash tx = slot (getShortID tx)) :
      Tracks shorttxids base positions slot' s := h.same hslots hother (hself.trans hsame)
    cases hslot : slot (getShortID tx) with
    | free =>
      rw [hslot] at hself hhave
      refine ⟨_, matchExtra_free hlookup hhave (by rw [h.length]; exact hlt),
        h.change hslots hother hlookup ?_ rfl ?_ ?_ ?_⟩
      all_goals rw [hself]
      · rfl
      · rfl
      · rw [hslot]
        exact BitVec.add_zero (s.mempoolCount + 1)
      · rw [hslot]
        show s.extraCount + 1 + 0#64 + 0#64 = s.extraCount + 1#64 + 0#64
        grind
    | mempool tx' | extra tx' =>
      rw [hslot] at hself hhave havailable hkept
      by_cases hsame : getWitnessHash tx' = getWitnessHash tx
      · refine ⟨s, matchExtra_kept hlookup hhave havailable ?_, hkept (if_pos hsame)⟩
        rintro _ ⟨⟩
        exact hsame
      · rw [Slot.offer, if_neg hsame] at hself
        refine ⟨_, matchExtra_other hlookup hhave havailable hsame,
          h.change hslots hother hlookup ?_ (set_of_getElem? hhave).symm ?_ ?_ ?_⟩
        all_goals rw [hself]
        · rfl
        · rfl
        · rw [hslot]
          show s.mempoolCount - 1 + 1#64 = s.mempoolCount + 0#64
          grind
        · rw [hslot]
          simp only [Slot.isExtra, Slot.isDisplaced, Bool.toNat_false, Bool.toNat_true]
          grind
    | withdrawn | displaced =>
      rw [hslot] at hhave havailable hkept
      exact ⟨s, matchExtra_kept hlookup hhave havailable (fun tx' h => by cases h), hkept rfl⟩

theorem matchExtra_spec (hslots : Slots shorttxids base positions)
    (h : Tracks shorttxids base positions (slotOf getWitnessHash getShortID pool extra) s) (tx : CMutableTransaction) :
    ∃ s', matchExtra getWitnessHash getShortID positions s tx = .ok s' ∧
      Tracks shorttxids base positions (slotOf getWitnessHash getShortID pool (extra ++ [tx])) s' :=
  offer_spec hslots h (fun sid' hne => by rw [slotOf_extra, if_neg hne.symm]) (by rw [slotOf_extra, if_pos rfl])

/-! ## The loops -/

variable (hslots : Slots shorttxids base positions)
include hslots

theorem stop_iff (h : Tracks shorttxids base positions (slotOf getWitnessHash getShortID pool extra) s)
    (hshort : shorttxids.length < 2 ^ 64) :
    s.mempoolCount = BitVec.ofNat 64 positions.keys.length ↔
      allFilled getWitnessHash getShortID shorttxids pool extra = true := by
  rw [h.mempoolCount, hslots.size, ← BitVec.toNat_inj, BitVec.toNat_ofNat, BitVec.toNat_ofNat, Nat.mod_eq_of_lt hshort,
    Nat.mod_eq_of_lt (countP_le_length.trans_lt hshort), countP_eq_length]
  unfold allFilled
  rw [all_eq_true]

theorem scanMempool_spec (hshort : shorttxids.length < 2 ^ 64)
    (h : Tracks shorttxids base positions (slotOf getWitnessHash getShortID pool []) s)
    (txns : List CMutableTransaction) :
    ∃ s', scanMempool getShortID positions txns s = .ok s' ∧
      Tracks shorttxids base positions (slotOf getWitnessHash getShortID
      (scanned (fun pool => allFilled getWitnessHash getShortID shorttxids pool []) pool txns) []) s' := by
  induction txns generalizing pool s with
  | nil => exact ⟨s, rfl, h⟩
  | cons tx txns ih =>
    obtain ⟨s', hmatch, h'⟩ := matchMempool_spec hslots h tx
    have hstop := stop_iff hslots h' hshort
    rw [scanMempool, hmatch, ok_bind, scanned]
    split
    · next hfull => exact ⟨s', rfl, by rw [if_pos (hstop.mp hfull)]; exact h'⟩
    · next hopen =>
      rw [if_neg fun hfull => hopen (hstop.mpr hfull)]
      exact ih h'

theorem scanExtra_spec (hshort : shorttxids.length < 2 ^ 64)
    (h : Tracks shorttxids base positions (slotOf getWitnessHash getShortID pool extra) s)
    (extraTxn : List (Option CMutableTransaction)) :
    ∃ s', scanExtra getWitnessHash getShortID positions extraTxn s = .ok s' ∧ Tracks shorttxids base positions
      (slotOf getWitnessHash getShortID pool
        (scanned (allFilled getWitnessHash getShortID shorttxids pool) extra extraTxn.reduceOption)) s' := by
  induction extraTxn generalizing extra s with
  | nil => exact ⟨s, rfl, h⟩
  | cons tx extraTxn ih =>
    cases tx with
    | none =>
      rw [scanExtra, reduceOption_cons_of_none]
      exact ih h
    | some tx =>
      obtain ⟨s', hmatch, h'⟩ := matchExtra_spec hslots h tx
      have hstop := stop_iff hslots h' hshort
      rw [scanExtra, hmatch, ok_bind, reduceOption_cons_of_some, scanned]
      split
      · next hfull => exact ⟨s', rfl, by rw [if_pos (hstop.mp hfull)]; exact h'⟩
      · next hopen =>
        rw [if_neg fun hfull => hopen (hstop.mpr hfull)]
        exact ih h'

omit hslots

/-! ## `InitData` -/

def slotIn (msg : CBlockHeaderAndShortTxIDs) : List CMutableTransaction → List CMutableTransaction → Uint64 → Slot :=
  slotOf Pool.getWitnessHash msg.getShortID

def filledIn (msg : CBlockHeaderAndShortTxIDs) : List CMutableTransaction → List CMutableTransaction → Bool :=
  allFilled Pool.getWitnessHash msg.getShortID msg.shorttxids

/-- The transactions of the mempool that `InitData` looks at. -/
def scannedMempool (msg : CBlockHeaderAndShortTxIDs) (pool : List CMutableTransaction) : List CMutableTransaction :=
  scanned (fun pool => filledIn msg pool []) [] pool

def scannedExtra (msg : CBlockHeaderAndShortTxIDs) (pool : List CMutableTransaction)
    (extraTxn : List (Option CMutableTransaction)) : List CMutableTransaction :=
  scanned (filledIn msg (scannedMempool msg pool)) [] extraTxn.reduceOption

/-- What `InitData` leaves when it succeeds. -/
structure Initialized (msg : CBlockHeaderAndShortTxIDs) (pool : List CMutableTransaction)
    (extraTxn : List (Option CMutableTransaction)) (base : List (Option CMutableTransaction))
    (positions : AssocMap Uint64 (BitVec 16)) (s : PartiallyDownloadedBlock) : Prop where
  header : s.header = msg.header
  nonNull : headerIsNull msg.header = false
  placed : Placed (-1) msg.prefilledtxn (List.replicate msg.blockTxCount none) base
  slots : Slots msg.shorttxids base positions
  tracks : ∃ haveTxn, Tracks msg.shorttxids base positions
    (slotIn msg (scannedMempool msg pool) (scannedExtra msg pool extraTxn))
    ⟨s.txnAvailable, haveTxn, s.mempoolCount, s.extraCount⟩

/-- `InitData` ends without changing the transactions it looks at. -/
theorem initData_spec (bucketSize : BucketSize) {msg : CBlockHeaderAndShortTxIDs} (hshort : msg.blockTxCount ≤ 0xffff) :
    ∃ status, ∀ pool extraTxn, ∃ s, initData bucketSize msg pool extraTxn {} = .ok (status, s) ∧
      (status = .ok → ∃ base positions, Initialized msg pool extraTxn base positions s) := by
  unfold initData
  split
  · exact ⟨.invalid, fun _ _ => ⟨_, rfl, fun h => by cases h⟩⟩
  next hnull =>
  split
  · exact ⟨.invalid, fun _ _ => ⟨_, rfl, fun h => by cases h⟩⟩
  split
  · exact ⟨.invalid, fun _ _ => ⟨_, rfl, fun h => by cases h⟩⟩
  dsimp only
  have hlength : (replicate msg.blockTxCount (none : Option CMutableTransaction)).length =
      msg.shorttxids.length + 0 + msg.prefilledtxn.length := length_replicate
  obtain ⟨status, base, hplace, hplaced⟩ := placePrefilled_spec (le_refl (-1)) hlength fun p _ hp => by
    rw [length_replicate] at hp
    rw [getElem?_replicate, if_pos hp]
  simp only [hplace, ok_bind]
  split
  · exact ⟨status, fun _ _ => ⟨_, rfl, fun h => by contradiction⟩⟩
  next hok =>
  have hplaced := hplaced (not_not.mp hok)
  have hbase : base.length ≤ 0xffff := by
    rw [hplaced.length, length_replicate]
    exact hshort
  have hfree : freeCount base = msg.shorttxids.length := by
    have hcount := hplaced.free
    rw [freeCount, freeCount, countP_replicate, if_pos (by rfl)] at hcount
    unfold CBlockHeaderAndShortTxIDs.blockTxCount at hcount
    unfold freeCount
    omega
  have henough : msg.shorttxids.length ≤ (freeFrom 0 base).length := by rw [freeFrom_length, hfree]
  rcases mapShortIDs_start bucketSize hbase henough with hmap | ⟨hmap, -⟩
  · simp only [hmap, ok_bind]
    split
    · exact ⟨.failed, fun _ _ => ⟨_, rfl, fun h => by cases h⟩⟩
    next hsize =>
    have hentries : (msg.shorttxids.zip (freeFrom 0 base)).length = msg.shorttxids.length := by
      rw [length_zip, Nat.min_eq_left henough]
    have hnodup := nodup_of_assign ((not_not.mp hsize).trans hentries.symm)
    rw [map_fst_zip henough] at hnodup
    have hslots := slots_of_assign hbase hfree hnodup
    have hids : msg.shorttxids.length < 2 ^ 64 := by
      unfold CBlockHeaderAndShortTxIDs.blockTxCount at hshort
      omega
    refine ⟨.ok, fun pool extraTxn => ?_⟩
    have hstart : Tracks _ _ _ (slotOf Pool.getWitnessHash msg.getShortID [] []) _ := Tracks.start hslots
    obtain ⟨_, hmempool, hr⟩ := scanMempool_spec hslots hids hstart pool
    obtain ⟨r', hextra, hr'⟩ := scanExtra_spec hslots hids hr extraTxn
    rw [hmempool, ok_bind, hextra, ok_bind]
    refine ⟨_, rfl, fun _ => ⟨base, _, rfl, ?_, hplaced, hslots, r'.haveTxn, hr'⟩⟩
    rw [Bool.or_eq_true, not_or, Bool.not_eq_true] at hnull
    exact hnull.1
  · simp only [hmap, ok_bind]
    exact ⟨.failed, fun _ _ => ⟨_, rfl, fun h => by cases h⟩⟩

end FullNode.CompactBlock

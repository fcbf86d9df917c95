import FullNode.TxOrphanage
import Mathlib.Algebra.Order.BigOperators.Group.List

/-! # The orphanage is exact -/

namespace FullNode.Orphanage

open OrderedIndex List AssocMap AList
open TxRequest (memoryBytes)

/-! ## Outpoints -/

abbrev OutpointIndex := AssocMap COutPoint (List Uint256)

def spenders (index : OutpointIndex) (prevout : COutPoint) : List Uint256 := (index.lookup prevout).getD []

def Tidy (index : OutpointIndex) : Prop := ∀ prevout iters, index.lookup prevout = some iters → iters ≠ [] ∧ iters.Nodup

variable {index : OutpointIndex} {wtxid w : Uint256} {prevout : COutPoint}

theorem Tidy.spenders_nodup (h : Tidy index) (prevout : COutPoint) : (spenders index prevout).Nodup := by
  unfold spenders
  cases hlookup : index.lookup prevout with
  | none => exact nodup_nil
  | some iters => exact (h prevout iters hlookup).2

theorem spenders_insert (prevout p : COutPoint) (iters : List Uint256) :
    spenders (index.insert prevout iters) p = if p = prevout then iters else spenders index p := by
  unfold spenders
  split
  · next h => rw [h, lookup_insert, Option.getD_some]
  · next h => rw [lookup_insert_ne h]

theorem spenders_erase (prevout p : COutPoint) :
    spenders (index.erase prevout) p = if p = prevout then [] else spenders index p := by
  unfold spenders
  split
  · next h => rw [h, lookup_erase, Option.getD_none]
  · next h => rw [lookup_erase_ne h]

theorem Tidy.insert (h : Tidy index) {iters : List Uint256} (hne : iters ≠ []) (hnodup : iters.Nodup) :
    Tidy (index.insert prevout iters) := by
  intro p iters' hlookup
  rcases lookup_insert_cases hlookup with ⟨-, rfl⟩ | ⟨-, hlookup⟩
  · exact ⟨hne, hnodup⟩
  · exact h p iters' hlookup

theorem Tidy.erase (h : Tidy index) : Tidy (index.erase prevout) := by
  intro p iters hlookup
  by_cases hp : p = prevout
  · rw [hp, lookup_erase] at hlookup
    cases hlookup
  · rw [lookup_erase_ne hp] at hlookup
    exact h p iters hlookup

theorem indexOutpoints_spec (h : Tidy index) (wtxid : Uint256) (prevouts : List COutPoint) :
    Tidy (TxOrphanage.indexOutpoints wtxid prevouts index) ∧ ∀ p w,
      w ∈ spenders (TxOrphanage.indexOutpoints wtxid prevouts index) p ↔
        w ∈ spenders index p ∨ (p ∈ prevouts ∧ w = wtxid) := by
  induction prevouts generalizing index with
  | nil => exact ⟨h, by simp [TxOrphanage.indexOutpoints]⟩
  | cons prevout prevouts ih =>
    have hmem : ∀ w, w ∈ insertNew memoryBytes wtxid (spenders index prevout) ↔
      w = wtxid ∨ w ∈ spenders index prevout := fun w => mem_insertNew
    have hone : Tidy (index.insert prevout (insertNew memoryBytes wtxid (spenders index prevout))) :=
      h.insert (ne_nil_of_mem ((hmem wtxid).mpr (.inl rfl))) (insertNew_nodup (h.spenders_nodup prevout))
    obtain ⟨htidy, hspends⟩ := ih hone
    refine ⟨htidy, fun p w => (hspends p w).trans ?_⟩
    rw [spenders_insert, mem_cons]
    split
    · next hp =>
      rw [hmem, hp]
      tauto
    · next hp => tauto

theorem unindexOutpoints_spec (h : Tidy index) (wtxid : Uint256) (prevouts : List COutPoint) :
    Tidy (TxOrphanage.unindexOutpoints wtxid prevouts index) ∧ ∀ p w,
      w ∈ spenders (TxOrphanage.unindexOutpoints wtxid prevouts index) p ↔
        w ∈ spenders index p ∧ ¬ (p ∈ prevouts ∧ w = wtxid) := by
  induction prevouts generalizing index with
  | nil => exact ⟨h, by simp [TxOrphanage.unindexOutpoints]⟩
  | cons prevout prevouts ih =>
    unfold TxOrphanage.unindexOutpoints at ih ⊢
    rw [foldl_cons]
    have hmem : ∀ w, w ∈ (spenders index prevout).erase wtxid ↔ w ≠ wtxid ∧ w ∈ spenders index prevout :=
      fun w => (h.spenders_nodup prevout).mem_erase_iff
    cases hlookup : index.lookup prevout with
    | none =>
      obtain ⟨htidy, hspends⟩ := ih h
      refine ⟨htidy, fun p w => (hspends p w).trans ?_⟩
      have hnone : w ∉ spenders index prevout := by
        unfold spenders
        rw [hlookup]
        exact not_mem_nil
      rw [mem_cons]
      constructor
      · rintro ⟨hw, hnot⟩
        refine ⟨hw, ?_⟩
        rintro ⟨rfl | hp, heq⟩
        · exact hnone hw
        · exact hnot ⟨hp, heq⟩
      · rintro ⟨hw, hnot⟩
        exact ⟨hw, fun hand => hnot ⟨.inr hand.1, hand.2⟩⟩
    | some iters =>
      have hiters : spenders index prevout = iters := by
        unfold spenders
        rw [hlookup, Option.getD_some]
      rw [hiters] at hmem
      simp only
      split
      · next hempty =>
        rw [List.isEmpty_iff] at hempty
        obtain ⟨htidy, hspends⟩ := ih h.erase
        refine ⟨htidy, fun p w => (hspends p w).trans ?_⟩
        rw [spenders_erase, mem_cons]
        split
        · next hp =>
          rw [hp, hiters]
          constructor
          · rintro ⟨hin, -⟩
            exact absurd hin not_mem_nil
          · rintro ⟨hin, hnot⟩
            have hw : w ∈ iters.erase wtxid := (hmem w).mpr ⟨fun heq => hnot ⟨.inl rfl, heq⟩, hin⟩
            rw [hempty] at hw
            exact absurd hw not_mem_nil
        · next hp => tauto
      · next hne =>
        obtain ⟨htidy, hspends⟩ := ih (h.insert (by simpa using hne) ((h prevout iters hlookup).2.erase wtxid))
        refine ⟨htidy, fun p w => (hspends p w).trans ?_⟩
        rw [spenders_insert, mem_cons]
        split
        · next hp =>
          rw [hmem, hp, hiters]
          tauto
        · next hp => tauto

/-! ## The list and the positions -/

abbrev OrphanMap := AssocMap Uint256 OrphanTx

structure Placed (list : List Uint256) (orphans : OrphanMap) : Prop where
  listed : ∀ w o, orphans.lookup w = some o → list[o.listPos]? = some w
  known : ∀ i w, list[i]? = some w → ∃ o, orphans.lookup w = some o ∧ o.listPos = i

variable {list : List Uint256} {orphans : OrphanMap} {orphan : OrphanTx}

section

variable (h : Placed list orphans)
include h

theorem Placed.pos_lt (hlookup : orphans.lookup w = some orphan) : orphan.listPos < list.length :=
  (List.getElem?_eq_some_iff.mp (h.listed w orphan hlookup)).1

theorem Placed.nodup : list.Nodup := by
  rw [nodup_iff_getElem?_ne_getElem?]
  intro i j hij hj heq
  obtain ⟨w, hw⟩ : ∃ w, list[j]? = some w := ⟨_, getElem?_eq_getElem hj⟩
  obtain ⟨_, hlookup, _⟩ := h.known i w (by rw [heq, hw])
  obtain ⟨_, hlookup', _⟩ := h.known j w hw
  rw [hlookup] at hlookup'
  cases hlookup'
  omega

theorem Placed.push (hnew : orphans.lookup wtxid = none) (hpos : orphan.listPos = list.length) :
    Placed (list ++ [wtxid]) (orphans.insert wtxid orphan) := by
  constructor
  · intro w o hlookup
    rcases lookup_insert_cases hlookup with ⟨rfl, rfl⟩ | ⟨-, hlookup⟩
    · rw [hpos, getElem?_concat_length]
    · rw [getElem?_append_left (h.pos_lt hlookup)]
      exact h.listed w o hlookup
  · intro i w hi
    rw [getElem?_append] at hi
    split at hi
    · next hlt =>
      obtain ⟨o, hlookup, ho⟩ := h.known i w hi
      have hw : w ≠ wtxid := by
        rintro rfl
        rw [hnew] at hlookup
        cases hlookup
      exact ⟨o, by rw [AList.lookup_insert_ne hw, hlookup], ho⟩
    · next hge =>
      have hzero : i - list.length = 0 := by
        have := (List.getElem?_eq_some_iff.mp hi).1
        simpa using this
      rw [hzero] at hi
      cases hi
      exact ⟨orphan, AList.lookup_insert _, by omega⟩

theorem Placed.update {o : OrphanTx} (hlookup : orphans.lookup wtxid = some o)
    (hpos : orphan.listPos = o.listPos) : Placed list (orphans.insert wtxid orphan) := by
  constructor
  · intro w o' hw
    rcases lookup_insert_cases hw with ⟨rfl, rfl⟩ | ⟨-, hw⟩
    · rw [hpos]
      exact h.listed w o hlookup
    · exact h.listed w o' hw
  · intro i w hi
    obtain ⟨o', hw, ho'⟩ := h.known i w hi
    by_cases heq : w = wtxid
    · subst heq
      rw [hlookup] at hw
      cases hw
      exact ⟨orphan, lookup_insert _, by omega⟩
    · exact ⟨o', by rw [lookup_insert_ne heq, hw], ho'⟩

theorem Placed.pop (hlookup : orphans.lookup wtxid = some orphan)
    (hlast : orphan.listPos + 1 = list.length) : Placed list.dropLast (orphans.erase wtxid) := by
  constructor
  · intro w o hw
    by_cases heq : w = wtxid
    · rw [heq, lookup_erase] at hw
      cases hw
    · rw [lookup_erase_ne heq] at hw
      have hlisted := h.listed w o hw
      have hlt := h.pos_lt hw
      have hne : o.listPos ≠ orphan.listPos := by
        intro hpos
        rw [hpos, h.listed wtxid orphan hlookup] at hlisted
        exact heq (Option.some.inj hlisted).symm
      rw [getElem?_dropLast, if_pos (by omega)]
      exact hlisted
  · intro i w hi
    rw [getElem?_dropLast] at hi
    split at hi
    · next hlt =>
      obtain ⟨o, hw, ho⟩ := h.known i w hi
      have heq : w ≠ wtxid := by
        rintro rfl
        rw [hlookup] at hw
        cases hw
        omega
      exact ⟨o, by rw [lookup_erase_ne heq, hw], ho⟩
    · cases hi

end

variable {moved : OrphanTx} {s s' : TxOrphanage}

theorem Placed.swapPop (h : Placed list orphans) (hlookup : orphans.lookup wtxid = some orphan) {last : Uint256}
    (hlast : list.getLast? = some last) (hmoved : orphans.lookup last = some moved)
    (hne : orphan.listPos + 1 ≠ list.length) : Placed (list.set orphan.listPos last).dropLast
      ((orphans.insert last { moved with listPos := orphan.listPos }).erase wtxid) := by
  have hpos := h.pos_lt hlookup
  have hend : list[list.length - 1]? = some last := by rw [← getLast?_eq_getElem?, hlast]
  have hmovedPos : moved.listPos = list.length - 1 := by
    obtain ⟨o, ho, hpos'⟩ := h.known _ _ hend
    rw [hmoved] at ho
    cases ho
    exact hpos'
  have hdiff : last ≠ wtxid := by
    rintro rfl
    rw [hlookup] at hmoved
    cases hmoved
    omega
  constructor
  · intro w o hw
    rw [getElem?_dropLast, length_set, getElem?_set]
    obtain ⟨heq, hw⟩ := lookup_erase_cases hw
    rcases lookup_insert_cases hw with ⟨rfl, rfl⟩ | ⟨hwlast, hw⟩
    · simp only
      rw [if_pos (by omega), if_pos trivial, if_pos hpos]
    · have hlisted := h.listed w o hw
      have hlt := h.pos_lt hw
      have hposNe : orphan.listPos ≠ o.listPos := by
        intro hpos
        rw [← hpos, h.listed wtxid orphan hlookup] at hlisted
        exact heq (Option.some.inj hlisted).symm
      have hlastNe : o.listPos ≠ list.length - 1 := by
        intro hpos
        rw [hpos, hend] at hlisted
        exact hwlast (Option.some.inj hlisted).symm
      rw [if_pos (by omega), if_neg hposNe]
      exact hlisted
  · intro i w hi
    rw [getElem?_dropLast, length_set] at hi
    split at hi
    · next hlt =>
      rw [getElem?_set] at hi
      split at hi
      · next heq =>
        cases hi
        exact ⟨{ moved with listPos := orphan.listPos }, by rw [lookup_erase_ne hdiff, lookup_insert], heq⟩
      · next hneq =>
        obtain ⟨o, hw, ho⟩ := h.known i w hi
        have hw1 : w ≠ wtxid := by
          rintro rfl
          rw [hlookup] at hw
          cases hw
          exact hneq ho
        have hw2 : w ≠ last := by
          rintro rfl
          rw [hmoved] at hw
          cases hw
          omega
        exact ⟨o, by rw [lookup_erase_ne hw1, lookup_insert_ne hw2, hw], ho⟩
    · cases hi

/-! ## Totals -/

namespace TxOrphanage

def usage (s : TxOrphanage) : Nat := AssocMap.sumBy (fun o => o.getUsage.toNat) s.orphans

def announcements (s : TxOrphanage) : Nat := AssocMap.sumBy (fun o => o.announcers.length) s.orphans

def usageFor (peer : Int) (orphan : OrphanTx) : Nat := if peer ∈ orphan.announcers then orphan.getUsage.toNat else 0

def usageBy (s : TxOrphanage) (peer : Int) : Nat := AssocMap.sumBy (usageFor peer) s.orphans

def Fits (s : TxOrphanage) : Prop := s.usage < 2 ^ 32 ∧ s.announcements < 2 ^ 32

structure Indexed (s : TxOrphanage) : Prop where
  keyed : ∀ w o, s.orphans.lookup w = some o → o.tx.witnessHash = w
  nodup : ∀ w o, s.orphans.lookup w = some o → o.announcers.Nodup
  placed : Placed s.orphanList s.orphans
  tidy : Tidy s.outpointToOrphanIt
  spends : ∀ p w, w ∈ spenders s.outpointToOrphanIt p ↔ ∃ o, s.orphans.lookup w = some o ∧ p ∈ o.tx.prevouts

structure Counted (s : TxOrphanage) : Prop where
  usage : s.totalOrphanUsage = BitVec.ofNat 32 s.usage
  announcements : s.totalAnnouncements = BitVec.ofNat 32 s.announcements
  peers : ∀ peer info, s.peerOrphanageInfo.lookup peer = some info → info.totalUsage = BitVec.ofNat 32 (s.usageBy peer)

def Attended (s : TxOrphanage) : Prop :=
  ∀ w o, s.orphans.lookup w = some o → o.announcers ≠ [] ∧ ∀ peer ∈ o.announcers,
    (s.peerOrphanageInfo.lookup peer).isSome

end TxOrphanage

open TxOrphanage

variable {s : TxOrphanage}

theorem sumBy_insert_same {f : OrphanTx → Nat} {e e' : OrphanTx} (hlookup : orphans.lookup w = some e)
    (hf : f e' = f e) : sumBy f (orphans.insert w e') = sumBy f orphans := by
  rw [sumBy_insert, sumBy_of_lookup f hlookup, hf]

theorem usageBy_le (s : TxOrphanage) (peer : Int) : s.usageBy peer ≤ s.usage := by
  unfold usageBy usage sumBy
  apply sum_le_sum
  intro e _
  unfold usageFor
  split
  · exact le_rfl
  · exact Nat.zero_le _

theorem subPeerUsage_spec (txSize : Uint32) {announcers : List Int} (hnodup : announcers.Nodup)
    (hinfo : ∀ q ∈ announcers, (s.peerOrphanageInfo.lookup q).isSome) :
    ∃ infos underflowed, subPeerUsage txSize announcers s = .ok { s with peerOrphanageInfo := infos, underflowed } ∧
      (∀ q, infos.lookup q = if q ∈ announcers then (s.peerOrphanageInfo.lookup q).map
        (fun info => { info with totalUsage := info.totalUsage - txSize }) else s.peerOrphanageInfo.lookup q) ∧
      ((∀ q ∈ announcers, ∀ info, s.peerOrphanageInfo.lookup q = some info → txSize ≤ info.totalUsage) →
        underflowed = s.underflowed) := by
  induction announcers generalizing s with
  | nil => exact ⟨s.peerOrphanageInfo, s.underflowed, rfl, by simp, fun _ => rfl⟩
  | cons peer announcers ih =>
    obtain ⟨hpeer, hnodup⟩ := nodup_cons.mp hnodup
    obtain ⟨info, hlookup⟩ := Option.isSome_iff_exists.mp (hinfo peer mem_cons_self)
    have hother : ∀ q ∈ announcers, q ≠ peer := fun q hq heq => hpeer (heq ▸ hq)
    unfold subPeerUsage
    rw [hlookup]
    obtain ⟨infos, underflowed, heq, hlook, hunder⟩ := ih (s := { s with
      peerOrphanageInfo := s.peerOrphanageInfo.insert peer { info with totalUsage := info.totalUsage - txSize }
      underflowed := s.underflowed || info.totalUsage < txSize }) hnodup (by
        intro q hq
        simp only
        rw [lookup_insert_ne (hother q hq)]
        exact hinfo q (mem_cons_of_mem _ hq))
    refine ⟨infos, underflowed, heq, ?_, ?_⟩
    · intro q
      rw [hlook q]
      by_cases hq : q = peer
      · rw [hq, if_neg hpeer, if_pos mem_cons_self, hlookup]
        exact lookup_insert _
      · simp only [lookup_insert_ne hq, mem_cons, hq, false_or]
    · intro hle
      have hhead : ¬ info.totalUsage < txSize := BitVec.not_lt.mpr (hle peer mem_cons_self info hlookup)
      rw [hunder]
      · simp [hhead]
      · intro q hq info' hlookup'
        simp only [lookup_insert_ne (hother q hq)] at hlookup'
        exact hle q (mem_cons_of_mem _ hq) info' hlookup'

structure Moved (orphans orphans' : OrphanMap) : Prop where
  forth : ∀ w o, orphans.lookup w = some o → ∃ pos, orphans'.lookup w = some { o with listPos := pos }
  back : ∀ w o, orphans'.lookup w = some o → ∃ pos, orphans.lookup w = some { o with listPos := pos }

theorem Moved.refl (orphans : OrphanMap) : Moved orphans orphans :=
  ⟨fun _ o h => ⟨o.listPos, h⟩, fun _ o h => ⟨o.listPos, h⟩⟩

theorem Moved.insert (hlookup : orphans.lookup w = some moved) (pos : Nat) :
    Moved orphans (orphans.insert w { moved with listPos := pos }) := by
  constructor
  · intro w' o ho
    by_cases hw : w' = w
    · rw [hw, hlookup] at ho
      cases ho
      exact ⟨pos, by rw [hw, lookup_insert]⟩
    · exact ⟨o.listPos, by rw [lookup_insert_ne hw, ho]⟩
  · intro w' o ho
    rcases lookup_insert_cases ho with ⟨rfl, rfl⟩ | ⟨-, ho⟩
    · exact ⟨moved.listPos, hlookup⟩
    · exact ⟨o.listPos, ho⟩

theorem moveLast_spec (h : Placed s.orphanList s.orphans) (hlookup : s.orphans.lookup wtxid = some orphan) :
    ∃ list orphans', s.moveLast orphan.listPos = .ok { s with orphanList := list, orphans := orphans' } ∧
      Placed list.dropLast (orphans'.erase wtxid) ∧ Moved s.orphans orphans' ∧ orphans'.lookup wtxid = some orphan ∧
      ∀ f : OrphanTx → Nat, (∀ o pos, f { o with listPos := pos } = f o) → sumBy f orphans' = sumBy f s.orphans := by
  unfold moveLast
  have hpos := h.pos_lt hlookup
  split
  · next hne =>
    obtain ⟨last, hlast⟩ : ∃ last, s.orphanList.getLast? = some last := by
      rw [getLast?_eq_getElem?]
      exact ⟨_, getElem?_eq_getElem (by omega)⟩
    have hend : s.orphanList[s.orphanList.length - 1]? = some last := by rw [← getLast?_eq_getElem?, hlast]
    obtain ⟨moved, hmoved, _⟩ := h.known _ _ hend
    have hdiff : wtxid ≠ last := by
      rintro rfl
      rw [hlookup] at hmoved
      cases hmoved
      omega
    rw [hlast]
    simp only [hmoved]
    refine ⟨_, _, rfl, h.swapPop hlookup hlast hmoved hne, .insert hmoved _, ?_, ?_⟩
    · rw [lookup_insert_ne hdiff, hlookup]
    · intro f hf
      exact sumBy_insert_same hmoved (hf moved _)
  · next heq =>
    exact ⟨s.orphanList, s.orphans, rfl, h.pop hlookup (by omega), .refl _, hlookup, fun _ _ => rfl⟩

structure Erased (s : TxOrphanage) (wtxid : Uint256) (orphan : OrphanTx) (s' : TxOrphanage) : Prop where
  gone : s'.orphans.lookup wtxid = none
  kept : ∀ w ≠ wtxid, ∀ o, s.orphans.lookup w = some o → ∃ pos, s'.orphans.lookup w = some { o with listPos := pos }
  old : ∀ w o, s'.orphans.lookup w = some o → ∃ pos, s.orphans.lookup w = some { o with listPos := pos }
  infos : ∀ q, (s'.peerOrphanageInfo.lookup q).isSome = (s.peerOrphanageInfo.lookup q).isSome
  sums : ∀ f : OrphanTx → Nat, (∀ o pos, f { o with listPos := pos } = f o) →
    AssocMap.sumBy f s.orphans = f orphan + AssocMap.sumBy f s'.orphans
  quiet : s.Fits → s'.underflowed = s.underflowed

theorem ofNat_sub {a b : Nat} : BitVec.ofNat 32 (a + b) - BitVec.ofNat 32 a = BitVec.ofNat 32 b := by
  rw [BitVec.ofNat_add, BitVec.add_comm, BitVec.add_sub_cancel]

theorem ofNat_toNat_sub {a : Uint32} {b : Nat} : BitVec.ofNat 32 (a.toNat + b) - a = BitVec.ofNat 32 b := by
  rw [BitVec.ofNat_add, BitVec.ofNat_toNat, BitVec.setWidth_eq, BitVec.add_comm, BitVec.add_sub_cancel]

theorem not_lt_of_fits {total part : Nat} (hfits : total < 2 ^ 32) (hle : part ≤ total) :
    ¬ BitVec.ofNat 32 total < BitVec.ofNat 32 part := by
  rw [BitVec.lt_def, BitVec.toNat_ofNat, BitVec.toNat_ofNat, Nat.mod_eq_of_lt hfits, Nat.mod_eq_of_lt (by omega)]
  omega

theorem eraseTx_spec (h : s.Indexed) (hcounted : s.Counted) (hlookup : s.orphans.lookup wtxid = some orphan)
    (hinfo : ∀ q ∈ orphan.announcers, (s.peerOrphanageInfo.lookup q).isSome) :
    ∃ s', s.eraseTx wtxid = .ok (1, s') ∧ s'.Indexed ∧ s'.Counted ∧ Erased s wtxid orphan s' := by
  have hplaced := h.placed
  obtain ⟨htidy, hspends⟩ := unindexOutpoints_spec h.tidy wtxid orphan.tx.prevouts
  obtain ⟨infos, underflowed, hsub, hinfos, hunder⟩ :=
    subPeerUsage_spec (s := s.discount wtxid orphan) orphan.getUsage (h.nodup wtxid orphan hlookup) hinfo
  obtain ⟨list, orphans', hmove, hplaced', hmoved, hself, hsums⟩ :=
    moveLast_spec (s := { s.discount wtxid orphan with peerOrphanageInfo := infos, underflowed }) hplaced hlookup
  have hsplit : ∀ f : OrphanTx → Nat, (∀ o pos, f { o with listPos := pos } = f o) →
      sumBy f s.orphans = f orphan + sumBy f (orphans'.erase wtxid) := by
    intro f hf
    rw [← sumBy_of_lookup f hself]
    exact (hsums f hf).symm
  have husage : s.usage = orphan.getUsage.toNat + sumBy (fun o => o.getUsage.toNat) (orphans'.erase wtxid) :=
    hsplit _ fun _ _ => rfl
  have hannounced : s.announcements =
      orphan.announcers.length + sumBy (fun o => o.announcers.length) (orphans'.erase wtxid) :=
    hsplit _ fun _ _ => rfl
  have hpeer : ∀ q, s.usageBy q = usageFor q orphan + sumBy (usageFor q) (orphans'.erase wtxid) :=
    fun q => hsplit _ fun _ _ => rfl
  have hweight : orphan.getUsage = BitVec.ofNat 32 orphan.getUsage.toNat := by simp
  have hkept : ∀ w ≠ wtxid, (orphans'.erase wtxid).lookup w = orphans'.lookup w := fun w hw => lookup_erase_ne hw
  have hold : ∀ w o, (orphans'.erase wtxid).lookup w = some o → w ≠ wtxid ∧ ∃ pos,
      s.orphans.lookup w = some { o with listPos := pos } := by
    intro w o ho
    have hw : w ≠ wtxid := by
      rintro rfl
      rw [lookup_erase] at ho
      cases ho
    rw [hkept w hw] at ho
    exact ⟨hw, hmoved.back w o ho⟩
  refine ⟨{ s.discount wtxid orphan with
      peerOrphanageInfo := infos, underflowed, orphanList := list.dropLast, orphans := orphans'.erase wtxid },
        ?_, ?_, ?_, ?_⟩
  · have hlisted : ((s.discount wtxid orphan).orphanList[orphan.listPos]? == some wtxid) = true := by
      rw [beq_iff_eq]
      exact hplaced.listed wtxid orphan hlookup
    unfold eraseTx
    simp only [hlookup]
    rw [hsub, ok_bind, hlisted, check_true, ok_bind, hmove]
    rfl
  · refine ⟨?_, ?_, hplaced', htidy, ?_⟩
    · intro w o ho
      obtain ⟨-, pos, hs⟩ := hold w o ho
      have hkeyed := h.keyed w _ hs
      exact hkeyed
    · intro w o ho
      obtain ⟨-, pos, hs⟩ := hold w o ho
      have hnodup := h.nodup w _ hs
      exact hnodup
    · intro p w
      refine (hspends p w).trans ?_
      rw [h.spends]
      constructor
      · rintro ⟨⟨o, ho, hp⟩, hnot⟩
        have hw : w ≠ wtxid := by
          rintro rfl
          rw [hlookup] at ho
          cases ho
          exact hnot ⟨hp, rfl⟩
        obtain ⟨pos, ho'⟩ := hmoved.forth w o ho
        exact ⟨{ o with listPos := pos }, (hkept w hw).trans ho', hp⟩
      · rintro ⟨o, ho, hp⟩
        obtain ⟨hw, pos, hs⟩ := hold w o ho
        exact ⟨⟨_, hs, hp⟩, fun hand => hw hand.2⟩
  · refine ⟨?_, ?_, ?_⟩
    · change s.totalOrphanUsage - orphan.getUsage = _
      rw [hcounted.usage, husage]
      exact ofNat_toNat_sub
    · change s.totalAnnouncements - BitVec.ofNat 32 orphan.announcers.length = _
      rw [hcounted.announcements, hannounced]
      exact ofNat_sub
    · intro q info hq
      change infos.lookup q = some info at hq
      rw [hinfos] at hq
      split at hq
      · next hmem =>
        obtain ⟨info', hinfo', rfl⟩ := Option.map_eq_some_iff.mp hq
        simp only
        rw [hcounted.peers q info' hinfo', hpeer q, usageFor, if_pos hmem]
        exact ofNat_toNat_sub
      · next hmem =>
        rw [hcounted.peers q info hq, hpeer q, usageFor, if_neg hmem, Nat.zero_add]
        rfl
  · refine ⟨lookup_erase wtxid orphans', ?_, ?_, ?_, hsplit, ?_⟩
    · intro w hw o ho
      obtain ⟨pos, ho'⟩ := hmoved.forth w o ho
      exact ⟨pos, by rw [hkept w hw, ho']⟩
    · intro w o ho
      exact (hold w o ho).2
    · intro q
      change (infos.lookup q).isSome = _
      rw [hinfos]
      split
      · rw [Option.isSome_map]
        rfl
      · rfl
    · rintro ⟨hfitsUsage, hfitsAnnounced⟩
      have hleUsage : orphan.getUsage.toNat ≤ s.usage := by omega
      have h1 : ¬ s.totalOrphanUsage < orphan.getUsage := by
        rw [hcounted.usage, hweight]
        exact not_lt_of_fits hfitsUsage hleUsage
      have h2 : ¬ s.totalAnnouncements < BitVec.ofNat 32 orphan.announcers.length := by
        rw [hcounted.announcements]
        exact not_lt_of_fits hfitsAnnounced (by omega)
      change underflowed = _
      rw [hunder]
      · simp [discount, h1, h2]
      · intro q hq info hinfo'
        rw [hcounted.peers q info hinfo', hweight]
        refine BitVec.not_lt.mp (not_lt_of_fits (lt_of_le_of_lt (usageBy_le s q) hfitsUsage) ?_)
        rw [hpeer q, usageFor, if_pos hq]
        omega

/-! ## Erasing in a consistent state -/

structure Consistent (s : TxOrphanage) : Prop where
  indexed : s.Indexed
  counted : s.Counted
  attended : s.Attended

/-- Orphans may have gone, and counters fit if the totals do. -/
structure Shrinks (s s' : TxOrphanage) : Prop where
  old : ∀ w o, s'.orphans.lookup w = some o → ∃ pos, s.orphans.lookup w = some { o with listPos := pos }
  quiet : s.Fits → s'.Fits ∧ s'.underflowed = s.underflowed

theorem Shrinks.refl (s : TxOrphanage) : Shrinks s s := ⟨fun _ o h => ⟨o.listPos, h⟩, fun h => ⟨h, rfl⟩⟩

theorem Shrinks.trans {s'' : TxOrphanage} (h : Shrinks s s') (h' : Shrinks s' s'') : Shrinks s s'' := by
  constructor
  · intro w o ho
    obtain ⟨_, hs'⟩ := h'.old w o ho
    obtain ⟨pos', hs⟩ := h.old w _ hs'
    exact ⟨pos', hs⟩
  · intro hfits
    obtain ⟨hfits', heq⟩ := h.quiet hfits
    obtain ⟨hfits'', heq'⟩ := h'.quiet hfits'
    exact ⟨hfits'', heq'.trans heq⟩

section

variable (h : Erased s wtxid orphan s')
include h

theorem Erased.fits (hfits : s.Fits) : s'.Fits := by
  have husage := h.sums (fun o => o.getUsage.toNat) fun _ _ => rfl
  have hannounced := h.sums (fun o => o.announcers.length) fun _ _ => rfl
  unfold Fits usage announcements at hfits ⊢
  omega

theorem Erased.shrinks : Shrinks s s' :=
  ⟨h.old, fun hfits => ⟨h.fits hfits, h.quiet hfits⟩⟩

theorem Erased.length : s.orphans.entries.length = s'.orphans.entries.length + 1 := by
  have hone := h.sums (fun _ => 1) fun _ _ => rfl
  unfold sumBy at hone
  simp at hone
  omega

theorem Erased.attended (hattended : s.Attended) : s'.Attended := by
  intro w o ho
  obtain ⟨_, hs⟩ := h.old w o ho
  obtain ⟨hne, hinfo⟩ := hattended w _ hs
  refine ⟨hne, fun peer hpeer => ?_⟩
  rw [h.infos]
  exact hinfo peer hpeer

end

theorem Consistent.eraseTx_known (h : Consistent s) (hlookup : s.orphans.lookup wtxid = some orphan) :
    ∃ s', s.eraseTx wtxid = .ok (1, s') ∧ Consistent s' ∧ Erased s wtxid orphan s' := by
  obtain ⟨s', heq, hindexed, hcounted, herased⟩ :=
    eraseTx_spec h.indexed h.counted hlookup (h.attended wtxid orphan hlookup).2
  exact ⟨s', heq, ⟨hindexed, hcounted, herased.attended h.attended⟩, herased⟩

theorem Consistent.eraseTx (h : Consistent s) (wtxid : Uint256) :
    ∃ n s', s.eraseTx wtxid = .ok (n, s') ∧ Consistent s' ∧ Shrinks s s' := by
  cases hlookup : s.orphans.lookup wtxid with
  | none =>
    refine ⟨0, s, ?_, h, .refl s⟩
    unfold TxOrphanage.eraseTx
    rw [hlookup]
  | some orphan =>
    obtain ⟨s', heq, hs', herased⟩ := h.eraseTx_known hlookup
    exact ⟨1, s', heq, hs', herased.shrinks⟩

theorem Consistent.eraseAll (h : Consistent s) (wtxids : List Uint256) :
    ∃ s', eraseAll wtxids s = .ok s' ∧ Consistent s' ∧ Shrinks s s' := by
  induction wtxids generalizing s with
  | nil => exact ⟨s, rfl, h, .refl s⟩
  | cons wtxid wtxids ih =>
    obtain ⟨_, _, heq, hs1, hshrinks⟩ := h.eraseTx wtxid
    obtain ⟨s', heq', hs', hshrinks'⟩ := ih hs1
    refine ⟨s', ?_, hs', hshrinks.trans hshrinks'⟩
    unfold eraseAll
    rw [heq, ok_bind]
    exact heq'

/-! ## The sweep and the eviction -/

theorem orphanKeys_nodup (s : TxOrphanage) : s.orphanKeys.Nodup := by
  unfold orphanKeys
  rw [(mergeSort_perm _ _).nodup_iff]
  exact s.orphans.keys_nodup

theorem mem_orphanKeys : w ∈ s.orphanKeys ↔ (s.orphans.lookup w).isSome := by
  unfold orphanKeys
  rw [(mergeSort_perm _ _).mem_iff, lookup_isSome]
  rfl

theorem sweep_fold (nNow : Int) {keys : List Uint256} (hnodup : keys.Nodup) (h : Consistent s)
    (hknown : ∀ w ∈ keys, (s.orphans.lookup w).isSome) (nMinExpTime : Int) :
    ∃ time s', keys.foldlM (sweepOne nNow) (nMinExpTime, s) = .ok (time, s') ∧ Consistent s' ∧ Shrinks s s' := by
  induction keys generalizing s nMinExpTime with
  | nil => exact ⟨nMinExpTime, s, rfl, h, .refl s⟩
  | cons wtxid keys ih =>
    obtain ⟨hnot, hnodup⟩ := nodup_cons.mp hnodup
    obtain ⟨orphan, hlookup⟩ := Option.isSome_iff_exists.mp (hknown wtxid mem_cons_self)
    rw [foldlM_cons]
    unfold sweepOne
    simp only [hlookup]
    split
    · obtain ⟨s1, heq, hs1, herased⟩ := h.eraseTx_known hlookup
      have hknown1 : ∀ w ∈ keys, (s1.orphans.lookup w).isSome := by
        intro w hw
        obtain ⟨o, ho⟩ := Option.isSome_iff_exists.mp (hknown w (mem_cons_of_mem _ hw))
        obtain ⟨_, hpos⟩ := herased.kept w (fun heq => hnot (heq ▸ hw)) o ho
        rw [hpos]
        rfl
      obtain ⟨time, s', heq', hs', hshrinks⟩ := ih hnodup hs1 hknown1 nMinExpTime
      refine ⟨time, s', ?_, hs', herased.shrinks.trans hshrinks⟩
      rw [heq]
      exact heq'
    · obtain ⟨time, s', heq', hs', hshrinks⟩ :=
        ih hnodup h (fun w hw => hknown w (mem_cons_of_mem _ hw)) (min orphan.nTimeExpire nMinExpTime)
      exact ⟨time, s', heq', hs', hshrinks⟩

theorem Consistent.nextSweep (h : Consistent s) (time : Int) : Consistent { s with nextSweep := time } :=
  ⟨⟨h.indexed.keyed, h.indexed.nodup, h.indexed.placed, h.indexed.tidy, h.indexed.spends⟩,
    ⟨h.counted.usage, h.counted.announcements, h.counted.peers⟩, h.attended⟩

theorem Consistent.sweep (h : Consistent s) (nNow : Int) : ∃ s', s.sweep nNow = .ok s' ∧ Consistent s' ∧
    Shrinks s s' := by
  unfold TxOrphanage.sweep
  split
  · obtain ⟨_, s', heq, hs', hshrinks⟩ := sweep_fold nNow (orphanKeys_nodup s) h (fun w hw => mem_orphanKeys.mp hw)
      (nNow + ORPHAN_TX_EXPIRE_TIME - ORPHAN_TX_EXPIRE_INTERVAL)
    rw [heq, ok_bind]
    exact ⟨_, rfl, hs'.nextSweep _, hshrinks.old, hshrinks.quiet⟩
  · exact ⟨s, rfl, h, .refl s⟩

theorem orphanList_length (h : s.Indexed) : s.orphanList.length = s.orphans.entries.length := by
  have hperm : s.orphanList.Perm s.orphans.keys := by
    rw [perm_ext_iff_of_nodup h.placed.nodup s.orphans.keys_nodup]
    intro w
    rw [← AList.mem_keys, ← AList.lookup_isSome, mem_iff_getElem?]
    constructor
    · rintro ⟨i, hi⟩
      obtain ⟨o, ho, -⟩ := h.placed.known i w hi
      rw [ho]
      rfl
    · intro hsome
      obtain ⟨o, ho⟩ := Option.isSome_iff_exists.mp hsome
      exact ⟨o.listPos, h.placed.listed w o ho⟩
  rw [hperm.length_eq]
  exact length_map _

theorem randrange_ok (raw : Nat) {range : Nat} (h : 0 < range) : randrange raw range = .ok (raw % range) := by
  unfold randrange
  rw [decide_eq_true h, check_true, ok_bind]
  rfl

theorem Consistent.evict (h : Consistent s) (maxOrphans : Nat) (rng : Nat → Nat) {rounds : Nat}
    (hrounds : s.orphans.entries.length < rounds) :
    ∃ s', evict maxOrphans rng rounds s = .ok s' ∧ Consistent s' ∧ Shrinks s s' ∧
      s'.orphans.entries.length ≤ maxOrphans := by
  induction rounds generalizing s with
  | zero => omega
  | succ rounds ih =>
    unfold evict
    split
    · next hmany =>
      have hlength := orphanList_length h.indexed
      rw [randrange_ok (rng rounds) (by omega : 0 < s.orphanList.length), ok_bind]
      have hlt : rng rounds % s.orphanList.length < s.orphanList.length := Nat.mod_lt _ (by omega)
      obtain ⟨_, hlookup, -⟩ := h.indexed.placed.known _ _ (getElem?_eq_getElem hlt)
      obtain ⟨_, heq, hs1, herased⟩ := h.eraseTx_known hlookup
      have hfewer := herased.length
      obtain ⟨s', heq', hs', hshrinks, hsize⟩ := ih hs1 (by omega)
      refine ⟨s', ?_, hs', herased.shrinks.trans hshrinks, hsize⟩
      rw [getElem?_eq_getElem hlt]
      simp only
      rw [heq]
      exact heq'
    · next hfew => exact ⟨s, rfl, h, .refl s, by omega⟩

theorem Consistent.limitOrphans (h : Consistent s) (maxOrphans : Nat) (nNow : Int) (rng : Nat → Nat) :
    ∃ s', s.limitOrphans maxOrphans nNow rng = .ok s' ∧ Consistent s' ∧ Shrinks s s' ∧
      s'.orphans.entries.length ≤ maxOrphans := by
  obtain ⟨_, heq, hs1, hshrinks⟩ := h.sweep nNow
  obtain ⟨s', heq', hs', hshrinks', hsize⟩ := hs1.evict maxOrphans rng (Nat.lt_succ_self _)
  refine ⟨s', ?_, hs', hshrinks.trans hshrinks', hsize⟩
  unfold TxOrphanage.limitOrphans
  rw [heq, ok_bind]
  exact heq'

end FullNode.Orphanage

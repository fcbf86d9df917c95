import FullNode.AddrMan
import Mathlib.Tactic.Linarith

/-! # The tables of the address manager -/

namespace FullNode.AddrMan

open State AList Option AssocMap

variable {A R : Type} {c : Context A R} {s : State A R} {id : Nat} {info : AddrInfo A R}

/-! ## Sums over the entries -/

variable {m : AssocMap Nat (AddrInfo A R)} {id' p q bucket pos : Nat} {info' x : AddrInfo A R} {l : List Nat}
  {net : Network} {counts : AssocMap Network NewTriedCount} {loose' : Nat → Prop} {key : Uint256} {t : Table}
  {slot : Option Nat}

theorem sumBy_insert_some (f : AddrInfo A R → Nat) (h : m.lookup id = some info) (info' : AddrInfo A R) :
    AssocMap.sumBy f (m.insert id info') + f info = AssocMap.sumBy f m + f info' := by
  rw [sumBy_insert, sumBy_of_lookup f h]
  omega

theorem sumBy_insert_none (f : AddrInfo A R → Nat) (h : m.lookup id = none) (info' : AddrInfo A R) :
    AssocMap.sumBy f (m.insert id info') = AssocMap.sumBy f m + f info' := by
  rw [sumBy_insert, sumBy_erase_of_none f h, Nat.add_comm]

def triedIn (info : AddrInfo A R) : Nat := if info.fInTried then 1 else 0
def newIn (info : AddrInfo A R) : Nat := if info.fInTried then 0 else 1
def triedAt (c : Context A R) (net : Network) (info : AddrInfo A R) : Nat :=
  if c.network info.addr = net then triedIn info else 0
def newAt (c : Context A R) (net : Network) (info : AddrInfo A R) : Nat :=
  if c.network info.addr = net then newIn info else 0

/-! ## The invariant -/

def Context.triedPos (c : Context A R) (key : Uint256) (a : A) : Nat :=
  c.getBucketPosition key false (c.getTriedBucket key a) a

def refs (c : Context A R) (key : Uint256) (t : Table) (a : A) (id : Nat) : Nat :=
  (List.range ADDRMAN_NEW_BUCKET_COUNT).countP fun bucket => t bucket (c.getBucketPosition key true bucket a) = some id

def Shuffled (s : State A R) : Prop := ∀ k id, s.vRandom[k]? = some id ↔
    ∃ info, s.mapInfo.lookup id = some info ∧ info.nRandomPos = k

variable [DecidableEq A] in
structure Indexed (s : State A R) : Prop where
  addr : ∀ a id, s.mapAddr.lookup a = some id ↔ ∃ info, s.mapInfo.lookup id = some info ∧ info.addr = a
  random : ∀ k id, s.vRandom[k]? = some id ↔ ∃ info, s.mapInfo.lookup id = some info ∧ info.nRandomPos = k
  fresh : ∀ id info, s.mapInfo.lookup id = some info → id < s.nIdCount

/-- The slots agree with the entries. Those outside are loose. -/
structure Placed (c : Context A R) (loose : Nat → Prop) (s : State A R) : Prop where
  tried : ∀ bucket pos id, s.vvTried bucket pos = some id ↔
      ∃ info, s.mapInfo.lookup id = some info ∧ info.fInTried = true ∧
    c.getTriedBucket s.nKey info.addr = bucket ∧ c.triedPos s.nKey info.addr = pos
  new_slot : ∀ bucket pos id, s.vvNew bucket pos = some id → bucket < ADDRMAN_NEW_BUCKET_COUNT ∧
    ∃ info, s.mapInfo.lookup id = some info ∧ info.fInTried = false ∧
      c.getBucketPosition s.nKey true bucket info.addr = pos
  ref_eq : ∀ id info, s.mapInfo.lookup id = some info → info.nRefCount = refs c s.nKey s.vvNew info.addr id
  ref_le : ∀ id info, s.mapInfo.lookup id = some info → info.nRefCount ≤ ADDRMAN_NEW_BUCKETS_PER_ADDRESS
  ref_pos : ∀ id info, s.mapInfo.lookup id = some info → info.fInTried = false → ¬ loose id → 0 < info.nRefCount

/-- The counters agree with the entries, up to uncounted ones. -/
structure Counted (c : Context A R) (total : Int) (debt : Network → Int) (s : State A R) : Prop where
  new_total : s.nNew + total = AssocMap.sumBy newIn s.mapInfo
  tried_total : s.nTried = AssocMap.sumBy triedIn s.mapInfo
  new_net : ∀ net, (count s.m_network_counts net).n_new + debt net = AssocMap.sumBy (newAt c net) s.mapInfo
  tried_net : ∀ net, (count s.m_network_counts net).n_tried = AssocMap.sumBy (triedAt c net) s.mapInfo
  nets : ∀ id info, s.mapInfo.lookup id = some info → c.network info.addr ∈ s.m_network_counts

def Timed (info : AddrInfo A R) : Prop :=
  0 ≤ info.m_last_try ∧ 0 ≤ info.m_last_success ∧ (info.fInTried = true → info.m_last_success ≠ 0)

variable [DecidableEq A] in
structure Inv (c : Context A R) (loose : Nat → Prop) (total : Int) (debt : Network → Int) (s : State A R) : Prop where
  indexed : Indexed s
  placed : Placed c loose s
  counted : Counted c total debt s
  timed : ∀ id info, s.mapInfo.lookup id = some info → Timed info

variable [DecidableEq A] in
/-- The tables between two calls: nothing loose, all counted. -/
def Consistent (c : Context A R) (s : State A R) : Prop := Inv c (fun _ => False) 0 (fun _ => 0) s

/-- An entry that waits for a tried slot waits for one that is taken. -/
def Waiting (c : Context A R) (s : State A R) : Prop :=
  ∀ id ∈ s.m_tried_collisions, id < s.nIdCount ∧ ∀ info, s.mapInfo.lookup id = some info →
    (s.vvTried (c.getTriedBucket s.nKey info.addr) (c.triedPos s.nKey info.addr)).isSome

structure Ages (s s' : State A R) : Prop where
  nKey : s'.nKey = s.nKey
  nIdCount : s.nIdCount ≤ s'.nIdCount
  collisions : s'.m_tried_collisions = s.m_tried_collisions
  addr : ∀ id x', id < s.nIdCount → s'.mapInfo.lookup id = some x' →
      ∃ x, s.mapInfo.lookup id = some x ∧ x.addr = x'.addr

theorem Ages.refl (s : State A R) : Ages s s := ⟨rfl, le_rfl, rfl, fun _ x' _ hx => ⟨x', hx, rfl⟩⟩

theorem Ages.trans {s1 s2 s3 : State A R} (h : Ages s1 s2) (h' : Ages s2 s3) : Ages s1 s3 := by
  refine ⟨h'.nKey.trans h.nKey, h.nIdCount.trans h'.nIdCount, h'.collisions.trans h.collisions, ?_⟩
  intro id x3 hid hx3
  obtain ⟨x2, hx2, haddr2⟩ := h'.addr id x3 (hid.trans_le h.nIdCount) hx3
  obtain ⟨x1, hx1, haddr1⟩ := h.addr id x2 hid hx2
  exact ⟨x1, hx1, haddr1.trans haddr2⟩

theorem Waiting.ages {s' : State A R} (h : Waiting c s) (ha : Ages s s')
    (hkeep : ∀ bucket pos, (s.vvTried bucket pos).isSome → (s'.vvTried bucket pos).isSome) : Waiting c s' := by
  intro id hid
  rw [ha.collisions] at hid
  obtain ⟨hlt, hslot⟩ := h id hid
  refine ⟨hlt.trans_le ha.nIdCount, fun x' hx' => ?_⟩
  obtain ⟨x, hx, haddr⟩ := ha.addr id x' hlt hx'
  rw [ha.nKey, ← haddr]
  exact hkeep _ _ (hslot x hx)

variable {loose : Nat → Prop} {total : Int} {debt : Network → Int}

/-! ## Entries -/

theorem infoAt_ok (h : s.mapInfo.lookup id = some info) : s.infoAt id = .ok info := by
  unfold infoAt
  rw [h]

theorem modify_eq (h : s.mapInfo.lookup id = some info) (f : AddrInfo A R → AddrInfo A R) :
    s.modify id f = { s with mapInfo := s.mapInfo.insert id (f info) } := by
  unfold State.modify
  rw [h]

variable [DecidableEq A] in
theorem Indexed.find_eq (h : Indexed s) (a : A) (hfind : find s a = some (id, info)) :
    s.mapInfo.lookup id = some info ∧ info.addr = a := by
  unfold find at hfind
  rw [bind_eq_bind, bind_eq_some_iff] at hfind
  obtain ⟨id', hid, hrest⟩ := hfind
  rw [bind_eq_bind, bind_eq_some_iff] at hrest
  obtain ⟨_, hinfo, hpair⟩ := hrest
  obtain ⟨rfl, rfl⟩ := Prod.mk.inj (some.inj hpair)
  obtain ⟨_, hinfo'', haddr⟩ := (h.addr a id').mp hid
  rw [hinfo] at hinfo''
  cases hinfo''
  exact ⟨hinfo, haddr⟩

variable [DecidableEq A] in
theorem Indexed.find_none (h : Indexed s) (a : A) (hfind : find s a = none) : s.mapAddr.lookup a = none := by
  by_contra hne
  obtain ⟨id', hid⟩ := ne_none_iff_exists'.mp hne
  obtain ⟨_, hinfo, -⟩ := (h.addr a id').mp hid
  unfold find at hfind
  rw [hid] at hfind
  simp [hinfo] at hfind

theorem exists_insert_iff {P : AddrInfo A R → Prop} (hinfo : m.lookup id = some info) (hP : P info' ↔ P info)
    (id' : Nat) :
    (∃ x, (m.insert id info').lookup id' = some x ∧ P x) ↔ ∃ x, m.lookup id' = some x ∧ P x := by
  by_cases hid : id' = id
  · subst hid
    simp [lookup_insert, hinfo, hP]
  · rw [lookup_insert_ne hid]

/-! ## Entries that stay in their tables -/

def core (info : AddrInfo A R) : A × Bool × Int := (info.addr, info.fInTried, info.nRefCount)

theorem core_eq_iff {y : AddrInfo A R} :
    core x = core y ↔ x.addr = y.addr ∧ x.fInTried = y.fInTried ∧ x.nRefCount = y.nRefCount := by
  simp [core]

/-- The same tables and counters, and entries of the same core. -/
structure Alike (s s' : State A R) : Prop where
  lookup : ∀ id, (s'.mapInfo.lookup id).map core = (s.mapInfo.lookup id).map core
  sum : ∀ f : AddrInfo A R → Nat, (∀ x y, core x = core y → f x = f y) →
      AssocMap.sumBy f s'.mapInfo = AssocMap.sumBy f s.mapInfo
  nKey : s'.nKey = s.nKey
  vvTried : s'.vvTried = s.vvTried
  vvNew : s'.vvNew = s.vvNew
  nTried : s'.nTried = s.nTried
  nNew : s'.nNew = s.nNew
  counts : s'.m_network_counts = s.m_network_counts
  collisions : s'.m_tried_collisions = s.m_tried_collisions
  nIdCount : s'.nIdCount = s.nIdCount

variable {s' : State A R}

theorem Alike.lookup_some (h : Alike s s') (hinfo : s'.mapInfo.lookup id = some info) :
    ∃ x, s.mapInfo.lookup id = some x ∧ core info = core x := by
  have := h.lookup id
  rw [hinfo, map_some] at this
  obtain ⟨x, hx, hcore⟩ := map_eq_some_iff.mp this.symm
  exact ⟨x, hx, hcore.symm⟩

theorem Alike.some_lookup (h : Alike s s') (hinfo : s.mapInfo.lookup id = some info) :
    ∃ x, s'.mapInfo.lookup id = some x ∧ core x = core info := by
  have := h.lookup id
  rw [hinfo, map_some] at this
  exact map_eq_some_iff.mp this

theorem Alike.ages (h : Alike s s') : Ages s s' := by
  refine ⟨h.nKey, h.nIdCount.ge, h.collisions, ?_⟩
  intro id x' _ hx'
  obtain ⟨x, hx, hcore⟩ := h.lookup_some hx'
  exact ⟨x, hx, (core_eq_iff.mp hcore).1.symm⟩

theorem Placed.alike (h : Placed c loose s) (ha : Alike s s') : Placed c loose s' := by
  refine ⟨?_, ?_, ?_, ?_, ?_⟩
  · intro bucket pos id
    rw [ha.vvTried, ha.nKey, h.tried]
    constructor
    · rintro ⟨x, hx, htried, hbucket, hpos⟩
      obtain ⟨y, hy, hcore⟩ := ha.some_lookup hx
      obtain ⟨haddr, htried', -⟩ := core_eq_iff.mp hcore
      exact ⟨y, hy, htried'.trans htried, by rw [haddr, hbucket], by rw [haddr, hpos]⟩
    · rintro ⟨y, hy, htried, hbucket, hpos⟩
      obtain ⟨x, hx, hcore⟩ := ha.lookup_some hy
      obtain ⟨haddr, htried', -⟩ := core_eq_iff.mp hcore
      exact ⟨x, hx, htried'.symm.trans htried, by rw [← haddr, hbucket], by rw [← haddr, hpos]⟩
  · intro bucket pos id hslot
    rw [ha.vvNew] at hslot
    obtain ⟨hbucket, x, hx, hnew, hpos⟩ := h.new_slot bucket pos id hslot
    obtain ⟨y, hy, hcore⟩ := ha.some_lookup hx
    obtain ⟨haddr, htried', -⟩ := core_eq_iff.mp hcore
    exact ⟨hbucket, y, hy, htried'.trans hnew, by rw [ha.nKey, haddr, hpos]⟩
  · intro id y hy
    obtain ⟨x, hx, hcore⟩ := ha.lookup_some hy
    obtain ⟨haddr, -, href⟩ := core_eq_iff.mp hcore
    rw [href, haddr, ha.nKey, ha.vvNew]
    exact h.ref_eq id x hx
  · intro id y hy
    obtain ⟨x, hx, hcore⟩ := ha.lookup_some hy
    rw [(core_eq_iff.mp hcore).2.2]
    exact h.ref_le id x hx
  · intro id y hy hnew
    obtain ⟨x, hx, hcore⟩ := ha.lookup_some hy
    obtain ⟨-, htried, href⟩ := core_eq_iff.mp hcore
    rw [href]
    exact h.ref_pos id x hx (htried.symm.trans hnew)

theorem newIn_core (x y : AddrInfo A R) (h : core x = core y) : newIn x = newIn y := by
  simp only [newIn, (core_eq_iff.mp h).2.1]

theorem triedIn_core (x y : AddrInfo A R) (h : core x = core y) : triedIn x = triedIn y := by
  simp only [triedIn, (core_eq_iff.mp h).2.1]

theorem newAt_core (net : Network) (x y : AddrInfo A R) (h : core x = core y) : newAt c net x = newAt c net y := by
  simp only [newAt, newIn, (core_eq_iff.mp h).2.1, (core_eq_iff.mp h).1]

theorem triedAt_core (net : Network) (x y : AddrInfo A R) (h : core x = core y) :
    triedAt c net x = triedAt c net y := by
  simp only [triedAt, triedIn, (core_eq_iff.mp h).2.1, (core_eq_iff.mp h).1]

theorem Counted.alike (h : Counted c total debt s) (ha : Alike s s') : Counted c total debt s' := by
  refine ⟨?_, ?_, ?_, ?_, ?_⟩
  · rw [ha.nNew, h.new_total, ha.sum newIn newIn_core]
  · rw [ha.nTried, h.tried_total, ha.sum triedIn triedIn_core]
  · intro net
    rw [ha.counts, h.new_net, ha.sum (newAt c net) (newAt_core net)]
  · intro net
    rw [ha.counts, h.tried_net, ha.sum (triedAt c net) (triedAt_core net)]
  · intro id y hy
    obtain ⟨x, hx, hcore⟩ := ha.lookup_some hy
    rw [(core_eq_iff.mp hcore).1, ha.counts]
    exact h.nets id x hx

theorem Alike.insert (hinfo : s.mapInfo.lookup id = some info) (hcore : core info' = core info) :
    Alike s { s with mapInfo := s.mapInfo.insert id info' } := by
  refine ⟨?_, ?_, rfl, rfl, rfl, rfl, rfl, rfl, rfl, rfl⟩
  · intro id'
    by_cases hid : id' = id
    · subst hid
      simp [lookup_insert, hinfo, hcore]
    · simp [lookup_insert_ne hid]
  · intro f hf
    have := sumBy_insert_some f hinfo info'
    have := hf info' info hcore
    simp only
    omega

variable [DecidableEq A] in
theorem Indexed.update (h : Indexed s) (hinfo : s.mapInfo.lookup id = some info) (info' : AddrInfo A R)
    (haddr : info'.addr = info.addr) (hpos : info'.nRandomPos = info.nRandomPos) :
    Indexed { s with mapInfo := s.mapInfo.insert id info' } := by
  refine ⟨?_, ?_, ?_⟩
  · intro a id'
    rw [h.addr a id']
    exact (exists_insert_iff hinfo (by rw [haddr]) id').symm
  · intro k id'
    rw [h.random k id']
    exact (exists_insert_iff hinfo (by rw [hpos]) id').symm
  · intro id' x hx
    rcases lookup_insert_cases hx with ⟨rfl, rfl⟩ | ⟨-, hx⟩
    · exact h.fresh id' info hinfo
    · exact h.fresh id' x hx

theorem timed_insert (h : ∀ id info, s.mapInfo.lookup id = some info → Timed info) (htimed : Timed info') :
    ∀ id' x, (s.mapInfo.insert id info').lookup id' = some x → Timed x := by
  intro id' x hx
  rcases lookup_insert_cases hx with ⟨rfl, rfl⟩ | ⟨-, hx⟩
  · exact htimed
  · exact h id' x hx

variable [DecidableEq A] in
theorem Inv.update (h : Inv c loose total debt s) (hinfo : s.mapInfo.lookup id = some info) (info' : AddrInfo A R)
    (hcore : core info' = core info) (hpos : info'.nRandomPos = info.nRandomPos) (htimed : Timed info') :
    Inv c loose total debt { s with mapInfo := s.mapInfo.insert id info' } := by
  have ha := Alike.insert hinfo hcore
  exact ⟨h.indexed.update hinfo info' (core_eq_iff.mp hcore).1 hpos, h.placed.alike ha, h.counted.alike ha,
    timed_insert h.timed htimed⟩

/-! ## `SwapRandom` -/

def swapPos (p q k : Nat) : Nat := if k = p then q else if k = q then p else k

theorem swapPos_swapPos (p q k : Nat) : swapPos p q (swapPos p q k) = k := by
  unfold swapPos
  split_ifs <;> omega

theorem getElem?_swap {x y : Nat} (hpq : p ≠ q) (hx : l[p]? = some x) (hy : l[q]? = some y) (k : Nat) :
    ((l.set p y).set q x)[k]? = l[swapPos p q k]? := by
  have hp := (List.getElem?_eq_some_iff.mp hx).1
  have hq := (List.getElem?_eq_some_iff.mp hy).1
  unfold swapPos
  rw [List.getElem?_set, List.getElem?_set]
  by_cases hkp : k = p
  · subst hkp
    simp [Ne.symm hpq, hy, hp]
  · by_cases hkq : q = k
    · subst hkq
      simp [hx, hq, hkp]
    · simp [hkq, hkp, Ne.symm hkq, Ne.symm hkp]

structure Swapped (s s' : State A R) (p q : Nat) : Prop where
  alike : Alike s s'
  lookup : ∀ id, s'.mapInfo.lookup id = (s.mapInfo.lookup id).map fun info =>
      { info with nRandomPos := swapPos p q info.nRandomPos }
  random : ∀ k, s'.vRandom[k]? = s.vRandom[swapPos p q k]?
  length : s'.vRandom.length = s.vRandom.length
  mapAddr : s'.mapAddr = s.mapAddr

theorem swapRandom_swaps (h : Shuffled s) (hp : p < s.vRandom.length) (hq : q < s.vRandom.length) :
    ∃ s', swapRandom s p q = .ok s' ∧ Swapped s s' p q := by
  unfold swapRandom
  by_cases hpq : p = q
  · subst hpq
    refine ⟨s, if_pos rfl, ⟨fun _ => rfl, fun _ _ => rfl, rfl, rfl, rfl, rfl, rfl, rfl, rfl, rfl⟩, ?_, ?_, rfl, rfl⟩
    · have hsame : ∀ k, swapPos p p k = k := by
        intro k
        unfold swapPos
        split_ifs <;> omega
      intro id
      simp [hsame]
    · intro k
      unfold swapPos
      split_ifs with hk
      · rw [hk]
      · rfl
  · rw [if_neg hpq]
    have hx := List.getElem?_eq_getElem hp
    have hy := List.getElem?_eq_getElem hq
    generalize s.vRandom[p] = x at hx
    generalize s.vRandom[q] = y at hy
    obtain ⟨ix, hix, hposx⟩ := (h p x).mp hx
    obtain ⟨iy, hiy, hposy⟩ := (h q y).mp hy
    have hne : x ≠ y := by
      rintro rfl
      rw [hix] at hiy
      cases hiy
      exact hpq (hposx.symm.trans hposy)
    have hiy' : (s.mapInfo.insert x { ix with nRandomPos := q }).lookup y = some iy := by
      rw [lookup_insert_ne (Ne.symm hne), hiy]
    have hmod : s.modify x (fun info => { info with nRandomPos := q }) =
      { s with mapInfo := s.mapInfo.insert x { ix with nRandomPos := q } } := modify_eq hix _
    have hgetx : s.vRandom.getD p 0 = x := by simp [List.getD_eq_getElem?_getD, hx]
    have hgety : s.vRandom.getD q 0 = y := by simp [List.getD_eq_getElem?_getD, hy]
    have ha : Alike s { s with mapInfo := s.mapInfo.insert x { ix with nRandomPos := q } } :=
      Alike.insert hix (show core _ = core ix from rfl)
    have ha' : Alike { s with mapInfo := s.mapInfo.insert x { ix with nRandomPos := q } }
        { s with mapInfo := (s.mapInfo.insert x { ix with nRandomPos := q }).insert y { iy with nRandomPos := p } } :=
      Alike.insert hiy' (show core _ = core iy from rfl)
    refine ⟨{ s with
      mapInfo := (s.mapInfo.insert x { ix with nRandomPos := q }).insert y { iy with nRandomPos := p }
      vRandom := (s.vRandom.set p y).set q x }, ?_, ?_, ?_, getElem?_swap hpq hx hy, ?_, rfl⟩
    · simp only [hp, hq, decide_true, Bool.and_self, check_true, ok_bind]
      rw [hgetx, hgety, hix, hiy]
      simp only [isSome_some, check_true, ok_bind, hmod]
      rw [modify_eq hiy']
      rfl
    · exact ⟨fun id => (ha'.lookup id).trans (ha.lookup id), fun f hf => (ha'.sum f hf).trans (ha.sum f hf), rfl,
        rfl, rfl, rfl, rfl, rfl, rfl, rfl⟩
    · intro id
      simp only
      by_cases hidy : id = y
      · subst hidy
        simp [lookup_insert, hiy, hposy, swapPos, Ne.symm hpq]
      · rw [lookup_insert_ne hidy]
        by_cases hidx : id = x
        · subst hidx
          simp [lookup_insert, hix, hposx, swapPos]
        · rw [lookup_insert_ne hidx]
          cases hi : s.mapInfo.lookup id with
          | none => rfl
          | some i =>
            have hslot := (h i.nRandomPos id).mpr ⟨i, hi, rfl⟩
            have hnp : i.nRandomPos ≠ p := by
              intro hpos
              rw [hpos, hx] at hslot
              exact hidx (some.inj hslot).symm
            have hnq : i.nRandomPos ≠ q := by
              intro hpos
              rw [hpos, hy] at hslot
              exact hidy (some.inj hslot).symm
            simp [swapPos, hnp, hnq]
    · simp

theorem Swapped.exists_iff (hs : Swapped s s' p q) (P : AddrInfo A R → Prop) (id : Nat) :
    (∃ x, s'.mapInfo.lookup id = some x ∧ P x) ↔
      ∃ x, s.mapInfo.lookup id = some x ∧ P { x with nRandomPos := swapPos p q x.nRandomPos } := by
  rw [hs.lookup]
  cases s.mapInfo.lookup id with
  | none => simp
  | some x => simp

theorem Shuffled.swapped (h : Shuffled s) (hs : Swapped s s' p q) : Shuffled s' := by
  intro k id
  rw [hs.random, h, hs.exists_iff fun x => x.nRandomPos = k]
  constructor
  · rintro ⟨x, hx, hpos⟩
    exact ⟨x, hx, by rw [hpos, swapPos_swapPos]⟩
  · rintro ⟨x, hx, hpos⟩
    exact ⟨x, hx, by rw [← hpos, swapPos_swapPos]⟩

variable [DecidableEq A] in
theorem Inv.swapped (h : Inv c loose total debt s) (hs : Swapped s s' p q) : Inv c loose total debt s' := by
  have hrandom := Shuffled.swapped h.indexed.random hs
  refine ⟨⟨?_, hrandom, ?_⟩, h.placed.alike hs.alike, h.counted.alike hs.alike, ?_⟩
  · intro a id
    rw [hs.mapAddr, h.indexed.addr, hs.exists_iff fun x => x.addr = a]
  · intro id x hx
    obtain ⟨y, hy, -⟩ := hs.alike.lookup_some hx
    rw [hs.alike.nIdCount]
    exact h.indexed.fresh id y hy
  · intro id x hx
    rw [hs.lookup] at hx
    obtain ⟨y, hy, rfl⟩ := map_eq_some_iff.mp hx
    exact h.timed id y hy

/-! ## Counters -/

variable {net' : Network}

theorem count_insert_ne (counts : AssocMap Network NewTriedCount) (x : NewTriedCount) (h : net' ≠ net) :
    count (counts.insert net x) net' = count counts net' := by
  unfold count
  rw [lookup_insert_ne h]

theorem count_addNew (counts : AssocMap Network NewTriedCount) (net net' : Network) (n : Int) :
    (count (addNew counts net n) net').n_new = (count counts net').n_new + (if net' = net then n else 0) ∧
    (count (addNew counts net n) net').n_tried = (count counts net').n_tried := by
  unfold addNew
  by_cases hnet : net' = net
  · subst hnet
    simp [count, lookup_insert]
  · rw [count_insert_ne counts _ hnet]
    simp [hnet]

theorem count_addTried (counts : AssocMap Network NewTriedCount) (net net' : Network) (n : Int) :
    (count (addTried counts net n) net').n_new = (count counts net').n_new ∧
    (count (addTried counts net n) net').n_tried = (count counts net').n_tried + (if net' = net then n else 0) := by
  unfold addTried
  by_cases hnet : net' = net
  · subst hnet
    simp [count, lookup_insert]
  · rw [count_insert_ne counts _ hnet]
    simp [hnet]

theorem mem_addNew (n : Int) (h : net' ∈ counts) :
    net' ∈ addNew counts net n := (mem_insert counts).mpr (.inr h)

theorem mem_addTried (n : Int) (h : net' ∈ counts) :
    net' ∈ addTried counts net n := (mem_insert counts).mpr (.inr h)

theorem Counted.update (h : Counted c total debt s) (hinfo : s.mapInfo.lookup id = some info) (info' : AddrInfo A R)
    (haddr : info'.addr = info.addr) {nNew nTried total' : Int} {debt' : Network → Int}
    (hnew : nNew + total' + newIn info = s.nNew + total + newIn info')
    (htried : nTried + triedIn info = s.nTried + triedIn info')
    (hnewNet : ∀ net, (count counts net).n_new + debt' net +
      (if net = c.network info.addr then (newIn info : Int) else 0) =
      (count s.m_network_counts net).n_new + debt net + if net = c.network info.addr then (newIn info' : Int) else 0)
    (htriedNet : ∀ net, (count counts net).n_tried + (if net = c.network info.addr then (triedIn info : Int) else 0) =
      (count s.m_network_counts net).n_tried + if net = c.network info.addr then (triedIn info' : Int) else 0)
    (hmem : ∀ net, net ∈ s.m_network_counts → net ∈ counts) :
    Counted c total' debt' { s with
      mapInfo := s.mapInfo.insert id info', nNew, nTried, m_network_counts := counts } := by
  have hat : ∀ (net : Network) (f : AddrInfo A R → Nat) (x : AddrInfo A R), x.addr = info.addr →
      (((if c.network x.addr = net then f x else 0 : Nat)) : Int) =
        if net = c.network info.addr then (f x : Int) else 0 := by
    intro net f x hx
    rw [hx]
    by_cases hnet : net = c.network info.addr
    · rw [if_pos hnet, if_pos hnet.symm]
    · rw [if_neg hnet, if_neg (Ne.symm hnet)]
      rfl
  refine ⟨?_, ?_, ?_, ?_, ?_⟩
  · have := sumBy_insert_some newIn hinfo info'
    have := h.new_total
    simp only
    omega
  · have := sumBy_insert_some triedIn hinfo info'
    have := h.tried_total
    simp only
    omega
  · intro net
    have hsum := sumBy_insert_some (newAt c net) hinfo info'
    have := h.new_net net
    have := hnewNet net
    have hold : (newAt c net info : Int) = _ := hat net newIn info rfl
    have hnow : (newAt c net info' : Int) = _ := hat net newIn info' haddr
    simp only
    omega
  · intro net
    have hsum := sumBy_insert_some (triedAt c net) hinfo info'
    have := h.tried_net net
    have := htriedNet net
    have hold : (triedAt c net info : Int) = _ := hat net triedIn info rfl
    have hnow : (triedAt c net info' : Int) = _ := hat net triedIn info' haddr
    simp only
    omega
  · intro id' x hx
    apply hmem
    rcases lookup_insert_cases hx with ⟨rfl, rfl⟩ | ⟨-, hx⟩
    · rw [haddr]
      exact h.nets id' info hinfo
    · exact h.nets id' x hx

/-! ## `Delete` -/

theorem Placed.no_slot (h : Placed c loose s) (hinfo : s.mapInfo.lookup id = some info) (href : info.nRefCount = 0)
    (bucket pos : Nat) : s.vvNew bucket pos ≠ some id := by
  intro hslot
  obtain ⟨hbucket, _, hx, -, hpos⟩ := h.new_slot bucket pos id hslot
  rw [hinfo] at hx
  cases hx
  have hzero := h.ref_eq id info hinfo
  rw [href] at hzero
  have hcount : 0 < refs c s.nKey s.vvNew info.addr id := by
    apply List.countP_pos_iff.mpr
    refine ⟨bucket, List.mem_range.mpr hbucket, ?_⟩
    rw [hpos, hslot]
    simp
  omega

theorem Shuffled.removeLast (h : Shuffled s) (hinfo : s.mapInfo.lookup id = some info)
    (hlast : info.nRandomPos + 1 = s.vRandom.length) :
    Shuffled { s with vRandom := s.vRandom.dropLast, mapInfo := s.mapInfo.erase id } := by
  intro k id'
  rw [List.getElem?_dropLast]
  constructor
  · intro hk
    split at hk
    · next hlt =>
      obtain ⟨x, hx, hpos⟩ := (h k id').mp hk
      have hne : id' ≠ id := by
        rintro rfl
        rw [hinfo] at hx
        cases hx
        omega
      exact ⟨x, by rw [lookup_erase_ne hne, hx], hpos⟩
    · cases hk
  · rintro ⟨x, hx, hpos⟩
    obtain ⟨hne, hx⟩ := lookup_erase_cases hx
    have hk := (h k id').mpr ⟨x, hx, hpos⟩
    have hlt := (List.getElem?_eq_some_iff.mp hk).1
    have hnotlast : k ≠ info.nRandomPos := by
      rintro rfl
      rw [(h info.nRandomPos id).mpr ⟨info, hinfo, rfl⟩] at hk
      exact hne (some.inj hk).symm
    rw [if_pos (by omega), hk]

variable [DecidableEq A] in
theorem Inv.removeLast (h : Inv c loose total debt s) (hinfo : s.mapInfo.lookup id = some info)
    (hnew : info.fInTried = false) (href : info.nRefCount = 0) (hlast : info.nRandomPos + 1 = s.vRandom.length) :
    Inv c loose total debt { s with
      m_network_counts := addNew s.m_network_counts (c.network info.addr) (-1)
      vRandom := s.vRandom.dropLast
      mapAddr := s.mapAddr.erase info.addr
      mapInfo := s.mapInfo.erase id
      nNew := s.nNew - 1 } := by
  have hsum : ∀ f : AddrInfo A R → Nat, sumBy f (s.mapInfo.erase id) + f info = sumBy f s.mapInfo := by
    intro f
    rw [sumBy_of_lookup f hinfo]
    omega
  have hrandom := Shuffled.removeLast h.indexed.random hinfo hlast
  refine ⟨⟨?_, hrandom, ?_⟩, ⟨?_, ?_, ?_, ?_, ?_⟩, ⟨?_, ?_, ?_, ?_, ?_⟩, ?_⟩
  · intro a id'
    by_cases ha : a = info.addr
    · subst ha
      rw [lookup_erase]
      refine ⟨nofun, ?_⟩
      rintro ⟨x, hx, haddr⟩
      obtain ⟨hne, hx⟩ := lookup_erase_cases hx
      have hid := (h.indexed.addr info.addr id').mpr ⟨x, hx, haddr⟩
      rw [(h.indexed.addr info.addr id).mpr ⟨info, hinfo, rfl⟩] at hid
      exact absurd (some.inj hid).symm hne
    · rw [lookup_erase_ne ha, h.indexed.addr]
      constructor
      · rintro ⟨x, hx, haddr⟩
        have hne : id' ≠ id := by
          rintro rfl
          rw [hinfo] at hx
          cases hx
          exact ha haddr.symm
        exact ⟨x, by rw [lookup_erase_ne hne, hx], haddr⟩
      · rintro ⟨x, hx, haddr⟩
        exact ⟨x, (lookup_erase_cases hx).2, haddr⟩
  · intro id' x hx
    exact h.indexed.fresh id' x (lookup_erase_cases hx).2
  · intro bucket pos id'
    rw [h.placed.tried]
    constructor
    · rintro ⟨x, hx, htried, hslot⟩
      have hne : id' ≠ id := by
        rintro rfl
        rw [hinfo] at hx
        cases hx
        rw [hnew] at htried
        cases htried
      exact ⟨x, by rw [lookup_erase_ne hne, hx], htried, hslot⟩
    · rintro ⟨x, hx, htried, hslot⟩
      exact ⟨x, (lookup_erase_cases hx).2, htried, hslot⟩
  · intro bucket pos id' hslot
    obtain ⟨hbucket, x, hx, hrest⟩ := h.placed.new_slot bucket pos id' hslot
    have hne : id' ≠ id := by
      rintro rfl
      exact h.placed.no_slot hinfo href bucket pos hslot
    exact ⟨hbucket, x, by rw [lookup_erase_ne hne, hx], hrest⟩
  · intro id' x hx
    exact h.placed.ref_eq id' x (lookup_erase_cases hx).2
  · intro id' x hx
    exact h.placed.ref_le id' x (lookup_erase_cases hx).2
  · intro id' x hx
    exact h.placed.ref_pos id' x (lookup_erase_cases hx).2
  · have hone := hsum newIn
    have htotal := h.counted.new_total
    simp only [newIn, hnew] at hone htotal ⊢
    simp only [Bool.false_eq_true, if_false] at hone
    omega
  · have hone := hsum triedIn
    have htotal := h.counted.tried_total
    simp only [triedIn, hnew] at hone htotal ⊢
    simp only [Bool.false_eq_true, if_false] at hone
    omega
  · intro net
    have hone := hsum (newAt c net)
    have htotal := h.counted.new_net net
    simp only
    rw [(count_addNew _ _ net _).1]
    have hval : newAt c net info = if net = c.network info.addr then 1 else 0 := by
      simp [newAt, newIn, hnew, eq_comm]
    rw [hval] at hone
    split at hone
    · next hnet =>
      rw [if_pos hnet]
      omega
    · next hnet =>
      rw [if_neg hnet]
      omega
  · intro net
    have hone := hsum (triedAt c net)
    have htotal := h.counted.tried_net net
    simp only
    rw [(count_addNew _ _ net _).2]
    have hval : triedAt c net info = 0 := by simp [triedAt, triedIn, hnew]
    omega
  · intro id' x hx
    exact mem_addNew _ (h.counted.nets id' x (lookup_erase_cases hx).2)
  · intro id' x hx
    exact h.timed id' x (lookup_erase_cases hx).2

def kept (info : AddrInfo A R) : (A × Bool × Int) × Int := (core info, info.m_last_success)

/-- All entries that are not `gone` keep their place in the tables. -/
structure Keeps (gone : Nat → Prop) (s s' : State A R) : Prop where
  lookup : ∀ id, ¬ gone id → (s'.mapInfo.lookup id).map kept = (s.mapInfo.lookup id).map kept
  ages : Ages s s'
  vvTried : s'.vvTried = s.vvTried

theorem Keeps.some_lookup {gone : Nat → Prop} (h : Keeps gone s s') (hid : ¬ gone id)
    (hinfo : s.mapInfo.lookup id = some info) :
    ∃ x, s'.mapInfo.lookup id = some x ∧ core x = core info ∧ x.m_last_success = info.m_last_success := by
  have := h.lookup id hid
  rw [hinfo, map_some] at this
  obtain ⟨x, hx, hkept⟩ := map_eq_some_iff.mp this
  exact ⟨x, hx, (Prod.mk.inj hkept).1, (Prod.mk.inj hkept).2⟩

variable [DecidableEq A] {a : A}

theorem Inv.loosen (h : Inv c loose' total debt s)
    (hloose : ∀ id info, s.mapInfo.lookup id = some info → info.fInTried = false → ¬ loose id →
    ¬ loose' id ∨ 0 < info.nRefCount) : Inv c loose total debt s := by
  refine ⟨h.indexed, ⟨h.placed.tried, h.placed.new_slot, h.placed.ref_eq, h.placed.ref_le, ?_⟩, h.counted, h.timed⟩
  intro id info hinfo hnew hnot
  rcases hloose id info hinfo hnew hnot with hnot' | hpos
  · exact h.placed.ref_pos id info hinfo hnew hnot'
  · exact hpos

theorem delete_swaps (c : Context A R) (h : Shuffled s) (hinfo : s.mapInfo.lookup id = some info)
    (hnew : info.fInTried = false) (href : info.nRefCount = 0) :
    ∃ s1, Swapped s s1 info.nRandomPos (s.vRandom.length - 1) ∧
    s1.mapInfo.lookup id = some { info with nRandomPos := s.vRandom.length - 1 } ∧ info.nRandomPos < s.vRandom.length ∧
    delete c s id = .ok { s1 with
      m_network_counts := addNew s1.m_network_counts (c.network info.addr) (-1)
      vRandom := s1.vRandom.dropLast
      mapAddr := s1.mapAddr.erase info.addr
      mapInfo := s1.mapInfo.erase id
      nNew := s1.nNew - 1 } := by
  have hpos := (List.getElem?_eq_some_iff.mp ((h info.nRandomPos id).mpr ⟨info, hinfo, rfl⟩)).1
  have hlast : s.vRandom.length - 1 < s.vRandom.length := by omega
  obtain ⟨s1, hswap, hswapped⟩ := swapRandom_swaps h hpos hlast
  refine ⟨s1, hswapped, ?_, hpos, ?_⟩
  · rw [hswapped.lookup, hinfo]
    simp [swapPos]
  · unfold delete
    rw [infoAt_ok hinfo]
    simp only [hinfo, isSome_some, hnew, href, Bool.not_false, decide_true, check_true, ok_bind, hswap]
    rfl

theorem delete_spec (h : Inv c loose total debt s) (hinfo : s.mapInfo.lookup id = some info)
    (hnew : info.fInTried = false) (href : info.nRefCount = 0) :
    ∃ s', delete c s id = .ok s' ∧ Inv c loose total debt s' ∧ Keeps (· = id) s s' ∧
    s'.vvNew = s.vvNew ∧ s'.mapInfo.lookup id = none := by
  obtain ⟨_, hswapped, hinfo1, _, hdelete⟩ := delete_swaps c h.indexed.random hinfo hnew href
  have hinv := h.swapped hswapped
  have hremoved := hinv.removeLast hinfo1 hnew href (by rw [hswapped.length]; simp only; omega)
  refine ⟨_, hdelete, hremoved, ⟨?_, ?_, hswapped.alike.vvTried⟩, hswapped.alike.vvNew, lookup_erase _ _⟩
  · intro id' hne
    rw [lookup_erase_ne hne, hswapped.lookup, map_map]
    rfl
  · have hages := hswapped.alike.ages
    exact ⟨hages.nKey, hages.nIdCount, hages.collisions, fun id' x hid hx =>
      hages.addr id' x hid (lookup_erase_cases hx).2⟩

/-! ## Slots of the new table -/

theorem countP_change (hnodup : l.Nodup) {x : Nat} (hx : x ∈ l) {P Q : Nat → Bool} (hP : P x = true) (hQ : Q x = false)
    (hsame : ∀ y, y ≠ x → P y = Q y) : l.countP Q + 1 = l.countP P := by
  induction l with
  | nil => cases hx
  | cons y l ih =>
    rw [List.nodup_cons] at hnodup
    rw [List.countP_cons, List.countP_cons]
    by_cases hy : y = x
    · subst hy
      have hrest : l.countP Q = l.countP P := by
        apply List.countP_congr
        intro z hz
        rw [hsame z (fun hzy => hnodup.1 (hzy ▸ hz))]
      rw [hP, hQ, hrest]
      simp
    · have hmem : x ∈ l := by
        rcases List.mem_cons.mp hx with hxy | hmem
        · exact absurd hxy.symm hy
        · exact hmem
      have := ih hnodup.2 hmem
      rw [hsame y hy]
      omega

omit [DecidableEq A] in
theorem refs_set_other (hold : t bucket pos ≠ some id)
    (hslot : slot ≠ some id) : refs c key (t.set bucket pos slot) a id = refs c key t a id := by
  unfold refs
  apply List.countP_congr
  intro n _
  unfold Table.set
  by_cases hat : n = bucket ∧ c.getBucketPosition key true n a = pos
  · rw [if_pos hat, hat.1, ← hat.1, hat.2, hat.1]
    simp [hold, hslot]
  · rw [if_neg hat]

omit [DecidableEq A] in
theorem refs_set_clear (hbucket : bucket < ADDRMAN_NEW_BUCKET_COUNT)
    (hslot : t bucket (c.getBucketPosition key true bucket a) = some id) :
    refs c key (t.set bucket (c.getBucketPosition key true bucket a) none) a id + 1 = refs c key t a id := by
  apply countP_change List.nodup_range (List.mem_range.mpr hbucket)
  · simpa using hslot
  · simp [Table.set]
  · intro n hn
    simp [Table.set, hn]

omit [DecidableEq A] in
theorem refs_set_fill (hbucket : bucket < ADDRMAN_NEW_BUCKET_COUNT)
    (hslot : t bucket (c.getBucketPosition key true bucket a) ≠ some id) :
    refs c key (t.set bucket (c.getBucketPosition key true bucket a) (some id)) a id = refs c key t a id + 1 := by
  symm
  apply countP_change List.nodup_range (List.mem_range.mpr hbucket)
  · simp [Table.set]
  · simpa using hslot
  · intro n hn
    simp [Table.set, hn]

theorem Inv.setRefs (h : Inv c loose total debt s) (hinfo : s.mapInfo.lookup id = some info)
    (hnew : info.fInTried = false) {r : Int}
      (hslots : ∀ bucket pos id', t bucket pos = some id' → s.vvNew bucket pos = some id' ∨
        (id' = id ∧ bucket < ADDRMAN_NEW_BUCKET_COUNT ∧ c.getBucketPosition s.nKey true bucket info.addr = pos))
    (href : r = refs c s.nKey t info.addr id)
    (hother : ∀ id' x, id' ≠ id → s.mapInfo.lookup id' = some x →
      refs c s.nKey t x.addr id' = refs c s.nKey s.vvNew x.addr id')
    (hle : r ≤ ADDRMAN_NEW_BUCKETS_PER_ADDRESS) (hloose : ∀ id', id' ≠ id → loose id' → loose' id')
    (hpos : loose' id ∨ 0 < r) :
    Inv c loose' total debt { s with mapInfo := s.mapInfo.insert id { info with nRefCount := r }, vvNew := t } := by
  have hindexed := h.indexed.update hinfo { info with nRefCount := r } rfl rfl
  have hcounted : Counted c total debt { s with mapInfo := s.mapInfo.insert id { info with nRefCount := r } } :=
    h.counted.update hinfo { info with nRefCount := r } rfl rfl rfl (fun _ => rfl) (fun _ => rfl) (fun _ hmem => hmem)
  refine ⟨⟨hindexed.addr, hindexed.random, hindexed.fresh⟩, ⟨?_, ?_, ?_, ?_, ?_⟩,
    ⟨hcounted.new_total, hcounted.tried_total, hcounted.new_net, hcounted.tried_net, hcounted.nets⟩,
      timed_insert h.timed (h.timed id info hinfo)⟩
  · intro bucket pos id'
    rw [h.placed.tried bucket pos id']
    exact (exists_insert_iff hinfo (by rfl) id').symm
  · intro bucket pos id' hslot
    rcases hslots bucket pos id' hslot with hold | ⟨rfl, hbucket, hposition⟩
    · obtain ⟨hbucket, hexists⟩ := h.placed.new_slot bucket pos id' hold
      refine ⟨hbucket, ?_⟩
      exact (exists_insert_iff hinfo (by rfl) id').mpr hexists
    · exact ⟨hbucket, _, lookup_insert _, hnew, hposition⟩
  · intro id' x hx
    rcases lookup_insert_cases hx with ⟨rfl, rfl⟩ | ⟨hne, hx⟩
    · exact href
    · rw [h.placed.ref_eq id' x hx, ← hother id' x hne hx]
  · intro id' x hx
    rcases lookup_insert_cases hx with ⟨rfl, rfl⟩ | ⟨-, hx⟩
    · exact hle
    · exact h.placed.ref_le id' x hx
  · intro id' x hx hxnew hnot
    rcases lookup_insert_cases hx with ⟨rfl, rfl⟩ | ⟨hne, hx⟩
    · exact hpos.resolve_left hnot
    · exact h.placed.ref_pos id' x hx hxnew fun hl => hnot (hloose id' hne hl)

omit [DecidableEq A] in
theorem ages_insert (hinfo : s.mapInfo.lookup id = some info)
    (hmap : s'.mapInfo = s.mapInfo.insert id info') (haddr : info'.addr = info.addr) (hkey : s'.nKey = s.nKey)
    (hcount : s'.nIdCount = s.nIdCount) (hcollisions : s'.m_tried_collisions = s.m_tried_collisions) : Ages s s' := by
  refine ⟨hkey, hcount.ge, hcollisions, ?_⟩
  intro id' x _ hx
  rw [hmap] at hx
  rcases lookup_insert_cases hx with ⟨rfl, rfl⟩ | ⟨-, hx⟩
  · exact ⟨info, hinfo, haddr.symm⟩
  · exact ⟨x, hx, rfl⟩

theorem set_some {bucket' pos' : Nat} (h : t.set bucket pos slot bucket' pos' = some id') :
    (bucket' = bucket ∧ pos' = pos ∧ slot = some id') ∨ t bucket' pos' = some id' := by
  unfold Table.set at h
  split at h
  · next hat => exact .inl ⟨hat.1, hat.2, h⟩
  · exact .inr h

theorem clearNew_spec (h : Inv c loose total debt s) (bucket pos : Nat) : ∃ s', clearNew c s bucket pos = .ok s' ∧
    Inv c loose total debt s' ∧ Keeps (fun id => s.vvNew bucket pos = some id) s s' ∧
      s'.vvNew = s.vvNew.set bucket pos none := by
  unfold clearNew
  cases hslot : s.vvNew bucket pos with
  | none =>
    refine ⟨s, rfl, h, ⟨fun _ _ => rfl, Ages.refl s, rfl⟩, ?_⟩
    funext bucket' pos'
    unfold Table.set
    split
    · next hat => rw [hat.1, hat.2, hslot]
    · rfl
  | some id =>
    obtain ⟨hbucket, info, hinfo, hnew, rfl⟩ := h.placed.new_slot bucket pos id hslot
    have href := h.placed.ref_eq id info hinfo
    have hclear := refs_set_clear hbucket hslot
    have hle := h.placed.ref_le id info hinfo
    -- the entry may be left with no reference
    have hinv : Inv c (fun id' => loose id' ∨ (id' = id ∧ info.nRefCount - 1 = 0)) total debt { s with
        mapInfo := s.mapInfo.insert id { info with nRefCount := info.nRefCount - 1 }
        vvNew := s.vvNew.set bucket (c.getBucketPosition s.nKey true bucket info.addr) none } := by
      apply h.setRefs hinfo hnew
      · intro bucket' pos' id' hset
        rcases set_some hset with ⟨-, -, hnone⟩ | hold
        · cases hnone
        · exact .inl hold
      · omega
      · intro id' x hne _
        exact refs_set_other (by rw [hslot]; exact fun hsome => hne (some.inj hsome).symm) nofun
      · omega
      · exact fun id' _ hl => .inl hl
      · by_cases hzero : info.nRefCount - 1 = 0
        · exact .inl (.inr ⟨rfl, hzero⟩)
        · right
          omega
    have hkeep : ∀ id', ¬ some id = some id' →
        ((s.mapInfo.insert id { info with nRefCount := info.nRefCount - 1 }).lookup id').map kept =
          (s.mapInfo.lookup id').map kept := by
      intro id' hne
      rw [lookup_insert_ne (by rintro rfl; exact hne rfl)]
    have hages : Ages s { s with
        mapInfo := s.mapInfo.insert id { info with nRefCount := info.nRefCount - 1 }
        vvNew := s.vvNew.set bucket (c.getBucketPosition s.nKey true bucket info.addr) none } :=
      ages_insert hinfo rfl rfl rfl rfl rfl
    simp only [infoAt_ok hinfo, ok_bind, modify_eq hinfo]
    rw [show check (decide (0 < info.nRefCount)) =
      .ok () from check_ok.mpr (by simp only [decide_eq_true_eq]; omega), ok_bind]
    split
    · next hzero =>
      obtain ⟨s', hdelete, hinv', hkeeps, hvvNew, hgone⟩ := delete_spec hinv (lookup_insert _) hnew hzero
      refine ⟨s', hdelete, ?_, ⟨?_, hages.trans hkeeps.ages, hkeeps.vvTried⟩, hvvNew⟩
      · apply hinv'.loosen
        intro id' x hx _ hnot
        left
        rintro (hl | ⟨rfl, -⟩)
        · exact hnot hl
        · rw [hgone] at hx
          cases hx
      · intro id' hne
        rw [hkeeps.lookup id' (by rintro rfl; exact hne rfl)]
        exact hkeep id' hne
    · next hnonzero =>
      refine ⟨_, rfl, ?_, ⟨hkeep, hages, rfl⟩, rfl⟩
      apply hinv.loosen
      intro id' x _ _ hnot
      left
      rintro (hl | ⟨-, hzero⟩)
      · exact hnot hl
      · exact hnonzero hzero

/-! ## `AddSingle` -/

omit [DecidableEq A] in
theorem getNewBucket_lt (key : Uint256) (a : A) (source : R) : c.getNewBucket key a source < ADDRMAN_NEW_BUCKET_COUNT :=
  Nat.mod_lt _ (by decide)

theorem set_self (t : Table) (bucket pos : Nat) (slot : Option Nat) : t.set bucket pos slot bucket pos = slot := by
  simp [Table.set]

theorem Inv.fill (h : Inv c loose total debt s) (hinfo : s.mapInfo.lookup id = some info) (hnew : info.fInTried = false)
    (hbucket : bucket < ADDRMAN_NEW_BUCKET_COUNT) (hpos : c.getBucketPosition s.nKey true bucket info.addr = pos)
    (hslot : s.vvNew bucket pos = none) (hle : info.nRefCount < ADDRMAN_NEW_BUCKETS_PER_ADDRESS) :
    Inv c (fun id' => loose id' ∧ id' ≠ id) total debt { s with
      mapInfo := s.mapInfo.insert id { info with nRefCount := info.nRefCount + 1 }
      vvNew := s.vvNew.set bucket pos (some id) } := by
  subst hpos
  have href := h.placed.ref_eq id info hinfo
  have hempty : s.vvNew bucket (c.getBucketPosition s.nKey true bucket info.addr) ≠ some id := by
    rw [hslot]
    exact nofun
  have hfill := refs_set_fill hbucket hempty
  apply h.setRefs hinfo hnew
  · intro bucket' pos' id' hset
    rcases set_some hset with ⟨rfl, rfl, hsome⟩ | hold
    · exact .inr ⟨(some.inj hsome).symm, hbucket, rfl⟩
    · exact .inl hold
  · omega
  · intro id' x hne _
    exact refs_set_other (by rw [hslot]; exact nofun) fun hsome => hne (some.inj hsome).symm
  · omega
  · exact fun id' hne hl => ⟨hl, hne⟩
  · right
    omega

theorem insert_spec (h : Inv c (· = id) 0 (fun _ => 0) s) (hinfo : s.mapInfo.lookup id = some info)
    (hnew : info.fInTried = false) (hle : info.nRefCount < ADDRMAN_NEW_BUCKETS_PER_ADDRESS)
    (hbucket : bucket < ADDRMAN_NEW_BUCKET_COUNT) (hpos : c.getBucketPosition s.nKey true bucket info.addr = pos)
    (hself : s.vvNew bucket pos ≠ some id) :
    ∃ s1 x, clearNew c s bucket pos = .ok s1 ∧ s1.mapInfo.lookup id = some x ∧
    Consistent c { s1 with
      mapInfo := s1.mapInfo.insert id { x with nRefCount := x.nRefCount + 1 }
      vvNew := s1.vvNew.set bucket pos (some id) } ∧ Ages s s1 ∧ s1.vvTried = s.vvTried := by
  obtain ⟨s1, hclear, hinv, hkeeps, hvvNew⟩ := clearNew_spec h bucket pos
  obtain ⟨x, hx, hcore, -⟩ := hkeeps.some_lookup hself hinfo
  obtain ⟨haddr, htried, hrefs⟩ := core_eq_iff.mp hcore
  have hpos1 : c.getBucketPosition s1.nKey true bucket x.addr = pos := by rw [hkeeps.ages.nKey, haddr, hpos]
  have hfill := hinv.fill hx (htried.trans hnew) hbucket hpos1 (by rw [hvvNew, set_self]) (by rw [hrefs]; exact hle)
  refine ⟨s1, x, hclear, hx, ?_, hkeeps.ages, hkeeps.vvTried⟩
  apply hfill.loosen
  intro id' _ _ _ _
  left
  rintro ⟨rfl, hne⟩
  exact hne rfl

theorem place_spec (h : Inv c (· = id) 0 (fun _ => 0) s) (hinfo : s.mapInfo.lookup id = some info)
    (hnew : info.fInTried = false) (hle : info.nRefCount < ADDRMAN_NEW_BUCKETS_PER_ADDRESS) (source : R) (now : Int) :
    ∃ inserted s', place c s id source now = .ok (inserted, s') ∧ Consistent c s' ∧ Ages s s' ∧
      s'.vvTried = s.vvTried := by
  have hbucket : c.getNewBucket s.nKey info.addr source < ADDRMAN_NEW_BUCKET_COUNT := getNewBucket_lt ..
  have href := h.placed.ref_eq id info hinfo
  -- an entry with a reference is not loose
  have hkept : info.nRefCount ≠ 0 → Consistent c s := by
    intro hne
    apply h.loosen
    intro id' x hx _ _
    by_cases hid : id' = id
    · subst hid
      rw [hinfo] at hx
      cases hx
      right
      omega
    · exact .inl hid
  unfold place
  simp only [infoAt_ok hinfo, ok_bind]
  generalize hb : c.getNewBucket s.nKey info.addr source = bucket at *
  generalize hp : c.getBucketPosition s.nKey true bucket info.addr = pos
  by_cases hself : s.vvNew bucket pos = some id
  · rw [if_pos hself]
    refine ⟨_, _, rfl, hkept fun hzero => ?_, Ages.refl s, rfl⟩
    exact h.placed.no_slot hinfo hzero _ _ hself
  · rw [if_neg hself]
    obtain ⟨s1, x, hclear, hx, hconsistent, hages, hvvTried⟩ := insert_spec h hinfo hnew hle hbucket hp hself
    have hages' : Ages s { s1 with
        mapInfo := s1.mapInfo.insert id { x with nRefCount := x.nRefCount + 1 }
        vvNew := s1.vvNew.set bucket pos (some id) } := hages.trans (ages_insert hx rfl rfl rfl rfl rfl)
    cases hslot : s.vvNew bucket pos with
    | none =>
      refine ⟨true, _, ?_, hconsistent, hages', hvvTried⟩
      simp only [pure_bind, if_true, hclear, ok_bind, modify_eq hx]
      rfl
    | some other =>
      obtain ⟨-, _, hinfoOther, -⟩ := h.placed.new_slot _ _ _ hslot
      simp only [infoAt_ok hinfoOther, ok_bind, pure_bind]
      split
      · refine ⟨true, _, ?_, hconsistent, hages', hvvTried⟩
        simp only [hclear, ok_bind, modify_eq hx]
        rfl
      · split
        · next hzero =>
          obtain ⟨s', hdelete, hinv, hkeeps, -, hgone⟩ := delete_spec h hinfo hnew hzero
          refine ⟨false, s', by rw [hdelete]; rfl, ?_, hkeeps.ages, hkeeps.vvTried⟩
          apply hinv.loosen
          intro id' y hy _ _
          left
          rintro rfl
          rw [hgone] at hy
          cases hy
        · next hnonzero => exact ⟨false, s, rfl, hkept hnonzero, Ages.refl s, rfl⟩

omit [DecidableEq A] in
theorem Shuffled.append (h : Shuffled s) (hnone : s.mapInfo.lookup id = none)
    (hpos : info.nRandomPos = s.vRandom.length) :
    Shuffled { s with mapInfo := s.mapInfo.insert id info, vRandom := s.vRandom ++ [id] } := by
  have hne : ∀ id' x, s.mapInfo.lookup id' = some x → id' ≠ id := by
    rintro id' x hx rfl
    rw [hnone] at hx
    cases hx
  intro k id'
  rw [List.getElem?_append]
  split
  · next hlt =>
    rw [h]
    constructor
    · rintro ⟨x, hx, hxpos⟩
      exact ⟨x, by rw [lookup_insert_ne (hne id' x hx), hx], hxpos⟩
    · rintro ⟨x, hx, hxpos⟩
      rcases lookup_insert_cases hx with ⟨rfl, rfl⟩ | ⟨-, hx⟩
      · omega
      · exact ⟨x, hx, hxpos⟩
  · next hge =>
    constructor
    · intro hk
      have hk' : k - s.vRandom.length < 1 := (List.getElem?_eq_some_iff.mp hk).1
      have hzero : k - s.vRandom.length = 0 := by omega
      rw [hzero] at hk
      cases hk
      exact ⟨info, lookup_insert _, by omega⟩
    · rintro ⟨x, hx, hxpos⟩
      rcases lookup_insert_cases hx with ⟨rfl, rfl⟩ | ⟨-, hx⟩
      · rw [← hxpos, hpos, Nat.sub_self]
        rfl
      · have hlt := (List.getElem?_eq_some_iff.mp ((h k id').mpr ⟨x, hx, hxpos⟩)).1
        omega

omit [DecidableEq A] in
theorem lookup_fresh (h : ∀ id info, s.mapInfo.lookup id = some info → id < s.nIdCount) :
    s.mapInfo.lookup s.nIdCount = none := by
  by_contra hne
  obtain ⟨_, hx⟩ := ne_none_iff_exists'.mp hne
  exact absurd (h _ _ hx) (lt_irrefl _)

theorem Inv.append (h : Inv c loose total debt s) (hfind : s.mapAddr.lookup info.addr = none)
    (hpos : info.nRandomPos = s.vRandom.length) (htried : info.fInTried = false) (href : info.nRefCount = 0)
    (htimed : Timed info) : Inv c (fun id => loose id ∨ id = s.nIdCount) total debt { s with
      nIdCount := s.nIdCount + 1
      mapInfo := s.mapInfo.insert s.nIdCount info
      mapAddr := s.mapAddr.insert info.addr s.nIdCount
      vRandom := s.vRandom ++ [s.nIdCount]
      nNew := s.nNew + 1
      m_network_counts := addNew s.m_network_counts (c.network info.addr) 1 } := by
  have hnone := lookup_fresh h.indexed.fresh
  have hrandom := Shuffled.append h.indexed.random hnone hpos
  have hslot : ∀ bucket pos, s.vvNew bucket pos ≠ some s.nIdCount := by
    intro bucket pos hsome
    obtain ⟨-, x, hx, -⟩ := h.placed.new_slot _ _ _ hsome
    rw [hnone] at hx
    cases hx
  have hne : ∀ id x, s.mapInfo.lookup id = some x → id ≠ s.nIdCount := by
    rintro id x hx rfl
    rw [hnone] at hx
    cases hx
  have hrefs : ∀ a', refs c s.nKey s.vvNew a' s.nIdCount = 0 := by
    intro a'
    apply List.countP_eq_zero.mpr
    intro bucket _
    simpa using hslot bucket _
  refine ⟨⟨?_, hrandom, ?_⟩, ⟨?_, ?_, ?_, ?_, ?_⟩, ⟨?_, ?_, ?_, ?_, ?_⟩, ?_⟩
  · intro a' id
    by_cases ha : a' = info.addr
    · subst ha
      rw [lookup_insert]
      constructor
      · intro hid
        cases hid
        exact ⟨info, lookup_insert _, rfl⟩
      · rintro ⟨x, hx, hxaddr⟩
        rcases lookup_insert_cases hx with ⟨rfl, rfl⟩ | ⟨-, hx⟩
        · rfl
        · have := (h.indexed.addr info.addr id).mpr ⟨x, hx, hxaddr⟩
          rw [hfind] at this
          cases this
    · rw [lookup_insert_ne ha, h.indexed.addr]
      constructor
      · rintro ⟨x, hx, hxaddr⟩
        exact ⟨x, by rw [lookup_insert_ne (hne id x hx), hx], hxaddr⟩
      · rintro ⟨x, hx, hxaddr⟩
        rcases lookup_insert_cases hx with ⟨rfl, rfl⟩ | ⟨-, hx⟩
        · exact absurd hxaddr.symm ha
        · exact ⟨x, hx, hxaddr⟩
  · intro id x hx
    rcases lookup_insert_cases hx with ⟨rfl, rfl⟩ | ⟨-, hx⟩
    · exact Nat.lt_succ_self _
    · exact (h.indexed.fresh id x hx).trans (Nat.lt_succ_self _)
  · intro bucket pos id
    rw [h.placed.tried]
    constructor
    · rintro ⟨x, hx, hrest⟩
      exact ⟨x, by rw [lookup_insert_ne (hne id x hx), hx], hrest⟩
    · rintro ⟨x, hx, hxtried, hrest⟩
      rcases lookup_insert_cases hx with ⟨rfl, rfl⟩ | ⟨-, hx⟩
      · rw [htried] at hxtried
        cases hxtried
      · exact ⟨x, hx, hxtried, hrest⟩
  · intro bucket pos id hsome
    obtain ⟨hbucket, x, hx, hrest⟩ := h.placed.new_slot bucket pos id hsome
    exact ⟨hbucket, x, by rw [lookup_insert_ne (hne id x hx), hx], hrest⟩
  · intro id x hx
    rcases lookup_insert_cases hx with ⟨rfl, rfl⟩ | ⟨-, hx⟩
    · rw [href, hrefs]
      rfl
    · exact h.placed.ref_eq id x hx
  · intro id x hx
    rcases lookup_insert_cases hx with ⟨rfl, rfl⟩ | ⟨-, hx⟩
    · rw [href]
      decide
    · exact h.placed.ref_le id x hx
  · intro id x hx hxnew hloose
    rcases lookup_insert_cases hx with ⟨rfl, rfl⟩ | ⟨-, hx⟩
    · exact absurd (.inr rfl) hloose
    · exact h.placed.ref_pos id x hx hxnew fun hl => hloose (.inl hl)
  · have hsum := sumBy_insert_none newIn hnone info
    have htotal := h.counted.new_total
    have hone : newIn info = 1 := by simp [newIn, htried]
    simp only
    omega
  · have hsum := sumBy_insert_none triedIn hnone info
    have htotal := h.counted.tried_total
    have hzero : triedIn info = 0 := by simp [triedIn, htried]
    simp only
    omega
  · intro net
    have hsum := sumBy_insert_none (newAt c net) hnone info
    have htotal := h.counted.new_net net
    have hval : newAt c net info = if net = c.network info.addr then 1 else 0 := by
      simp [newAt, newIn, htried, eq_comm]
    simp only
    rw [(count_addNew _ _ net _).1]
    split at hval
    · next hnet =>
      rw [if_pos hnet]
      omega
    · next hnet =>
      rw [if_neg hnet]
      omega
  · intro net
    have hsum := sumBy_insert_none (triedAt c net) hnone info
    have htotal := h.counted.tried_net net
    have hzero : triedAt c net info = 0 := by simp [triedAt, triedIn, htried]
    simp only
    rw [(count_addNew _ _ net _).2]
    omega
  · intro id x hx
    rcases lookup_insert_cases hx with ⟨rfl, rfl⟩ | ⟨-, hx⟩
    · exact (mem_insert _).mpr (.inl rfl)
    · exact mem_addNew _ (h.counted.nets id x hx)
  · intro id x hx
    rcases lookup_insert_cases hx with ⟨rfl, rfl⟩ | ⟨-, hx⟩
    · exact htimed
    · exact h.timed id x hx

theorem create_spec (h : Consistent c s) {a : CAddress A} (hfind : s.mapAddr.lookup a.addr = none) (source : R) :
    Inv c (· = s.nIdCount) 0 (fun _ => 0) (create c s a source).1 := by
  let info : AddrInfo A R :=
      { addr := a.addr, source, nServices := a.nServices, nTime := a.nTime, nRandomPos := s.vRandom.length }
  have hunknown : s.mapAddr.lookup info.addr = none := hfind
  have happend := h.append hunknown rfl rfl rfl ⟨le_rfl, le_rfl, nofun⟩
  apply happend.loosen
  intro id _ _ _ hne
  left
  rintro (hfalse | hid)
  · exact hfalse
  · exact hne hid

theorem Ages.of_create (s : State A R) (a : CAddress A) (source : R) : Ages s (create c s a source).1 := by
  refine ⟨rfl, Nat.le_succ _, rfl, ?_⟩
  intro id x hid hx
  rcases lookup_insert_cases hx with ⟨rfl, rfl⟩ | ⟨-, hx⟩
  · exact absurd hid (lt_irrefl _)
  · exact ⟨x, hx, rfl⟩

theorem addSingle_spec (h : Consistent c s) (hwaiting : Waiting c s) (a : CAddress A) (source : R)
    (time_penalty : Int) (d : Draw) :
    ∃ added s', addSingle c s a source time_penalty d = .ok (added, s') ∧ Consistent c s' ∧ Waiting c s' ∧
      s'.nKey = s.nKey := by
  unfold addSingle
  split
  · exact ⟨_, _, rfl, h, hwaiting, rfl⟩
  · simp only
    generalize (if c.sameHost a.addr source then 0 else time_penalty) = penalty
    split
    · next id info hfind =>
      obtain ⟨hinfo, -⟩ := h.indexed.find_eq a.addr hfind
      rw [modify_eq hinfo]
      generalize hfresh : refresh info a penalty d.online = info'
      have hcore : core info' = core info := by rw [← hfresh]; rfl
      have hpos : info'.nRandomPos = info.nRandomPos := by rw [← hfresh]; rfl
      have htimed : Timed info' := by rw [← hfresh]; exact h.timed id info hinfo
      have hupdated := h.update hinfo info' hcore hpos htimed
      have hages : Ages s { s with mapInfo := s.mapInfo.insert id info' } := (Alike.insert hinfo hcore).ages
      have hwaiting' : Waiting c { s with mapInfo := s.mapInfo.insert id info' } :=
          hwaiting.ages hages fun _ _ hsome => hsome
      have hle := hupdated.placed.ref_le id info' (lookup_insert _)
      split
      · exact ⟨_, _, rfl, hupdated, hwaiting', rfl⟩
      · split
        · exact ⟨_, _, rfl, hupdated, hwaiting', rfl⟩
        · next htried =>
          split
          · exact ⟨_, _, rfl, hupdated, hwaiting', rfl⟩
          · next hfull =>
            split
            · exact ⟨_, _, rfl, hupdated, hwaiting', rfl⟩
            · have hloose : Inv c (· = id) 0 (fun _ => 0) { s with mapInfo := s.mapInfo.insert id info' } :=
                hupdated.loosen fun _ _ _ _ _ => .inl not_false
              obtain ⟨inserted, s', hplace, hconsistent, hages', hvvTried⟩ := place_spec hloose (lookup_insert _)
                (by simpa using htried) (lt_of_le_of_ne hle hfull) source d.now
              refine ⟨inserted, s', hplace, hconsistent, hwaiting'.ages hages' ?_, (hages.trans hages').nKey⟩
              intro bucket pos hsome
              rw [hvvTried]
              exact hsome
    · next hfind =>
      have hinv := create_spec h (h.indexed.find_none a.addr hfind) source
      have hages := Ages.of_create (c := c) s a source
      generalize hs : (create c s a source).1 = s1 at *
      have hid : (create c s a source).2 = s.nIdCount := rfl
      rw [hid]
      obtain ⟨info, hinfo, htried, href⟩ : ∃ info, s1.mapInfo.lookup s.nIdCount = some info ∧
          info.fInTried = false ∧ info.nRefCount = 0 := by
        rw [← hs]
        exact ⟨_, lookup_insert _, rfl, rfl⟩
      have hvvTried1 : s1.vvTried = s.vvTried := by rw [← hs]; rfl
      rw [modify_eq hinfo]
      have htimed := hinv.timed _ _ hinfo
      have hupdated := hinv.update hinfo { info with nTime := max 0 (info.nTime - penalty) } rfl rfl htimed
      obtain ⟨inserted, s', hplace, hconsistent, hages', hvvTried⟩ := place_spec hupdated (lookup_insert _)
        htried (by rw [href]; decide) source d.now
      have hages1 : Ages s1 { s1 with
          mapInfo := s1.mapInfo.insert s.nIdCount { info with nTime := max 0 (info.nTime - penalty) } } :=
        ages_insert hinfo rfl rfl rfl rfl rfl
      refine ⟨inserted, s', hplace, hconsistent, hwaiting.ages (hages.trans (hages1.trans hages')) ?_,
        (hages.trans (hages1.trans hages')).nKey⟩
      intro bucket pos hsome
      rw [hvvTried]
      change (s1.vvTried bucket pos).isSome
      rw [hvvTried1]
      exact hsome

theorem add_spec (h : Consistent c s) (hwaiting : Waiting c s) (source : R) (time_penalty : Int)
    (addrs : List (CAddress A × Draw)) :
    ∃ s', add c s source time_penalty addrs = .ok s' ∧ Consistent c s' ∧ Waiting c s' ∧ s'.nKey = s.nKey := by
  induction addrs generalizing s with
  | nil => exact ⟨s, rfl, h, hwaiting, rfl⟩
  | cons x rest ih =>
    obtain ⟨_, _, hadd, h1, hwaiting1, hkey1⟩ := addSingle_spec h hwaiting x.1 source time_penalty x.2
    obtain ⟨s', hrest, h', hwaiting', hkey'⟩ := ih h1 hwaiting1
    refine ⟨s', ?_, h', hwaiting', hkey'.trans hkey1⟩
    unfold add
    rw [hadd, ok_bind]
    exact hrest

end FullNode.AddrMan

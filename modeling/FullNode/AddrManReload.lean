import FullNode.AddrManLoad
import FullNode.AddrManCheck
import FullNode.AddrManRouted

/-!
# Tables that are built again

The entries of a file come back under new ids, each the place of its entry in the file. The tables are those that
were written, with the new ids in place of the old.
-/

namespace FullNode.AddrMan

open Wire State List Option

abbrev Entry (A R : Type) := Σ _ : Nat, AddrInfo A R

variable {A R : Type}

def onDisk (info : AddrInfo A R) : AddrInfo A R :=
  { addr := info.addr, source := info.source, nServices := info.nServices, nTime := info.nTime % 2 ^ 32,
    m_last_success := info.m_last_success, nAttempts := info.nAttempts, nRandomPos := 0 }

def tag (info : AddrInfo A R) : AddrInfo A R × Bool := (onDisk info, info.fInTried)

variable {x : AddrInfo A R} {s0 : State A R} {L' : List (Entry A R)} {e' : Entry A R} {k bucket id : Nat}
  {f : Nat → Nat} {y : AddrInfo A R}

theorem tag_addr (h : tag x = tag y) : x.addr = y.addr := congrArg (fun t => t.1.addr) h

theorem tag_tried (h : tag x = tag y) : x.fInTried = y.fInTried := congrArg Prod.snd h

structure Fits (info : AddrInfo A R) : Prop where
  services : info.nServices < 2 ^ 64
  success : -2 ^ 63 ≤ info.m_last_success ∧ info.m_last_success < 2 ^ 63
  attempts : -2 ^ 31 ≤ info.nAttempts ∧ info.nAttempts < 2 ^ 31

def ReadsBack (ser : AddrInfo A R → List UInt8) (unser : Stream (AddrInfo A R)) : Prop :=
  ∀ info, Fits info → ∀ rest, unser.run (ser info ++ rest) = .ok (onDisk info, rest)

/-! ## Entries of a manager -/

structure Listed (s0 : State A R) (L : List (Entry A R)) : Prop where
  nodup : (L.map Sigma.fst).Nodup
  lookup : ∀ e ∈ L, s0.mapInfo.lookup e.1 = some e.2

theorem Listed.front {L : List (Entry A R)} (h : Listed s0 (L ++ L')) : Listed s0 L := by
  refine ⟨?_, fun e he => h.lookup e (mem_append_left _ he)⟩
  have hnodup := h.nodup
  rw [map_append] at hnodup
  exact (nodup_append.mp hnodup).1

theorem Listed.id_ne {L : List (Entry A R)} {e : Entry A R} (h : Listed s0 (L ++ e :: L')) (he' : e' ∈ L) :
    e'.1 ≠ e.1 := by
  have hnodup := h.nodup
  rw [map_append, map_cons] at hnodup
  exact fun heq => (nodup_append.mp hnodup).2.2 e'.1 (mem_map_of_mem he') e.1 mem_cons_self heq

variable [DecidableEq A] {c : Context A R} {s0 s : State A R} {L : List (Entry A R)} {e : Entry A R} {n t : Int}

theorem Listed.addr_ne (hlisted : Listed s0 (L ++ e :: L')) (h : Consistent c s0) (he' : e' ∈ L) :
    e'.2.addr ≠ e.2.addr := by
  intro haddr
  have hfirst := (h.indexed.addr e.2.addr e'.1).mpr ⟨e'.2, hlisted.lookup e' (mem_append_left _ he'), haddr⟩
  have hlast := (h.indexed.addr e.2.addr e.1).mpr ⟨e.2, hlisted.lookup e (mem_append_right _ mem_cons_self), rfl⟩
  rw [hfirst] at hlast
  exact hlisted.id_ne he' (Option.some.inj hlast)

theorem Listed.slot_ne (hlisted : Listed s0 (L ++ e :: L')) (h : Consistent c s0) (he' : e' ∈ L)
    (htried : e.2.fInTried = true) (htried' : e'.2.fInTried = true)
    (hbucket : c.getTriedBucket s0.nKey e'.2.addr = c.getTriedBucket s0.nKey e.2.addr) :
    c.triedPos s0.nKey e'.2.addr ≠ c.triedPos s0.nKey e.2.addr := by
  intro hpos
  have hfirst := (h.placed.tried _ _ e'.1).mpr ⟨e'.2, hlisted.lookup e' (mem_append_left _ he'), htried', hbucket, hpos⟩
  have hlast := (h.placed.tried _ _ e.1).mpr ⟨e.2, hlisted.lookup e (mem_append_right _ mem_cons_self),
      htried, rfl, rfl⟩
  rw [hfirst] at hlast
  exact hlisted.id_ne he' (Option.some.inj hlast)

theorem Listed.timed (hlisted : Listed s0 L) (h : Consistent c s0) (he : e ∈ L) (pos : Nat) :
    Timed { onDisk e.2 with nRandomPos := pos } :=
  ⟨le_rfl, (h.timed e.1 e.2 (hlisted.lookup e he)).2.1, nofun⟩

/-! ## The lists of entries -/

structure Loaded (c : Context A R) (L : List (Entry A R)) (s : State A R) : Prop where
  inv : Inv c (fun _ => True) 0 (fun _ => 0) s
  count : s.nIdCount = L.length
  lookup : ∀ k, (s.mapInfo.lookup k).map tag = L[k]?.map fun e => tag e.2
  empty : ∀ bucket pos, s.vvNew bucket pos = none

theorem Loaded.lookup_some (h : Loaded c L s) (hx : s.mapInfo.lookup k = some x) :
    ∃ e, L[k]? = some e ∧ tag x = tag e.2 := by
  have hk := h.lookup k
  rw [hx, map_some] at hk
  obtain ⟨e, he, htag⟩ := map_eq_some_iff.mp hk.symm
  exact ⟨e, he, htag.symm⟩

theorem Loaded.unknown (h : Loaded c L s) {a : A} (ha : ∀ e ∈ L, e.2.addr ≠ a) : s.mapAddr.lookup a = none := by
  by_contra hne
  obtain ⟨id, hid⟩ := ne_none_iff_exists'.mp hne
  obtain ⟨_, hx, hxaddr⟩ := (h.inv.indexed.addr a id).mp hid
  obtain ⟨e, he, htag⟩ := h.lookup_some hx
  exact ha e (mem_of_getElem? he) ((tag_addr htag).symm.trans hxaddr)

omit [DecidableEq A] in
theorem map_lookup_append {m : AssocMap Nat (AddrInfo A R)} (h : ∀ k, (m.lookup k).map tag = L[k]?.map fun e => tag e.2)
    (htag : tag x = tag e.2) (k : Nat) : ((m.insert L.length x).lookup k).map tag = (L ++ [e])[k]?.map fun e =>
      tag e.2 := by
  by_cases hk : k = L.length
  · subst hk
    rw [AList.lookup_insert, getElem?_append_right le_rfl, Nat.sub_self]
    exact congrArg some htag
  · rw [AList.lookup_insert_ne hk, h]
    rcases Nat.lt_or_ge k L.length with hlt | hge
    · rw [getElem?_append_left hlt]
    · rw [getElem?_eq_none hge, getElem?_eq_none (by rw [length_append, length_singleton]; omega)]

def settle (s : State A R) (ids : Nat) (n t : Int) : State A R := { s with nIdCount := ids, nNew := n, nTried := t }

theorem Loaded.addNew (h : Loaded c L (settle s L.length n t)) (hlisted : Listed s0 (L ++ e :: L'))
    (hcons : Consistent c s0) (hnew : e.2.fInTried = false) : Loaded c (L ++ [e]) (settle { s with
      mapInfo := s.mapInfo.insert L.length { onDisk e.2 with nRandomPos := s.vRandom.length }
      mapAddr := s.mapAddr.insert e.2.addr L.length
      vRandom := s.vRandom ++ [L.length]
      m_network_counts := addNew s.m_network_counts (c.network e.2.addr) 1 } (L.length + 1) (n + 1) t) := by
  have hmem : e ∈ L ++ e :: L' := mem_append_right _ mem_cons_self
  have hfind : (settle s L.length n t).mapAddr.lookup ({ onDisk e.2 with nRandomPos := s.vRandom.length } :
    AddrInfo A R).addr = none := h.unknown fun e' he' => hlisted.addr_ne hcons he'
  have happend := h.inv.append hfind rfl rfl rfl (hlisted.timed hcons hmem _)
  refine ⟨happend.loosen fun _ _ _ _ hnot => absurd trivial hnot, ?_, ?_, h.empty⟩
  · rw [length_append]
    rfl
  · apply map_lookup_append h.lookup
    have hsame : ∀ info : AddrInfo A R,
        onDisk ({ onDisk info with nRandomPos := s.vRandom.length } : AddrInfo A R) = onDisk info := by
      intro info
      simp [onDisk, Int.emod_emod_of_dvd]
    unfold tag
    rw [hsame, hnew]
    rfl

variable {ser : AddrInfo A R → List UInt8} {unser : Stream (AddrInfo A R)} {pos : Nat}

theorem loadNew_spec (hformat : ReadsBack ser unser) (hcons : Consistent c s0) {N : List (Entry A R)}
    (hlisted : Listed s0 (L ++ N)) (hfits : ∀ e ∈ N, Fits e.2) (hnew : ∀ e ∈ N, e.2.fInTried = false)
    (h : Loaded c L (settle s L.length n t)) (rest : List UInt8) :
    ∃ s', (loadNew c unser N.length L.length s).run ((N.flatMap fun e => ser e.2) ++ rest) = .ok (s', rest) ∧
      Loaded c (L ++ N) (settle s' (L ++ N).length (n + N.length) t) ∧ s'.nKey = s.nKey ∧ s'.nNew = s.nNew ∧
        s'.nTried = s.nTried := by
  induction N generalizing L s n with
  | nil =>
    refine ⟨s, rfl, ?_, rfl, rfl, rfl⟩
    simpa using h
  | cons e N ih =>
    rw [forall_mem_cons] at hfits hnew
    have hnext := h.addNew hlisted hcons hnew.1
    have happend : L ++ e :: N = (L ++ [e]) ++ N := by simp
    rw [happend] at hlisted
    have hlength : (L ++ [e]).length = L.length + 1 := by simp
    rw [← hlength] at hnext
    obtain ⟨s', hrun, hloaded, hkey, hnNew, hnTried⟩ := ih hlisted hfits.2 hnew.2 hnext
    refine ⟨s', ?_, ?_, hkey, hnNew, hnTried⟩
    · rw [length_cons, flatMap_cons, append_assoc]
      unfold loadNew
      rw [Reader.run_bind_of_ok (Reader.mapError_run_of_ok _ (hformat e.2 hfits.1 _)), ← hlength]
      exact hrun
    · rw [happend, length_cons, Nat.cast_succ, Int.add_comm (N.length : Int), ← Int.add_assoc]
      exact hloaded

omit [DecidableEq A] in
theorem addTried_addNew_addNew (counts : AssocMap Network NewTriedCount) (net : Network) :
    addTried (addNew (addNew counts net 1) net (-1)) net 1 = addTried counts net 1 := by
  have hcount : ∀ (m : AssocMap Network NewTriedCount) x, count (m.insert net x) net = x := by
    intro m x
    simp [State.count, AList.lookup_insert]
  simp only [addTried, addNew, hcount, AList.insert_insert]
  congr 2
  omega

theorem Inv.appendTried {loose : Nat → Prop} {info : AddrInfo A R} (h : Inv c loose 0 (fun _ => 0) s)
    (hfind : s.mapAddr.lookup info.addr = none) (hpos : info.nRandomPos = s.vRandom.length)
    (htried : info.fInTried = false) (href : info.nRefCount = 0) (htimed : Timed info)
    (hsuccess : info.m_last_success ≠ 0)
    (hslot : s.vvTried (c.getTriedBucket s.nKey info.addr) (c.triedPos s.nKey info.addr) = none) :
    Inv c loose 0 (fun _ => 0) { s with
      nIdCount := s.nIdCount + 1
      mapInfo := s.mapInfo.insert s.nIdCount { info with fInTried := true }
      mapAddr := s.mapAddr.insert info.addr s.nIdCount
      vRandom := s.vRandom ++ [s.nIdCount]
      vvTried := s.vvTried.set (c.getTriedBucket s.nKey info.addr) (c.triedPos s.nKey info.addr) (some s.nIdCount)
      nTried := s.nTried + 1
      m_network_counts := addTried s.m_network_counts (c.network info.addr) 1 } := by
  -- the entry is added as a new one, and at once moves to the tried table
  have happend := (h.append hfind hpos htried href htimed).recount (c.network info.addr) (-1)
  have henter := happend.enterTried (AList.lookup_insert _) htried href hsuccess rfl rfl hslot
  rw [addTried_addNew_addNew, AList.insert_insert] at henter
  have htotal : (0 : Int) - -1 - 1 = 0 := rfl
  have hdebt : (fun net =>
      ((0 : Int) - if net = c.network info.addr then -1 else 0) - if net = c.network info.addr then 1 else 0) =
        fun _ => 0 := by
    funext net
    split <;> rfl
  have hnew : s.nNew + 1 + -1 = s.nNew := by omega
  rw [htotal, hdebt, hnew] at henter
  apply henter.loosen
  intro id' x hx _ hnot
  left
  rintro ⟨hl | hid, hne⟩
  · exact hnot hl
  · exact hne hid

theorem Loaded.addTried (h : Loaded c L { s with nTried := t }) (hlisted : Listed s0 (L ++ e :: L'))
    (hcons : Consistent c s0) (hkey : s.nKey = s0.nKey) (htried : e.2.fInTried = true)
      (hvalid : c.isValid e.2.addr = true) (nLost : Nat) :
    ∃ s', loadEntry c s nLost (onDisk e.2) = .ok (s', nLost) ∧ Loaded c (L ++ [e]) { s' with nTried := t + 1 } ∧
      s'.nKey = s.nKey ∧ s'.nNew = s.nNew ∧ s'.nTried = s.nTried := by
  have hmem : e ∈ L ++ e :: L' := mem_append_right _ mem_cons_self
  have hslot : s.vvTried (c.getTriedBucket s.nKey e.2.addr) (c.triedPos s.nKey e.2.addr) = none := by
    by_contra hne
    obtain ⟨id, hid⟩ := ne_none_iff_exists'.mp hne
    obtain ⟨_, hx, hxtried, hbucket, hpos⟩ := (h.inv.placed.tried _ _ id).mp hid
    obtain ⟨e', he', htag⟩ := h.lookup_some hx
    rw [tag_addr htag] at hbucket hpos
    simp only [hkey] at hbucket hpos
    exact hlisted.slot_ne hcons (mem_of_getElem? he') htried ((tag_tried htag).symm.trans hxtried) hbucket hpos
  have hfind : s.mapAddr.lookup ({ onDisk e.2 with nRandomPos := s.vRandom.length } : AddrInfo A R).addr = none :=
    h.unknown fun e' he' => hlisted.addr_ne hcons he'
  have hsuccess := (hcons.timed e.1 e.2 (hlisted.lookup e hmem)).2.2 htried
  have happend := h.inv.appendTried hfind rfl rfl rfl (hlisted.timed hcons hmem _) hsuccess hslot
  unfold loadEntry
  simp only
  rw [if_pos (show c.isValid (onDisk e.2).addr = true from hvalid),
    slot_ok (getTriedBucket_lt c _ _) (getBucketPosition_lt c _ _ _ _), ok_bind, if_pos (by
      unfold Context.triedPos at hslot
      simp only [onDisk, hslot, isNone_none])]
  refine ⟨_, rfl, ⟨happend, ?_, ?_, h.empty⟩, rfl, rfl, rfl⟩
  · rw [length_append]
    exact congrArg (· + 1) h.count
  · have hcount : s.nIdCount = L.length := h.count
    simp only [hcount]
    apply map_lookup_append h.lookup
    unfold tag
    rw [htried]
    simp [onDisk]

theorem loadTried_spec (hformat : ReadsBack ser unser) (hcons : Consistent c s0) {T : List (Entry A R)}
    (hlisted : Listed s0 (L ++ T)) (hfits : ∀ e ∈ T, Fits e.2) (htried : ∀ e ∈ T, e.2.fInTried = true)
    (hvalid : ∀ e ∈ T, c.isValid e.2.addr = true) (hkey : s.nKey = s0.nKey) (h : Loaded c L { s with nTried := t })
    (nLost : Nat) (rest : List UInt8) :
    ∃ s', (loadTried c unser T.length s nLost).run ((T.flatMap fun e => ser e.2) ++ rest) = .ok ((s', nLost), rest) ∧
      Loaded c (L ++ T) { s' with nTried := t + T.length } ∧ s'.nKey = s.nKey ∧ s'.nNew = s.nNew ∧
        s'.nTried = s.nTried := by
  induction T generalizing L s t with
  | nil =>
    refine ⟨s, rfl, ?_, rfl, rfl, rfl⟩
    simpa using h
  | cons e T ih =>
    rw [forall_mem_cons] at hfits htried hvalid
    obtain ⟨_, hload, hnext, hkey1, hnNew1, hnTried1⟩ := h.addTried hlisted hcons hkey htried.1 hvalid.1 nLost
    have happend : L ++ e :: T = (L ++ [e]) ++ T := by simp
    rw [happend] at hlisted
    obtain ⟨s', hrun, hloaded, hkey', hnNew', hnTried'⟩ := ih hlisted hfits.2 htried.2 hvalid.2 (hkey1.trans hkey) hnext
    refine ⟨s', ?_, ?_, hkey'.trans hkey1, hnNew'.trans hnNew1, hnTried'.trans hnTried1⟩
    · rw [length_cons, flatMap_cons, append_assoc]
      unfold loadTried
      rw [Reader.run_bind_of_ok (Reader.mapError_run_of_ok _ (hformat e.2 hfits.1 _)),
        Reader.run_bind_of_ok (Reader.lift_run_of_ok hload _)]
      exact hrun
    · rw [happend, length_cons, Nat.cast_succ, Int.add_comm (T.length : Int), ← Int.add_assoc]
      exact hloaded

/-! ## The slots of the new table -/

def newId (L : List (Entry A R)) (id : Nat) : Nat := (L.map Sigma.fst).idxOf id

omit [DecidableEq A] in
theorem Listed.getElem_newId (hlisted : Listed s0 L) (he : e ∈ L) : L[newId L e.1]? = some e := by
  have hmem : e.1 ∈ L.map Sigma.fst := mem_map_of_mem he
  have hlt : (L.map Sigma.fst).idxOf e.1 < (L.map Sigma.fst).length := idxOf_lt_length_of_mem hmem
  have hat : (L.map Sigma.fst)[newId L e.1]? = some e.1 := by
    unfold newId
    rw [getElem?_eq_getElem hlt, getElem_idxOf]
  rw [getElem?_map] at hat
  obtain ⟨e', he', hid⟩ := map_eq_some_iff.mp hat
  have hlookup := hlisted.lookup e' (mem_of_getElem? he')
  rw [hid, hlisted.lookup e he] at hlookup
  rw [he']
  exact congrArg some (Sigma.ext hid (heq_of_eq (Option.some.inj hlookup).symm))

omit [DecidableEq A] in
theorem Listed.newId_eq (hlisted : Listed s0 L) (he : L[k]? = some e) : newId L e.1 = k := by
  obtain ⟨_, rfl⟩ := List.getElem?_eq_some_iff.mp he
  have hmap : (L.map Sigma.fst)[k]? = some L[k].1 := by
    rw [getElem?_map, he]
    rfl
  obtain ⟨hlt', hval⟩ := List.getElem?_eq_some_iff.mp hmap
  unfold newId
  rw [← hval]
  exact hlisted.nodup.idxOf_getElem k hlt'

/-- Buckets and new ids of all slots, in the order of the file. -/
def bucketEntries (t : Table) (f : Nat → Nat) : List (Nat × Nat) :=
  (List.range ADDRMAN_NEW_BUCKET_COUNT).flatMap fun bucket => (bucketIds t bucket).map fun id => (bucket, f id)

section

variable (h : Consistent c s0)
include h

theorem mem_bucketIds : id ∈ bucketIds s0.vvNew bucket ↔ ∃ pos, s0.vvNew bucket pos = some id := by
  unfold bucketIds
  rw [mem_filterMap]
  constructor
  · rintro ⟨pos, -, hslot⟩
    exact ⟨pos, hslot⟩
  · rintro ⟨pos, hslot⟩
    obtain ⟨-, _, -, -, hpos⟩ := h.placed.new_slot _ _ _ hslot
    exact ⟨pos, mem_range.mpr (hpos ▸ getBucketPosition_lt c _ _ _ _), hslot⟩

theorem mem_bucketEntries :
    (bucket, k) ∈ bucketEntries s0.vvNew f ↔ ∃ pos id, s0.vvNew bucket pos = some id ∧ f id = k := by
  unfold bucketEntries
  rw [mem_flatMap]
  constructor
  · rintro ⟨_, -, hmem⟩
    obtain ⟨id, hid, heq⟩ := mem_map.mp hmem
    obtain ⟨rfl, rfl⟩ := Prod.mk.inj heq
    obtain ⟨pos, hslot⟩ := (mem_bucketIds h).mp hid
    exact ⟨pos, id, hslot, rfl⟩
  · rintro ⟨pos, id, hslot, rfl⟩
    refine ⟨bucket, mem_range.mpr (h.placed.new_slot _ _ _ hslot).1,
      mem_map.mpr ⟨id, (mem_bucketIds h).mpr ⟨pos, hslot⟩, rfl⟩⟩

theorem pos_of_slot (hslot : s0.vvNew bucket pos = some id)
    (hx : s0.mapInfo.lookup id = some x) : c.getBucketPosition s0.nKey true bucket x.addr = pos := by
  obtain ⟨-, _, hy, -, hpos⟩ := h.placed.new_slot _ _ _ hslot
  rw [hx] at hy
  cases hy
  exact hpos

theorem bucketEntries_nodup
    (hinj : ∀ bucket pos id bucket' pos' id', s0.vvNew bucket pos = some id → s0.vvNew bucket' pos' = some id' →
    f id = f id' → id = id') : (bucketEntries s0.vvNew f).Nodup := by
  unfold bucketEntries
  rw [nodup_flatMap]
  constructor
  · intro bucket _
    apply Nodup.map_on
    · intro id hid id' hid' heq
      obtain ⟨pos, hslot⟩ := (mem_bucketIds h).mp hid
      obtain ⟨pos', hslot'⟩ := (mem_bucketIds h).mp hid'
      exact hinj _ _ _ _ _ _ hslot hslot' (Prod.mk.inj heq).2
    · apply Nodup.filterMap _ nodup_range
      intro pos pos' id hpos hpos'
      obtain ⟨-, _, hx, -⟩ := h.placed.new_slot _ _ _ hpos
      exact (pos_of_slot h hpos hx).symm.trans (pos_of_slot h hpos' hx)
  · apply List.Pairwise.imp_of_mem _ nodup_range
    intro bucket bucket' _ _ hne
    apply disjoint_left.mpr
    intro p hp hp'
    obtain ⟨id, -, rfl⟩ := mem_map.mp hp
    obtain ⟨id', -, heq⟩ := mem_map.mp hp'
    exact hne (Prod.mk.inj heq).1.symm

end

structure Complete (s0 : State A R) (L : List (Entry A R)) : Prop extends Listed s0 L where
  all : ∀ id info, s0.mapInfo.lookup id = some info → (⟨id, info⟩ : Entry A R) ∈ L

structure Restored (c : Context A R) (key : Uint256) (L : List (Entry A R)) (done : List (Nat × Nat))
    (s : State A R) : Prop where
  inv : Inv c (fun _ => True) 0 (fun _ => 0) s
  nKey : s.nKey = key
  lookup : ∀ k, (s.mapInfo.lookup k).map tag = L[k]?.map fun e => tag e.2
  slots : ∀ bucket pos k, s.vvNew bucket pos = some k ↔
    (bucket, k) ∈ done ∧ ∃ e, L[k]? = some e ∧ c.getBucketPosition key true bucket e.2.addr = pos

theorem Restored.step (hcons : Consistent c s0) (hcomplete : Complete s0 L)
    (hvalid : ∀ e ∈ L, c.isValid e.2.addr = true) {done rest : List (Nat × Nat)}
    (hall : bucketEntries s0.vvNew (newId L) = done ++ (bucket, k) :: rest) (h : Restored c s0.nKey L done s) :
    ∃ s', restoreEntry c true s (bucket, k) = .ok s' ∧ Restored c s0.nKey L (done ++ [(bucket, k)]) s' := by
  have hofSlot : ∀ b pos id, s0.vvNew b pos = some id → ∃ e, e.1 = id ∧ L[newId L id]? = some e ∧
      c.getBucketPosition s0.nKey true b e.2.addr = pos ∧ e.2.fInTried = false := by
    intro b pos id hslot
    obtain ⟨-, x, hx, hnew, hpos⟩ := hcons.placed.new_slot _ _ _ hslot
    exact ⟨⟨id, x⟩, rfl, hcomplete.getElem_newId (hcomplete.all id x hx), hpos, hnew⟩
  have hnodup : (bucketEntries s0.vvNew (newId L)).Nodup := by
    apply bucketEntries_nodup hcons
    intro b pos id b' pos' id' hslot hslot' heq
    obtain ⟨e, rfl, he, -⟩ := hofSlot _ _ _ hslot
    obtain ⟨e', rfl, he', -⟩ := hofSlot _ _ _ hslot'
    rw [heq, he'] at he
    rw [Option.some.inj he]
  have hnot : (bucket, k) ∉ done := by
    rw [hall] at hnodup
    exact fun hmem => (nodup_append.mp hnodup).2.2 _ hmem _ mem_cons_self rfl
  obtain ⟨pos, id, hslot, rfl⟩ := (mem_bucketEntries hcons).mp (by rw [hall]; exact mem_append_right _ mem_cons_self)
  obtain ⟨e, rfl, he, hpos, hnew⟩ := hofSlot _ _ _ hslot
  obtain ⟨x, hx, htag⟩ : ∃ x, s.mapInfo.lookup (newId L e.1) = some x ∧ tag x = tag e.2 := by
    have hlookup := h.lookup (newId L e.1)
    rw [he, map_some] at hlookup
    exact map_eq_some_iff.mp hlookup
  have haddr := tag_addr htag
  have hbucket := (hcons.placed.new_slot _ _ _ hslot).1
  -- what is in the slots so far was there before
  have hold : ∀ b p j, s.vvNew b p = some j → ∃ id', s0.vvNew b p = some id' ∧ newId L id' = j := by
    intro b p j hj
    obtain ⟨hmem, e', he', hp⟩ := (h.slots b p j).mp hj
    obtain ⟨_, id', hslot', rfl⟩ := (mem_bucketEntries hcons).mp (by rw [hall]; exact mem_append_left _ hmem)
    obtain ⟨_, rfl, he'', hp'', -⟩ := hofSlot _ _ _ hslot'
    rw [he'] at he''
    cases he''
    rw [hp] at hp''
    subst hp''
    exact ⟨e'.1, hslot', rfl⟩
  have hfree : s.vvNew bucket pos = none := by
    by_contra hne
    obtain ⟨j, hj⟩ := ne_none_iff_exists'.mp hne
    obtain ⟨id', hslot', rfl⟩ := hold _ _ _ hj
    rw [hslot] at hslot'
    cases hslot'
    exact hnot ((h.slots _ _ _).mp hj).1
  have hposx : c.getBucketPosition s.nKey true bucket x.addr = pos := by rw [h.nKey, haddr, hpos]
  -- one reference is missing, so there are not too many
  have hle : x.nRefCount < ADDRMAN_NEW_BUCKETS_PER_ADDRESS := by
    have hfill := refs_set_fill hbucket
      (show s.vvNew bucket (c.getBucketPosition s.nKey true bucket x.addr) ≠ some (newId L e.1) by
        rw [hposx, hfree]
        exact nofun)
    have hmono : refs c s.nKey (s.vvNew.set bucket (c.getBucketPosition s.nKey true bucket x.addr)
        (some (newId L e.1))) x.addr (newId L e.1) ≤ refs c s0.nKey s0.vvNew e.2.addr e.1 := by
      apply countP_mono_left
      intro b _ hb
      rw [decide_eq_true_eq] at hb ⊢
      rw [h.nKey, haddr] at hb
      rcases set_some hb with ⟨rfl, -, -⟩ | hb
      · rw [hpos, hslot]
      · obtain ⟨id', hslot', hnewId⟩ := hold _ _ _ hb
        obtain ⟨e', rfl, he', -⟩ := hofSlot _ _ _ hslot'
        rw [hnewId, he] at he'
        rw [hslot', Option.some.inj he']
    have href := h.inv.placed.ref_eq _ x hx
    have hlookup := hcomplete.lookup e (mem_of_getElem? he)
    have href0 := hcons.placed.ref_eq e.1 e.2 hlookup
    have hle0 := hcons.placed.ref_le e.1 e.2 hlookup
    omega
  have hinv := h.inv.fill hx ((tag_tried htag).trans hnew) hbucket hposx hfree hle
  refine ⟨fillSlot s bucket pos (newId L e.1), ?_, ?_⟩
  · have hcan : canRestore true s.vvNew bucket pos = .ok true := by
      unfold canRestore
      rw [if_pos rfl, slot_ok hbucket (hposx ▸ getBucketPosition_lt c _ _ _ _), ok_bind, hfree]
      rfl
    have hisValid : c.isValid x.addr = true := by
      rw [haddr]
      exact hvalid e (mem_of_getElem? he)
    unfold restoreEntry
    simp only [infoAt_ok hx, ok_bind, hposx, hcan, hisValid, Bool.not_true, Bool.false_eq_true, if_false, if_true]
    rw [if_neg (not_le.mpr hle)]
    rfl
  · unfold fillSlot
    rw [modify_eq hx]
    refine ⟨hinv.loosen fun _ _ _ _ hloose => absurd trivial hloose, h.nKey, ?_, ?_⟩
    · intro j
      simp only
      by_cases hj : j = newId L e.1
      · rw [hj, AList.lookup_insert, ← h.lookup, hx]
        rfl
      · rw [AList.lookup_insert_ne hj, h.lookup]
    · intro b p j
      rw [mem_append, mem_singleton]
      constructor
      · intro hset
        rcases set_some hset with ⟨rfl, rfl, hj⟩ | hset
        · cases hj
          exact ⟨.inr rfl, e, he, hpos⟩
        · obtain ⟨hmem, hrest⟩ := (h.slots b p j).mp hset
          exact ⟨.inl hmem, hrest⟩
      · rintro ⟨hmem | heq, e', he', hp⟩
        · have hset := (h.slots b p j).mpr ⟨hmem, e', he', hp⟩
          have hother : ¬(b = bucket ∧ p = pos) := by
            rintro ⟨rfl, rfl⟩
            rw [hfree] at hset
            cases hset
          exact (if_neg hother).trans hset
        · obtain ⟨rfl, rfl⟩ := Prod.mk.inj heq
          rw [he] at he'
          cases he'
          rw [← hp, hpos]
          exact set_self _ _ _ _

/-! ## The whole file -/

/-- The tables that are built again, with file places as ids. -/
structure Reloaded (c : Context A R) (L : List (Entry A R)) (s0 s' : State A R) : Prop where
  consistent : Consistent c s'
  nKey : s'.nKey = s0.nKey
  lookup : ∀ k, (s'.mapInfo.lookup k).map tag = L[k]?.map fun e => tag e.2
  slots : ∀ bucket pos, s'.vvNew bucket pos = (s0.vvNew bucket pos).map (newId L)

theorem prune_nothing (ids : List Nat)
    (h : ∀ id ∈ ids, ∃ info, s.mapInfo.lookup id = some info ∧ (info.fInTried = false → info.nRefCount ≠ 0)) :
    ids.foldlM (pruneEntry c) s = .ok s := by
  induction ids with
  | nil => rfl
  | cons id ids ih =>
    rw [forall_mem_cons] at h
    obtain ⟨⟨info, hinfo, hused⟩, hrest⟩ := h
    have hkeep : pruneEntry c s id = .ok s := by
      unfold pruneEntry
      rw [infoAt_ok hinfo, ok_bind, if_neg fun hbad => hused hbad.1 hbad.2]
      rfl
    rw [foldlM_cons, hkeep, ok_bind]
    exact ih hrest

theorem rebuild_spec (hcons : Consistent c s0) (hkey : s0.nKey ≠ 0) (hcomplete : Complete s0 L)
    (hvalid : ∀ e ∈ L, c.isValid e.2.addr = true) (h : Loaded c L s) (hsame : s.nKey = s0.nKey) (order : MapOrder A R) :
    ∃ s', rebuild c order true (bucketEntries s0.vvNew (newId L)) s = .ok s' ∧ Reloaded c L s0 s' := by
  have hstart : Restored c s0.nKey L [] s := by
    refine ⟨h.inv, hsame, h.lookup, ?_⟩
    intro bucket pos k
    rw [h.empty]
    simp
  have hloop : ∃ s', (bucketEntries s0.vvNew (newId L)).foldlM (restoreEntry c true) s = .ok s' ∧
      Restored c s0.nKey L (bucketEntries s0.vvNew (newId L)) s' := by
    apply foldlM_split _ hstart
    rintro done ⟨bucket, k⟩ rest t hall ht
    exact ht.step hcons hcomplete hvalid hall
  obtain ⟨s', hrestore, hrestored⟩ := hloop
  have hslots : ∀ bucket pos, s'.vvNew bucket pos = (s0.vvNew bucket pos).map (newId L) := by
    intro bucket pos
    apply ext
    intro k
    rw [hrestored.slots, mem_bucketEntries hcons, map_eq_some_iff]
    constructor
    · rintro ⟨⟨_, id, hslot, rfl⟩, e, he, hpos⟩
      obtain ⟨-, x, hx, -, hposx⟩ := hcons.placed.new_slot _ _ _ hslot
      have hat := hcomplete.getElem_newId (hcomplete.all id x hx)
      rw [he] at hat
      cases hat
      rw [hpos] at hposx
      subst hposx
      exact ⟨id, hslot, rfl⟩
    · rintro ⟨id, hslot, rfl⟩
      obtain ⟨-, x, hx, -, hpos⟩ := hcons.placed.new_slot _ _ _ hslot
      exact ⟨⟨pos, id, hslot, rfl⟩, ⟨id, x⟩, hcomplete.getElem_newId (hcomplete.all id x hx), hpos⟩
  -- every new entry has a slot again
  have hused : ∀ k x, s'.mapInfo.lookup k = some x → x.fInTried = false → 0 < x.nRefCount := by
    intro k x hx hnew
    have hk := hrestored.lookup k
    rw [hx, map_some] at hk
    obtain ⟨e, he, htag⟩ := map_eq_some_iff.mp hk.symm
    have hinfo := hcomplete.lookup e (mem_of_getElem? he)
    have hpos := hcons.placed.ref_pos e.1 e.2 hinfo ((tag_tried htag).trans hnew) not_false
    rw [hcons.placed.ref_eq e.1 e.2 hinfo, Int.natCast_pos] at hpos
    obtain ⟨bucket, hbucket, hslot⟩ := countP_pos_iff.mp hpos
    rw [hrestored.inv.placed.ref_eq k x hx, Int.natCast_pos]
    apply countP_pos_iff.mpr
    refine ⟨bucket, hbucket, ?_⟩
    rw [decide_eq_true_eq] at hslot ⊢
    rw [hslots, hrestored.nKey, ← tag_addr htag, hslot, map_some, hcomplete.newId_eq he]
  have hconsistent' : Consistent c s' := hrestored.inv.loosen fun k x hx hnew _ => .inr (hused k x hx hnew)
  refine ⟨s', ?_, hconsistent', hrestored.nKey, hrestored.lookup, hslots⟩
  have hprune : ((order.entries s'.mapInfo).map Sigma.fst).foldlM (pruneEntry c) s' = .ok s' := by
    apply prune_nothing
    intro k hk
    obtain ⟨x, hx⟩ := isSome_iff_exists.mp ((order.mem_ids s'.mapInfo k).mp hk)
    exact ⟨x, hx, fun hnew => (hused k x hx hnew).ne'⟩
  have hcheck : checkAddrman c s' = 0 := by
    rw [checkAddrman_eq hconsistent', if_neg (hrestored.nKey ▸ hkey)]
  unfold rebuild
  simp only [hrestore, ok_bind, hprune, hcheck, ne_eq, not_true, if_false]

/-! ## What is the same -/

structure Facts (R : Type) where
  source : R
  nServices : Nat
  nTime : Int
  m_last_success : Int
  nAttempts : Int
  nRefCount : Int
  fInTried : Bool

def AddrInfo.facts (info : AddrInfo A R) : Facts R where
  source := info.source
  nServices := info.nServices
  nTime := info.nTime % 2 ^ 32
  m_last_success := info.m_last_success
  nAttempts := info.nAttempts
  nRefCount := info.nRefCount
  fInTried := info.fInTried

def addrAt (s : State A R) (t : Table) (bucket pos : Nat) : Option A :=
  ((t bucket pos).bind s.mapInfo.lookup).map AddrInfo.addr

/-- The same addresses in the same slots, with the same facts. -/
structure SameAddrs (s s' : State A R) : Prop where
  nKey : s'.nKey = s.nKey
  new : ∀ bucket pos, addrAt s' s'.vvNew bucket pos = addrAt s s.vvNew bucket pos
  tried : ∀ bucket pos, addrAt s' s'.vvTried bucket pos = addrAt s s.vvTried bucket pos
  facts : ∀ a, (find s' a).map (fun p => p.2.facts) = (find s a).map fun p => p.2.facts

theorem Reloaded.exists_iff (hcomplete : Complete s0 L) (h : Reloaded c L s0 s) {P : AddrInfo A R → Prop}
    (hP : ∀ x y, tag x = tag y → (P x ↔ P y)) (k : Nat) :
    (∃ x, s.mapInfo.lookup k = some x ∧ P x) ↔ ∃ id, (∃ x, s0.mapInfo.lookup id = some x ∧ P x) ∧ newId L id = k := by
  constructor
  · rintro ⟨x, hx, hPx⟩
    have hk := h.lookup k
    rw [hx, map_some] at hk
    obtain ⟨e, he, htag⟩ := map_eq_some_iff.mp hk.symm
    exact ⟨e.1, ⟨e.2, hcomplete.lookup e (mem_of_getElem? he), (hP _ _ htag).mpr hPx⟩, hcomplete.newId_eq he⟩
  · rintro ⟨id, ⟨x, hx, hPx⟩, rfl⟩
    have hk := h.lookup (newId L id)
    rw [hcomplete.getElem_newId (hcomplete.all id x hx), map_some] at hk
    obtain ⟨y, hy, htag⟩ := map_eq_some_iff.mp hk
    exact ⟨y, hy, (hP _ _ htag).mpr hPx⟩

theorem Reloaded.lookup_newId (hcomplete : Complete s0 L) (h : Reloaded c L s0 s) (hx : s0.mapInfo.lookup id = some x) :
    ∃ y, s.mapInfo.lookup (newId L id) = some y ∧ tag y = tag x := by
  have hk := h.lookup (newId L id)
  rw [hcomplete.getElem_newId (hcomplete.all id x hx), map_some] at hk
  exact map_eq_some_iff.mp hk

theorem Reloaded.vvTried_eq (hcons : Consistent c s0) (hcomplete : Complete s0 L) (h : Reloaded c L s0 s)
    (bucket pos : Nat) : s.vvTried bucket pos = (s0.vvTried bucket pos).map (newId L) := by
  apply ext
  intro k
  rw [h.consistent.placed.tried, h.nKey, map_eq_some_iff, h.exists_iff hcomplete]
  · simp only [hcons.placed.tried]
  · intro x y htag
    rw [tag_addr htag, tag_tried htag]

theorem Reloaded.refs_eq (hcons : Consistent c s0) (hcomplete : Complete s0 L) (h : Reloaded c L s0 s)
    (hx : s0.mapInfo.lookup id = some x) (a : A) :
    refs c s.nKey s.vvNew a (newId L id) = refs c s0.nKey s0.vvNew a id := by
  rw [h.nKey]
  apply countP_congr
  intro bucket _
  rw [decide_eq_true_eq, decide_eq_true_eq, h.slots, map_eq_some_iff]
  constructor
  · rintro ⟨id', hslot, hsame⟩
    obtain ⟨-, y, hy, -⟩ := hcons.placed.new_slot _ _ _ hslot
    have hat := hcomplete.getElem_newId (hcomplete.all id x hx)
    have hat' := hcomplete.getElem_newId (hcomplete.all id' y hy)
    rw [hsame, hat] at hat'
    rw [hslot, (Sigma.mk.inj (Option.some.inj hat')).1]
  · intro hslot
    exact ⟨id, hslot, rfl⟩

theorem addrAt_map (hcomplete : Complete s0 L) (h : Reloaded c L s0 s) {t t' : Table}
    (hknown : ∀ id, t bucket pos = some id → ∃ x, s0.mapInfo.lookup id = some x)
    (ht : t' bucket pos = (t bucket pos).map (newId L)) :
    addrAt s t' bucket pos = addrAt s0 t bucket pos := by
  unfold addrAt
  rw [ht]
  cases hslot : t bucket pos with
  | none => rfl
  | some id =>
    obtain ⟨x, hx⟩ := hknown id hslot
    obtain ⟨_, hy, htag⟩ := h.lookup_newId hcomplete hx
    rw [map_some, bind_some, bind_some, hx, hy, map_some, map_some, tag_addr htag]

theorem Reloaded.same (hcons : Consistent c s0) (hcomplete : Complete s0 L) (h : Reloaded c L s0 s) :
    SameAddrs s0 s := by
  refine ⟨h.nKey, ?_, ?_, ?_⟩
  · intro bucket pos
    apply addrAt_map hcomplete h _ (h.slots bucket pos)
    intro id hslot
    obtain ⟨-, x, hx, -⟩ := hcons.placed.new_slot _ _ _ hslot
    exact ⟨x, hx⟩
  · intro bucket pos
    apply addrAt_map hcomplete h _ (h.vvTried_eq hcons hcomplete bucket pos)
    intro id hslot
    obtain ⟨x, hx, -⟩ := (hcons.placed.tried _ _ _).mp hslot
    exact ⟨x, hx⟩
  · intro a
    have haddr : s.mapAddr.lookup a = (s0.mapAddr.lookup a).map (newId L) := by
      apply ext
      intro k
      rw [h.consistent.indexed.addr, map_eq_some_iff, h.exists_iff hcomplete]
      · simp only [hcons.indexed.addr]
      · intro x y htag
        rw [tag_addr htag]
    unfold find
    rw [haddr]
    cases hid : s0.mapAddr.lookup a with
    | none => rfl
    | some id =>
      obtain ⟨x, hx, -⟩ := (hcons.indexed.addr a id).mp hid
      obtain ⟨y, hy, htag⟩ := h.lookup_newId hcomplete hx
      have href : y.nRefCount = x.nRefCount := by
        rw [h.consistent.placed.ref_eq _ y hy, hcons.placed.ref_eq _ x hx, h.refs_eq hcons hcomplete hx, tag_addr htag]
      have hdisk : onDisk y = onDisk x := congrArg Prod.fst htag
      simp only [onDisk, AddrInfo.mk.injEq, true_and, and_true] at hdisk
      obtain ⟨-, hsource, hservices, htime, hsuccess, hattempts⟩ := hdisk
      have hfacts : y.facts = x.facts := by
        unfold AddrInfo.facts
        rw [href, tag_tried htag, hsource, hservices, htime, hsuccess, hattempts]
      simp only [map_some, bind_eq_bind, bind_some, hx, hy, Option.pure_def, hfacts]

end FullNode.AddrMan

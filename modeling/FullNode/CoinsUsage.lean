import FullNode.CoinsRuns

/-! # Memory accounting of the coins cache -/

open FullNode.AssocMap List

namespace FullNode.CCoinsViewCache

open CCoinsCacheEntry

variable {c : CCoinsViewCache} {o o' : COutPoint} {it e : CCoinsCacheEntry}

def recomputedUsage (c : CCoinsViewCache) : Nat :=
  sumBy CCoinsCacheEntry.dynamicMemoryUsage c.cacheCoins

def SpentEmpty (c : CCoinsViewCache) : Prop :=
  ∀ o it, c.find o = some it → it.coin.isSpent = true → it.dynamicMemoryUsage = 0

theorem SpentEmpty.insert (h : SpentEmpty c) (he : e.coin.isSpent = true → e.dynamicMemoryUsage = 0) :
    SpentEmpty (c.insert o e) := by
  intro o' it hit
  rw [find_insert] at hit
  split at hit
  · cases hit
    exact he
  · exact h o' it hit

theorem SpentEmpty.erase (h : SpentEmpty c) (o : COutPoint) : SpentEmpty (c.erase o) := by
  intro o' it hit
  rw [find_erase] at hit
  split at hit
  · cases hit
  · exact h o' it hit

structure Exact (c : CCoinsViewCache) : Prop where
  usage : c.cachedCoinsUsage = c.recomputedUsage
  underflow : c.underflow = false
  spent : SpentEmpty c

/-! ## Changing one entry -/

theorem recomputedUsage_of_find (h : c.find o = some it) :
    c.recomputedUsage = it.dynamicMemoryUsage + sumBy dynamicMemoryUsage (c.cacheCoins.erase o) :=
  sumBy_of_lookup _ h

theorem recomputedUsage_insert : (c.insert o e).recomputedUsage =
    e.dynamicMemoryUsage + sumBy dynamicMemoryUsage (c.cacheCoins.erase o) :=
  sumBy_insert _ _ _ _

theorem Exact.le (h : Exact c) (hfind : c.find o = some it) : ¬ c.cachedCoinsUsage < it.dynamicMemoryUsage := by
  have := recomputedUsage_of_find hfind
  rw [h.usage]
  omega

theorem Exact.insert_new (h : Exact c) (hnone : c.find o = none)
    (he : e.coin.isSpent = true → e.dynamicMemoryUsage = 0) : Exact ((c.insert o e).addUsage e.dynamicMemoryUsage) := by
  have husage := h.usage
  have hsum : (c.insert o e).recomputedUsage = e.dynamicMemoryUsage + c.recomputedUsage := by
    rw [recomputedUsage_insert, sumBy_erase_of_none _ hnone]
    rfl
  refine ⟨?_, h.underflow, h.spent.insert he⟩
  calc c.cachedCoinsUsage + (e.dynamicMemoryUsage : Int)
      = ((e.dynamicMemoryUsage + c.recomputedUsage : Nat) : Int) := by omega
    _ = ((c.insert o e).recomputedUsage : Int) := by rw [hsum]

variable (h : Exact c) (hfind : c.find o = some it) {coin : Coin}
include h hfind

theorem Exact.replace (he : e.coin.isSpent = true → e.dynamicMemoryUsage = 0) :
    Exact (((c.subUsage it.dynamicMemoryUsage).insert o e).addUsage e.dynamicMemoryUsage) := by
  have hold := recomputedUsage_of_find hfind
  have husage := h.usage
  have hsum : (c.insert o e).recomputedUsage = e.dynamicMemoryUsage + sumBy dynamicMemoryUsage (c.cacheCoins.erase o) :=
    recomputedUsage_insert
  have hspent : SpentEmpty (c.subUsage it.dynamicMemoryUsage) := h.spent
  refine ⟨?_, ?_, hspent.insert he⟩
  · calc c.cachedCoinsUsage - (it.dynamicMemoryUsage : Int) + e.dynamicMemoryUsage
        = ((e.dynamicMemoryUsage + sumBy dynamicMemoryUsage (c.cacheCoins.erase o) : Nat) : Int) := by
          omega
      _ = ((c.insert o e).recomputedUsage : Int) := by rw [hsum]
  · simp [addUsage, insert, subUsage, h.underflow, h.le hfind]

theorem Exact.remove : Exact ((c.subUsage it.dynamicMemoryUsage).erase o) := by
  have hold := recomputedUsage_of_find hfind
  have husage := h.usage
  have hspent : SpentEmpty (c.subUsage it.dynamicMemoryUsage) := h.spent
  refine ⟨?_, ?_, hspent.erase o⟩
  · calc c.cachedCoinsUsage - (it.dynamicMemoryUsage : Int)
        = (sumBy dynamicMemoryUsage (c.cacheCoins.erase o) : Int) := by omega
      _ = ((c.erase o).recomputedUsage : Int) := rfl
  · simp [erase, subUsage, h.underflow, h.le hfind]

theorem Exact.reflag (dirty fresh : Bool) : Exact (c.insert o { it with dirty, fresh }) := by
  have hold := recomputedUsage_of_find hfind
  have husage := h.usage
  refine ⟨?_, h.underflow, h.spent.insert (h.spent o it hfind)⟩
  calc c.cachedCoinsUsage = (c.recomputedUsage : Int) := husage
    _ = ((c.insert o { it with dirty, fresh }).recomputedUsage : Int) := by
      rw [recomputedUsage_insert, hold]
      rfl

omit h hfind

/-! ## One layer -/

theorem Exact.fetched (h : Exact c) (hnone : c.find o = none) {coin : Option Coin}
    (hun : ∀ x, coin = some x → x.isSpent = false) : Exact (c.fetched o coin).2 := by
  cases coin with
  | none => exact h
  | some coin =>
    refine h.insert_new hnone fun hs => ?_
    rw [hun coin rfl] at hs
    cases hs

theorem Exact.spendEntry (h : Exact c) (hfind : c.find o = some it) : Exact (c.spendEntry o it) := by
  unfold CCoinsViewCache.spendEntry
  simp only
  split
  · exact h.remove hfind
  · have hnew := h.replace (e := ⟨Coin.empty, 0, true, false⟩) hfind fun _ => rfl
    refine ⟨?_, hnew.underflow, hnew.spent⟩
    have husage := hnew.usage
    simpa [addUsage, dynamicMemoryUsage, mallocUsage] using husage

theorem Exact.uncache (h : Exact c) (o : COutPoint) : Exact (c.uncache o) := by
  unfold CCoinsViewCache.uncache
  split
  · next it hfind =>
    split
    · exact h.remove hfind
    · exact h
  · exact h

theorem Exact.nextAndMaybeErase (h : Exact c) (hfind : c.find o = some it) (erase : Bool) :
    Exact (c.nextAndMaybeErase erase o it) := by
  unfold CCoinsViewCache.nextAndMaybeErase
  split
  · exact h
  · split
    · exact h.remove hfind
    · exact h.reflag hfind false false

/-- What `AddCoin` replaces without lowering the counter in vain. -/
def Overwritable (coin : Coin) (overwrite : Bool) (it : CCoinsCacheEntry) : Prop :=
  coin.isSpent = false → isUnspendable coin.out.scriptPubKey = false → overwrite = false →
    it.coin.isSpent = false → it.dynamicMemoryUsage = 0

theorem Exact.addCoin (h : Exact c) (allocated : Nat) (overwrite : Bool)
    (hover : ∀ it, c.find o = some it → Overwritable coin overwrite it) :
    Exact (c.addCoin o coin allocated overwrite).2 := by
  unfold CCoinsViewCache.addCoin
  split
  · exact h
  · next hun =>
    have hnew : ∀ f, (⟨coin, allocated, true, f⟩ : CCoinsCacheEntry).coin.isSpent = true →
        (⟨coin, allocated, true, f⟩ : CCoinsCacheEntry).dynamicMemoryUsage = 0 := fun f hs => absurd hs hun
    split
    · exact h
    · next hscript =>
      split
      · next hfind => exact h.insert_new hfind (hnew _)
      · next it hfind =>
        simp only
        split
        · -- The counter was lowered by nothing.
          next hthrow =>
          simp only [Bool.and_eq_true, Bool.not_eq_true'] at hthrow
          have hzero := hover it hfind (by simpa using hun) (by simpa using hscript) hthrow.1 hthrow.2
          rw [hzero]
          refine ⟨?_, ?_, h.spent⟩
          · have hsum : (c.subUsage 0).recomputedUsage = c.recomputedUsage := rfl
            rw [hsum, ← h.usage]
            simp [subUsage]
          · have hnn := h.le hfind
            rw [hzero] at hnn
            simpa [subUsage, h.underflow] using hnn
        · exact h.replace hfind (hnew _)

theorem Exact.emplace (h : Exact c) {allocated : Nat}
    (hpresent : c.find o ≠ none → mallocUsage allocated = 0)
    (hspent : coin.isSpent = true → mallocUsage allocated = 0) :
    Exact (c.emplaceCoinInternalDANGER o coin allocated) := by
  unfold emplaceCoinInternalDANGER
  simp only [find_addUsage]
  split
  · next it hfind =>
    rw [hpresent (by simp [hfind])]
    refine ⟨?_, h.underflow, h.spent⟩
    simpa [addUsage] using h.usage
  · next hfind => exact h.insert_new (e := ⟨coin, allocated, true, false⟩) hfind hspent

/-! ## Writing to the layer below -/

theorem Exact.moveOut (h : Exact c) (hfind : c.find o = some it) (hzero : it.dynamicMemoryUsage = 0) :
    Exact (c.moveOut o it) := by
  have hold := recomputedUsage_of_find hfind
  have husage := h.usage
  refine ⟨?_, h.underflow, h.spent.insert fun _ => rfl⟩
  calc c.cachedCoinsUsage = (c.recomputedUsage : Int) := husage
    _ = ((c.moveOut o it).recomputedUsage : Int) := by
      unfold CCoinsViewCache.moveOut
      rw [recomputedUsage_insert, hold, hzero]
      rfl

/-- A round. An erasing cursor leaves the child's counter to `Flush`. -/
structure BatchExact (erase : Bool) (s : CCoinsViewCache × CCoinsViewCache) : Prop where
  us : Exact s.1
  spent : SpentEmpty s.2
  underflow : s.2.underflow = false
  child : erase = false → Exact s.2

variable {us child : CCoinsViewCache} {erase : Bool} {us' : CCoinsViewCache}

theorem BatchExact.passed
    (h : BatchExact erase (us, child)) (hus : Exact us') (hfind : child.find o = some it)
    (left : CCoinsCacheEntry)
    (hleft : left = if erase || it.coin.isSpent then { it with coin := it.coin.movedFrom, allocated := 0 }
      else it) : BatchExact erase (us', (if erase || it.coin.isSpent then child.moveOut o it
      else child).nextAndMaybeErase erase o left) := by
  have hmoved : SpentEmpty (child.moveOut o it) := h.spent.insert fun _ => rfl
  cases hw : erase with
  | true =>
    subst hw
    exact ⟨hus, hmoved, h.underflow, by simp⟩
  | false =>
    subst hw
    have hexact := h.child rfl
    simp only [Bool.false_or] at hleft ⊢
    have hchild : Exact ((if it.coin.isSpent = true then child.moveOut o it
        else child).nextAndMaybeErase false o left) := by
      cases hs : it.coin.isSpent with
      | true =>
        rw [hs, if_pos rfl] at hleft
        rw [if_pos rfl]
        refine (hexact.moveOut hfind (h.spent o it hfind hs)).nextAndMaybeErase ?_ false
        rw [hleft, moveOut, find_insert_self]
      | false =>
        rw [hs, if_neg (by simp)] at hleft
        rw [if_neg (by simp), hleft]
        exact hexact.nextAndMaybeErase hfind false
    exact ⟨hus, hchild.spent, hchild.underflow, fun _ => hchild⟩

theorem BatchExact.skipped
    (h : BatchExact erase (us, child)) (hus : Exact us') (hfind : child.find o = some it) :
    BatchExact erase (us', child.nextAndMaybeErase erase o it) := by
  cases hw : erase with
  | true =>
    subst hw
    exact ⟨hus, h.spent, h.underflow, by simp⟩
  | false =>
    subst hw
    have hchild := (h.child rfl).nextAndMaybeErase hfind false
    exact ⟨hus, hchild.spent, hchild.underflow, fun _ => hchild⟩

theorem BatchExact.batchWriteEntry {s : CCoinsViewCache × CCoinsViewCache}
    (h : BatchExact erase s) (hfind : s.2.find o = some it) :
    BatchExact erase (CCoinsViewCache.batchWriteEntry erase s o it).2 := by
  obtain ⟨us, _⟩ := s
  have hspent := h.spent o it hfind
  -- A spent coin is moved, with the nothing it has allocated.
  have hnew : ∀ n d f, (⟨it.coin, if erase || it.coin.isSpent then it.allocated else n, d, f⟩ :
      CCoinsCacheEntry).coin.isSpent = true → (⟨it.coin, if erase || it.coin.isSpent then it.allocated else n, d, f⟩ :
        CCoinsCacheEntry).dynamicMemoryUsage = 0 := by
    intro n d f hs
    have hs' : it.coin.isSpent = true := hs
    rw [dynamicMemoryUsage]
    simp only [hs', Bool.or_true, if_true]
    exact hspent hs'
  unfold CCoinsViewCache.batchWriteEntry
  simp only
  split
  · exact h.skipped h.us hfind
  · split
    · next hnone =>
      split
      · exact h.skipped h.us hfind
      · exact h.passed (h.us.insert_new hnone (hnew _ _ _)) hfind _ rfl
    · next itUs hsome =>
      split
      · exact h
      · split
        · exact h.skipped (h.us.remove hsome) hfind
        · exact h.passed (h.us.replace hsome (hnew _ _ _)) hfind _ rfl

/-- However it ends, the receiver and a child not erased are exact. -/
theorem batchWrite_exact (erase : Bool) (hus : Exact us)
    (hchild : Exact child) : BatchExact erase (us.batchWrite child erase).2 := by
  have hloop : BatchExact erase
      (AssocMap.forEach (CCoinsViewCache.batchWriteEntry erase) child.flaggedEntries (us, child)).2 := by
    refine AssocMap.forEach_inv (fun o (s : CCoinsViewCache × CCoinsViewCache) => s.2.find o)
      (fun s o it o' hne => ?_) (fun s o it hs hfind => ?_) child.flaggedEntries
      (AssocMap.nodupKeys_filter _ _) ⟨hus, hchild.spent, hchild.underflow, fun _ => hchild⟩ (fun o it hit => ?_)
    · exact (CoinsView.batchWriteEntry_other erase s it hne).2
    · exact hs.batchWriteEntry hfind
    · rw [CoinsView.dlookup_flaggedEntries, Option.filter_eq_some_iff] at hit
      exact hit.1
  unfold CCoinsViewCache.batchWrite
  split
  · next hr =>
    rw [hr] at hloop
    exact hloop
  · next hr =>
    rw [hr] at hloop
    exact ⟨⟨hloop.us.usage, hloop.us.underflow, hloop.us.spent⟩, hloop.spent, hloop.underflow, hloop.child⟩

def NoClash (us child : CCoinsViewCache) : Prop :=
  ∀ o it itUs, child.find o = some it → us.find o = some itUs → it.dirty = true → it.fresh = true →
    itUs.coin.isSpent = true

theorem batchWrite_ok (erase : Bool) (h : NoClash us child) : (us.batchWrite child erase).1 = .ok true := by
  have hlocal : AssocMap.Local (CCoinsViewCache.batchWriteEntry erase)
      (fun o (s : CCoinsViewCache × CCoinsViewCache) => s.1.find o)
      (fun _ us it => ∀ itUs, us = some itUs → it.dirty = true → it.fresh = true → itUs.coin.isSpent = true)
      (fun _ _ _ _ => True) :=
    { same := fun _ _ _ _ _ => trivial
      other := fun s o it o' hne => (CoinsView.batchWriteEntry_other erase s it hne).1 }
  have hgood : ∀ o it, child.flaggedEntries.dlookup o = some it → ∀ itUs, us.find o = some itUs →
      it.dirty = true → it.fresh = true → itUs.coin.isSpent = true := by
    intro o it hit itUs hus
    rw [CoinsView.dlookup_flaggedEntries, Option.filter_eq_some_iff] at hit
    exact h o it itUs hit.1 hus
  have hok := hlocal.succeeds
      (s := (us, child)) (fun s o it hgood => (CoinsView.batchWriteEntry_ok_iff erase).mpr hgood)
    (AssocMap.nodupKeys_filter _ _) hgood
  unfold CCoinsViewCache.batchWrite
  split
  · next hr =>
    unfold flaggedEntries at hr
    rw [hr] at hok
    cases hok
  · rfl

end FullNode.CCoinsViewCache

namespace FullNode.CoinsView

open CCoinsViewCache

variable {v : CoinsView} {base : CoinsBase} {o : COutPoint}

/-! ## A stack -/

structure AllExact (v : CoinsView) : Prop where
  base : BaseUnspent v.base
  caches : ∀ c ∈ v.caches, Exact c

theorem getCoinFrom_exact {cs : List CCoinsViewCache} (hbase : BaseUnspent base)
    (h : ∀ c ∈ cs, Exact c) : (∀ c ∈ (getCoinFrom base o cs).2, Exact c) ∧
      ∀ coin, (getCoinFrom base o cs).1 = some coin → coin.isSpent = false := by
  induction cs with
  | nil => exact ⟨by simp [getCoinFrom], fun coin hcoin => hbase o coin hcoin⟩
  | cons c cs ih =>
    obtain ⟨hcs, hun⟩ := ih fun d hd => h d (mem_cons_of_mem _ hd)
    have hc := h c mem_cons_self
    unfold getCoinFrom
    split
    · next it hfind =>
      refine ⟨h, fun coin hcoin => ?_⟩
      simp only [Coin.unspent] at hcoin
      split at hcoin
      · cases hcoin
      · next hs =>
        cases hcoin
        simpa using hs
    · next hnone =>
      refine ⟨?_, fun coin hcoin => ?_⟩
      · intro d hd
        simp only [mem_cons] at hd
        rcases hd with rfl | hd
        · exact hc.fetched hnone hun
        · exact hcs d hd
      · simp only [Option.bind_eq_some_iff, Coin.unspent] at hcoin
        obtain ⟨it, -, hit⟩ := hcoin
        split at hit
        · cases hit
        · next hs =>
          cases hit
          simpa using hs

theorem getCoin_exact (h : AllExact v) : AllExact (v.getCoin o).2 :=
  ⟨h.base, (getCoinFrom_exact h.base h.caches).1⟩

theorem fetchCoin_exact (h : AllExact v) : AllExact (v.fetchCoin o).2 ∧
    ∀ it, (v.fetchCoin o).1 = some it → ∀ c ∈ (v.fetchCoin o).2.caches.head?, c.find o = some it := by
  obtain ⟨caches, base⟩ := v
  cases caches with
  | nil => exact ⟨h, by simp [fetchCoin]⟩
  | cons c cs =>
    have hc := h.caches c mem_cons_self
    unfold fetchCoin
    simp only
    split
    · next it hfind =>
      refine ⟨h, fun it' hit' d hd => ?_⟩
      simp only [head?_cons, Option.mem_def, Option.some.injEq] at hd hit'
      rw [← hd, ← hit', hfind]
    · next hnone =>
      obtain ⟨hcs, hun⟩ := getCoinFrom_exact (o := o) h.base fun d hd => h.caches d (mem_cons_of_mem _ hd)
      refine ⟨⟨h.base, fun d hd => ?_⟩, fun it' hit' d hd => ?_⟩
      · simp only [mem_cons] at hd
        rcases hd with rfl | hd
        · exact hc.fetched hnone hun
        · exact hcs d hd
      · simp only [head?_cons, Option.mem_def, Option.some.injEq] at hd
        rw [← hd]
        cases hcoin : (getCoinFrom base o cs).1 with
        | none => simp [hcoin, fetched] at hit'
        | some coin =>
          simp only [hcoin, fetched, Option.some.injEq] at hit' ⊢
          rw [find_addUsage, find_insert_self, hit']

theorem onTop_exact {α : Type} {a : α} {f : CCoinsViewCache → α × CCoinsViewCache} (h : AllExact v)
    (hf : ∀ c ∈ v.caches.head?, Exact (f c).2) : AllExact (v.onTop a f).2 := by
  obtain ⟨caches, base⟩ := v
  cases caches with
  | nil => exact h
  | cons c cs =>
    refine ⟨h.base, fun d hd => ?_⟩
    simp only [onTop, mem_cons] at hd
    rcases hd with rfl | hd
    · exact hf c rfl
    · exact h.caches d (mem_cons_of_mem _ hd)

theorem head_exact (h : AllExact v) : ∀ c ∈ v.caches.head?, Exact c :=
  fun c hc => h.caches c (mem_of_head? hc)

/-- Steps that do not change the counter for an entry that stays. -/
def Accounted (v : CoinsView) : Op → Prop
  | .addCoin o coin _ overwrite =>
    ∀ c ∈ v.caches.head?, ∀ it, c.find o = some it → Overwritable coin overwrite it
  | .emplaceCoinInternalDANGER o coin allocated =>
    ∀ c ∈ v.caches.head?, (c.find o ≠ none ∨ coin.isSpent = true) → mallocUsage allocated = 0
  | .flush reply =>
    match v.caches with
    | [] => True
    | [c] => reply = .refused ∨ reply = .failed false → c.recomputedUsage = 0
    | c :: d :: _ => NoClash d c
  | _ => True

structure BaseExact (erase : Bool) (c : CCoinsViewCache) (s : CoinsBase × CCoinsViewCache) : Prop where
  base : BaseUnspent s.1
  child : Exact s.2
  same : erase = true → s.2 = c

variable {s : CoinsBase × CCoinsViewCache} {it : CCoinsCacheEntry} {erase : Bool} {c : CCoinsViewCache}

theorem baseWriteEntry_unspent (h : BaseUnspent s.1) : BaseUnspent (CoinsBase.batchWriteEntry erase s o it).2.1 := by
  intro o' coin hcoin
  rw [baseWriteEntry_lookup] at hcoin
  split at hcoin
  · simp only [Coin.unspent] at hcoin
    split at hcoin
    · cases hcoin
    · next hs =>
      cases hcoin
      simpa using hs
  · exact h o' coin hcoin

theorem baseWriteEntry_exact (h : BaseExact erase c s) (hfind : s.2.find o = some it) :
    BaseExact erase c (CoinsBase.batchWriteEntry erase s o it).2 := by
  refine ⟨baseWriteEntry_unspent h.base, h.child.nextAndMaybeErase hfind erase, ?_⟩
  intro hw
  subst hw
  exact h.same rfl

theorem baseBatchWrite_exact (erase : Bool) (reply : BaseReply) (hbase : BaseUnspent base) (hc : Exact c) :
    BaseExact erase c (base.batchWrite c erase reply).2 := by
  have hstart : BaseExact erase c (base, c) := ⟨hbase, hc, fun _ => rfl⟩
  have hloop : BaseExact erase c
      (AssocMap.forEach (CoinsBase.batchWriteEntry erase) c.flaggedEntries (base, c)).2 := by
    refine AssocMap.forEach_inv (fun o (s : CoinsBase × CCoinsViewCache) => s.2.find o)
      (fun s o it o' hne => ?_) (fun s o it hs hfind => baseWriteEntry_exact hs hfind) c.flaggedEntries
      (AssocMap.nodupKeys_filter _ _) hstart (fun o it hit => ?_)
    · exact nextAndMaybeErase_find_ne erase hne
    · rw [dlookup_flaggedEntries, Option.filter_eq_some_iff] at hit
      exact hit.1
  unfold CoinsBase.batchWrite
  split
  · exact ⟨hloop.base, hloop.child, hloop.same⟩
  · exact hstart
  · exact ⟨hbase, hloop.child, hloop.same⟩
  · exact ⟨hbase, hloop.child, hloop.same⟩

theorem sync_exact (h : AllExact v) (reply : BaseReply) : AllExact (v.sync reply).2 := by
  obtain ⟨caches, base⟩ := v
  -- Whatever the result, the view is the written one with the top cache put back.
  have hsync : ∀ c cs, (sync ⟨c :: cs, base⟩ reply).2 = { (writeTop ⟨c :: cs, base⟩ c cs false reply).2.2 with
        caches := (writeTop ⟨c :: cs, base⟩ c cs false reply).2.1 ::
          (writeTop ⟨c :: cs, base⟩ c cs false reply).2.2.caches } := by
    intro c cs
    unfold sync
    simp only
    split
    · next hr => rw [hr]
    · next hr => rw [hr]
  rcases caches with _ | ⟨c, _ | ⟨d, _⟩⟩
  · exact h
  · have hwrite := baseBatchWrite_exact false reply h.base (h.caches c mem_cons_self)
    rw [hsync]
    refine ⟨hwrite.base, fun e he => ?_⟩
    simp only [writeTop, mem_singleton] at he
    rw [he]
    exact hwrite.child
  · have hwrite := batchWrite_exact false (h.caches d (by simp)) (h.caches c mem_cons_self)
    rw [hsync]
    refine ⟨h.base, fun e he => ?_⟩
    simp only [writeTop, mem_cons] at he
    rcases he with rfl | rfl | he
    · exact hwrite.child rfl
    · exact hwrite.us
    · exact h.caches e (by simp [he])

theorem exact_of_cleared (h : c.underflow = false) : Exact { c with cacheCoins := ∅, cachedCoinsUsage := 0 } := by
  refine ⟨rfl, h, fun o it hit => ?_⟩
  simp [find] at hit

theorem flush_exact {reply : BaseReply} (h : AllExact v) (hacc : Accounted v (.flush reply)) :
    AllExact (v.flush reply).2 := by
  obtain ⟨caches, base⟩ := v
  rcases caches with _ | ⟨c, _ | ⟨d, ds⟩⟩
  · exact h
  · have hc := h.caches c mem_cons_self
    have hwrite := baseBatchWrite_exact true reply h.base hc
    have hsame := hwrite.same rfl
    unfold flush writeTop
    cases reply with
    | written =>
      refine ⟨hwrite.base, fun e he => ?_⟩
      simp only [CoinsBase.batchWrite, if_true, mem_singleton] at he
      rw [he]
      exact exact_of_cleared hwrite.child.underflow
    | refused =>
      refine ⟨h.base, fun e he => ?_⟩
      simp only [CoinsBase.batchWrite, mem_singleton] at he
      rw [he]
      have hzero : c.recomputedUsage = 0 := hacc (Or.inl rfl)
      exact ⟨by rw [← Int.natCast_zero, ← hzero]; rfl, hc.underflow, hc.spent⟩
    | failed throws =>
      cases throws with
      | false =>
        refine ⟨h.base, fun e he => ?_⟩
        simp only [CoinsBase.batchWrite] at hsame he
        simp only [hsame, mem_singleton] at he
        rw [he]
        have hzero : c.recomputedUsage = 0 := hacc (Or.inr rfl)
        exact ⟨by rw [← Int.natCast_zero, ← hzero]; rfl, hc.underflow, hc.spent⟩
      | true =>
        refine ⟨h.base, fun e he => ?_⟩
        simp only [CoinsBase.batchWrite] at hsame he
        simp only [hsame, mem_singleton] at he
        rw [he]
        exact hc
  · have hd := h.caches d (by simp)
    have hwrite := batchWrite_exact true hd (h.caches c mem_cons_self)
    have hok := batchWrite_ok true hacc
    rcases hr : d.batchWrite c true with ⟨_, d', c'⟩
    rw [hr] at hok hwrite
    simp only at hok
    subst hok
    have hflush : (flush ⟨c :: d :: ds, base⟩ reply).2 =
        ⟨{ c' with cacheCoins := ∅, cachedCoinsUsage := 0 } :: d' :: ds, base⟩ := by
      simp [flush, writeTop, hr]
    rw [hflush]
    refine ⟨h.base, fun e he => ?_⟩
    simp only [mem_cons] at he
    rcases he with rfl | rfl | he
    · exact exact_of_cleared hwrite.underflow
    · exact hwrite.us
    · exact h.caches e (by simp [he])

theorem spendCoin_exact (h : AllExact v) : AllExact (v.spendCoin o).2 := by
  obtain ⟨hexact, hfind⟩ := @fetchCoin_exact v o h
  unfold spendCoin
  rcases hr : v.fetchCoin o with ⟨_ | it, _⟩
  · rw [hr] at hexact
    exact hexact
  · rw [hr] at hexact hfind
    exact onTop_exact hexact fun c hc => (head_exact hexact c hc).spendEntry (hfind it rfl c hc)

/-! ## Runs -/

theorem apply_exact {op : Op} (h : AllExact v) (hacc : Accounted v op) : AllExact (apply v op).2 := by
  cases op with
  | getCoin o => exact getCoin_exact h
  | haveCoin o | accessCoin o => exact (fetchCoin_exact h).1
  | addCoin o coin n overwrite =>
    exact onTop_exact h fun c hc => (head_exact h c hc).addCoin n overwrite (hacc c hc)
  | emplaceCoinInternalDANGER o coin n =>
    exact onTop_exact (f := fun c => ((), c.emplaceCoinInternalDANGER o coin n)) h fun c hc =>
      (head_exact h c hc).emplace (fun hp => hacc c hc (Or.inl hp)) fun hs => hacc c hc (Or.inr hs)
  | spendCoin o => exact spendCoin_exact h
  | uncache o =>
    exact onTop_exact (f := fun c => ((), c.uncache o)) h fun c hc => (head_exact h c hc).uncache o
  | sync reply => exact sync_exact h reply
  | flush reply => exact flush_exact h hacc

theorem step_exact {layer : Nat} {op : Op} (h : AllExact v) (hacc : Accounted (v.below layer) op) :
    AllExact (v.step layer op).2 := by
  have hbelow : AllExact (v.below layer) := ⟨h.base, fun c hc => h.caches c (mem_of_mem_drop hc)⟩
  have hnew := apply_exact hbelow hacc
  rw [step_eq]
  refine ⟨hnew.base, fun c hc => ?_⟩
  rcases mem_append.mp hc with hc | hc
  · exact h.caches c (mem_of_mem_take hc)
  · exact hnew.caches c hc

/-- Operations on layers, one by one. An exception ends its own. -/
def runOn (v : CoinsView) : List (Nat × Op) → CoinsView
  | [] => v
  | (layer, op) :: ops => runOn (v.step layer op).2 ops

def AccountedRun (v : CoinsView) : List (Nat × Op) → Prop
  | [] => True
  | (layer, op) :: ops => Accounted (v.below layer) op ∧ AccountedRun (v.step layer op).2 ops

theorem runOn_exact {ops : List (Nat × Op)} (h : AllExact v) (hops : AccountedRun v ops) : AllExact (v.runOn ops) := by
  induction ops generalizing v with
  | nil => exact h
  | cons p ops ih =>
    obtain ⟨_, _⟩ := p
    exact ih (step_exact h hops.1) hops.2

theorem start_exact (n : Nat) (h : BaseUnspent base) : AllExact (start n base) := by
  refine ⟨h, fun c hc => ?_⟩
  rw [eq_of_mem_replicate hc]
  exact ⟨rfl, rfl, fun o it hit => by simp at hit⟩

/-- In a run of accounted steps every counter is the exact sum. -/
theorem cachedCoinsUsage_exact (n : Nat) {base : CoinsBase} (hbase : BaseUnspent base)
    {ops : List (Nat × Op)} (hops : AccountedRun (start n base) ops) : ∀ c ∈ ((start n base).runOn ops).caches,
      c.cachedCoinsUsage = c.recomputedUsage ∧ c.underflow = false := by
  intro c hc
  have hexact := (runOn_exact (start_exact n hbase) hops).caches c hc
  exact ⟨hexact.usage, hexact.underflow⟩

/-- A coin with a long script, added and synced. -/
theorem cachedCoinsUsage_exact_added : ∃ c, ((start 1 emptyBase).runOn
    [(0, .addCoin someOutpoint someCoin 100 false), (0, .sync .written)]).caches = [c] ∧
    c.cachedCoinsUsage = c.recomputedUsage ∧ c.underflow = false := by
  have hexact : ∀ c ∈ ((start 1 emptyBase).runOn
      [(0, .addCoin someOutpoint someCoin 100 false), (0, .sync .written)]).caches,
      c.cachedCoinsUsage = c.recomputedUsage ∧ c.underflow = false := by
    refine cachedCoinsUsage_exact 1 (fun o coin h => by simp [emptyBase] at h) ⟨?_, trivial, trivial⟩
    intro c hc it hit
    simp only [start, below, drop_zero, replicate_one, head?_cons, Option.mem_def, Option.some.injEq] at hc
    rw [← hc] at hit
    simp at hit
  exact ⟨_, rfl, hexact _ mem_cons_self⟩

/-- Adding a coin that is there, or a refused flush, breaks it. -/
theorem cachedCoinsUsage_wrong : (∃ c ∈ ((start 1 emptyBase).runOn
      [(0, .addCoin someOutpoint someCoin 100 false), (0, .addCoin someOutpoint someCoin 100 false),
        (0, .spendCoin someOutpoint)]).caches, c.cachedCoinsUsage = -128 ∧ c.underflow = true) ∧
          (∃ c ∈ ((start 1 emptyBase).runOn
      [(0, .emplaceCoinInternalDANGER someOutpoint someCoin 100),
        (0, .emplaceCoinInternalDANGER someOutpoint someCoin 100)]).caches,
      c.cachedCoinsUsage = 256 ∧ c.recomputedUsage = 128) ∧ ∃ c ∈ ((start 1 emptyBase).runOn
      [(0, .addCoin someOutpoint someCoin 100 false), (0, .flush .refused)]).caches,
      c.cachedCoinsUsage = 0 ∧ c.recomputedUsage = 128 := by
  refine ⟨⟨_, mem_cons_self, by decide⟩, ⟨_, mem_cons_self, by decide⟩, ⟨_, mem_cons_self, by decide⟩⟩

end FullNode.CoinsView

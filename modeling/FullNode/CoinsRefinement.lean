import FullNode.Coins

/-!
# The layered cache is a map

`seen` is the coin that a stack of caches shows at an outpoint. Coherent stacks behave as one map.
-/

open FullNode.CCoinsViewCache

namespace FullNode.CoinsView

variable {base base' : CoinsBase} {cs cs' pre : List CCoinsViewCache} {c : CCoinsViewCache}
  {o o' : COutPoint} {it : CCoinsCacheEntry} {coin : Coin} {ok : CCoinsCacheEntry → Option Coin → Prop}

/-! ## What a stack shows -/

def seen (base : CoinsBase) (o : COutPoint) : List CCoinsViewCache → Option Coin
  | [] => (base.coins.lookup o).bind Coin.unspent
  | c :: cs =>
    match c.find o with
    | some it => it.coin.unspent
    | none => seen base o cs

theorem seen_of_find (h : c.find o = some it) : seen base o (c :: cs) = it.coin.unspent := by
  simp [seen, h]

theorem seen_of_none (h : c.find o = none) : seen base o (c :: cs) = seen base o cs := by
  simp [seen, h]

theorem unspent_eq_some (h : coin.isSpent = false) : coin.unspent = some coin := by
  simp [Coin.unspent, h]

theorem unspent_eq_none (h : coin.isSpent = true) : coin.unspent = none := by
  simp [Coin.unspent, h]

theorem seen_unspent (h : seen base o cs = some coin) : coin.isSpent = false := by
  induction cs with
  | nil =>
    simp only [seen, Option.bind_eq_some_iff, Coin.unspent] at h
    obtain ⟨_, -, ha⟩ := h
    split at ha
    · cases ha
    · next hs =>
      cases ha
      simpa using hs
  | cons c cs ih =>
    simp only [seen, Coin.unspent] at h
    split at h
    · split at h
      · cases h
      · next hs =>
        cases h
        simpa using hs
    · exact ih h

/-- An entry over layers that show `below`. -/
structure EntryOk (it : CCoinsCacheEntry) (below : Option Coin) : Prop where
  fresh : it.fresh = true → below = none
  clean : it.dirty = false → it.coin.isSpent = false ∧ below = some it.coin
  unspent : it.fresh = true → it.coin.isSpent = false

/-- Every entry is `ok` over what the layers below it show. -/
def CoherentBy (ok : CCoinsCacheEntry → Option Coin → Prop) (base : CoinsBase) : List CCoinsViewCache → Prop
  | [] => True
  | c :: cs => CoherentBy ok base cs ∧ ∀ o it, c.find o = some it → ok it (seen base o cs)

abbrev Coherent := CoherentBy EntryOk

/-- A condition that holds for the entry that a read stores. -/
class Fetches (ok : CCoinsCacheEntry → Option Coin → Prop) : Prop where
  fetched : ∀ coin n, coin.isSpent = false → ok ⟨coin, n, false, coin.isSpent⟩ (some coin)

def BaseUnspent (base : CoinsBase) : Prop :=
  ∀ o coin, base.coins.lookup o = some coin → coin.isSpent = false

theorem EntryOk.dirty_of_fresh {below : Option Coin} (h : EntryOk it below) (hf : it.fresh = true) :
    it.dirty = true := by
  by_contra hd
  have hclean := h.clean (by simpa using hd)
  rw [h.fresh hf] at hclean
  cases hclean.2

/-! ## Changing one entry, or the layers below -/

@[simp] theorem seen_addUsage (n : Nat) : seen base o (c.addUsage n :: cs) = seen base o (c :: cs) := rfl
@[simp] theorem seen_subUsage (n : Nat) : seen base o (c.subUsage n :: cs) = seen base o (c :: cs) := rfl
@[simp] theorem coherent_addUsage (n : Nat) : CoherentBy ok base (c.addUsage n :: cs) ↔
    CoherentBy ok base (c :: cs) := Iff.rfl
@[simp] theorem coherent_subUsage (n : Nat) : CoherentBy ok base (c.subUsage n :: cs) ↔
    CoherentBy ok base (c :: cs) := Iff.rfl

theorem seen_insert : seen base o' (c.insert o it :: cs) =
    if o' = o then it.coin.unspent else seen base o' (c :: cs) := by
  by_cases h : o' = o
  · rw [if_pos h, seen_of_find (by rw [find_insert, if_pos h])]
  · rw [if_neg h]
    simp only [seen, find_insert, if_neg h]

theorem seen_erase : seen base o' (c.erase o :: cs) = if o' = o then seen base o' cs else seen base o' (c :: cs) := by
  by_cases h : o' = o
  · rw [if_pos h, seen_of_none (by rw [find_erase, if_pos h])]
  · rw [if_neg h]
    simp only [seen, find_erase, if_neg h]

section

variable (h : CoherentBy ok base (c :: cs))
include h

theorem CoherentBy.insert (hok : ok it (seen base o cs)) :
    CoherentBy ok base (c.insert o it :: cs) := by
  refine ⟨h.1, fun o' it' hit => ?_⟩
  rw [find_insert] at hit
  split at hit
  · next ho =>
    cases hit
    rw [ho]
    exact hok
  · exact h.2 o' it' hit

theorem CoherentBy.erase (o : COutPoint) : CoherentBy ok base (c.erase o :: cs) := by
  refine ⟨h.1, fun o' it' hit => ?_⟩
  rw [find_erase] at hit
  split at hit
  · cases hit
  · exact h.2 o' it' hit

theorem CoherentBy.below (h' : CoherentBy ok base' cs')
    (hseen : ∀ o, c.find o ≠ none → seen base' o cs' = seen base o cs) : CoherentBy ok base' (c :: cs') := by
  refine ⟨h', fun o it hit => ?_⟩
  rw [hseen o (by rw [hit]; simp)]
  exact h.2 o it hit

end

theorem seen_below (hseen : seen base' o cs' = seen base o cs) : seen base' o (c :: cs') = seen base o (c :: cs) := by
  simp only [seen, hseen]

instance : Fetches EntryOk where
  fetched _ _ hun := ⟨by simp [hun], fun _ => ⟨hun, rfl⟩, by simp [hun]⟩

/-! ## Reading -/

theorem fetched_spec [Fetches ok] (h : CoherentBy ok base (c :: cs)) (hfind : c.find o = none) :
    CoherentBy ok base ((c.fetched o (seen base o cs)).2 :: cs) ∧
      (∀ o', seen base o' ((c.fetched o (seen base o cs)).2 :: cs) = seen base o' (c :: cs)) ∧
      (c.fetched o (seen base o cs)).1 = (c.fetched o (seen base o cs)).2.find o ∧
      (c.fetched o (seen base o cs)).1.bind (·.coin.unspent) = seen base o cs := by
  cases hbelow : seen base o cs with
  | none => exact ⟨h, fun _ => rfl, hfind.symm, rfl⟩
  | some coin =>
    have hun := seen_unspent hbelow
    refine ⟨?_, fun o' => ?_, by simp [fetched], by simp [fetched, unspent_eq_some hun]⟩
    · refine (coherent_addUsage _).mpr (h.insert ?_)
      rw [hbelow]
      exact Fetches.fetched coin _ hun
    · simp only [fetched, seen_addUsage, seen_insert]
      split
      · next ho =>
        rw [ho, seen_of_none hfind, hbelow, unspent_eq_some hun]
      · rfl

theorem getCoinFrom_spec [Fetches ok] (hbase : BaseUnspent base) (h : CoherentBy ok base cs) (o : COutPoint) :
    (getCoinFrom base o cs).1 = seen base o cs ∧ CoherentBy ok base (getCoinFrom base o cs).2 ∧
      ∀ o', seen base o' (getCoinFrom base o cs).2 = seen base o' cs := by
  induction cs with
  | nil =>
    refine ⟨?_, trivial, fun _ => rfl⟩
    unfold getCoinFrom seen
    cases hl : base.coins.lookup o with
    | none => rfl
    | some coin => simp [Coin.unspent, hbase o coin hl]
  | cons c cs ih =>
    obtain ⟨hres, hcoh, hseen⟩ := ih h.1
    unfold getCoinFrom
    cases hfind : c.find o with
    | some it => exact ⟨(seen_of_find hfind).symm, h, fun _ => rfl⟩
    | none =>
      have hmid := h.below hcoh fun o' _ => hseen o'
      obtain ⟨hcoh', hseen', -, hbind⟩ := fetched_spec hmid hfind
      rw [hseen] at hcoh' hseen' hbind
      simp only [hres]
      refine ⟨?_, hcoh', fun o' => ?_⟩
      · rw [hbind, seen_of_none hfind]
      · rw [hseen', seen_below (hseen o')]

/-! ## The whole view -/

structure ValidBy (ok : CCoinsCacheEntry → Option Coin → Prop) (v : CoinsView) : Prop where
  base : BaseUnspent v.base
  coherent : CoherentBy ok v.base v.caches

abbrev Valid := ValidBy EntryOk

def peek (v : CoinsView) (o : COutPoint) : Option Coin := seen v.base o v.caches

variable {v : CoinsView}

theorem getCoin_spec [Fetches ok] (h : ValidBy ok v) (o : COutPoint) :
    (v.getCoin o).1 = v.peek o ∧ ValidBy ok (v.getCoin o).2 ∧ ∀ o', (v.getCoin o).2.peek o' = v.peek o' := by
  obtain ⟨hres, hcoh, hseen⟩ := getCoinFrom_spec h.base h.coherent o
  exact ⟨hres, ⟨h.base, hcoh⟩, hseen⟩

theorem fetchCoin_spec [Fetches ok] (h : ValidBy ok v) (o : COutPoint) (hne : v.caches ≠ []) :
    ∃ c cs, (v.fetchCoin o).2 = ⟨c :: cs, v.base⟩ ∧ (v.fetchCoin o).1 = c.find o ∧
      (v.fetchCoin o).1.bind (·.coin.unspent) = v.peek o ∧
      ValidBy ok (v.fetchCoin o).2 ∧ ∀ o', (v.fetchCoin o).2.peek o' = v.peek o' := by
  obtain ⟨caches, base⟩ := v
  cases caches with
  | nil => exact absurd rfl hne
  | cons c cs =>
    obtain ⟨hbase, hcoh⟩ := h
    unfold fetchCoin
    cases hfind : c.find o with
    | some it =>
      simp only [hfind]
      exact ⟨c, cs, rfl, hfind.symm, (seen_of_find hfind).symm, ⟨hbase, hcoh⟩, fun _ => trivial⟩
    | none =>
      simp only [hfind]
      obtain ⟨hres, hcs, hseen⟩ := getCoinFrom_spec hbase hcoh.1 o
      have hmid := hcoh.below hcs fun o' _ => hseen o'
      obtain ⟨hcoh', hseen', hentry, hbind⟩ := fetched_spec hmid hfind
      rw [hseen] at hcoh' hseen' hbind hentry
      simp only [hres]
      refine ⟨_, _, rfl, hentry, ?_, ⟨hbase, hcoh'⟩, fun o' => ?_⟩
      · rw [hbind, peek, seen_of_none hfind]
      · simp only [peek]
        rw [hseen', seen_below (hseen o')]

theorem haveCoin_spec [Fetches ok] (h : ValidBy ok v) (o : COutPoint) (hne : v.caches ≠ []) :
    (v.haveCoin o).1 = (v.peek o).isSome ∧ ValidBy ok (v.haveCoin o).2 ∧ (v.haveCoin o).2.caches ≠ [] ∧
      ∀ o', (v.haveCoin o).2.peek o' = v.peek o' := by
  obtain ⟨_, _, hv, -, hres, hvalid, hpeek⟩ := fetchCoin_spec h o hne
  refine ⟨?_, hvalid, ?_, hpeek⟩
  · unfold haveCoin
    rw [← hres]
    rcases v.fetchCoin o with ⟨_ | it, _⟩
    · rfl
    · cases hs : it.coin.isSpent <;> simp [Coin.unspent, hs]
  · simp only [haveCoin, hv]
    simp

theorem accessCoin_spec [Fetches ok] (h : ValidBy ok v) (o : COutPoint) (hne : v.caches ≠ []) :
    (v.accessCoin o).1.unspent = v.peek o ∧ ValidBy ok (v.accessCoin o).2 ∧ (v.accessCoin o).2.caches ≠ [] ∧
      ∀ o', (v.accessCoin o).2.peek o' = v.peek o' := by
  obtain ⟨_, _, hv, -, hres, hvalid, hpeek⟩ := fetchCoin_spec h o hne
  refine ⟨?_, hvalid, ?_, hpeek⟩
  · unfold accessCoin
    rw [← hres]
    rcases v.fetchCoin o with ⟨_ | _, _⟩ <;> rfl
  · simp only [accessCoin, hv]
    simp

/-! ## Writing -/

theorem entryOk_added {below : Option Coin} (allocated : Nat) (overwrite : Bool)
    (hun : coin.isSpent = false)
    (hold : ∀ it, c.find o = some it → EntryOk it below)
    (hshow : overwrite = false → (c.find o = none → below = none)) :
    (∀ it, c.find o = some it → (overwrite = false → it.coin.isSpent = true) →
      EntryOk ⟨coin, allocated, true, it.fresh || (!overwrite && !it.dirty)⟩ below) ∧
    (c.find o = none → EntryOk ⟨coin, allocated, true, !overwrite⟩ below) := by
  constructor
  · intro it hit hspent
    refine ⟨fun hf => ?_, by simp, fun _ => hun⟩
    simp only [Bool.or_eq_true, Bool.and_eq_true, Bool.not_eq_true'] at hf
    rcases hf with hf | ⟨how, hclean⟩
    · exact (hold it hit).fresh hf
    · -- A clean entry is never spent, so this one is not here.
      have hclean := ((hold it hit).clean hclean).1
      rw [hspent how] at hclean
      cases hclean
  · intro hnone
    refine ⟨fun hf => ?_, by simp, fun _ => hun⟩
    exact hshow (by simpa using hf) hnone

theorem put_spec (h : Valid ⟨c :: cs, base⟩) {e : CCoinsCacheEntry} (hun : e.coin.isSpent = false)
    (hok : EntryOk e (seen base o cs)) (n : Nat) : Valid ⟨(c.insert o e).addUsage n :: cs, base⟩ ∧
      ∀ o', (CoinsView.mk ((c.insert o e).addUsage n :: cs) base).peek o' =
        if o' = o then some e.coin else (CoinsView.mk (c :: cs) base).peek o' := by
  refine ⟨⟨h.base, h.coherent.insert hok⟩, fun o' => ?_⟩
  simp only [peek, seen_addUsage, seen_insert, unspent_eq_some hun]

theorem addCoin_spec (h : Valid v) (hne : v.caches ≠ []) (hun : coin.isSpent = false) (allocated : Nat)
    {overwrite : Bool} (hshow : overwrite = false → v.peek o = none) :
    (v.addCoin o coin allocated overwrite).1 = .ok () ∧
      Valid (v.addCoin o coin allocated overwrite).2 ∧ (v.addCoin o coin allocated overwrite).2.caches ≠ [] ∧
      ∀ o', (v.addCoin o coin allocated overwrite).2.peek o' =
        if o' = o ∧ isUnspendable coin.out.scriptPubKey = false then some coin else v.peek o' := by
  obtain ⟨caches, base⟩ := v
  cases caches with
  | nil => exact absurd rfl hne
  | cons c cs =>
    unfold addCoin onTop CCoinsViewCache.addCoin
    simp only [hun, Bool.false_eq_true, if_false]
    by_cases hscript : isUnspendable coin.out.scriptPubKey = true
    · simp only [hscript, if_true]
      exact ⟨trivial, h, by simp, by simp⟩
    · have hscript' : isUnspendable coin.out.scriptPubKey = false := by simpa using hscript
      obtain ⟨hsome, hnone⟩ := entryOk_added allocated overwrite hun (h.coherent.2 o)
        fun how hfind => by rw [← seen_of_none hfind]; exact hshow how
      simp only [hscript', Bool.false_eq_true, if_false, and_true]
      cases hfind : c.find o with
      | none =>
        obtain ⟨hvalid, hpeek⟩ := put_spec h hun (hnone hfind) (mallocUsage allocated)
        exact ⟨rfl, hvalid, by simp, hpeek⟩
      | some it =>
        have hspent : overwrite = false → it.coin.isSpent = true := by
          intro how
          have hnone := hshow how
          rw [peek, seen_of_find hfind] at hnone
          by_contra hs
          rw [unspent_eq_some (by simpa using hs)] at hnone
          cases hnone
        have hguard : (!overwrite && !it.coin.isSpent) = false := by
          cases overwrite with
          | true => rfl
          | false => simp [hspent rfl]
        have hsub : Valid ⟨c.subUsage it.dynamicMemoryUsage :: cs, base⟩ := ⟨h.base, h.coherent⟩
        obtain ⟨hvalid, hpeek⟩ := put_spec hsub hun (hsome it hfind hspent) (mallocUsage allocated)
        simp only [hguard]
        exact ⟨rfl, hvalid, by simp, hpeek⟩

theorem spendCoin_spec (h : Valid v) (hne : v.caches ≠ []) (o : COutPoint) :
    (v.spendCoin o).1.bind Coin.unspent = v.peek o ∧ Valid (v.spendCoin o).2 ∧ (v.spendCoin o).2.caches ≠ [] ∧
      ∀ o', (v.spendCoin o).2.peek o' = if o' = o then none else v.peek o' := by
  obtain ⟨_, _, hv, hfind, hres, hvalid, hpeek⟩ := fetchCoin_spec h o hne
  unfold spendCoin
  generalize hfetch : v.fetchCoin o = r at hv hfind hres hvalid hpeek
  obtain ⟨it, _⟩ := r
  simp only at hv hfind hres hvalid hpeek
  cases it with
  | none =>
    refine ⟨hres, hvalid, by simp only [hv]; simp, fun o' => ?_⟩
    rw [hpeek]
    split
    · next ho =>
      rw [ho, ← hres]
      rfl
    · rfl
  | some it =>
    subst hv
    have hok := hvalid.coherent.2 o it hfind.symm
    simp only [onTop, spendEntry]
    refine ⟨hres, ?_⟩
    by_cases hf : it.fresh = true
    · -- A FRESH entry goes away, and the layers below show nothing here.
      simp only [hf, if_true]
      refine ⟨⟨hvalid.base, ?_⟩, by simp, fun o' => ?_⟩
      · exact ((coherent_subUsage _).mpr hvalid.coherent).erase o
      · simp only [peek, seen_erase, seen_subUsage]
        split
        · next ho =>
          rw [ho]
          exact hok.fresh hf
        · exact hpeek o'
    · simp only [hf]
      refine ⟨⟨hvalid.base, ?_⟩, by simp, fun o' => ?_⟩
      · refine ((coherent_subUsage _).mpr hvalid.coherent).insert ?_
        exact ⟨by simp, by simp, by simp⟩
      · simp only [peek, seen_insert, seen_subUsage, Bool.false_eq_true, if_false]
        split
        · rfl
        · exact hpeek o'

theorem uncache_spec (h : Valid v) (o : COutPoint) :
    Valid (v.uncache o) ∧ (v.uncache o).caches.length = v.caches.length ∧
    ∀ o', (v.uncache o).peek o' = v.peek o' := by
  obtain ⟨caches, base⟩ := v
  cases caches with
  | nil => exact ⟨h, rfl, fun _ => rfl⟩
  | cons c cs =>
    obtain ⟨hbase, hcoh⟩ := h
    have heq : uncache ⟨c :: cs, base⟩ o = ⟨c.uncache o :: cs, base⟩ := rfl
    rw [heq]
    unfold CCoinsViewCache.uncache
    cases hfind : c.find o with
    | none => exact ⟨⟨hbase, hcoh⟩, rfl, fun _ => rfl⟩
    | some it =>
      simp only
      split
      · next hclean =>
        simp only [Bool.and_eq_true, Bool.not_eq_true'] at hclean
        obtain ⟨hun, hbelow⟩ := (hcoh.2 o it hfind).clean hclean.1
        refine ⟨⟨hbase, ((coherent_subUsage _).mpr hcoh).erase o⟩, rfl, fun o' => ?_⟩
        simp only [peek, seen_erase, seen_subUsage]
        split
        · next ho => rw [ho, hbelow, seen_of_find hfind, unspent_eq_some hun]
        · rfl
      · exact ⟨⟨hbase, hcoh⟩, rfl, fun _ => rfl⟩

/-! ## Writing to the layers below -/

/-- What a cache with entry `us` shows over layers showing `below`. -/
def shown (us : Option CCoinsCacheEntry) (below : Option Coin) : Option Coin :=
  match us with
  | some e => e.coin.unspent
  | none => below

theorem seen_eq_shown : seen base o (c :: cs) = shown (c.find o) (seen base o cs) := rfl

def kept (it : CCoinsCacheEntry) : Option CCoinsCacheEntry :=
  if it.coin.isSpent then none else some { it with dirty := false, fresh := false }

theorem nextAndMaybeErase_find_self (it : CCoinsCacheEntry) : (c.nextAndMaybeErase false o it).find o = kept it := by
  unfold nextAndMaybeErase kept
  cases h : it.coin.isSpent <;> simp

variable (erase : Bool) {us child : CCoinsViewCache} {c' : CCoinsViewCache}

theorem nextAndMaybeErase_find_ne (h : o' ≠ o) : (c.nextAndMaybeErase erase o it).find o' = c.find o' := by
  unfold nextAndMaybeErase
  split
  · rfl
  · split
    · rw [find_erase, if_neg h, find_subUsage]
    · rw [find_insert, if_neg h]

theorem moveOut_find_ne (h : o' ≠ o) : (c.moveOut o it).find o' = c.find o' := by
  rw [moveOut, find_insert, if_neg h]

/-- The child's entry is the one written, and both agree with below. -/
structure WriteOk (below : Option Coin) (s : Option CCoinsCacheEntry × Option CCoinsCacheEntry)
    (it : CCoinsCacheEntry) : Prop where
  child : s.2 = some it
  us : ∀ e, s.1 = some e → EntryOk e below
  entry : EntryOk it (shown s.1 below)
  flagged : it.flagged = true

structure Written (below : Option Coin) (erase : Bool) (it : CCoinsCacheEntry)
    (s : Option CCoinsCacheEntry × Option CCoinsCacheEntry) : Prop where
  us : ∀ e, s.1 = some e → EntryOk e below
  shows : shown s.1 below = it.coin.unspent
  child : erase = false → s.2 = kept it

theorem WriteOk.dirty {below : Option Coin} {s : Option CCoinsCacheEntry × Option CCoinsCacheEntry}
    (h : WriteOk below s it) : it.dirty = true := by
  have hflag := h.flagged
  simp only [CCoinsCacheEntry.flagged, Bool.or_eq_true] at hflag
  rcases hflag with hd | hf
  · exact hd
  · exact h.entry.dirty_of_fresh hf

theorem kept_left (dirty fresh : Bool) :
    kept (if it.coin.isSpent = true then ⟨it.coin.movedFrom, 0, dirty, fresh⟩ else it) = kept it := by
  cases h : it.coin.isSpent <;> simp [kept, h]

theorem batchWriteEntry_ok_iff : (batchWriteEntry erase (us, child) o it).1 = .ok () ↔
    ∀ itUs, us.find o = some itUs → it.dirty = true → it.fresh = true → itUs.coin.isSpent = true := by
  unfold batchWriteEntry
  simp only
  cases hdirty : it.dirty with
  | false => simp
  | true =>
    cases hus : us.find o with
    | none => by_cases hgone : (it.fresh && it.coin.isSpent) = true <;> simp [hgone]
    | some itUs =>
      simp only [Bool.not_true, Bool.false_eq_true, if_false]
      split
      · next hclash =>
        simp only [Bool.and_eq_true, Bool.not_eq_true'] at hclash
        simp [hclash]
      · next hclash =>
        have hok : it.fresh = true → itUs.coin.isSpent = true := by simpa using hclash
        split <;> simpa using hok

/-- The receiver's entry, with the old flag or the child's. -/
def received (us : Option CCoinsCacheEntry) (it : CCoinsCacheEntry) (allocated : Nat) : Option CCoinsCacheEntry :=
  let fresh := (us.map CCoinsCacheEntry.fresh).getD it.fresh
  if fresh && it.coin.isSpent then none else some ⟨it.coin, allocated, true, fresh⟩

theorem batchWriteEntry_received (hdirty : it.dirty = true)
    (hok : (batchWriteEntry erase (us, child) o it).1 = .ok ()) :
    (∃ n, (batchWriteEntry erase (us, child) o it).2.1.find o = received (us.find o) it n) ∧
      (erase = false → (batchWriteEntry erase (us, child) o it).2.2.find o = kept it) := by
  rw [batchWriteEntry_ok_iff] at hok
  unfold batchWriteEntry received
  simp only [hdirty, Bool.not_true, Bool.false_eq_true, if_false]
  cases hus : us.find o with
  | none =>
    by_cases hgone : (it.fresh && it.coin.isSpent) = true
    · simp only [hgone, if_true, Option.map_none, Option.getD_none]
      refine ⟨⟨0, hus⟩, fun hw => ?_⟩
      rw [hw, nextAndMaybeErase_find_self]
    · simp only [hgone, Option.map_none, Option.getD_none]
      refine ⟨⟨_, find_insert_self _ _ _⟩, fun hw => ?_⟩
      simp only [hw, Bool.false_or]
      rw [if_neg (by simp), nextAndMaybeErase_find_self, kept_left]
  | some itUs =>
    have hmis : (it.fresh && !itUs.coin.isSpent) = false := by
      cases hf : it.fresh with
      | false => rfl
      | true => simp [hok itUs hus hdirty hf]
    simp only [hmis, Bool.false_eq_true, if_false, Option.map_some, Option.getD_some]
    by_cases hdrop : (itUs.fresh && it.coin.isSpent) = true
    · simp only [hdrop, if_true]
      refine ⟨⟨0, find_erase_self _ _⟩, fun hw => ?_⟩
      rw [hw, nextAndMaybeErase_find_self]
    · simp only [hdrop]
      refine ⟨⟨_, find_insert_self _ _ _⟩, fun hw => ?_⟩
      simp only [hw, Bool.false_or]
      rw [if_neg (by simp), nextAndMaybeErase_find_self, kept_left]

theorem WriteOk.batchWriteEntry_ok {below : Option Coin}
    (h : WriteOk below (us.find o, child.find o) it) : (batchWriteEntry erase (us, child) o it).1 = .ok () := by
  rw [batchWriteEntry_ok_iff]
  intro itUs hus _ hfresh
  have hnone := h.entry.fresh hfresh
  simp only [hus, shown] at hnone
  by_contra hspent
  rw [unspent_eq_some (by simpa using hspent)] at hnone
  cases hnone

theorem batchWriteEntry_spec (below : Option Coin) (erase : Bool)
    (h : WriteOk below (us.find o, child.find o) it) :
    Written below erase it ((batchWriteEntry erase (us, child) o it).2.1.find o,
      (batchWriteEntry erase (us, child) o it).2.2.find o) := by
  obtain ⟨⟨_, hus⟩, hchild⟩ := batchWriteEntry_received erase h.dirty (h.batchWriteEntry_ok erase)
  -- Wherever the flag comes from, a FRESH entry has nothing below.
  have hbelow : ((us.find o).map CCoinsCacheEntry.fresh).getD it.fresh = true → below = none := by
    have hentry := h.entry
    cases hfind : us.find o with
    | none =>
      rw [hfind] at hentry
      exact hentry.fresh
    | some itUs => exact (h.us itUs hfind).fresh
  rw [hus]
  unfold received
  refine ⟨fun e he => ?_, ?_, hchild⟩
  · simp only at he
    split at he
    · cases he
    · next hkeep =>
      cases he
      refine ⟨hbelow, by simp, fun hf => ?_⟩
      simp only at hf
      simpa [hf] using hkeep
  · simp only
    split
    · next hgone =>
      rw [Bool.and_eq_true] at hgone
      rw [shown, hbelow hgone.1, unspent_eq_none hgone.2]
    · rfl

theorem batchWriteEntry_other (s : CCoinsViewCache × CCoinsViewCache) (it : CCoinsCacheEntry) (h : o' ≠ o) :
    (batchWriteEntry erase s o it).2.1.find o' = s.1.find o' ∧
      (batchWriteEntry erase s o it).2.2.find o' = s.2.find o' := by
  obtain ⟨_, child⟩ := s
  have hchild : ∀ m : Bool, (if m then child.moveOut o it else child).find o' = child.find o' := by
    intro m
    cases m
    · rfl
    · exact moveOut_find_ne h
  unfold batchWriteEntry
  simp only
  split
  · exact ⟨rfl, nextAndMaybeErase_find_ne _ h⟩
  · split
    · split
      · exact ⟨rfl, nextAndMaybeErase_find_ne _ h⟩
      · refine ⟨?_, ?_⟩
        · rw [find_addUsage, find_insert, if_neg h]
        · rw [nextAndMaybeErase_find_ne _ h, hchild]
    · split
      · exact ⟨rfl, rfl⟩
      · split
        · refine ⟨?_, nextAndMaybeErase_find_ne _ h⟩
          rw [find_erase, if_neg h, find_subUsage]
        · refine ⟨?_, ?_⟩
          · rw [find_addUsage, find_insert, if_neg h, find_subUsage]
          · rw [nextAndMaybeErase_find_ne _ h, hchild]

theorem batchWriteEntry_local (below : COutPoint → Option Coin) (erase : Bool) : AssocMap.Local (batchWriteEntry erase)
    (fun o (s : CCoinsViewCache × CCoinsViewCache) => (s.1.find o, s.2.find o))
    (fun o s it => WriteOk (below o) s it)
    (fun o _ it s => Written (below o) erase it s) where
  same s o it h _ := batchWriteEntry_spec (below o) erase h
  other s o it o' h := by
    obtain ⟨h1, h2⟩ := batchWriteEntry_other erase s it h
    simp only [h1, h2]

theorem dlookup_flaggedEntries (c : CCoinsViewCache) (o : COutPoint) :
    c.flaggedEntries.dlookup o = (c.find o).filter CCoinsCacheEntry.flagged :=
  AssocMap.dlookup_filter c.cacheCoins _ o

theorem find_of_flagged (h : c.flaggedEntries.dlookup o = some it) : c.find o = some it ∧ it.flagged = true := by
  rw [dlookup_flaggedEntries, Option.filter_eq_some_iff] at h
  exact h

/-- The top after its entries went down and unspent ones stayed. -/
structure Cleaned (c c' : CCoinsViewCache) : Prop where
  flagged : ∀ o it, c.find o = some it → it.flagged = true → c'.find o = kept it
  other : ∀ o, (∀ it, c.find o = some it → it.flagged = false) → c'.find o = c.find o

theorem cleaned_of_visited
    (hnone : ∀ o, c.flaggedEntries.dlookup o = none → c'.find o = c.find o)
    (hsome : ∀ o it, c.flaggedEntries.dlookup o = some it → c'.find o = kept it) : Cleaned c c' := by
  refine ⟨fun o it hit hflag => ?_, fun o hclean => ?_⟩
  · apply hsome
    rw [dlookup_flaggedEntries, hit, Option.filter_some_pos hflag]
  · apply hnone
    rw [dlookup_flaggedEntries]
    cases hfind : c.find o with
    | none => rfl
    | some it => rw [Option.filter_some_neg (by rw [hclean it hfind])]

/-- The layers below show the coins, and the top is clean or erased. -/
structure Lowered (c : CCoinsViewCache) (cs : List CCoinsViewCache) (base : CoinsBase)
    (erase : Bool) (c' : CCoinsViewCache) (v : CoinsView) : Prop where
  valid : Valid v
  length : v.caches.length = cs.length
  peek : ∀ o, v.peek o = seen base o (c :: cs)
  cleaned : erase = false → Cleaned c c'

theorem seen_of_clean (h : Coherent base (c :: cs)) (hclean : (c.find o).filter CCoinsCacheEntry.flagged = none) :
    seen base o (c :: cs) = seen base o cs := by
  cases hfind : c.find o with
  | none => exact seen_of_none hfind
  | some it =>
    have hflag : it.flagged = false := by
      by_contra hf
      rw [hfind, Option.filter_some_pos (by simpa using hf)] at hclean
      cases hclean
    simp only [CCoinsCacheEntry.flagged, Bool.or_eq_false_iff] at hflag
    obtain ⟨hun, hbelow⟩ := (h.2 o it hfind).clean hflag.1
    rw [seen_of_find hfind, unspent_eq_some hun, hbelow]

theorem batchWrite_spec {d : CCoinsViewCache} (hbase : BaseUnspent base)
    (h : Coherent base (c :: d :: cs)) (erase : Bool) : ∃ d' c', d.batchWrite c erase = (.ok true, d', c') ∧
      Lowered c (d :: cs) base erase c' ⟨d' :: cs, base⟩ := by
  have hgood : ∀ o it, c.flaggedEntries.dlookup o = some it → WriteOk (seen base o cs) (d.find o, c.find o) it := by
    intro o it hit
    rw [dlookup_flaggedEntries, Option.filter_eq_some_iff] at hit
    exact ⟨hit.1, h.1.2 o, by rw [← seen_eq_shown]; exact h.2 o it hit.1, hit.2⟩
  have hlocal := batchWriteEntry_local (fun o => seen base o cs) erase
  have hnodup : c.flaggedEntries.NodupKeys := AssocMap.nodupKeys_filter _ _
  have hok := hlocal.succeeds (s := (d, c)) (fun s o it h => h.batchWriteEntry_ok erase) hnodup hgood
  obtain ⟨hnone, hsome⟩ := hlocal.forEach (s := (d, c)) hnodup hgood hok
  unfold batchWrite
  generalize hr : AssocMap.forEach (batchWriteEntry erase) c.flaggedEntries (d, c) = r at hok hnone hsome
  obtain ⟨_, d', c'⟩ := r
  simp only at hok hnone hsome
  subst hok
  refine ⟨{ d' with hashBlock := c'.hashBlock }, c', rfl, ⟨⟨hbase, h.1.1, ?_⟩, rfl, ?_, ?_⟩⟩
  · intro o e he
    have he' : d'.find o = some e := he
    cases hl : c.flaggedEntries.dlookup o with
    | none =>
      have := congrArg Prod.fst (hnone o hl)
      simp only [he'] at this
      exact h.1.2 o e this.symm
    | some it => exact (hsome o it hl).us e he'
  · intro o
    have hpeek : (mk ({ d' with hashBlock := c'.hashBlock } :: cs) base).peek o =
        shown (d'.find o) (seen base o cs) := rfl
    rw [hpeek]
    cases hl : c.flaggedEntries.dlookup o with
    | none =>
      have hd := congrArg Prod.fst (hnone o hl)
      simp only at hd
      rw [dlookup_flaggedEntries] at hl
      rw [hd, seen_of_clean h hl]
      rfl
    | some it =>
      rw [(hsome o it hl).shows]
      rw [dlookup_flaggedEntries, Option.filter_eq_some_iff] at hl
      rw [seen_of_find hl.1]
  · intro hw
    exact cleaned_of_visited (fun o hl => congrArg Prod.snd (hnone o hl)) fun o it hl => (hsome o it hl).child hw

/-! ## Writing to the base -/

structure BaseWriteOk (s : Option Coin × Option CCoinsCacheEntry) (it : CCoinsCacheEntry) : Prop where
  child : s.2 = some it
  dirty : it.dirty = true

structure BaseWritten (erase : Bool) (it : CCoinsCacheEntry)
    (s : Option Coin × Option CCoinsCacheEntry) : Prop where
  shows : s.1 = it.coin.unspent
  child : erase = false → s.2 = kept it

theorem baseWriteEntry_lookup (s : CoinsBase × CCoinsViewCache) (it : CCoinsCacheEntry) :
    (CoinsBase.batchWriteEntry erase s o it).2.1.coins.lookup o' =
      if o' = o ∧ it.dirty = true then it.coin.unspent else s.1.coins.lookup o' := by
  obtain ⟨_, _⟩ := s
  unfold CoinsBase.batchWriteEntry
  simp only
  cases hd : it.dirty with
  | false => simp
  | true =>
    cases hs : it.coin.isSpent with
    | true | false =>
      by_cases ho : o' = o
      · subst ho
        simp [Coin.unspent, hs]
      · simp [ho]

theorem baseWriteEntry_local : AssocMap.Local (CoinsBase.batchWriteEntry erase)
    (fun o (s : CoinsBase × CCoinsViewCache) => (s.1.coins.lookup o, s.2.find o))
    (fun _ s it => BaseWriteOk s it)
    (fun _ _ it s => BaseWritten erase it s) where
  same s o it h _ := by
    refine ⟨?_, fun hw => ?_⟩
    · simp only [baseWriteEntry_lookup]
      rw [if_pos ⟨trivial, h.dirty⟩]
    · subst hw
      exact nextAndMaybeErase_find_self it
  other s o it o' h := by
    simp only [baseWriteEntry_lookup]
    rw [if_neg (fun hn => h hn.1)]
    exact congrArg _ (nextAndMaybeErase_find_ne erase h)

theorem baseBatchWrite_written (base : CoinsBase) (erase : Bool)
    (hdirty : ∀ o it, c.flaggedEntries.dlookup o = some it → it.dirty = true) :
    ∃ base' c', base.batchWrite c erase .written = (.ok true, base', c') ∧ (∀ o, c.flaggedEntries.dlookup o = none →
        base'.coins.lookup o = base.coins.lookup o ∧ c'.find o = c.find o) ∧ ∀ o it,
        c.flaggedEntries.dlookup o = some it → BaseWritten erase it (base'.coins.lookup o, c'.find o) := by
  have hgood : ∀ o it, c.flaggedEntries.dlookup o = some it → BaseWriteOk (base.coins.lookup o, c.find o) it :=
    fun o it hit => ⟨(find_of_flagged hit).1, hdirty o it hit⟩
  have hlocal := baseWriteEntry_local erase
  have hnodup : c.flaggedEntries.NodupKeys := AssocMap.nodupKeys_filter _ _
  have hok := hlocal.succeeds (s := (base, c)) (fun _ _ _ _ => rfl) hnodup hgood
  obtain ⟨hnone, hsome⟩ := hlocal.forEach (s := (base, c)) hnodup hgood hok
  unfold CoinsBase.batchWrite
  generalize AssocMap.forEach (CoinsBase.batchWriteEntry erase) c.flaggedEntries (base, c) = r
    at hnone hsome
  obtain ⟨_, base', c'⟩ := r
  exact ⟨{ base' with hashBlock := c.hashBlock }, c', rfl, fun o hl => Prod.mk.injEq _ _ _ _ ▸ hnone o hl, hsome⟩

theorem BaseWritten.unspent {erase : Bool} {child : Option CCoinsCacheEntry}
    (h : BaseWritten erase it (some coin, child)) : coin = it.coin ∧ coin.isSpent = false := by
  have hshow := h.shows
  simp only [Coin.unspent] at hshow
  split at hshow
  · cases hshow
  · next hs =>
    cases hshow
    exact ⟨rfl, by simpa using hs⟩

section

variable (hbase : BaseUnspent base)
include hbase

theorem baseUnspent_written {erase : Bool}
    (hnone : ∀ o, c.flaggedEntries.dlookup o = none → base'.coins.lookup o = base.coins.lookup o ∧ c'.find o = c.find o)
    (hsome : ∀ o it, c.flaggedEntries.dlookup o = some it →
      BaseWritten erase it (base'.coins.lookup o, c'.find o)) : BaseUnspent base' := by
  intro o coin hcoin
  cases hl : c.flaggedEntries.dlookup o with
  | none => exact hbase o coin (by rw [← (hnone o hl).1, hcoin])
  | some it =>
    have hwritten := hsome o it hl
    rw [hcoin] at hwritten
    exact hwritten.unspent.2

theorem seen_base (o : COutPoint) : seen base o [] = base.coins.lookup o := by
  unfold seen
  cases hl : base.coins.lookup o with
  | none => rfl
  | some coin => exact unspent_eq_some (hbase o coin hl)

theorem baseBatchWrite_spec (h : Coherent base [c]) (erase : Bool) :
    ∃ base' c', base.batchWrite c erase .written = (.ok true, base', c') ∧ Lowered c [] base erase c' ⟨[], base'⟩ := by
  have hdirty : ∀ o it, c.flaggedEntries.dlookup o = some it → it.dirty = true := by
    intro o it hit
    obtain ⟨hfind, hflag⟩ := find_of_flagged hit
    simp only [CCoinsCacheEntry.flagged, Bool.or_eq_true] at hflag
    rcases hflag with hd | hf
    · exact hd
    · exact (h.2 o it hfind).dirty_of_fresh hf
  obtain ⟨base', c', hrun, hnone, hsome⟩ := baseBatchWrite_written base erase hdirty
  have hunspent := baseUnspent_written hbase hnone hsome
  refine ⟨base', c', hrun, ⟨⟨hunspent, trivial⟩, rfl, ?_, ?_⟩⟩
  · intro o
    rw [peek, seen_base hunspent]
    cases hl : c.flaggedEntries.dlookup o with
    | none =>
      rw [(hnone o hl).1]
      rw [dlookup_flaggedEntries] at hl
      rw [seen_of_clean h hl, seen_base hbase]
    | some it =>
      rw [seen_of_find (find_of_flagged hl).1]
      exact (hsome o it hl).shows
  · intro hw
    exact cleaned_of_visited (fun o hl => (hnone o hl).2) fun o it hl => (hsome o it hl).child hw

/-! ## Sync and Flush -/

theorem writeTop_spec (h : Coherent base (c :: cs)) (erase : Bool) :
    ∃ c' v', writeTop ⟨c :: cs, base⟩ c cs erase .written = (.ok true, c', v') ∧ Lowered c cs base erase c' v' := by
  cases cs with
  | nil =>
    obtain ⟨_, c', heq, hlow⟩ := baseBatchWrite_spec hbase h erase
    exact ⟨c', _, by simp only [writeTop, heq], hlow⟩
  | cons d ds =>
    obtain ⟨_, c', heq, hlow⟩ := batchWrite_spec hbase h erase
    exact ⟨c', _, by simp only [writeTop, heq], hlow⟩

end

theorem Lowered.coherent (h : Lowered c cs base false c' v)
    (hcoh : Coherent base (c :: cs)) :
    Coherent v.base (c' :: v.caches) ∧ (∀ o, seen v.base o (c' :: v.caches) = seen base o (c :: cs)) ∧
      c'.flaggedEntries = [] := by
  obtain ⟨hflagged, hother⟩ := h.cleaned rfl
  -- Each entry left is unspent, clean, and what the layers below show.
  have hentry : ∀ o it', c'.find o = some it' → it'.flagged = false ∧ it'.coin.isSpent = false ∧
      v.peek o = some it'.coin := by
    intro o it' hit'
    cases hfind : c.find o with
    | none =>
      rw [hother o (by simp [hfind]), hfind] at hit'
      cases hit'
    | some it =>
      rw [h.peek, seen_of_find hfind]
      by_cases hf : it.flagged = true
      · rw [hflagged o it hfind hf, kept] at hit'
        split at hit'
        · cases hit'
        · next hs =>
          have hs' : it.coin.isSpent = false := by simpa using hs
          cases hit'
          exact ⟨rfl, hs', unspent_eq_some hs'⟩
      · have hf' : it.flagged = false := by simpa using hf
        have hf2 := hf'
        simp only [CCoinsCacheEntry.flagged, Bool.or_eq_false_iff] at hf2
        obtain ⟨hun, -⟩ := (hcoh.2 o it hfind).clean hf2.1
        rw [hother o (fun it2 h₂ => by rw [hfind] at h₂; cases h₂; exact hf'), hfind] at hit'
        cases hit'
        exact ⟨hf', hun, unspent_eq_some hun⟩
  refine ⟨⟨h.valid.coherent, ?_⟩, ?_, ?_⟩
  · intro o it' hit'
    obtain ⟨hf, hun, hpeek⟩ := hentry o it' hit'
    simp only [CCoinsCacheEntry.flagged, Bool.or_eq_false_iff] at hf
    exact ⟨by simp [hf.2], fun _ => ⟨hun, hpeek⟩, by simp [hf.2]⟩
  · intro o
    cases hfind : c'.find o with
    | none =>
      rw [seen_of_none hfind]
      exact h.peek o
    | some it' =>
      obtain ⟨-, hun, hpeek⟩ := hentry o it' hfind
      rw [seen_of_find hfind, unspent_eq_some hun, ← hpeek]
      exact h.peek o
  · rw [List.eq_nil_iff_forall_not_mem]
    rintro ⟨o, it'⟩ hmem
    rw [flaggedEntries, List.mem_filter] at hmem
    have hfind : c'.find o = some it' := (AList.mem_lookup_iff).mpr hmem.1
    rw [(hentry o it' hfind).1] at hmem
    cases hmem.2

theorem sync_spec (h : Valid v) (hne : v.caches ≠ []) : (v.sync .written).1 = .ok true ∧ Valid (v.sync .written).2 ∧
    (v.sync .written).2.caches.length = v.caches.length ∧ ∀ o, (v.sync .written).2.peek o = v.peek o := by
  obtain ⟨caches, base⟩ := v
  cases caches with
  | nil => exact absurd rfl hne
  | cons c cs =>
    obtain ⟨c', v', heq, hlow⟩ := writeTop_spec h.base h.coherent false
    obtain ⟨hcoh, hseen, hflag⟩ := hlow.coherent h.coherent
    have hsync : sync ⟨c :: cs, base⟩ .written = (.ok true, { v' with caches := c' :: v'.caches }) := by
      simp [sync, heq, hflag]
    rw [hsync]
    exact ⟨rfl, ⟨hlow.valid.base, hcoh⟩, by simp [hlow.length], hseen⟩

theorem flush_spec (h : Valid v) (hne : v.caches ≠ []) :
    ∃ c' v', v.flush .written = (.ok true, { v' with caches := c' :: v'.caches }) ∧
      c'.cacheCoins = ∅ ∧ Valid v' ∧ v'.caches.length + 1 = v.caches.length ∧ ∀ o, v'.peek o = v.peek o := by
  obtain ⟨caches, base⟩ := v
  cases caches with
  | nil => exact absurd rfl hne
  | cons c cs =>
    obtain ⟨c', v', heq, hlow⟩ := writeTop_spec h.base h.coherent true
    have hflush : flush ⟨c :: cs, base⟩ .written = (.ok true, { v' with
          caches := { c' with cacheCoins := ∅, cachedCoinsUsage := 0 } :: v'.caches }) := by
      simp [flush, heq]
    exact ⟨_, v', hflush, rfl, hlow.valid, by simp [hlow.length], hlow.peek⟩

theorem peek_of_empty (hc : c.cacheCoins = ∅) (o : COutPoint) : seen base o (c :: cs) = seen base o cs := by
  apply seen_of_none
  rw [CCoinsViewCache.find, hc, AList.lookup_empty]

theorem coherent_of_empty (hc : c.cacheCoins = ∅) (h : CoherentBy ok base cs) : CoherentBy ok base (c :: cs) := by
  refine ⟨h, fun o it hit => ?_⟩
  rw [CCoinsViewCache.find, hc, AList.lookup_empty] at hit
  cases hit

/-! ## The best block -/

def SameFinds (cs cs' : List CCoinsViewCache) : Prop := List.Forall₂ (fun c c' => ∀ o, c'.find o = c.find o) cs cs'

theorem SameFinds.refl (cs : List CCoinsViewCache) : SameFinds cs cs :=
  List.forall₂_same.mpr fun _ _ _ => rfl

theorem SameFinds.seen (h : SameFinds cs cs') (o : COutPoint) : seen base o cs' = seen base o cs := by
  induction h with
  | nil => rfl
  | cons hc _ ih => rw [seen_eq_shown, seen_eq_shown, hc, ih]

theorem SameFinds.coherent (h : SameFinds cs cs') (hcoh : CoherentBy ok base cs) : CoherentBy ok base cs' := by
  induction h with
  | nil => trivial
  | cons hc hcs ih =>
    refine ⟨ih hcoh.1, fun o it hit => ?_⟩
    rw [SameFinds.seen hcs]
    exact hcoh.2 o it (by rw [← hc]; exact hit)

theorem bestBlockFrom_finds (base : CoinsBase) (cs : List CCoinsViewCache) :
    SameFinds cs (bestBlockFrom base cs).2 := by
  induction cs with
  | nil => exact .nil
  | cons c cs ih =>
    unfold bestBlockFrom
    split
    · exact .cons (fun _ => rfl) ih
    · exact .refl _

theorem setBestBlock_finds (v : CoinsView) (hashBlock : Uint256) :
    SameFinds v.caches (v.setBestBlock hashBlock).caches ∧ (v.setBestBlock hashBlock).base = v.base := by
  obtain ⟨caches, base⟩ := v
  cases caches with
  | nil => exact ⟨.nil, rfl⟩
  | cons c cs => exact ⟨.cons (fun _ => rfl) (SameFinds.refl cs), rfl⟩

end FullNode.CoinsView

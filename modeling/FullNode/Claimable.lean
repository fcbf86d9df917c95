import FullNode.CoinsRefinement

/-!
# What a stack of caches can ever pay out

A repeated transaction can leave a FRESH flag over a coin of the layers below, and that coin comes back when the entry
goes.
-/

open FullNode.CCoinsViewCache

namespace FullNode.CoinsView

open CCoinsCacheEntry

variable {base base' : CoinsBase} {cs cs' : List CCoinsViewCache} {c d : CCoinsViewCache}
  {o o' : COutPoint} {it : CCoinsCacheEntry} {coin : Coin} {v : CoinsView} {val : Coin → Nat}

/-! ## The measure -/

def worth (val : Coin → Nat) (coin : Option Coin) : Int := coin.elim 0 fun coin => (val coin : Int)

/-- The claim of a cache over layers that show `below`. -/
def claimOf (val : Coin → Nat) (us : Option CCoinsCacheEntry) (below : Option Coin) (rest : Int) : Int :=
  match us with
  | none => rest
  | some it => worth val it.coin.unspent + rest - if it.fresh then 0 else worth val below

def claimable (val : Coin → Nat) (base : CoinsBase) (o : COutPoint) : List CCoinsViewCache → Int
  | [] => worth val (seen base o [])
  | c :: cs => claimOf val (c.find o) (seen base o cs) (claimable val base o cs)

theorem worth_nonneg (val : Coin → Nat) (coin : Option Coin) : 0 ≤ worth val coin := by
  unfold worth
  cases coin with
  | none => exact le_refl 0
  | some coin => exact Int.natCast_nonneg _

theorem worth_seen_le (val : Coin → Nat) (base : CoinsBase) (o : COutPoint) (cs : List CCoinsViewCache) :
    worth val (seen base o cs) ≤ claimable val base o cs := by
  induction cs with
  | nil => exact le_refl _
  | cons c cs ih =>
    have hbelow := worth_nonneg val (seen base o cs)
    rw [seen_eq_shown, claimable]
    unfold claimOf
    cases c.find o with
    | none => exact ih
    | some it =>
      simp only [shown]
      split <;> omega

theorem claimable_nonneg (val : Coin → Nat) (base : CoinsBase) (o : COutPoint) (cs : List CCoinsViewCache) :
    0 ≤ claimable val base o cs :=
  (worth_nonneg val _).trans (worth_seen_le val base o cs)

structure CleanOk (it : CCoinsCacheEntry) (below : Option Coin) : Prop where
  clean : it.dirty = false → it.fresh = false ∧ it.coin.isSpent = false ∧ below = some it.coin

instance : Fetches CleanOk where
  fetched _ _ hun := ⟨fun _ => ⟨hun, hun, rfl⟩⟩

variable {below : Option Coin} {w : CoinsView} {c' : CCoinsViewCache} {erase : Bool} {rest : Int}

theorem cleanOk_of_dirty (h : it.dirty = true) : CleanOk it below :=
  ⟨fun hclean => by rw [h] at hclean; cases hclean⟩

theorem CleanOk.dirty_of_flagged (h : CleanOk it below) (hflag : it.flagged = true) : it.dirty = true := by
  by_contra hd
  have hd : it.dirty = false := by simpa using hd
  rw [flagged, hd, (h.clean hd).1] at hflag
  cases hflag

theorem claimOf_clean (hok : CleanOk it below) (h : it.dirty = false) : claimOf val (some it) below rest = rest := by
  obtain ⟨hfresh, hun, hbelow⟩ := hok.clean h
  simp [claimOf, hfresh, hbelow, unspent_eq_some hun]

/-! ## Changing one entry, or the layers below -/

@[simp] theorem claimable_addUsage (n : Nat) : claimable val base o (c.addUsage n :: cs) =
    claimable val base o (c :: cs) := rfl
@[simp] theorem claimable_subUsage (n : Nat) : claimable val base o (c.subUsage n :: cs) =
    claimable val base o (c :: cs) := rfl

theorem claimable_insert : claimable val base o' (c.insert o it :: cs) =
    if o' = o then claimOf val (some it) (seen base o' cs) (claimable val base o' cs)
    else claimable val base o' (c :: cs) := by
  by_cases h : o' = o
  · rw [if_pos h, claimable, find_insert, if_pos h]
  · rw [if_neg h, claimable, find_insert, if_neg h, claimable]

theorem claimable_erase : claimable val base o' (c.erase o :: cs) =
    if o' = o then claimable val base o' cs else claimable val base o' (c :: cs) := by
  by_cases h : o' = o
  · rw [if_pos h, claimable, find_erase, if_pos h, claimOf]
  · rw [if_neg h, claimable, find_erase, if_neg h, claimable]

theorem claimable_of_none (h : c.find o = none) : claimable val base o (c :: cs) = claimable val base o cs := by
  rw [claimable, h, claimOf]

theorem claimable_below (hseen : seen base' o cs' = seen base o cs)
    (hclaim : claimable val base' o cs' = claimable val base o cs) :
    claimable val base' o (c :: cs') = claimable val base o (c :: cs) := by
  rw [claimable, claimable, hseen, hclaim]

/-! ## Reading -/

theorem fetched_claimable (hfind : c.find o = none) (o' : COutPoint) :
    claimable val base o' ((c.fetched o (seen base o cs)).2 :: cs) = claimable val base o' (c :: cs) := by
  unfold fetched
  cases hbelow : seen base o cs with
  | none => rfl
  | some coin =>
    have hun := seen_unspent hbelow
    simp only [claimable_addUsage, claimable_insert]
    split
    · next ho =>
      subst ho
      rw [claimable_of_none hfind, hbelow]
      exact claimOf_clean ⟨fun _ => ⟨hun, hun, rfl⟩⟩ rfl
    · rfl

theorem getCoinFrom_claimable (hbase : BaseUnspent base) (h : CoherentBy CleanOk base cs) (o o' : COutPoint) :
    claimable val base o' (getCoinFrom base o cs).2 = claimable val base o' cs := by
  induction cs with
  | nil => rfl
  | cons c cs ih =>
    obtain ⟨hres, -, hseen⟩ := getCoinFrom_spec hbase h.1 o
    unfold getCoinFrom
    cases hfind : c.find o with
    | some it => rfl
    | none =>
      simp only [hres]
      rw [← hseen o, fetched_claimable hfind]
      exact claimable_below (hseen o') (ih h.1)

theorem fetchCoin_claimable (h : ValidBy CleanOk v) (o o' : COutPoint) :
    claimable val (v.fetchCoin o).2.base o' (v.fetchCoin o).2.caches = claimable val v.base o' v.caches := by
  obtain ⟨caches, base⟩ := v
  obtain ⟨hbase, hcoh⟩ := h
  unfold fetchCoin
  cases caches with
  | nil => rfl
  | cons c cs =>
    simp only
    cases hfind : c.find o with
    | some it => rfl
    | none =>
      obtain ⟨hres, -, hseen⟩ := getCoinFrom_spec hbase hcoh.1 o
      simp only [hres]
      rw [← hseen o, fetched_claimable hfind]
      exact claimable_below (hseen o') (getCoinFrom_claimable hbase hcoh.1 o o')

/-! ## Writing -/

structure ClaimMoved (v : CoinsView) (o : COutPoint) (x : (Coin → Nat) → Int) (w : CoinsView) : Prop where
  valid : ValidBy CleanOk w
  nonempty : w.caches ≠ []
  peek : ∀ o', o' ≠ o → w.peek o' = v.peek o'
  at_ : ∀ val, claimable val w.base o w.caches ≤ claimable val v.base o v.caches + x val
  other : ∀ val o', o' ≠ o → claimable val w.base o' w.caches = claimable val v.base o' v.caches

theorem put_claim (h : ValidBy CleanOk ⟨c :: cs, base⟩) {e : CCoinsCacheEntry} (hdirty : e.dirty = true)
    {x : (Coin → Nat) → Int} (n : Nat)
    (hx : ∀ val, claimOf val (some e) (seen base o cs) (claimable val base o cs) ≤
      claimable val base o (c :: cs) + x val) :
    ClaimMoved ⟨c :: cs, base⟩ o x ⟨(c.insert o e).addUsage n :: cs, base⟩ := by
  refine ⟨⟨h.base, ?_⟩, by simp, fun o' ho => ?_, fun val => ?_, fun val o' ho => ?_⟩
  · exact (coherent_addUsage n).mpr (h.coherent.insert (cleanOk_of_dirty hdirty))
  · simp only [peek, seen_addUsage, seen_insert, if_neg ho]
  · simp only [claimable_addUsage, claimable_insert, if_true]
    exact hx val
  · simp only [claimable_addUsage, claimable_insert, if_neg ho]

theorem addCoin_claim (h : ValidBy CleanOk v) (hne : v.caches ≠ []) {allocated : Nat} {overwrite : Bool}
    (hadd : v.addCoin o coin allocated overwrite = (.ok (), w)) : ClaimMoved v o (fun val => val coin) w := by
  obtain ⟨caches, base⟩ := v
  cases caches with
  | nil => exact absurd rfl hne
  | cons c cs =>
    unfold addCoin onTop CCoinsViewCache.addCoin at hadd
    simp only at hadd
    by_cases hun : coin.isSpent = true
    · simp only [hun, if_true] at hadd
      cases hadd
    have hun : coin.isSpent = false := by simpa using hun
    by_cases hscript : isUnspendable coin.out.scriptPubKey = true
    · simp only [hun, hscript, if_true, Bool.false_eq_true, if_false] at hadd
      cases hadd
      exact ⟨h, by simp, fun _ _ => rfl, fun val => by omega, fun _ _ _ => rfl⟩
    simp only [hun, hscript, Bool.false_eq_true, if_false] at hadd
    have hcoin : ∀ val, worth val coin.unspent = val coin := fun val => by rw [unspent_eq_some hun]; rfl
    cases hfind : c.find o with
    | none =>
      simp only [hfind] at hadd
      cases hadd
      refine put_claim h rfl _ fun val => ?_
      have hbelow := worth_nonneg val (seen base o cs)
      rw [claimable_of_none hfind]
      simp only [claimOf, hcoin]
      split <;> omega
    | some it =>
      simp only [hfind] at hadd
      split at hadd
      · cases hadd
      · next hguard =>
        cases hadd
        have hsub : ValidBy CleanOk ⟨c.subUsage it.dynamicMemoryUsage :: cs, base⟩ := ⟨h.base, h.coherent⟩
        -- The flag only changes on a clean entry that is spent, and there is none.
        have hfresh : (it.fresh || (!overwrite && !it.dirty)) = it.fresh := by
          cases hd : it.dirty with
          | true => simp
          | false =>
            have hclean := ((h.coherent.2 o it hfind).clean hd).2.1
            cases overwrite with
            | true => simp
            | false => simp [hclean] at hguard
        have hput := put_claim (o := o) hsub (e := ⟨coin, allocated, true, it.fresh⟩) rfl
          (x := fun val => val coin) (mallocUsage allocated) (by
            intro val
            have hold := worth_nonneg val it.coin.unspent
            rw [claimable_subUsage, claimable, hfind]
            simp only [claimOf, hcoin]
            split <;> omega)
        rw [hfresh]
        exact ⟨hput.valid, hput.nonempty, hput.peek, hput.at_, hput.other⟩

theorem spendCoin_claim (h : ValidBy CleanOk v) (hne : v.caches ≠ []) (hpeek : v.peek o = some coin) :
    ∃ w, v.spendCoin o = (some coin, w) ∧ ClaimMoved v o (fun val => -(val coin : Int)) w := by
  obtain ⟨c, cs, hv, hfind, hres, hvalid, hsame⟩ := fetchCoin_spec h o hne
  have hclaim : ∀ val o', claimable val (v.fetchCoin o).2.base o' (v.fetchCoin o).2.caches =
      claimable val v.base o' v.caches := fun _ o' => fetchCoin_claimable h o o'
  unfold spendCoin
  generalize v.fetchCoin o = r at hv hfind hres hvalid hsame hclaim
  obtain ⟨it, _⟩ := r
  simp only at hv hfind hres hvalid hsame hclaim
  subst hv
  rw [hpeek] at hres
  obtain ⟨it, rfl, hit⟩ := Option.bind_eq_some_iff.mp hres
  have hcoin : it.coin = coin := by
    unfold Coin.unspent at hit
    split at hit
    · cases hit
    · exact Option.some.inj hit
  have hclaim' : ∀ val o', claimable val v.base o' (c :: cs) = claimable val v.base o' v.caches := hclaim
  have hat : ∀ val, claimable val v.base o v.caches = val coin + claimable val v.base o cs -
      if it.fresh then 0 else worth val (seen v.base o cs) := by
    intro val
    rw [← hclaim', claimable, ← hfind, claimOf, hit]
    rfl
  simp only [onTop, spendEntry, hcoin]
  refine ⟨_, rfl, ?_⟩
  by_cases hf : it.fresh = true
  · simp only [hf, if_true] at hat ⊢
    refine ⟨⟨hvalid.base, ?_⟩, by simp, fun o' ho => ?_, fun val => ?_, fun val o' ho => ?_⟩
    · exact ((coherent_subUsage _).mpr hvalid.coherent).erase o
    · simp only [peek, seen_erase, seen_subUsage, if_neg ho]
      exact hsame o'
    · have hat := hat val
      simp only [claimable_erase, if_true]
      omega
    · simp only [claimable_erase, claimable_subUsage, if_neg ho]
      exact hclaim' val o'
  · simp only [hf, Bool.false_eq_true, if_false] at hat ⊢
    refine ⟨⟨hvalid.base, ?_⟩, by simp, fun o' ho => ?_, fun val => ?_, fun val o' ho => ?_⟩
    · exact ((coherent_subUsage _).mpr hvalid.coherent).insert (cleanOk_of_dirty rfl)
    · simp only [peek, seen_insert, seen_subUsage, if_neg ho]
      exact hsame o'
    · have hat := hat val
      have hempty : worth val Coin.empty.unspent = 0 := rfl
      simp only [claimable_insert, if_true, claimOf, hempty, Bool.false_eq_true, if_false]
      omega
    · simp only [claimable_insert, claimable_subUsage, if_neg ho]
      exact hclaim' val o'

theorem uncache_claim (h : ValidBy CleanOk v) (o : COutPoint) :
    ValidBy CleanOk (v.uncache o) ∧ (v.uncache o).caches.length = v.caches.length ∧
      ∀ val o', claimable val (v.uncache o).base o' (v.uncache o).caches = claimable val v.base o' v.caches := by
  obtain ⟨caches, base⟩ := v
  cases caches with
  | nil => exact ⟨h, rfl, fun _ _ => rfl⟩
  | cons c cs =>
    have heq : uncache ⟨c :: cs, base⟩ o = ⟨c.uncache o :: cs, base⟩ := rfl
    rw [heq]
    unfold CCoinsViewCache.uncache
    cases hfind : c.find o with
    | none => exact ⟨h, rfl, fun _ _ => rfl⟩
    | some it =>
      simp only
      split
      · next hclean =>
        simp only [Bool.and_eq_true, Bool.not_eq_true'] at hclean
        refine ⟨⟨h.base, ((coherent_subUsage _).mpr h.coherent).erase o⟩, rfl, fun val o' => ?_⟩
        simp only [claimable_erase, claimable_subUsage]
        split
        · next ho =>
          rw [ho, claimable, hfind, claimOf_clean (h.coherent.2 o it hfind) hclean.1]
        · rfl
      · exact ⟨h, rfl, fun _ _ => rfl⟩

/-! ## Writing to the layers below -/

/-- What the layers below are after the entries of `c` went down. -/
structure Claimed (c : CCoinsViewCache) (cs : List CCoinsViewCache) (base : CoinsBase) (erase : Bool)
    (c' : CCoinsViewCache) (v : CoinsView) : Prop where
  valid : ValidBy CleanOk v
  length : v.caches.length = cs.length
  claim : ∀ val o, claimable val v.base o v.caches ≤ claimable val base o (c :: cs)
  shows : ∀ o it, c.find o = some it → it.coin.isSpent = false → v.peek o = some it.coin
  cleaned : erase = false → Cleaned c c'

theorem claimOf_received_eq (us : Option CCoinsCacheEntry) (below : Option Coin) (rest : Int) (n : Nat) :
    claimOf val (received us it n) below rest = worth val it.coin.unspent + rest -
      if (us.map fresh).getD it.fresh then 0 else worth val below := by
  unfold received
  simp only
  split
  · next hgone =>
    rw [Bool.and_eq_true] at hgone
    rw [hgone.1, unspent_eq_none hgone.2]
    simp [claimOf, worth]
  · rfl

theorem claimOf_received {us : Option CCoinsCacheEntry}
    (hok : ∀ itUs, us = some itUs → it.fresh = true → itUs.coin.isSpent = true) (n : Nat) :
    claimOf val (received us it n) below rest = claimOf val (some it) (shown us below) (claimOf val us below rest) := by
  rw [claimOf_received_eq]
  cases us with
  | none => rfl
  | some itUs =>
    -- A FRESH child is over a spent coin, so the flag makes no difference to the claim.
    have hflag : (if it.fresh = true then 0 else worth val itUs.coin.unspent) = worth val itUs.coin.unspent := by
      split
      · next hf =>
        rw [unspent_eq_none (hok itUs rfl hf)]
        rfl
      · rfl
    simp only [Option.map_some, Option.getD_some, shown, claimOf, hflag]
    omega

structure ClaimWriteOk (below : Option Coin) (s : Option CCoinsCacheEntry × Option CCoinsCacheEntry)
    (it : CCoinsCacheEntry) : Prop where
  us : ∀ e, s.1 = some e → CleanOk e below
  dirty : it.dirty = true

structure ClaimWritten (below : Option Coin) (rest : (Coin → Nat) → Int) (erase : Bool)
    (s : Option CCoinsCacheEntry × Option CCoinsCacheEntry) (it : CCoinsCacheEntry)
    (s' : Option CCoinsCacheEntry × Option CCoinsCacheEntry) : Prop where
  us : ∀ e, s'.1 = some e → CleanOk e below
  claim : ∀ val, claimOf val s'.1 below (rest val) =
      claimOf val (some it) (shown s.1 below) (claimOf val s.1 below (rest val))
  shows : it.coin.isSpent = false → shown s'.1 below = some it.coin
  child : erase = false → s'.2 = kept it

theorem batchWriteEntry_claim (below : COutPoint → Option Coin) (rest : COutPoint → (Coin → Nat) → Int) (erase : Bool) :
    AssocMap.Local (batchWriteEntry erase)
      (fun o (s : CCoinsViewCache × CCoinsViewCache) => (s.1.find o, s.2.find o))
      (fun o s it => ClaimWriteOk (below o) s it)
      (fun o s it s' => ClaimWritten (below o) (rest o) erase s it s') where
  same s o it h hok := by
    obtain ⟨_, _⟩ := s
    obtain ⟨⟨n, hus⟩, hchild⟩ := batchWriteEntry_received erase h.dirty hok
    have hclash := fun itUs hfind => (batchWriteEntry_ok_iff erase).mp hok itUs hfind h.dirty
    refine ⟨fun e he => ?_, fun val => ?_, fun hun => ?_, hchild⟩
    · rw [hus] at he
      unfold received at he
      simp only at he
      split at he
      · cases he
      · cases he
        exact cleanOk_of_dirty rfl
    · rw [hus]
      exact claimOf_received hclash n
    · rw [hus]
      simp [received, hun, shown, unspent_eq_some hun]
  other s o it o' h := by
    obtain ⟨h1, h2⟩ := batchWriteEntry_other erase s it h
    simp only [h1, h2]

theorem dirty_of_flagged (hcoh : CoherentBy CleanOk base (c :: cs))
    (h : c.flaggedEntries.dlookup o = some it) : it.dirty = true :=
  (hcoh.2 o it (find_of_flagged h).1).dirty_of_flagged (find_of_flagged h).2

theorem claimable_of_unflagged (h : CoherentBy CleanOk base (c :: cs))
    (hnone : c.flaggedEntries.dlookup o = none) : (∀ val, claimable val base o (c :: cs) = claimable val base o cs) ∧
      ∀ it, c.find o = some it → seen base o cs = some it.coin := by
  cases hfind : c.find o with
  | none => exact ⟨fun _ => claimable_of_none hfind, by simp⟩
  | some it =>
    have hclean : it.dirty = false := by
      by_contra hd
      rw [dlookup_flaggedEntries, hfind, Option.filter_some_pos (by simp [flagged, hd])]
        at hnone
      cases hnone
    have hok := h.2 o it hfind
    refine ⟨fun _ => by rw [claimable, hfind, claimOf_clean hok hclean], ?_⟩
    rintro it' hit'
    cases hit'
    exact (hok.clean hclean).2.2

theorem batchWrite_claim {d' : CCoinsViewCache} (hbase : BaseUnspent base)
    (h : CoherentBy CleanOk base (c :: d :: cs)) (hok : d.batchWrite c erase = (.ok true, d', c')) :
    Claimed c (d :: cs) base erase c' ⟨d' :: cs, base⟩ := by
  have hgood : ∀ o it, c.flaggedEntries.dlookup o = some it → ClaimWriteOk (seen base o cs) (d.find o, c.find o) it :=
    fun o it hit => ⟨h.1.2 o, dirty_of_flagged h hit⟩
  have hlocal := batchWriteEntry_claim (fun o => seen base o cs) (fun o val => claimable val base o cs) erase
  have hnodup : c.flaggedEntries.NodupKeys := AssocMap.nodupKeys_filter _ _
  have hforEach := hlocal.forEach (s := (d, c)) hnodup hgood
  unfold batchWrite at hok
  generalize AssocMap.forEach (batchWriteEntry erase) c.flaggedEntries (d, c) = r at hok hforEach
  obtain ⟨_ | _, d1, _⟩ := r
  · cases hok
  cases hok
  obtain ⟨hnone, hsome⟩ := hforEach rfl
  have hfind : ∀ o, ({ d1 with hashBlock := c'.hashBlock } : CCoinsViewCache).find o = d1.find o := fun _ => rfl
  have hsame : ∀ o, c.flaggedEntries.dlookup o = none → d1.find o = d.find o :=
    fun o hl => congrArg Prod.fst (hnone o hl)
  refine ⟨⟨hbase, h.1.1, ?_⟩, rfl, ?_, ?_, ?_⟩
  · intro o e he
    rw [hfind] at he
    cases hl : c.flaggedEntries.dlookup o with
    | none => exact h.1.2 o e (by rw [← hsame o hl]; exact he)
    | some it => exact (hsome o it hl).us e he
  · intro val o
    simp only [claimable, hfind]
    cases hl : c.flaggedEntries.dlookup o with
    | none =>
      have hclaim := (claimable_of_unflagged h hl).1 val
      simp only [claimable] at hclaim
      rw [hsame o hl, hclaim]
    | some it =>
      have hclaim := (hsome o it hl).claim val
      simp only at hclaim
      rw [hclaim, (find_of_flagged hl).1, seen_eq_shown]
  · intro o it hit hun
    rw [peek, seen_eq_shown, hfind]
    cases hl : c.flaggedEntries.dlookup o with
    | none =>
      rw [hsame o hl, ← seen_eq_shown]
      exact (claimable_of_unflagged h hl).2 it hit
    | some it' =>
      have hit' := (find_of_flagged hl).1
      rw [hit] at hit'
      cases hit'
      exact (hsome o it hl).shows hun
  · intro hw
    exact cleaned_of_visited (fun o hl => congrArg Prod.snd (hnone o hl)) fun o it hl => (hsome o it hl).child hw

theorem baseBatchWrite_claim (hbase : BaseUnspent base) (h : CoherentBy CleanOk base [c])
    (hok : base.batchWrite c erase .written = (.ok true, base', c')) : Claimed c [] base erase c' ⟨[], base'⟩ := by
  obtain ⟨_, _, hrun, hnone, hsome⟩ :=
    baseBatchWrite_written base erase fun o it hit => dirty_of_flagged h hit
  rw [hok] at hrun
  cases hrun
  have hunspent := baseUnspent_written hbase hnone hsome
  refine ⟨⟨hunspent, trivial⟩, rfl, ?_, ?_, ?_⟩
  · intro val o
    rw [claimable, seen_base hunspent]
    cases hl : c.flaggedEntries.dlookup o with
    | none => rw [(hnone o hl).1, (claimable_of_unflagged h hl).1, claimable, seen_base hbase]
    | some it =>
      have hseen := worth_seen_le val base o [c]
      have hshow : base'.coins.lookup o = it.coin.unspent := (hsome o it hl).shows
      rw [hshow, ← seen_of_find (find_of_flagged hl).1]
      exact hseen
  · intro o it hit hun
    rw [peek, seen_base hunspent]
    cases hl : c.flaggedEntries.dlookup o with
    | none =>
      rw [(hnone o hl).1, ← seen_base hbase]
      exact (claimable_of_unflagged h hl).2 it hit
    | some it' =>
      have hit' := (find_of_flagged hl).1
      rw [hit] at hit'
      cases hit'
      exact (hsome o it hl).shows.trans (unspent_eq_some hun)
  · intro hw
    exact cleaned_of_visited (fun o hl => (hnone o hl).2) fun o it hl => (hsome o it hl).child hw

/-! ## Sync and Flush -/

structure ClaimKept (v w : CoinsView) : Prop where
  valid : ValidBy CleanOk w
  length : w.caches.length = v.caches.length
  claim : ∀ val o, claimable val w.base o w.caches ≤ claimable val v.base o v.caches

theorem writeTop_claim (hbase : BaseUnspent base) (h : CoherentBy CleanOk base (c :: cs))
    (hok : writeTop ⟨c :: cs, base⟩ c cs erase .written = (.ok true, c', v)) : Claimed c cs base erase c' v := by
  unfold writeTop at hok
  cases cs with
  | nil =>
    simp only at hok
    generalize hw : base.batchWrite c erase .written = r at hok
    obtain ⟨res, _, c1⟩ := r
    cases hok
    exact baseBatchWrite_claim hbase h hw
  | cons d ds =>
    simp only at hok
    generalize hw : d.batchWrite c erase = r at hok
    obtain ⟨res, _, c1⟩ := r
    cases hok
    exact batchWrite_claim hbase h hw

theorem Claimed.clean (h : Claimed c cs base false c' v) (hcoh : CoherentBy CleanOk base (c :: cs)) :
    ∀ o it, c'.find o = some it → it.dirty = false ∧ CleanOk it (v.peek o) := by
  intro o it' hit'
  obtain ⟨hflagged, hother⟩ := h.cleaned rfl
  cases hfind : c.find o with
  | none =>
    rw [hother o (by simp [hfind]), hfind] at hit'
    cases hit'
  | some it =>
    by_cases hf : it.flagged = true
    · rw [hflagged o it hfind hf, kept] at hit'
      split at hit'
      · cases hit'
      · next hs =>
        cases hit'
        have hs : it.coin.isSpent = false := by simpa using hs
        exact ⟨rfl, ⟨fun _ => ⟨rfl, hs, h.shows o it hfind hs⟩⟩⟩
    · rw [hother o (fun it2 h₂ => by rw [hfind] at h₂; cases h₂; simpa using hf), hfind] at hit'
      obtain rfl : it = it' := Option.some.inj hit'
      simp only [flagged, Bool.or_eq_true, not_or, Bool.not_eq_true] at hf
      obtain ⟨hfresh, hs, -⟩ := (hcoh.2 o it hfind).clean hf.1
      exact ⟨hf.1, ⟨fun _ => ⟨hfresh, hs, h.shows o it hfind hs⟩⟩⟩

theorem sync_claim (h : ValidBy CleanOk v) (hok : v.sync .written = (.ok true, w)) : ClaimKept v w := by
  obtain ⟨caches, base⟩ := v
  unfold sync at hok
  cases caches with
  | nil =>
    cases hok
    exact ⟨h, rfl, fun _ _ => le_refl _⟩
  | cons c cs =>
    simp only at hok
    split at hok
    · cases hok
    next fOk c' v' hw =>
    have hfOk : fOk = true := by
      by_contra hf
      rw [Bool.not_eq_true] at hf
      subst hf
      cases hok
    subst hfOk
    have hclaimed := writeTop_claim h.base h.coherent hw
    have hclean := hclaimed.clean h.coherent
    obtain ⟨-, rfl⟩ := Prod.mk.inj hok
    refine ⟨⟨hclaimed.valid.base, hclaimed.valid.coherent, fun o it hit => (hclean o it hit).2⟩,
      by simp [hclaimed.length], fun val o => ?_⟩
    refine le_trans (le_of_eq ?_) (hclaimed.claim val o)
    rw [claimable]
    cases hfind : c'.find o with
    | none => rfl
    | some it =>
      obtain ⟨hd, hit⟩ := hclean o it hfind
      exact claimOf_clean hit hd

theorem claimable_of_empty (hc : c.cacheCoins = ∅) (o : COutPoint) :
    claimable val base o (c :: cs) = claimable val base o cs := by
  apply claimable_of_none
  rw [CCoinsViewCache.find, hc, AList.lookup_empty]

theorem flush_claim (h : ValidBy CleanOk v) (hok : v.flush .written = (.ok true, w)) : ClaimKept v w := by
  obtain ⟨caches, base⟩ := v
  unfold flush at hok
  cases caches with
  | nil =>
    cases hok
    exact ⟨h, rfl, fun _ _ => le_refl _⟩
  | cons c cs =>
    simp only at hok
    split at hok
    · cases hok
    next fOk c' v' hw =>
    simp only [Prod.mk.injEq, Except.ok.injEq] at hok
    obtain ⟨rfl, rfl⟩ := hok
    have hclaimed := writeTop_claim h.base h.coherent hw
    refine ⟨⟨hclaimed.valid.base, coherent_of_empty (by simp) hclaimed.valid.coherent⟩, by simp [hclaimed.length],
      fun val o => ?_⟩
    rw [claimable_of_empty (by simp)]
    exact hclaimed.claim val o

theorem SameFinds.claimable (h : SameFinds cs cs') (o : COutPoint) :
    claimable val base o cs' = claimable val base o cs := by
  induction h with
  | nil => rfl
  | cons hc hcs ih => rw [CoinsView.claimable, CoinsView.claimable, hc, SameFinds.seen hcs, ih]

/-! ## Coherent views -/

theorem claimable_of_coherent (h : Coherent base cs) (o : COutPoint) :
    claimable val base o cs = worth val (seen base o cs) := by
  induction cs with
  | nil => rfl
  | cons c cs ih =>
    rw [claimable, ih h.1, seen_eq_shown]
    cases hfind : c.find o with
    | none => rfl
    | some it =>
      simp only [claimOf, shown]
      split
      · next hf =>
        rw [(h.2 o it hfind).fresh hf]
        simp [worth]
      · omega

end FullNode.CoinsView

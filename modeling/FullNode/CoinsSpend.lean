import FullNode.CoinsUsage

/-! # What `SpendCoin` answers -/

open FullNode.CCoinsViewCache

namespace FullNode.CoinsView

variable {base : CoinsBase} {v : CoinsView} {o : COutPoint} {cs : List CCoinsViewCache}

/-! ## The base never holds a spent coin -/

theorem baseBatchWrite_unspent (c : CCoinsViewCache) (erase : Bool) (reply : BaseReply) (h : BaseUnspent base) :
    BaseUnspent (base.batchWrite c erase reply).2.1 := by
  have hloop : BaseUnspent (AssocMap.forEach (CoinsBase.batchWriteEntry erase) c.flaggedEntries (base, c)).2.1 := by
    refine AssocMap.forEach_inv (P := fun s : CoinsBase × CCoinsViewCache => BaseUnspent s.1)
      (fun o _ => c.flaggedEntries.dlookup o) (fun _ _ _ _ _ => rfl) (fun s o it hs _ => baseWriteEntry_unspent hs)
        c.flaggedEntries
      (AssocMap.nodupKeys_filter _ _) h fun _ _ hit => hit
  unfold CoinsBase.batchWrite
  split
  · exact hloop
  · exact h
  · exact h
  · exact h

theorem writeTop_unspent (cs : List CCoinsViewCache) (c : CCoinsViewCache) (erase : Bool) (reply : BaseReply)
    (h : BaseUnspent v.base) : BaseUnspent (v.writeTop c cs erase reply).2.2.base := by
  cases cs with
  | nil => exact baseBatchWrite_unspent c erase reply h
  | cons d ds => exact h

theorem fetchCoin_base : (v.fetchCoin o).2.base = v.base := by
  obtain ⟨caches, base⟩ := v
  cases caches with
  | nil => rfl
  | cons c cs =>
    unfold fetchCoin
    cases hfind : c.find o <;> simp [hfind]

theorem onTop_base {α : Type} (a : α) (f : CCoinsViewCache → α × CCoinsViewCache) : (v.onTop a f).2.base = v.base := by
  obtain ⟨caches, base⟩ := v
  cases caches <;> rfl

theorem spendCoin_base : (v.spendCoin o).2.base = v.base := by
  have hfetch := @fetchCoin_base v o
  unfold spendCoin
  rcases hr : v.fetchCoin o with ⟨_ | _, _⟩
  · rwa [hr] at hfetch
  · rw [hr] at hfetch
    exact (onTop_base () _).trans hfetch

theorem apply_unspent (op : Op) (h : BaseUnspent v.base) : BaseUnspent (apply v op).2.base := by
  cases op with
  | getCoin o => exact h
  | haveCoin o =>
    have hbase : (v.haveCoin o).2.base = v.base := fetchCoin_base
    exact hbase ▸ h
  | accessCoin o =>
    have hbase : (v.accessCoin o).2.base = v.base := fetchCoin_base
    exact hbase ▸ h
  | addCoin o coin n overwrite =>
    have hbase : (v.addCoin o coin n overwrite).2.base = v.base := onTop_base _ _
    exact hbase ▸ h
  | emplaceCoinInternalDANGER o coin n =>
    have hbase : (v.emplaceCoinInternalDANGER o coin n).base = v.base := onTop_base _ _
    exact hbase ▸ h
  | spendCoin o =>
    have hbase : (v.spendCoin o).2.base = v.base := spendCoin_base
    exact hbase ▸ h
  | uncache o =>
    have hbase : (v.uncache o).base = v.base := onTop_base _ _
    exact hbase ▸ h
  | sync reply =>
    simp only [apply, sync]
    split
    · exact h
    · next c cs _ =>
      have hwrite := writeTop_unspent cs c false reply h
      split
      · next hr => rwa [hr] at hwrite
      · next hr => rwa [hr] at hwrite
  | flush reply =>
    simp only [apply, flush]
    split
    · exact h
    · next c cs _ =>
      have hwrite := writeTop_unspent cs c true reply h
      split
      · next hr => rwa [hr] at hwrite
      · next hr => rwa [hr] at hwrite

theorem runOn_unspent {ops : List (Nat × Op)} (h : BaseUnspent v.base) : BaseUnspent (v.runOn ops).base := by
  induction ops generalizing v with
  | nil => exact h
  | cons p ops ih =>
    obtain ⟨layer, op⟩ := p
    exact ih (apply_unspent (v := v.below layer) op h)

/-! ## What a fetch finds -/

theorem getCoinFrom_unspent (cs : List CCoinsViewCache) (hbase : BaseUnspent base) :
    (∀ coin, (getCoinFrom base o cs).1 = some coin → coin.isSpent = false) ∧
      ((getCoinFrom base o cs).1 = none → (getCoinFrom base o cs).2 = cs) := by
  induction cs with
  | nil => exact ⟨fun coin h => hbase o coin h, fun _ => rfl⟩
  | cons c cs ih =>
    obtain ⟨hun, hsame⟩ := ih
    unfold getCoinFrom
    split
    · next it hfind =>
      refine ⟨fun coin h => ?_, fun _ => rfl⟩
      simp only [Coin.unspent] at h
      split at h
      · cases h
      · next hs =>
        cases h
        simpa using hs
    · next hfind =>
      cases hbelow : (getCoinFrom base o cs).1 with
      | none =>
        refine ⟨fun coin h => ?_, fun _ => ?_⟩
        · simp [hbelow, fetched] at h
        · simp [hbelow, fetched, hsame hbelow]
      | some coin =>
        have hspent := hun coin hbelow
        refine ⟨fun coin' h => ?_, fun h => ?_⟩
        · simp only [hbelow, fetched, Option.bind_some, unspent_eq_some hspent, Option.some.injEq] at h
          exact h ▸ hspent
        · simp [hbelow, fetched, unspent_eq_some hspent] at h

def HasSpentEntry (v : CoinsView) (o : COutPoint) : Prop :=
  ∃ c ∈ v.caches.head?, ∃ it, c.find o = some it ∧ it.coin.isSpent = true

theorem fetchCoin_spent_iff (hbase : BaseUnspent v.base) :
    (∃ it, (v.fetchCoin o).1 = some it ∧ it.coin.isSpent = true) ↔ HasSpentEntry v o := by
  obtain ⟨caches, base⟩ := v
  cases caches with
  | nil => simp [fetchCoin, HasSpentEntry]
  | cons c cs =>
    simp only [fetchCoin, HasSpentEntry, List.head?_cons, Option.mem_def, Option.some.injEq, exists_eq_left']
    cases hfind : c.find o with
    | some it => simp
    | none =>
      obtain ⟨hun, -⟩ := getCoinFrom_unspent cs (o := o) hbase
      cases hbelow : (getCoinFrom base o cs).1 with
      | none => simp [fetched]
      | some coin => simp [fetched, hun coin hbelow]

theorem fetchCoin_none (hbase : BaseUnspent v.base) (h : (v.fetchCoin o).1 = none) : (v.fetchCoin o).2 = v := by
  obtain ⟨caches, base⟩ := v
  cases caches with
  | nil => rfl
  | cons c cs =>
    obtain ⟨-, hsame⟩ := getCoinFrom_unspent cs (o := o) hbase
    simp only [fetchCoin] at h ⊢
    cases hfind : c.find o with
    | some it => simp [hfind] at h
    | none =>
      simp only [hfind] at h ⊢
      cases hbelow : (getCoinFrom base o cs).1 with
      | none => simp [fetched, hsame hbelow]
      | some coin => simp [hbelow, fetched] at h

/-! ## The answer -/

/-- `SpendCoin` is true exactly when `HaveCoin` is. -/
def SpendReports (v : CoinsView) (o : COutPoint) : Prop :=
  ((v.spendCoin o).1.isSome = true ↔ (v.haveCoin o).1 = true) ∧ ((v.spendCoin o).1 = none → (v.spendCoin o).2 = v)

theorem spendReports_iff (hbase : BaseUnspent v.base) : SpendReports v o ↔ ¬ HasSpentEntry v o := by
  rw [← fetchCoin_spent_iff hbase]
  have hnone := @fetchCoin_none v o hbase
  unfold SpendReports spendCoin haveCoin
  rcases hfetch : v.fetchCoin o with ⟨_ | it, _⟩
  · rw [hfetch] at hnone
    simpa using hnone
  · cases hs : it.coin.isSpent <;> simp [hs]

/-- The answer of `SpendCoin` is right where no entry is spent. -/
theorem spendCoin_reports_iff (n : Nat) {base : CoinsBase} (hbase : BaseUnspent base) (ops : List (Nat × Op))
    (layer : Nat) (o : COutPoint) :
    SpendReports (((start n base).runOn ops).below layer) o ↔
      ¬ HasSpentEntry (((start n base).runOn ops).below layer) o :=
  spendReports_iff (runOn_unspent (v := start n base) hbase)

/-- A coin of the base that was not spent yet. -/
theorem spendCoin_reports_unspent :
    SpendReports (((start 2 ⟨0, AList.singleton someOutpoint someCoin⟩).runOn [(0, .getCoin someOutpoint)]).below 0)
      someOutpoint := by
  refine (spendCoin_reports_iff 2 (fun o coin h => ?_) _ 0 someOutpoint).mpr ?_
  · have hkey : o = someOutpoint := by
      by_contra hne
      rw [AList.lookup_eq_none.mpr (by simpa [AList.mem_keys] using hne)] at h
      cases h
    subst hkey
    have hcoin : some coin = some someCoin := h.symm.trans (by decide)
    cases hcoin
    decide
  · rintro ⟨_, hc, _, hfind, hs⟩
    have htop : (((start 2 ⟨0, AList.singleton someOutpoint someCoin⟩).runOn [(0, .getCoin someOutpoint)]).below 0
        |>.caches.head?.bind (·.find someOutpoint)).any (·.coin.isSpent) = false := by decide
    rw [Option.mem_def] at hc
    rw [hc, Option.bind_some, hfind, Option.any_some, hs] at htop
    cases htop

/-- A coin of the base, spent twice, with true both times. -/
theorem spendCoin_twice_returns_true :
    ¬ SpendReports (((start 1 ⟨0, AList.singleton someOutpoint someCoin⟩).runOn [(0, .spendCoin someOutpoint)]).below 0)
      someOutpoint := by
  rintro ⟨hreturn, -⟩
  revert hreturn
  decide

end FullNode.CoinsView

import FullNode.MempoolLeaving
import FullNode.MempoolSubmit

/-! # Reuse of scripts -/

namespace FullNode.Mempool

open OrderedIndex List AList CTxMemPoolEntry
open TxRequest (memoryBytes)

inductive SpkRole where
  | created
  | spent
  deriving DecidableEq

def SpkRole.flag : SpkRole → SpkState → Bool
  | .created, s => s.created
  | .spent, s => s.spent

def SpkRole.holder : SpkRole → Option Uint256 × Option Uint256 → Option Uint256
  | .created, pair => pair.1
  | .spent, pair => pair.2

/-- The scripts of a transaction. `scripts` knows every output's. -/
def Uses (opts : Options) (scripts : COutPoint → CScript) : SpkRole → CTransaction → Uint160 → Prop
  | .created, tx, key => ∃ txout ∈ tx.vout, opts.scriptHashkey txout.scriptPubKey = key
  | .spent, tx, key => ∃ txin ∈ tx.vin, opts.scriptHashkey (scripts txin.prevout) = key

abbrev UsedSPK := AssocMap Uint160 (Option Uint256 × Option Uint256)

def usedBy (used : UsedSPK) (role : SpkRole) (key : Uint160) : Option Uint256 :=
  role.holder ((used.lookup key).getD (none, none))

def isClaimed (mapSPK : AssocMap Uint160 SpkState) (role : SpkRole) (key : Uint160) : Bool :=
  role.flag ((mapSPK.lookup key).getD {})

variable {opts : Options} {args : ATMPArgs} {facts : TxFacts} {scripts : COutPoint → CScript} {used : UsedSPK}
  {role : SpkRole} {key : Uint160} {k : Uint256} {tx : CTransaction} {mapSPK mapSPK' : AssocMap Uint160 SpkState}
  {conflicts conflicts' : AssocMap Uint256 Bool}
  {pool pool' : CTxMemPool} {e entry : CTxMemPoolEntry} {ws : Workspace}

namespace CTxMemPool

/-! ## The map -/

def NoneEmpty (used : UsedSPK) : Prop := ∀ key, used.lookup key ≠ some (none, none)

def pairWithout (k : Uint256) (pair : Option Uint256 × Option Uint256) : Option Uint256 × Option Uint256 :=
  (if pair.1 = some k then none else pair.1, if pair.2 = some k then none else pair.2)

theorem holder_pairWithout (pair : Option Uint256 × Option Uint256) :
    role.holder (pairWithout k pair) = if role.holder pair = some k then none else role.holder pair := by
  cases role
  · rfl
  · rfl

theorem lookup_releaseSPK (k : Uint256) (used : UsedSPK) (freed key : Uint160) : (releaseSPK k used freed).lookup key =
    if key = freed then (if pairWithout k ((used.lookup key).getD (none, none)) = (none, none) then none
      else some (pairWithout k ((used.lookup key).getD (none, none)))) else used.lookup key := by
  change (if pairWithout k ((used.lookup freed).getD (none, none)) = (none, none) then used.erase freed
    else used.insert freed (pairWithout k ((used.lookup freed).getD (none, none)))).lookup key = _
  by_cases hkey : key = freed
  · subst hkey
    rw [if_pos rfl]
    split
    · exact lookup_erase key used
    · exact lookup_insert used
  · rw [if_neg hkey]
    split
    · exact lookup_erase_ne hkey
    · exact lookup_insert_ne hkey

theorem usedBy_releaseSPK (k : Uint256) (used : UsedSPK) (freed : Uint160) (role : SpkRole) (key : Uint160) :
    usedBy (releaseSPK k used freed) role key =
      if key = freed ∧ usedBy used role key = some k then none else usedBy used role key := by
  have hpair : usedBy (releaseSPK k used freed) role key =
      if key = freed then role.holder (pairWithout k ((used.lookup key).getD (none, none)))
        else usedBy used role key := by
    unfold usedBy
    rw [lookup_releaseSPK]
    split
    · split
      · next hempty => rw [hempty, Option.getD_none]
      · rfl
    · rfl
  rw [hpair, holder_pairWithout, ite_and]
  rfl

theorem releaseSPK_noneEmpty (freed : Uint160) (h : NoneEmpty used) : NoneEmpty (releaseSPK k used freed) := by
  intro key
  rw [lookup_releaseSPK]
  split
  · split
    · exact Option.some_ne_none _ ∘ Eq.symm
    · next hheld => exact fun hbad => hheld (Option.some.inj hbad)
  · exact h key

theorem usedBy_releaseAll (k : Uint256) (freed : List Uint160) (used : UsedSPK) (role : SpkRole) (key : Uint160) :
    usedBy (freed.foldl (releaseSPK k) used) role key =
      if key ∈ freed ∧ usedBy used role key = some k then none else usedBy used role key := by
  induction freed generalizing used with
  | nil => simp
  | cons first freed ih =>
    rw [foldl_cons, ih, usedBy_releaseSPK]
    simp only [mem_cons]
    grind

theorem releaseAll_noneEmpty (freed : List Uint160) (h : NoneEmpty used) :
    NoneEmpty (freed.foldl (releaseSPK k) used) := by
  induction freed generalizing used with
  | nil => exact h
  | cons first freed ih => exact ih (releaseSPK_noneEmpty first h)

theorem lookup_claimSPK (k : Uint256) (used : UsedSPK) (claim : Σ _ : Uint160, SpkState) (key : Uint160) :
    (claimSPK k used claim).lookup key = if key = claim.1 ∧ (claim.2.created ∨ claim.2.spent) then
      some (if claim.2.created then some k else usedBy used .created key,
        if claim.2.spent then some k else usedBy used .spent key)
    else used.lookup key := by
  have hcode : claimSPK k used claim = if claim.2.created ∨ claim.2.spent then used.insert claim.1
      (if claim.2.created then some k else usedBy used .created claim.1,
        if claim.2.spent then some k else usedBy used .spent claim.1) else used := rfl
  rw [hcode]
  by_cases hkey : key = claim.1
  · subst hkey
    simp only [true_and]
    split
    · exact lookup_insert used
    · rfl
  · simp only [hkey, false_and, if_false]
    split
    · exact lookup_insert_ne hkey
    · rfl

theorem usedBy_claimSPK (k : Uint256) (used : UsedSPK) (claim : Σ _ : Uint160, SpkState) (role : SpkRole)
    (key : Uint160) :
    usedBy (claimSPK k used claim) role key =
      if key = claim.1 ∧ role.flag claim.2 = true then some k else usedBy used role key := by
  have hlookup := lookup_claimSPK k used claim key
  unfold usedBy at hlookup ⊢
  rw [hlookup]
  cases role <;> simp only [SpkRole.holder, SpkRole.flag] <;> split <;> grind

theorem claimSPK_noneEmpty (claim : Σ _ : Uint160, SpkState) (h : NoneEmpty used) :
    NoneEmpty (claimSPK k used claim) := by
  intro key
  rw [lookup_claimSPK]
  split
  · next hclaims =>
    intro hbad
    rw [Option.some.injEq, Prod.mk.injEq] at hbad
    obtain ⟨hfirst, hsecond⟩ := hbad
    rcases hclaims.2 with hc | hc
    · rw [if_pos hc] at hfirst
      cases hfirst
    · rw [if_pos hc] at hsecond
      cases hsecond
  · exact h key

theorem usedBy_claimAll (k : Uint256) (list : List (Σ _ : Uint160, SpkState)) (used : UsedSPK) (role : SpkRole)
    (key : Uint160) : usedBy (list.foldl (claimSPK k) used) role key =
      if ∃ claim ∈ list, key = claim.1 ∧ role.flag claim.2 = true then some k else usedBy used role key := by
  induction list generalizing used with
  | nil => simp
  | cons first list ih =>
    rw [foldl_cons, ih, usedBy_claimSPK]
    simp only [mem_cons, exists_eq_or_imp]
    split <;> grind

theorem claimAll_noneEmpty (list : List (Σ _ : Uint160, SpkState)) (h : NoneEmpty used) :
    NoneEmpty (list.foldl (claimSPK k) used) := by
  induction list generalizing used with
  | nil => exact h
  | cons first list ih => exact ih (claimSPK_noneEmpty first h)

theorem exists_claim : (∃ claim ∈ mapSPK.entries, key = claim.1 ∧ role.flag claim.2 = true) ↔
    isClaimed mapSPK role key = true := by
  unfold isClaimed
  constructor
  · rintro ⟨⟨_, state⟩, hmem, rfl, hflag⟩
    rw [mem_lookup_iff.mpr hmem]
    exact hflag
  · intro hflag
    cases hlookup : mapSPK.lookup key with
    | none =>
      rw [hlookup] at hflag
      cases role <;> cases hflag
    | some state =>
      rw [hlookup] at hflag
      exact ⟨⟨key, state⟩, mem_lookup_iff.mp hlookup, rfl, hflag⟩

theorem mem_keys_of_isClaimed (h : isClaimed mapSPK role key = true) : key ∈ mapSPK.keys := by
  obtain ⟨_, hmem, rfl, -⟩ := exists_claim.mpr h
  exact mem_map_of_mem hmem

/-! ## Entries and the map -/

/-- Entries claim the scripts they use, and the map has the users. -/
structure UsedExactly (opts : Options) (scripts : COutPoint → CScript) (pool : CTxMemPool) : Prop where
  claims : ∀ {k e}, pool.find k = some e → ∀ role key, isClaimed e.mapSPK role key = true ↔
      Uses opts scripts role e.tx key
  user : ∀ role key k, usedBy pool.mapUsedSPK role key = some k ↔
      ∃ e, pool.find k = some e ∧ Uses opts scripts role e.tx key
  noneEmpty : NoneEmpty pool.mapUsedSPK

theorem spk_of_bare {e' : CTxMemPoolEntry} (h : e'.bare = e.bare) : e'.mapSPK = e.mapSPK :=
  (congrArg mapSPK h : e'.bare.mapSPK = e.bare.mapSPK)

theorem UsedExactly.of_same (h : UsedExactly opts scripts pool) (hbare : SameBare pool pool')
    (hused : pool'.mapUsedSPK = pool.mapUsedSPK) : UsedExactly opts scripts pool' := by
  refine ⟨?_, ?_, hused ▸ h.noneEmpty⟩
  · intro k e' he' role key
    obtain ⟨e, he, hown⟩ := hbare.find he'
    rw [← tx_of_bare hown, ← spk_of_bare hown]
    exact h.claims he role key
  · intro role key k
    rw [hused, h.user]
    constructor
    · rintro ⟨e, he, huses⟩
      obtain ⟨e', he', hown⟩ := hbare.symm.find he
      exact ⟨e', he', tx_of_bare hown ▸ huses⟩
    · rintro ⟨e', he', huses⟩
      obtain ⟨e, he, hown⟩ := hbare.find he'
      exact ⟨e, he, tx_of_bare hown ▸ huses⟩

theorem UsedExactly.removeUnchecked (h : UsedExactly opts scripts pool) (hremove : pool.removeUnchecked k = .ok pool') :
    UsedExactly opts scripts pool' := by
  obtain ⟨_, pool1, hit, hdrop, rfl⟩ := removeUnchecked_ok hremove
  have hshuffled := dropRandomized_shuffled hdrop
  have h1 := h.of_same hshuffled.sameBare hshuffled.mapUsedSPK
  obtain ⟨_, hit1, hown⟩ := hshuffled.sameBare.symm.find hit
  rw [← spk_of_bare hown]
  have hfind : ∀ j, ({ pool1 with mapTx := pool1.mapTx.erase k } : CTxMemPool).find j =
    if j = k then none else pool1.find j := find_erase pool1 k
  refine ⟨?_, ?_, releaseAll_noneEmpty _ h1.noneEmpty⟩
  · intro j e he role key
    have hj := (hfind j).symm.trans he
    split at hj
    · cases hj
    · exact h1.claims hj role key
  · intro role key j
    rw [usedBy_releaseAll]
    constructor
    · intro huser
      split at huser
      · cases huser
      · next hnot =>
        obtain ⟨e, he, huses⟩ := (h1.user role key j).mp huser
        have hj : j ≠ k := by
          rintro rfl
          rw [hit1] at he
          cases he
          exact hnot ⟨mem_keys_of_isClaimed ((h1.claims hit1 role key).mpr huses), huser⟩
        exact ⟨e, (hfind j).trans ((if_neg hj).trans he), huses⟩
    · rintro ⟨e, he, huses⟩
      have hj := (hfind j).symm.trans he
      split at hj
      · cases hj
      · next hne =>
        have huser := (h1.user role key j).mpr ⟨e, hj, huses⟩
        rw [if_neg, huser]
        rintro ⟨-, hbad⟩
        rw [huser] at hbad
        exact hne (Option.some.inj hbad)

variable {stage : List Uint256} {entries : List CTxMemPoolEntry}

theorem UsedExactly.removeStaged {updateDescendants : Bool} (h : UsedExactly opts scripts pool)
    (hremove : pool.removeStaged stage updateDescendants = .ok pool') : UsedExactly opts scripts pool' := by
  unfold CTxMemPool.removeStaged at hremove
  obtain ⟨_, hupdate, hremove⟩ := bind_ok.mp hremove
  have hframed := updateForRemoveFromMempool_framed hupdate
  exact foldlM_keeps (P := UsedExactly opts scripts) (fun _ _ _ hone h => h.removeUnchecked hone) hremove
    (h.of_same hframed.sameBare hframed.mapUsedSPK)

theorem usedExactly_kept : KeptByRemoval (UsedExactly opts scripts) :=
  ⟨⟨fun _ hremove h => h.removeStaged hremove, fun h => h.of_same (fun _ => rfl) rfl⟩, fun hremove h =>
    h.removeStaged hremove⟩

/-! ## A transaction enters -/

def Claimed (opts : Options) (scripts : COutPoint → CScript) (entry : CTxMemPoolEntry) : Prop :=
  ∀ role key, isClaimed entry.mapSPK role key = true ↔ Uses opts scripts role entry.tx key

def Unclaimed (opts : Options) (scripts : COutPoint → CScript) (pool : CTxMemPool) (tx : CTransaction) : Prop :=
  ∀ role key, Uses opts scripts role tx key → usedBy pool.mapUsedSPK role key = none

def NoSharedScript (opts : Options) (scripts : COutPoint → CScript) (tx tx' : CTransaction) : Prop :=
  ∀ role key, ¬(Uses opts scripts role tx key ∧ Uses opts scripts role tx' key)

theorem UsedExactly.add {set : List Uint256} (h : UsedExactly opts scripts pool)
    (hfresh : pool.find entry.tx.hash = none) (hclaimed : Claimed opts scripts entry)
    (hunclaimed : Unclaimed opts scripts pool entry.tx)
    (hadd : (pool.insertEntry entry).addNewTransaction entry.tx.hash set = .ok pool') :
    UsedExactly opts scripts pool' ∧ ∀ {tx}, Unclaimed opts scripts pool tx →
      NoSharedScript opts scripts entry.tx tx → Unclaimed opts scripts pool' tx := by
  have hused : ∀ role key, usedBy pool'.mapUsedSPK role key =
      if isClaimed entry.mapSPK role key = true then some entry.tx.hash else usedBy pool.mapUsedSPK role key := by
    obtain ⟨pool1, e1, -, -, rfl⟩ := addNewTransaction_ok hadd (by rw [find_insertEntry, if_pos rfl])
    intro role key
    refine (usedBy_claimAll entry.tx.hash entry.mapSPK.entries pool.mapUsedSPK role key).trans ?_
    simp only [exists_claim]
  have hempty : NoneEmpty pool'.mapUsedSPK := by
    obtain ⟨pool1, e1, -, -, rfl⟩ := addNewTransaction_ok hadd (by rw [find_insertEntry, if_pos rfl])
    exact claimAll_noneEmpty entry.mapSPK.entries h.noneEmpty
  refine ⟨⟨?_, ?_, hempty⟩, ?_⟩
  · intro j e' he' role key
    rcases add_found hadd he' with ⟨-, hown⟩ | ⟨-, e, he, hown⟩
    · rw [tx_of_bare hown, spk_of_bare hown]
      exact hclaimed role key
    · rw [tx_of_bare hown, spk_of_bare hown]
      exact h.claims he role key
  · intro role key j
    rw [hused]
    constructor
    · intro huser
      split at huser
      · next hclaims =>
        cases huser
        obtain ⟨e', he', hown⟩ := add_new hadd
        exact ⟨e', he', (tx_of_bare hown).symm ▸ (hclaimed role key).mp hclaims⟩
      · obtain ⟨e, he, huses⟩ := (h.user role key j).mp huser
        have hj : j ≠ entry.tx.hash := by
          rintro rfl
          rw [hfresh] at he
          cases he
        obtain ⟨e', he', hown⟩ := add_old hadd hj he
        exact ⟨e', he', (tx_of_bare hown).symm ▸ huses⟩
    · rintro ⟨e', he', huses⟩
      rcases add_found hadd he' with ⟨hj, hown⟩ | ⟨-, e, he, hown⟩
      · rw [tx_of_bare hown] at huses
        rw [if_pos ((hclaimed role key).mpr huses), hj]
      · rw [tx_of_bare hown] at huses
        have huser := (h.user role key j).mpr ⟨e, he, huses⟩
        rw [if_neg, huser]
        intro hclaims
        rw [hunclaimed role key ((hclaimed role key).mp hclaims)] at huser
        cases huser
  · intro tx hfree hshared role key huses
    rw [hused, if_neg, hfree role key huses]
    intro hclaims
    exact hshared role key ⟨(hclaimed role key).mp hclaims, huses⟩

theorem UsedExactly.enters (henters : Enters pool entries pool') (h : UsedExactly opts scripts pool)
    (hclaimed : ∀ entry ∈ entries, Claimed opts scripts entry)
    (hunclaimed : ∀ entry ∈ entries, Unclaimed opts scripts pool entry.tx)
    (hshared : entries.Pairwise fun e e' => NoSharedScript opts scripts e.tx e'.tx) :
    UsedExactly opts scripts pool' := by
  induction henters with
  | nil => exact h
  | cons hfresh hadd hrest ih =>
    obtain ⟨hfirst, hothers⟩ := pairwise_cons.mp hshared
    obtain ⟨h1, hfree⟩ := h.add hfresh (hclaimed _ mem_cons_self) (hunclaimed _ mem_cons_self) hadd
    refine ih h1 (fun e he => hclaimed e (mem_cons_of_mem _ he)) (fun e he => ?_) hothers
    exact hfree (hunclaimed e (mem_cons_of_mem _ he)) (hfirst e he)

theorem UsedExactly.unclaimed_after {tx : CTransaction} (h : UsedExactly opts scripts pool)
    (hremove : pool.removeStaged stage false = .ok pool')
    (hstaged : ∀ role key k, Uses opts scripts role tx key → usedBy pool.mapUsedSPK role key = some k → k ∈ stage) :
    Unclaimed opts scripts pool' tx := by
  intro role key huses
  rw [Option.eq_none_iff_forall_ne_some]
  intro k huser
  obtain ⟨_, he', hother⟩ := ((h.removeStaged hremove).user role key k).mp huser
  obtain ⟨hkept, e, he, htx⟩ := removeStaged_left hremove he'
  rw [htx] at hother
  exact hkept (hstaged role key k huses ((h.user role key k).mpr ⟨e, he, hother⟩))

theorem UsedExactly.apply {cached : List Uint256} (h : UsedExactly opts scripts pool)
    (happly : pool.apply stage cached entries = .ok pool') (hclaimed : ∀ entry ∈ entries, Claimed opts scripts entry)
    (hstaged : ∀ entry ∈ entries, ∀ role key k, Uses opts scripts role entry.tx key →
      usedBy pool.mapUsedSPK role key = some k → k ∈ stage)
    (hshared : entries.Pairwise fun e e' => NoSharedScript opts scripts e.tx e'.tx) :
    UsedExactly opts scripts pool' := by
  obtain ⟨_, hremove, henters⟩ := apply_ok happly
  exact (h.removeStaged hremove).enters henters hclaimed
    (fun entry hentry => h.unclaimed_after hremove (hstaged entry hentry)) hshared

end CTxMemPool

/-! ## What `PreChecks` finds -/

theorem isClaimed_insert (role' : SpkRole) (key' : Uint160) (state : SpkState)
    (hstate : ∀ role, role.flag state = (isClaimed mapSPK role key' || decide (role = role'))) (role : SpkRole)
    (key : Uint160) :
    isClaimed (mapSPK.insert key' state) role key = true ↔
      isClaimed mapSPK role key = true ∨ role = role' ∧ key' = key := by
  by_cases hkey : key = key'
  · subst hkey
    have hinsert : isClaimed (mapSPK.insert key state) role key = role.flag state := by
      unfold isClaimed
      rw [lookup_insert, Option.getD_some]
    rw [hinsert, hstate, Bool.or_eq_true, decide_eq_true_eq, and_iff_left rfl]
  · unfold isClaimed
    rw [lookup_insert_ne hkey]
    simp [Ne.symm hkey]

theorem collectCreated_claims {vout : List CTxOut}
    (h : collectCreated pool opts args vout conflicts mapSPK = .ok (conflicts', mapSPK')) (role : SpkRole)
    (key : Uint160) : isClaimed mapSPK' role key = true ↔
      isClaimed mapSPK role key = true ∨ role = .created ∧ ∃ txout ∈ vout,
        opts.scriptHashkey txout.scriptPubKey = key := by
  induction vout generalizing conflicts mapSPK with
  | nil =>
    cases h
    simp
  | cons txout vout ih =>
    unfold collectCreated at h
    obtain ⟨⟨⟩, -, h⟩ := bind_ok.mp h
    rw [ih h, isClaimed_insert .created (opts.scriptHashkey txout.scriptPubKey)]
    · simp only [mem_cons, exists_eq_or_imp]
      tauto
    · intro role
      cases role
      · simp [SpkRole.flag]
      · simp [SpkRole.flag, isClaimed]

theorem collectSpent_claims {coins : COutPoint → Option Coin} {vin : List CTxIn}
    (h : collectSpent pool opts args coins vin conflicts mapSPK = .ok (conflicts', mapSPK')) (role : SpkRole)
    (key : Uint160) : isClaimed mapSPK' role key = true ↔ isClaimed mapSPK role key = true ∨
      role = .spent ∧ ∃ txin ∈ vin,
        opts.scriptHashkey ((coins txin.prevout).getD Coin.empty).out.scriptPubKey = key := by
  induction vin generalizing conflicts mapSPK with
  | nil =>
    cases h
    simp
  | cons txin vin ih =>
    unfold collectSpent at h
    obtain ⟨⟨⟩, -, h⟩ := bind_ok.mp h
    rw [ih h, isClaimed_insert .spent (opts.scriptHashkey ((coins txin.prevout).getD Coin.empty).out.scriptPubKey)]
    · simp only [mem_cons, exists_eq_or_imp]
      tauto
    · intro role
      cases role
      · simp [SpkRole.flag, isClaimed]
      · simp [SpkRole.flag]

def TrueCoins (scripts : COutPoint → CScript) (facts : TxFacts) : Prop := ∀ o c, facts.coins o = some c →
    c.out.scriptPubKey = scripts o

def RejectsReuse (opts : Options) (args : ATMPArgs) : Prop := opts.spkReuseMode = .reject ∧ args.ignoreRejects = []

theorem RejectsReuse.reuseMode (h : RejectsReuse opts args) : reuseMode opts args ≠ .allow := by
  unfold FullNode.Mempool.reuseMode
  rw [h.2, if_neg not_mem_nil, h.1]
  exact fun hbad => SpkReuseModes.noConfusion hbad

theorem missingInputs_ok (h : missingInputs facts tx = .ok ()) :
    ∀ txin ∈ tx.vin, ∃ c, facts.coins txin.prevout = some c := by
  unfold missingInputs at h
  split at h
  · next hall => exact fun txin htxin => Option.isSome_iff_exists.mp (all_eq_true.mp hall txin htxin)
  · split at h
    · cases h
    · cases h

theorem TrueCoins.script (htrue : TrueCoins scripts facts) {txin : CTxIn} (h : ∃ c, facts.coins txin.prevout = some c) :
    ((facts.coins txin.prevout).getD Coin.empty).out.scriptPubKey = scripts txin.prevout := by
  obtain ⟨c, hc⟩ := h
  rw [hc, Option.getD_some]
  exact htrue _ c hc

theorem preChecks_claimed (hmode : RejectsReuse opts args) (htrue : TrueCoins scripts facts)
    (h : preChecks pool opts args facts tx = .ok ws) :
    CTxMemPool.Claimed opts scripts ws.entry ∧ ∀ txin ∈ tx.vin, ∃ c, facts.coins txin.prevout = some c := by
  have htx := (preChecks_spec h).entryTx
  unfold preChecks at h
  obtain ⟨_, -, h⟩ := bind_ok.mp h
  obtain ⟨_, -, h⟩ := bind_ok.mp h
  obtain ⟨⟨_, _⟩, hcreated, h⟩ := bind_ok.mp h
  obtain ⟨_, hcoins, h⟩ := bind_ok.mp h
  obtain ⟨⟨_, mapSPK3⟩, hspent, h⟩ := bind_ok.mp h
  obtain ⟨_, -, h⟩ := bind_ok.mp h
  obtain ⟨_, -, h⟩ := bind_ok.mp h
  obtain ⟨_, -, h⟩ := bind_ok.mp h
  obtain ⟨_, -, h⟩ := bind_ok.mp h
  obtain ⟨⟨_, _, _⟩, -, h⟩ := bind_ok.mp h
  obtain ⟨_, -, h⟩ := bind_ok.mp h
  cases h
  obtain ⟨⟨⟩, hmissing, -⟩ := bind_ok.mp hcoins
  have hfound := missingInputs_ok hmissing
  refine ⟨fun role key => ?_, hfound⟩
  unfold collectCreatedIf at hcreated
  unfold collectSpentIf at hspent
  rw [if_neg hmode.reuseMode] at hcreated hspent
  change isClaimed mapSPK3 role key = true ↔ _
  rw [collectSpent_claims hspent, collectCreated_claims hcreated, htx]
  have hnone : isClaimed ∅ role key = false := by
    unfold isClaimed
    rw [lookup_empty]
    cases role <;> rfl
  rw [hnone]
  cases role with
  | created => simp [Uses]
  | spent =>
    simp only [Bool.false_eq_true, false_or, true_and, false_and, reduceCtorEq, Uses]
    constructor
    · rintro ⟨txin, htxin, hkey⟩
      exact ⟨txin, htxin, htrue.script (hfound txin htxin) ▸ hkey⟩
    · rintro ⟨txin, htxin, hkey⟩
      exact ⟨txin, htxin, (htrue.script (hfound txin htxin)).symm ▸ hkey⟩

namespace CTxMemPool

theorem preChecks_conflicts (hexact : UsedExactly opts scripts pool) (hmode : RejectsReuse opts args)
    (htrue : TrueCoins scripts facts) (h : preChecks pool opts args facts tx = .ok ws)
    (huses : Uses opts scripts role tx key) (hused : usedBy pool.mapUsedSPK role key = some k) :
    k ∈ ws.itersConflicting ∧ ws.conflictsInclPolicy.keys.isEmpty = false := by
  have hspec := preChecks_spec h
  obtain ⟨_, he, -⟩ := (hexact.user role key k).mp hused
  -- the pair of the script is there, since one part of it is
  obtain ⟨pair, hpair, hholder⟩ : ∃ pair, pool.mapUsedSPK.lookup key = some pair ∧ role.holder pair = some k := by
    unfold usedBy at hused
    cases hlookup : pool.mapUsedSPK.lookup key with
    | none =>
      rw [hlookup] at hused
      cases role <;> cases hused
    | some pair =>
      rw [hlookup] at hused
      exact ⟨pair, rfl, hused⟩
  have hreuses : ReusesScript pool opts args facts tx k := by
    refine ⟨hmode.reuseMode, ?_⟩
    cases role with
    | created =>
      obtain ⟨txout, htxout, rfl⟩ := huses
      exact .inl ⟨txout, htxout, pair, hpair, .inl hholder⟩
    | spent =>
      obtain ⟨txin, htxin, rfl⟩ := huses
      have hscript := htrue.script ((preChecks_claimed hmode htrue h).2 txin htxin)
      exact .inr ⟨txin, htxin, pair, by rw [hscript, hpair], hholder⟩
  have hmem : k ∈ ws.conflictsInclPolicy := (hspec.recorded.mem k).mpr (.inr (.inl hreuses))
  refine ⟨(hspec.iters k).mpr ⟨hmem, mem_keys_of_find he⟩, ?_⟩
  rw [isEmpty_eq_false_iff_exists_mem]
  exact ⟨k, AList.mem_keys.mp hmem⟩

/-! ## Acceptance -/

theorem UsedExactly.acceptSingle {s : Submission} {passes : Bool} (hexact : UsedExactly opts scripts pool)
    (hmode : RejectsReuse opts args) (htrue : TrueCoins scripts s.facts)
    (h : acceptSingleTransaction opts args s passes pool = .ok pool') : UsedExactly opts scripts pool' := by
  unfold acceptSingleTransaction at h
  obtain ⟨_, hchecks, h⟩ := bind_ok.mp h
  obtain ⟨_, hstage, h⟩ := bind_ok.mp h
  obtain ⟨⟨⟩, -, h⟩ := bind_ok.mp h
  rw [liftFault_ok] at h
  refine hexact.apply h ?_ ?_ (pairwise_singleton _ _)
  · intro entry hentry
    rw [mem_singleton.mp hentry]
    exact (preChecks_claimed hmode htrue hchecks).1
  · intro entry hentry role key k huses hused
    rw [mem_singleton.mp hentry, (preChecks_spec hchecks).entryTx] at huses
    obtain ⟨hconflict, hnonempty⟩ := preChecks_conflicts hexact hmode htrue hchecks huses hused
    unfold stageReplacement at hstage
    rw [if_neg (ne_true_of_eq_false hnonempty)] at hstage
    unfold replacementChecks at hstage
    obtain ⟨⟨⟩, -, hstage⟩ := bind_ok.mp hstage
    obtain ⟨_, -, hstage⟩ := bind_ok.mp hstage
    obtain ⟨⟨⟩, -, hstage⟩ := bind_ok.mp hstage
    obtain ⟨_, hall, hstage⟩ := bind_ok.mp hstage
    obtain ⟨⟨⟩, -, hstage⟩ := bind_ok.mp hstage
    obtain ⟨_, -, hstage⟩ := bind_ok.mp hstage
    obtain ⟨⟨⟩, -, hstage⟩ := bind_ok.mp hstage
    cases hstage
    exact mem_calculateAllDescendants (liftFault_ok.mp hall) (.inl hconflict)

variable {workspaces : List Workspace} {package : List Submission}

theorem mem_mergedConflicts (hws : ws ∈ workspaces) (hk : k ∈ ws.itersConflicting) : k ∈
    mergedConflicts workspaces := by
  unfold mergedConflicts
  generalize ([] : List Uint256) = set
  have hkept : ∀ (workspaces : List Workspace) (set : List Uint256), k ∈ set →
      k ∈ workspaces.foldl (fun set ws =>
        ws.itersConflicting.foldl (fun set it => insertNew memoryBytes it set) set) set := by
    intro workspaces
    induction workspaces with
    | nil => exact fun _ hmem => hmem
    | cons first workspaces ih =>
      exact fun set hmem => ih _ (((foldl_insertNew first.itersConflicting set).1 k).mpr (.inr hmem))
  induction workspaces generalizing set with
  | nil => cases hws
  | cons first workspaces ih =>
    rw [foldl_cons]
    rcases mem_cons.mp hws with rfl | hws
    · exact hkept workspaces _ (((foldl_insertNew ws.itersConflicting set).1 k).mpr (.inl hk))
    · exact ih hws _

theorem mapM_forall₂ {α β : Type} {f : α → Except Refusal β} {xs : List α} {ys : List β} (h : xs.mapM f = .ok ys) :
    Forall₂ (fun x y => f x = .ok y) xs ys := by
  induction xs generalizing ys with
  | nil =>
    cases h
    exact .nil
  | cons x xs ih =>
    rw [mapM_cons] at h
    obtain ⟨y, hy, h⟩ := bind_ok.mp h
    obtain ⟨_, hrest, h⟩ := bind_ok.mp h
    cases h
    exact .cons hy (ih hrest)

theorem preChecks_txs (h : Forall₂ (fun s ws => preChecks pool opts args s.facts s.tx = .ok ws) package workspaces) :
    (workspaces.map Workspace.entry).map CTxMemPoolEntry.tx = package.map Submission.tx := by
  induction h with
  | nil => rfl
  | cons hfirst _ ih => rw [map_cons, map_cons, map_cons, ih, (preChecks_spec hfirst).entryTx]

theorem UsedExactly.acceptMultiple {passes : Bool} (hexact : UsedExactly opts scripts pool)
    (hmode : RejectsReuse opts args) (htrue : ∀ s ∈ package, TrueCoins scripts s.facts)
    (hshared : package.Pairwise fun s s' => NoSharedScript opts scripts s.tx s'.tx)
    (h : acceptMultipleTransactions opts args package passes pool = .ok pool') : UsedExactly opts scripts pool' := by
  unfold acceptMultipleTransactions at h
  obtain ⟨workspaces, hchecks, h⟩ := bind_ok.mp h
  obtain ⟨_, hstage, h⟩ := bind_ok.mp h
  obtain ⟨⟨⟩, -, h⟩ := bind_ok.mp h
  rw [liftFault_ok] at h
  have hall := mapM_forall₂ hchecks
  have hmember : ∀ ws ∈ workspaces, ∃ s ∈ package, preChecks pool opts args s.facts s.tx = .ok ws := by
    intro ws hws
    obtain ⟨i, hi, rfl⟩ := mem_iff_getElem.mp hws
    have hi' : i < package.length := by rw [hall.length_eq]; exact hi
    exact ⟨package[i], getElem_mem hi', hall.get hi' hi⟩
  refine hexact.apply h ?_ ?_ ?_
  · intro entry hentry
    obtain ⟨ws, hws, rfl⟩ := mem_map.mp hentry
    obtain ⟨s, hs, hcheck⟩ := hmember ws hws
    exact (preChecks_claimed hmode (htrue s hs) hcheck).1
  · intro entry hentry role key k huses hused
    obtain ⟨ws, hws, rfl⟩ := mem_map.mp hentry
    obtain ⟨s, hs, hcheck⟩ := hmember ws hws
    rw [(preChecks_spec hcheck).entryTx] at huses
    obtain ⟨hconflict, hnonempty⟩ := preChecks_conflicts hexact hmode (htrue s hs) hcheck huses hused
    unfold packageMempoolChecks at hstage
    split at hstage
    · next hnone =>
      rw [all_eq_true] at hnone
      exact absurd (hnone ws hws) (ne_true_of_eq_false hnonempty)
    · obtain ⟨⟨⟩, -, hstage⟩ := bind_ok.mp hstage
      obtain ⟨⟨⟩, -, hstage⟩ := bind_ok.mp hstage
      obtain ⟨_, -, hstage⟩ := bind_ok.mp hstage
      obtain ⟨⟨⟩, -, hstage⟩ := bind_ok.mp hstage
      obtain ⟨_, hdescendants, hstage⟩ := bind_ok.mp hstage
      obtain ⟨_, -, hstage⟩ := bind_ok.mp hstage
      obtain ⟨_, -, hstage⟩ := bind_ok.mp hstage
      obtain ⟨⟨⟩, -, hstage⟩ := bind_ok.mp hstage
      cases hstage
      exact mem_calculateAllDescendants (liftFault_ok.mp hdescendants) (.inl (mem_mergedConflicts hws hconflict))
  · have hpairs : ((workspaces.map Workspace.entry).map tx).Pairwise (NoSharedScript opts scripts) := by
      rw [preChecks_txs hall]
      exact pairwise_map.mpr hshared
    exact pairwise_map.mp hpairs

/-! ## Runs -/

/-- A package is what is left after members were tried alone. -/
inductive PoolEvent where
  | single (args : ATMPArgs) (s : Submission) (passes : Bool)
  | package (args : ATMPArgs) (members : List Submission) (passes : Bool)
  | connect (vtx : List CTransaction)
  | expire (time : Int)
  | trim (full : CTxMemPool → Bool) (its : List Uint256)

def PoolEvent.happen (opts : Options) (pool : CTxMemPool) : PoolEvent → Except Refusal CTxMemPool
  | .single args s passes => acceptSingleTransaction opts args s passes pool
  | .package args members passes => acceptSubPackage opts args members passes pool
  | .connect vtx => liftFault (pool.removeForBlock vtx)
  | .expire time => liftFault (pool.expire time)
  | .trim full its => liftFault (trimToSize full its pool)

/-- Reuse is rejected, and coins have the scripts of the outputs. -/
def PoolEvent.Strict (opts : Options) (scripts : COutPoint → CScript) : PoolEvent → Prop
  | .single args s _ => RejectsReuse opts args ∧ TrueCoins scripts s.facts
  | .package args members _ => RejectsReuse opts args ∧ ∀ s ∈ members, TrueCoins scripts s.facts
  | _ => True

def PoolEvent.NoSharedScripts (opts : Options) (scripts : COutPoint → CScript) : PoolEvent → Prop
  | .package _ members _ => members.Pairwise fun s s' => NoSharedScript opts scripts s.tx s'.tx
  | _ => True

/-- The pools reached from the empty one by such events. -/
inductive PoolRun (opts : Options) (P : PoolEvent → Prop) : CTxMemPool → Prop
  | empty : PoolRun opts P {}
  | event {pool pool' : CTxMemPool} {event : PoolEvent} (hrun : PoolRun opts P pool) (hevent : P event)
      (h : event.happen opts pool = .ok pool') : PoolRun opts P pool'

/-- One creator and one spender at most, and the map has them. -/
structure ReuseExcluded (opts : Options) (scripts : COutPoint → CScript) (pool : CTxMemPool) : Prop where
  single : ∀ {role key k k' e e'}, pool.find k = some e → pool.find k' = some e' →
      Uses opts scripts role e.tx key → Uses opts scripts role e'.tx key → k = k'
  user : ∀ role key k, usedBy pool.mapUsedSPK role key = some k ↔
      ∃ e, pool.find k = some e ∧ Uses opts scripts role e.tx key
  present : ∀ key, key ∈ pool.mapUsedSPK ↔ ∃ role k e, pool.find k = some e ∧ Uses opts scripts role e.tx key

theorem UsedExactly.excluded (h : UsedExactly opts scripts pool) : ReuseExcluded opts scripts pool := by
  refine ⟨?_, h.user, ?_⟩
  · intro role key k k' e e' he he' huses huses'
    have hk := (h.user role key k).mpr ⟨e, he, huses⟩
    rw [(h.user role key k').mpr ⟨e', he', huses'⟩] at hk
    exact (Option.some.inj hk).symm
  · intro key
    constructor
    · intro hmem
      obtain ⟨⟨first, second⟩, hlookup⟩ := Option.isSome_iff_exists.mp (lookup_isSome.mpr hmem)
      have husers : ∀ role, usedBy pool.mapUsedSPK role key = role.holder (first, second) :=
          fun role => by rw [usedBy, hlookup, Option.getD_some]
      cases first with
      | some k =>
        obtain ⟨e, hown⟩ := (h.user .created key k).mp (husers .created)
        exact ⟨.created, k, e, hown⟩
      | none =>
        cases second with
        | some k =>
          obtain ⟨e, hown⟩ := (h.user .spent key k).mp (husers .spent)
          exact ⟨.spent, k, e, hown⟩
        | none => exact absurd hlookup (h.noneEmpty key)
    · rintro ⟨role, k, e, hown⟩
      have huser := (h.user role key k).mpr ⟨e, hown⟩
      by_contra hmem
      rw [usedBy, lookup_eq_none.mpr hmem] at huser
      cases role <;> cases huser

theorem usedExactly_empty : UsedExactly opts scripts {} := by
  refine ⟨fun he => ?_, fun role key k => ?_, fun key => ?_⟩
  · cases he
  · constructor
    · intro huser
      cases role <;> cases huser
    · rintro ⟨_, he, -⟩
      cases he
  · exact (Option.some_ne_none _).symm

theorem UsedExactly.happen {event : PoolEvent} (h : UsedExactly opts scripts pool) (hstrict : event.Strict opts scripts)
    (hshared : event.NoSharedScripts opts scripts) (hhappen : event.happen opts pool = .ok pool') :
    UsedExactly opts scripts pool' := by
  cases event with
  | single args s passes => exact h.acceptSingle hstrict.1 hstrict.2 hhappen
  | package args members passes =>
    have hcode : acceptSubPackage opts args members passes pool = .ok pool' := hhappen
    unfold acceptSubPackage at hcode
    split at hcode
    · next s => exact h.acceptSingle ⟨hstrict.1.1, rfl⟩ (hstrict.2 s mem_cons_self) hcode
    · exact h.acceptMultiple hstrict.1 hstrict.2 hshared hcode
  | connect vtx => exact usedExactly_kept.removeForBlock (liftFault_ok.mp hhappen) h
  | expire time => exact usedExactly_kept.expire (liftFault_ok.mp hhappen) h
  | trim full its => exact usedExactly_kept.trimToSize (liftFault_ok.mp hhappen) h

/-- As long as no package uses a script twice in the same way. -/
theorem reuse_excluded (hrun : PoolRun opts
    (fun event => event.Strict opts scripts ∧ event.NoSharedScripts opts scripts) pool) :
    ReuseExcluded opts scripts pool := by
  apply UsedExactly.excluded
  induction hrun with
  | empty => exact usedExactly_empty
  | event _ hevent hhappen ih => exact ih.happen hevent.1 hevent.2 hhappen

/-! ### A package of two -/

def packageParent : CTransaction := ⟨[⟨⟨1, 0⟩, [], 0xfffffffd⟩], [⟨9000, [0x51]⟩, ⟨9000, [0x52]⟩], 2, 0, 10⟩

def packageChild (script : CScript) : CTransaction := ⟨[⟨⟨10, 0⟩, [], 0xfffffffd⟩], [⟨8000, script⟩], 2, 0, 20⟩

def packageScripts (o : COutPoint) : CScript := if o = ⟨1, 0⟩ then [0x50] else [0x51]

/-- The pool asks for more than the parent's fee. -/
def packageOptions : Options := { familyOptions with minFee := fun size => 5 * size }

def packageArgs : ATMPArgs := { familyArgs [] with packageFeerates := true }

def packageMembers (script : CScript) : List Submission :=
  [⟨packageParent, { familyFacts ⟨1, 0⟩ ⟨20000, [0x50]⟩ with witnessHash := 10, checkTxInputs := .ok 200 }⟩,
    ⟨packageChild script, { familyFacts ⟨10, 0⟩ ⟨9000, [0x51]⟩ with witnessHash := 20 }⟩]

theorem packageMembers_strict (script : CScript) :
    (PoolEvent.package packageArgs (packageMembers script) true).Strict packageOptions packageScripts := by
  refine ⟨⟨rfl, rfl⟩, ?_⟩
  intro s hs o c hc
  rcases mem_cons.mp hs with rfl | hs
  · have hcoin : (if o = ⟨1, 0⟩ then some (⟨⟨20000, [0x50]⟩, false, 0x7fffffff⟩ : Coin) else none) = some c := hc
    split at hcoin
    · next ho =>
      cases hcoin
      rw [ho]
      rfl
    · cases hcoin
  · rw [mem_singleton.mp hs] at hc
    have hcoin : (if o = ⟨10, 0⟩ then some (⟨⟨9000, [0x51]⟩, false, 0x7fffffff⟩ : Coin) else none) = some c := hc
    split at hcoin
    · next ho =>
      cases hcoin
      rw [ho]
      rfl
    · cases hcoin

/-- The child pays to a script of its own. -/
theorem package_reuse_excluded :
    ∃ pool, acceptSubPackage packageOptions packageArgs (packageMembers [0x53]) true {} = .ok pool ∧
    ReuseExcluded packageOptions packageScripts pool := by
  have hcode : ∃ pool, acceptSubPackage packageOptions packageArgs (packageMembers [0x53]) true {} = .ok pool := by
    have hok : (acceptSubPackage packageOptions packageArgs (packageMembers [0x53]) true {}).toOption.isSome =
        true := by decide
    generalize acceptSubPackage packageOptions packageArgs (packageMembers [0x53]) true {} = r at hok ⊢
    cases r with
    | ok pool => exact ⟨pool, rfl⟩
    | error f => cases hok
  obtain ⟨pool, hpool⟩ := hcode
  refine ⟨pool, hpool, reuse_excluded (.event .empty ⟨packageMembers_strict [0x53], ?_⟩ hpool)⟩
  refine pairwise_pair.mpr fun role key => ?_
  cases role with
  | created =>
    rintro ⟨⟨_, htxout, rfl⟩, ⟨_, htxout', hkey⟩⟩
    rw [mem_singleton.mp htxout'] at hkey
    rcases mem_cons.mp htxout with rfl | htxout
    · exact absurd hkey (by decide)
    · rw [mem_singleton.mp htxout] at hkey
      exact absurd hkey (by decide)
  | spent =>
    rintro ⟨⟨_, htxin, rfl⟩, ⟨_, htxin', hkey⟩⟩
    rw [mem_singleton.mp htxin, mem_singleton.mp htxin'] at hkey
    exact absurd hkey (by decide)

/-- The child pays to the parent's second script, and both enter. -/
theorem package_reuse_accepted :
    acceptSubPackage packageOptions packageArgs [(packageMembers [0x52]).head (by decide)] true {} =
      .error (.invalid ⟨.reconsiderable, rejectmsgLowfeeMempool⟩) ∧
    ∃ pool, PoolRun packageOptions (fun event => event.Strict packageOptions packageScripts) pool ∧
      ¬ReuseExcluded packageOptions packageScripts pool := by
  have halone : (acceptSubPackage packageOptions packageArgs [(packageMembers [0x52]).head (by decide)] true
      {}).map (fun _ => ()) = .error (.invalid ⟨.reconsiderable, rejectmsgLowfeeMempool⟩) := by decide
  refine ⟨?_, ?_⟩
  · generalize acceptSubPackage packageOptions packageArgs [(packageMembers [0x52]).head (by decide)] true {} =
      r at halone
    cases r with
    | ok pool => cases halone
    | error f =>
      cases halone
      rfl
  have hcode : (acceptSubPackage packageOptions packageArgs (packageMembers [0x52]) true {} >>= fun pool =>
      liftFault (check ((pool.find 10).any (fun e => e.tx = packageParent) && (pool.find 20).any fun e =>
        e.tx = packageChild [0x52]))) = .ok () := by
    decide
  obtain ⟨pool, hpool, hcode⟩ := bind_ok.mp hcode
  rw [liftFault_ok, check_ok, Bool.and_eq_true, Option.any_eq_true, Option.any_eq_true] at hcode
  obtain ⟨⟨e, he, htx⟩, ⟨e', he', htx'⟩⟩ := hcode
  rw [decide_eq_true_eq] at htx htx'
  refine ⟨pool, .event .empty (packageMembers_strict [0x52]) hpool, fun hexcluded => ?_⟩
  have hparent : Uses packageOptions packageScripts .created e.tx (familyScript [0x52]) := by
    rw [htx]
    exact ⟨⟨9000, [0x52]⟩, by decide, rfl⟩
  have hchild : Uses packageOptions packageScripts .created e'.tx (familyScript [0x52]) := by
    rw [htx']
    exact ⟨⟨8000, [0x52]⟩, by decide, rfl⟩
  exact absurd (hexcluded.single he he' hparent hchild) (by decide)

end CTxMemPool
end FullNode.Mempool

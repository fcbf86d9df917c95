import FullNode.Accepted

/-! # Disconnecting undoes connecting -/

open FullNode.CoinsView List AList

namespace FullNode

open CCoinsViewCache CTxIn

variable {v w : CoinsView} {o o' : COutPoint} {coin : Coin} {tx : CTransaction} {nHeight i : Nat}
  {vin : List CTxIn} {vout : List CTxOut} {out : CTxOut}

/-! ## The outputs of a transaction -/

def created (tx : CTransaction) (nHeight : Nat) : Nat → List CTxOut → COutPoint → Option Coin
  | _, [], _ => none
  | i, out :: vout, o =>
    if o = tx.outpoint i then
      if isUnspendable out.scriptPubKey then none else some ⟨out, tx.isCoinBase, nHeight⟩
    else created tx nHeight (i + 1) vout o

theorem outpoint_inj {m n : Nat} (h : tx.outpoint m = tx.outpoint n) : m = n :=
  congrArg COutPoint.n h

theorem created_before {n : Nat} (h : n < i) : created tx nHeight i vout (tx.outpoint n) = none := by
  induction vout generalizing i with
  | nil => rfl
  | cons out vout ih =>
    unfold created
    rw [if_neg]
    · exact ih (by omega)
    · intro heq
      have := outpoint_inj heq
      omega

theorem created_unspendable (h : isUnspendable out.scriptPubKey = true) (o : COutPoint) :
    created tx nHeight i (out :: vout) o = created tx nHeight (i + 1) vout o := by
  rw [created]
  split
  · next ho => rw [ho, created_before (by omega)]
  · rfl

structure Restorable (coin : Coin) : Prop where
  height : 0 < coin.nHeight
  spendable : isUnspendable coin.out.scriptPubKey = false

theorem created_restorable (hheight : 0 < nHeight) (h : created tx nHeight i vout o = some coin) : Restorable coin := by
  induction vout generalizing i with
  | nil => cases h
  | cons out vout ih =>
    unfold created at h
    split at h
    · split at h
      · cases h
      · next hscript =>
        cases h
        exact ⟨hheight, by simpa using hscript⟩
    · exact ih h

/-! ## Connecting -/

/-- Where the view shows a coin of the block, the top cache has it. -/
def OnTop (inBlock : COutPoint → Prop) (v : CoinsView) : Prop :=
  ∀ o, inBlock o → v.peek o ≠ none → ∃ c cs it, v.caches = c :: cs ∧ c.find o = some it

variable {inBlock : COutPoint → Prop}

theorem fetchCoin_onTop (h : OnTop inBlock v) (hv : Usable EntryOk v) (o : COutPoint) :
    OnTop inBlock (v.fetchCoin o).2 := by
  intro o' hin hpeek
  obtain ⟨-, hsame⟩ := (Reads.refl.fetch (v := v) o).spec hv
  rw [hsame] at hpeek
  obtain ⟨c, cs, it, hcaches, hfind⟩ := h o' hin hpeek
  obtain ⟨_, base⟩ := v
  simp only at hcaches
  subst hcaches
  unfold fetchCoin
  simp only
  cases hnone : c.find o with
  | some it' => exact ⟨c, cs, it, rfl, hfind⟩
  | none =>
    simp only
    generalize getCoinFrom base o cs = r
    obtain ⟨_ | _, cs'⟩ := r
    · exact ⟨c, cs', it, rfl, hfind⟩
    · refine ⟨_, cs', it, rfl, ?_⟩
      simp only [fetched, find_addUsage, find_insert]
      rw [if_neg, hfind]
      rintro rfl
      rw [hnone] at hfind
      cases hfind

theorem Reads.onTop (h : Reads v w) (hv : Usable EntryOk v) (htop : OnTop inBlock v) : OnTop inBlock w := by
  induction h with
  | refl => exact htop
  | fetch hread o ih => exact fetchCoin_onTop ih (hread.spec hv).1 o

theorem spendCoin_there (hv : Usable EntryOk v) (hpeek : v.peek o = some coin) :
    ∃ w, v.spendCoin o = (some coin, w) ∧ Usable EntryOk w ∧
    ∀ o', w.peek o' = if o' = o then none else v.peek o' := by
  obtain ⟨hres, hvalid, hne, hpeek'⟩ := spendCoin_spec hv.valid hv.nonempty o
  rw [hpeek] at hres
  obtain ⟨coin', hcoin', hun⟩ := Option.bind_eq_some_iff.mp hres
  have hcoin : coin' = coin := by
    unfold Coin.unspent at hun
    split at hun
    · cases hun
    · exact Option.some.inj hun
  subst hcoin
  exact ⟨(v.spendCoin o).2, Prod.ext hcoin' rfl, ⟨hvalid, hne⟩, hpeek'⟩

theorem spendCoin_onTop (hv : Usable EntryOk v) (htop : OnTop inBlock v) (o : COutPoint) :
    OnTop inBlock (v.spendCoin o).2 := by
  intro o' hin hsome
  rw [(spendCoin_spec hv.valid hv.nonempty o).2.2.2] at hsome
  have ho : o' ≠ o := by
    intro heq
    rw [if_pos heq] at hsome
    exact hsome rfl
  rw [if_neg ho, ← ((Reads.refl.fetch (v := v) o).spec hv).2 o'] at hsome
  obtain ⟨c, cs, it, hcaches, hfind⟩ := fetchCoin_onTop htop hv o o' hin hsome
  unfold spendCoin
  generalize v.fetchCoin o = r at hcaches
  obtain ⟨_ | _, _⟩ := r
  · exact ⟨c, cs, it, hcaches, hfind⟩
  · simp only at hcaches
    simp only [onTop, hcaches]
    refine ⟨_, cs, it, rfl, ?_⟩
    unfold spendEntry
    simp only
    split
    · rw [find_erase, if_neg ho, find_subUsage, hfind]
    · rw [find_insert, if_neg ho, find_subUsage, hfind]

variable {allocated : Nat} {overwrite : Bool} {undo : CTxUndo} {hashBlock : Uint256}

theorem addCoin_find {c c' : CCoinsViewCache} (hscript : isUnspendable coin.out.scriptPubKey = false)
    (h : c.addCoin o coin allocated overwrite = (.ok (), c')) :
    coin.isSpent = false ∧ (∀ it, overwrite = false → c.find o = some it → it.coin.isSpent = true) ∧
      ∃ e, ∀ o', c'.find o' = if o' = o then some e else c.find o' := by
  unfold CCoinsViewCache.addCoin at h
  split at h
  · cases h
  next hun =>
  rw [hscript, if_neg (by simp)] at h
  refine ⟨by simpa using hun, ?_⟩
  cases hfind : c.find o with
  | none =>
    simp only [hfind] at h
    cases h
    exact ⟨by simp, _, fun o' => find_insert _ _ _ _⟩
  | some it =>
    simp only [hfind] at h
    split at h
    · cases h
    next hguard =>
    cases h
    refine ⟨?_, _, fun o' => find_insert _ _ _ _⟩
    rintro it' how hit'
    cases hit'
    simpa [how] using hguard

theorem addCoin_new (hv : Usable EntryOk v) (htop : OnTop inBlock v)
    (hin : inBlock o) (hnew : overwrite = true → v.peek o = none)
    (hscript : isUnspendable coin.out.scriptPubKey = false)
    (hadd : v.addCoin o coin allocated overwrite = (.ok (), w)) : v.peek o = none ∧ Usable EntryOk w ∧ OnTop inBlock w ∧
      ∀ o', w.peek o' = if o' = o then some coin else v.peek o' := by
  obtain ⟨⟨hbase, hcoh⟩, hne⟩ := hv
  obtain ⟨caches, base⟩ := v
  cases caches with
  | nil => exact absurd rfl hne
  | cons c cs =>
    have hspec := hadd
    unfold CoinsView.addCoin onTop at hadd
    simp only at hadd
    generalize hc : c.addCoin o coin allocated overwrite = r at hadd
    obtain ⟨_, c'⟩ := r
    cases hadd
    obtain ⟨hun, hspent, e, hfind⟩ := addCoin_find hscript hc
    have hnone : CoinsView.peek ⟨c :: cs, base⟩ o = none := by
      by_contra hsome
      have how : overwrite = false := by
        by_contra how
        exact hsome (hnew (by simpa using how))
      obtain ⟨c1, cs1, it, hcaches, hit⟩ := htop o hin hsome
      cases hcaches
      rw [peek, seen_of_find hit, unspent_eq_none (hspent it how hit)] at hsome
      exact hsome rfl
    obtain ⟨-, hvalid, hne', hpeek⟩ := addCoin_spec ⟨hbase, hcoh⟩ hne hun allocated fun _ => hnone
    rw [hspec] at hvalid hne' hpeek
    refine ⟨hnone, ⟨hvalid, hne'⟩, ?_, fun o' => ?_⟩
    · intro o' hin' hsome
      rw [hpeek] at hsome
      by_cases ho : o' = o
      · exact ⟨c', cs, e, rfl, by rw [hfind, if_pos ho]⟩
      · rw [if_neg (fun hn => ho hn.1)] at hsome
        obtain ⟨c1, cs1, it, hcaches, hit⟩ := htop o' hin' hsome
        cases hcaches
        exact ⟨c', cs, it, rfl, by rw [hfind, if_neg ho, hit]⟩
    · rw [hpeek]
      simp only [hscript, and_true]

theorem addCoin_unspendable (hscript : isUnspendable coin.out.scriptPubKey = true)
    (hadd : v.addCoin o coin allocated overwrite = (.ok (), w)) : w = v := by
  obtain ⟨caches, _⟩ := v
  unfold CoinsView.addCoin onTop CCoinsViewCache.addCoin at hadd
  cases caches with
  | nil =>
    cases hadd
    rfl
  | cons c cs =>
    simp only [hscript, if_true] at hadd
    split at hadd
    · cases hadd
    · cases hadd
      rfl

/-- `w` is `v` without the coins that `undo` records. -/
structure Spent (v : CoinsView) (vin : List CTxIn) (undo : CTxUndo) (w : CoinsView) : Prop where
  length : undo.length = vin.length
  coins : ∀ p ∈ (vin.map CTxIn.prevout).zip undo, v.peek p.1 = some p.2
  peek : ∀ o, w.peek o = if o ∈ vin.map CTxIn.prevout then none else v.peek o

theorem spendInputs_there (hv : Usable EntryOk v) (htop : OnTop inBlock v)
    (hthere : InputsThere v vin) (hnodup : (vin.map prevout).Nodup)
    (hspend : spendInputs vin v = .ok (undo, w)) : Usable EntryOk w ∧ OnTop inBlock w ∧ Spent v vin undo w := by
  induction vin generalizing v undo with
  | nil =>
    cases hspend
    exact ⟨hv, htop, rfl, by simp, by simp⟩
  | cons i vin ih =>
    rw [map_cons, nodup_cons] at hnodup
    obtain ⟨_, hpeek, -⟩ := hthere i mem_cons_self
    obtain ⟨v', hv', huse, hpeek'⟩ := spendCoin_there hv hpeek
    have htop' := spendCoin_onTop hv htop i.prevout
    rw [hv'] at htop'
    unfold spendInputs at hspend
    rw [hv'] at hspend
    simp only [bind_ok] at hspend
    obtain ⟨⟨_, _⟩, hrest, hspend⟩ := hspend
    cases hspend
    have hother : ∀ o' ∈ vin.map prevout, v'.peek o' = v.peek o' := by
      intro o' ho'
      rw [hpeek', if_neg]
      rintro rfl
      exact hnodup.1 ho'
    have hthere' : InputsThere v' vin := by
      intro j hj
      rw [hother _ (mem_map_of_mem hj)]
      exact hthere j (mem_cons_of_mem _ hj)
    obtain ⟨hw, htopw, hspent⟩ := ih huse htop' hthere' hnodup.2 hrest
    refine ⟨hw, htopw, ?_, ?_, fun o' => ?_⟩
    · rw [length_cons, length_cons, hspent.length]
    · intro p hp
      rw [map_cons, zip_cons_cons] at hp
      rcases mem_cons.mp hp with rfl | hp
      · exact hpeek
      · rw [← hother p.1 (of_mem_zip hp).1]
        exact hspent.coins p hp
    · rw [hspent.peek, map_cons, hpeek']
      simp only [mem_cons]
      by_cases hi : o' = i.prevout <;> by_cases hmem : o' ∈ vin.map prevout <;> simp [hi, hmem]

/-- `w` is `v` with the new outputs of `tx` from `i` on. -/
structure Added (v : CoinsView) (tx : CTransaction) (nHeight i : Nat) (vout : List CTxOut) (w : CoinsView) : Prop where
  new : ∀ o, created tx nHeight i vout o ≠ none → v.peek o = none
  peek : ∀ o, w.peek o = (created tx nHeight i vout o).or (v.peek o)

/-- An output from `i` on whose coin is stored. -/
def Stores (tx : CTransaction) (i : Nat) (vout : List CTxOut) (o : COutPoint) : Prop :=
  ∃ n out, vout[n]? = some out ∧ isUnspendable out.scriptPubKey = false ∧ o = tx.outpoint (i + n)

theorem Stores.later (h : Stores tx (i + 1) vout o) : Stores tx i (out :: vout) o := by
  obtain ⟨n, out', hn, hscript, rfl⟩ := h
  exact ⟨n + 1, out', hn, hscript, by rw [Nat.add_assoc, Nat.add_comm 1]⟩

theorem addOutputs_new (hv : Usable EntryOk v) (htop : OnTop inBlock v)
    (hin : ∀ o, Stores tx i vout o → inBlock o)
    (hnew : tx.isCoinBase = true → ∀ o, Stores tx i vout o → v.peek o = none)
    (hadd : addOutputs tx nHeight false i vout v = .ok w) :
    Usable EntryOk w ∧ OnTop inBlock w ∧ Added v tx nHeight i vout w := by
  induction vout generalizing v i with
  | nil =>
    cases hadd
    exact ⟨hv, htop, fun o h => absurd rfl h, fun o => rfl⟩
  | cons out vout ih =>
    unfold addOutputs at hadd
    simp only [Bool.false_eq_true, if_false] at hadd
    split at hadd
    · cases hadd
    next v' hcoin =>
    cases hscript : isUnspendable out.scriptPubKey with
    | true =>
      obtain rfl := addCoin_unspendable hscript hcoin
      obtain ⟨hw, htopw, hadded⟩ :=
        ih hv htop (fun o ho => hin o ho.later) (fun hcb o ho => hnew hcb o ho.later) hadd
      refine ⟨hw, htopw, fun o' ho' => ?_, fun o' => ?_⟩
      · rw [created_unspendable hscript] at ho'
        exact hadded.new o' ho'
      · rw [created_unspendable hscript]
        exact hadded.peek o'
    | false =>
      have hstores : Stores tx i (out :: vout) (tx.outpoint i) := ⟨0, out, rfl, hscript, rfl⟩
      obtain ⟨hnone, huse, htop', hpeek'⟩ :=
        addCoin_new hv htop (hin _ hstores) (fun hcb => hnew hcb _ hstores) hscript hcoin
      have hnew' : tx.isCoinBase = true → ∀ o, Stores tx (i + 1) vout o → v'.peek o = none := by
        intro hcb o ho
        rw [hpeek', if_neg]
        · exact hnew hcb o ho.later
        · rintro rfl
          obtain ⟨_, -, -, -, heq⟩ := ho
          have := outpoint_inj heq
          omega
      obtain ⟨hw, htopw, hadded⟩ := ih huse htop' (fun o ho => hin o ho.later) hnew' hadd
      have hpeekw := fun o' => (hadded.peek o').trans (by rw [hpeek'])
      refine ⟨hw, htopw, fun o' ho' => ?_, fun o' => ?_⟩
      · by_cases hi : o' = tx.outpoint i
        · rw [hi]
          exact hnone
        · rw [created, if_neg hi] at ho'
          have := hadded.new o' ho'
          rwa [hpeek', if_neg hi] at this
      · rw [hpeekw, created]
        by_cases hi : o' = tx.outpoint i
        · rw [if_pos hi, if_pos hi, hi, created_before (by omega), hscript]
          rfl
        · rw [if_neg hi, if_neg hi]

/-- The outpoints that transactions spend. -/
def spentBy (vtx : List CTransaction) : List COutPoint :=
  vtx.flatMap fun tx => if tx.isCoinBase then [] else tx.vin.map prevout

theorem spentBy_append (vtx vtx' : List CTransaction) : spentBy (vtx ++ vtx') = spentBy vtx ++ spentBy vtx' :=
  flatMap_append

theorem mem_spentBy_singleton : o ∈ spentBy [tx] ↔ tx.isCoinBase = false ∧ o ∈ tx.vin.map prevout := by
  unfold spentBy
  cases hcb : tx.isCoinBase <;> simp [hcb]

structure Updated (v : CoinsView) (tx : CTransaction) (nHeight : Nat) (undo : CTxUndo) (w : CoinsView) : Prop where
  between : ∃ u : CoinsView, (∀ o, u.peek o = if tx.isCoinBase = false ∧ o ∈ tx.vin.map CTxIn.prevout then none
    else v.peek o) ∧ Added u tx nHeight 0 tx.vout w
  undo : tx.isCoinBase = false → undo.length = tx.vin.length ∧ ∀ p ∈ (tx.vin.map CTxIn.prevout).zip undo,
      v.peek p.1 = some p.2

theorem updateCoins_new (hv : Usable EntryOk v) (htop : OnTop inBlock v)
    (hnodup : (tx.vin.map prevout).Nodup) (hthere : tx.isCoinBase = false → InputsThere v tx.vin)
    (hin : ∀ o, Stores tx 0 tx.vout o → inBlock o ∨ o ∈ spentBy [tx])
    (hnew : tx.isCoinBase = true → ∀ o, Stores tx 0 tx.vout o → v.peek o = none)
    (hupdate : updateCoins tx v nHeight = .ok (undo, w)) :
    Usable EntryOk w ∧ OnTop (fun o => inBlock o ∨ o ∈ spentBy [tx]) w ∧ Updated v tx nHeight undo w := by
  unfold updateCoins addCoins at hupdate
  cases hcb : tx.isCoinBase with
  | true =>
    simp only [hcb, if_true, pure_bind, bind_ok] at hupdate
    obtain ⟨w', hadd, hupdate⟩ := hupdate
    cases hupdate
    have htop' : OnTop (fun o => inBlock o ∨ o ∈ spentBy [tx]) v := by
      rintro o (ho | ho)
      · exact htop o ho
      · rw [mem_spentBy_singleton, hcb] at ho
        exact absurd ho.1 (by simp)
    obtain ⟨hw, htopw, hadded⟩ := addOutputs_new hv htop' hin (fun _ => hnew hcb) hadd
    exact ⟨hw, htopw, ⟨v, fun o => by simp [hcb], hadded⟩, fun h => by rw [hcb] at h; cases h⟩
  | false =>
    simp only [hcb, Bool.false_eq_true, if_false, bind_ok] at hupdate
    obtain ⟨⟨_, v'⟩, hspend, w', hadd, hupdate⟩ := hupdate
    cases hupdate
    obtain ⟨hv', htop', hspent⟩ := spendInputs_there hv htop (hthere hcb) hnodup hspend
    -- What the transaction has just spent is nowhere to be seen.
    have htop'' : OnTop (fun o => inBlock o ∨ o ∈ spentBy [tx]) v' := by
      rintro o (ho | ho) hsome
      · exact htop' o ho hsome
      · rw [hspent.peek, if_pos (mem_spentBy_singleton.mp ho).2] at hsome
        exact absurd rfl hsome
    obtain ⟨hw, htopw, hadded⟩ := addOutputs_new hv' htop'' hin (fun h => by rw [hcb] at h; cases h) hadd
    exact ⟨hw, htopw, ⟨v', fun o => by simp [hcb, hspent.peek], hadded⟩, fun _ => ⟨hspent.length, hspent.coins⟩⟩

/-! ## Disconnecting -/

theorem removeOutputs_there (exempt fClean : Bool) (hv : Usable EntryOk v)
    (hthere : ∀ o coin, created tx nHeight i vout o = some coin → v.peek o = some coin) :
    ∃ w, removeOutputs tx nHeight exempt i vout (fClean, v) = (fClean, w) ∧ Usable EntryOk w ∧
      ∀ o, w.peek o = if (created tx nHeight i vout o).isSome then none else v.peek o := by
  induction vout generalizing v i with
  | nil => exact ⟨v, rfl, hv, fun o => rfl⟩
  | cons out vout ih =>
    unfold removeOutputs
    cases hscript : isUnspendable out.scriptPubKey with
    | true =>
      obtain ⟨w, hw, huse, hpeek⟩ := ih hv fun o coin ho => hthere o coin (by rw [created_unspendable hscript, ho])
      refine ⟨w, hw, huse, fun o => ?_⟩
      rw [created_unspendable hscript]
      exact hpeek o
    | false =>
      have hself : v.peek (tx.outpoint i) = some ⟨out, tx.isCoinBase, nHeight⟩ := by
        apply hthere
        simp [created, hscript]
      obtain ⟨_, hv', huse', hpeek'⟩ := spendCoin_there hv hself
      have hne : ∀ o, created tx nHeight (i + 1) vout o ≠ none → o ≠ tx.outpoint i := by
        rintro o ho rfl
        exact ho (created_before (by omega))
      obtain ⟨w, hw, huse, hpeek⟩ := ih huse' fun o coin ho => by
        have hi := hne o (by rw [ho]; simp)
        rw [hpeek', if_neg hi]
        apply hthere
        rw [created, if_neg hi, ho]
      refine ⟨w, ?_, huse, fun o => ?_⟩
      · simp only [Bool.false_eq_true, if_false, hv']
        simpa using hw
      · rw [hpeek, hpeek', created]
        by_cases hi : o = tx.outpoint i
        · simp [hi, hscript]
        · simp [hi]

theorem applyTxInUndo_missing (hv : Usable EntryOk v) (hnone : v.peek o = none) (hcoin : Restorable coin)
    (hun : coin.isSpent = false) : ∃ w, applyTxInUndo coin v o = .ok (.ok, w) ∧ Usable EntryOk w ∧
      ∀ o', w.peek o' = if o' = o then some coin else v.peek o' := by
  obtain ⟨hhave, hvalid, hne, hsame⟩ := haveCoin_spec hv.valid o hv.nonempty
  rw [hnone] at hhave
  have hnone' : (v.haveCoin o).2.peek o = none := by rw [hsame, hnone]
  obtain ⟨hok, hvalid', hne', hpeek⟩ := addCoin_spec hvalid hne hun
    (copyAllocation coin.out.scriptPubKey.length) fun (_ : false = false) => hnone'
  unfold applyTxInUndo
  generalize v.haveCoin o = r at hhave hvalid hne hsame hnone' hok hvalid' hne' hpeek
  obtain ⟨_, v'⟩ := r
  simp only [Option.isSome_none] at hhave
  subst hhave
  have hheight : coin.nHeight ≠ 0 := Nat.pos_iff_ne_zero.mp hcoin.height
  simp only [hheight, if_false, Bool.not_false, Bool.not_true]
  generalize v'.addCoin o coin (copyAllocation coin.out.scriptPubKey.length) false = r at hok hvalid' hne' hpeek
  obtain ⟨_, w⟩ := r
  simp only at hok hvalid' hne' hpeek hsame
  subst hok
  refine ⟨w, rfl, ⟨hvalid', hne'⟩, fun o' => ?_⟩
  rw [hpeek, hsame]
  simp only [hcoin.spendable, and_true]

theorem restoreInputs_missing {ps : List (COutPoint × Coin)} (hv : Usable EntryOk v)
    (hnodup : (ps.map Prod.fst).Nodup) (hnone : ∀ p ∈ ps, v.peek p.1 = none)
    (hcoins : ∀ p ∈ ps, Restorable p.2 ∧ p.2.isSpent = false) : ∃ w, restoreInputs ps (true, v) = .ok (.ok, w) ∧
      Usable EntryOk w ∧
      (∀ p ∈ ps, w.peek p.1 = some p.2) ∧ ∀ o, o ∉ ps.map Prod.fst → w.peek o = v.peek o := by
  induction ps generalizing v with
  | nil => exact ⟨v, rfl, hv, by simp, by simp⟩
  | cons p ps ih =>
    obtain ⟨o, coin⟩ := p
    rw [map_cons, nodup_cons] at hnodup
    obtain ⟨hcoin, hun⟩ := hcoins (o, coin) mem_cons_self
    obtain ⟨v', hv', huse', hpeek'⟩ := applyTxInUndo_missing hv (hnone (o, coin) mem_cons_self) hcoin hun
    have hother : ∀ o', o' ≠ o → v'.peek o' = v.peek o' := fun o' ho' => by rw [hpeek', if_neg ho']
    have hne : ∀ p ∈ ps, p.1 ≠ o := by
      intro p hp heq
      rw [← heq] at hnodup
      exact hnodup.1 (mem_map.mpr ⟨p, hp, rfl⟩)
    obtain ⟨w, hw, huse, hrestored, hkept⟩ := ih huse' hnodup.2
      (fun p hp => by rw [hother _ (hne p hp)]; exact hnone p (mem_cons_of_mem _ hp))
      fun p hp => hcoins p (mem_cons_of_mem _ hp)
    refine ⟨w, ?_, huse, fun p hp => ?_, fun o' ho' => ?_⟩
    · unfold restoreInputs
      rw [hv']
      exact hw
    · rcases mem_cons.mp hp with rfl | hp
      · rw [hkept _ hnodup.1, hpeek', if_pos rfl]
      · exact hrestored p hp
    · rw [map_cons, mem_cons, not_or] at ho'
      rw [hkept _ ho'.2, hother _ ho'.1]

/-- The coins among those to be spent can be brought back. -/
def AllRestorable (spent : List COutPoint) (v : CoinsView) : Prop :=
  ∀ o ∈ spent, ∀ coin, v.peek o = some coin → Restorable coin

variable {spent : List COutPoint}

theorem disconnectTx_there {u : CoinsView} {fEnforceBIP30 : Bool}
    (rest : List (CTransaction × Option CTxUndo)) (hnodup : (tx.vin.map prevout).Nodup)
    (hall : AllRestorable spent v) (hsub : ∀ o ∈ spentBy [tx], o ∈ spent)
    (hupdated : Updated v tx nHeight undo w) (hu : Usable EntryOk u)
    (hpeek : ∀ o, u.peek o = w.peek o) : ∃ v', disconnectTxs nHeight fEnforceBIP30
        ((tx, if tx.isCoinBase then none else some undo) :: rest)
        (true, u) = disconnectTxs nHeight fEnforceBIP30 rest (true, v') ∧
      Usable EntryOk v' ∧ ∀ o, v'.peek o = v.peek o := by
  obtain ⟨m, hm, hadded⟩ := hupdated.between
  have houts : ∀ o coin, created tx nHeight 0 tx.vout o = some coin → u.peek o = some coin := by
    intro o coin ho
    rw [hpeek, hadded.peek, ho]
    rfl
  obtain ⟨r, hr, huser, hpeekr⟩ := removeOutputs_there (tx.isCoinBase && !fEnforceBIP30) true hu houts
  -- Without its outputs the view is the one between spending and adding.
  have hrm : ∀ o, r.peek o = m.peek o := by
    intro o
    rw [hpeekr, hpeek, hadded.peek]
    cases hc : created tx nHeight 0 tx.vout o with
    | none => rfl
    | some coin => exact (hadded.new o (by rw [hc]; simp)).symm
  rw [disconnectTxs]
  simp only [hr]
  cases hcb : tx.isCoinBase with
  | true =>
    refine ⟨r, by simp, huser, fun o => ?_⟩
    rw [hrm, hm, hcb]
    simp
  | false =>
    obtain ⟨hlength, hcoins⟩ := hupdated.undo hcb
    have hkeys : ((tx.vin.map prevout).zip undo).map Prod.fst = tx.vin.map prevout :=
      map_fst_zip (by simp [hlength])
    have hmem : ∀ o, o ∈ (((tx.vin.map prevout).zip undo).reverse.map Prod.fst) ↔ o ∈ tx.vin.map prevout := by
      intro o
      rw [map_reverse, hkeys, mem_reverse]
    have hnodup' : (((tx.vin.map prevout).zip undo).reverse.map Prod.fst).Nodup := by
      rw [map_reverse, hkeys]
      exact nodup_reverse.mpr hnodup
    have hgone : ∀ p ∈ ((tx.vin.map prevout).zip undo).reverse, r.peek p.1 = none := by
      intro p hp
      rw [hrm, hm, if_pos ⟨hcb, (hmem p.1).mp (mem_map.mpr ⟨p, hp, rfl⟩)⟩]
    have hgood : ∀ p ∈ ((tx.vin.map prevout).zip undo).reverse, Restorable p.2 ∧ p.2.isSpent = false := by
      intro p hp
      have hpeekp := hcoins p (mem_reverse.mp hp)
      have hspent := hsub p.1 (mem_spentBy_singleton.mpr ⟨hcb, (of_mem_zip (mem_reverse.mp hp)).1⟩)
      exact ⟨hall p.1 hspent p.2 hpeekp, seen_unspent hpeekp⟩
    obtain ⟨v', hv', huse', hrestored, hkept⟩ := restoreInputs_missing huser hnodup' hgone hgood
    refine ⟨v', ?_, huse', fun o => ?_⟩
    · simp only [hlength, Bool.false_eq_true, if_false, ne_eq, not_true_eq_false, hv']
      rfl
    by_cases ho : o ∈ tx.vin.map prevout
    · obtain ⟨p, hp, rfl⟩ := mem_map.mp ((hmem o).mpr ho)
      rw [hrestored p hp, hcoins p (mem_reverse.mp hp)]
    · rw [hkept o (fun h => ho ((hmem o).mp h)), hrm, hm, if_neg (fun h => ho h.2)]

theorem Updated.restorable (h : Updated v tx nHeight undo w) (hheight : 0 < nHeight)
    (hall : AllRestorable spent v) : AllRestorable spent w := by
  obtain ⟨_, hm, hadded⟩ := h.between
  intro o ho coin hcoin
  rw [hadded.peek] at hcoin
  cases hc : created tx nHeight 0 tx.vout o with
  | some coin' =>
    rw [hc] at hcoin
    cases hcoin
    exact created_restorable hheight hc
  | none =>
    rw [hc, Option.none_or, hm] at hcoin
    split at hcoin
    · cases hcoin
    · exact hall o ho coin hcoin

/-! ## A whole block -/

/-- Disconnecting `items` takes views like `w` back to `v`. -/
def Undoes (nHeight : Nat) (fEnforceBIP30 : Bool) (items : List (CTransaction × Option CTxUndo))
    (v w : CoinsView) : Prop :=
  ∀ u, Usable EntryOk u → (∀ o, u.peek o = w.peek o) →
    ∃ v', disconnectTxs nHeight fEnforceBIP30 items (true, u) = .ok (.ok, v') ∧ Usable EntryOk v' ∧ ∀ o,
      v'.peek o = v.peek o

structure Connecting (inBlock : COutPoint → Prop) (spent : List COutPoint) (v : CoinsView) : Prop where
  usable : Usable EntryOk v
  onTop : OnTop inBlock v
  restorable : AllRestorable spent v

theorem Connecting.reads (h : Connecting inBlock spent v) (hread : Reads v w) : Connecting inBlock spent w := by
  obtain ⟨huse, hpeek⟩ := hread.spec h.usable
  refine ⟨huse, hread.onTop h.usable h.onTop, fun o ho coin hcoin => ?_⟩
  rw [hpeek] at hcoin
  exact h.restorable o ho coin hcoin

variable {rules : Rules} {pindex : CBlockIndex} {block : CBlock} {undo : CBlockUndo} {fEnforceBIP30 : Bool}
  {items : List (CTransaction × Option CTxUndo)} {s s' : ConnectState} {coin' : Coin}

theorem TxConnected.undoes {size : CTransaction → Nat} (htx : TxConnected pindex tx s s')
    (hcheck : checkTransaction size tx = .ok ()) (hheight : 0 < pindex.nHeight)
    (hin : ∀ o, Stores tx 0 tx.vout o → inBlock o ∨ o ∈ spentBy [tx])
    (hnew : tx.isCoinBase = true → ∀ o, Stores tx 0 tx.vout o → s.view.peek o = none)
    (hsub : ∀ o ∈ spentBy [tx], o ∈ spent) (hs : Connecting inBlock spent s.view)
    (hundoes : Undoes pindex.nHeight fEnforceBIP30 items v s.view) :
    ∃ txundo, s'.vtxundo = s.vtxundo ++ [txundo] ∧
      Connecting (fun o => inBlock o ∨ o ∈ spentBy [tx]) spent s'.view ∧
      Undoes pindex.nHeight fEnforceBIP30 ((tx, if tx.isCoinBase then none else some txundo) :: items)
        v s'.view := by
  obtain ⟨_, txundo, hread, hupdate, hvtxundo⟩ := htx.update
  have hu := hs.reads hread
  have hpeek := (hread.spec hs.usable).2
  have hnodup := (checkTransaction_ok hcheck).1
  obtain ⟨huse, htop, hupdated⟩ := updateCoins_new hu.usable hu.onTop hnodup
    (fun hcb => (inputsThere_congr hpeek).mpr (htx.inputs hcb).1) hin
    (fun hcb o ho => by rw [hpeek]; exact hnew hcb o ho) hupdate
  refine ⟨txundo, hvtxundo, ⟨huse, htop, hupdated.restorable hheight hu.restorable⟩, fun x hx hpeekx => ?_⟩
  obtain ⟨y, hy, husey, hpeeky⟩ := disconnectTx_there items hnodup hu.restorable hsub hupdated hx hpeekx
  rw [hy]
  exact hundoes y husey fun o => by rw [hpeeky, hpeek]

/-- No transaction comes when the view has a coin it would replace. -/
def OverwritesNothing (vtx : List CTransaction) (v : CoinsView) : Prop :=
  ∀ before tx after, vtx = before ++ tx :: after →
    ∀ o, Stores tx 0 tx.vout o → v.peek o = none ∨ o ∈ spentBy (before ++ [tx])

theorem checkOverwrites_none {outpoints : List COutPoint} {state : Option BlockInvalid} (hv : Usable EntryOk v)
    (h : (checkOverwrites outpoints v state).1 = none) : state = none ∧ ∀ o ∈ outpoints, v.peek o = none := by
  induction outpoints generalizing v state with
  | nil => exact ⟨h, by simp⟩
  | cons o outpoints ih =>
    obtain ⟨hhave, hvalid, hne, hsame⟩ := haveCoin_spec hv.valid o hv.nonempty
    have h : (checkOverwrites outpoints (v.haveCoin o).2
        (if (v.haveCoin o).1 then some badTxnsBIP30 else state)).1 = none := h
    obtain ⟨hstate, hrest⟩ := ih ⟨hvalid, hne⟩ h
    rw [hhave] at hstate
    split at hstate
    · cases hstate
    · next hnone =>
      refine ⟨hstate, fun o' ho' => ?_⟩
      rcases mem_cons.mp ho' with rfl | ho'
      · simpa using hnone
      · rw [← hsame]
        exact hrest o' ho'

/-- What BIP30 is for. -/
theorem CoinsConnected.overwritesNothing (h : CoinsConnected rules block pindex v undo w true s s')
    (hv : Usable EntryOk v) : OverwritesNothing block.vtx v := by
  rintro before tx after hvtx o ⟨n, _, hn, -, rfl⟩
  refine .inl ((checkOverwrites_none hv (congrArg Prod.fst (h.overwrites rfl))).2 _ ?_)
  have hlt : n < tx.vout.length := (List.getElem?_eq_some_iff.mp hn).1
  rw [hvtx, Nat.zero_add]
  exact mem_flatMap.mpr ⟨tx, by simp, mem_map.mpr ⟨n, mem_range.mpr hlt, rfl⟩⟩

theorem CoinsConnected.undoes {coinbase : CTransaction} {rest : List CTransaction}
    (h : CoinsConnected rules block pindex v undo w fEnforceBIP30 s s') (hvtx : block.vtx = coinbase :: rest)
    (hchecked : BlockChecked rules coinbase rest) (hheight : 0 < pindex.nHeight) (hv : Usable EntryOk v)
    (hnothing : OverwritesNothing block.vtx v) (hall : AllRestorable (spentBy block.vtx) v) (exempt : Bool) :
    undo.length = rest.length ∧ Usable EntryOk s'.view ∧ Undoes pindex.nHeight exempt
      (((coinbase, none) :: rest.zip (undo.map some)).reverse) v s'.view := by
  -- No coin of the old view is in the way at these.
  let free : List CTransaction → COutPoint → Prop := fun done o => v.peek o = none ∨ o ∈ spentBy done
  have hfree : ∀ done tx after, block.vtx = done ++ tx :: after →
      ∀ o, Stores tx 0 tx.vout o → free done o ∨ o ∈ spentBy [tx] := by
    intro done tx after hsplit o ho
    have := hnothing done tx after hsplit o ho
    rwa [spentBy_append, mem_append, ← or_assoc] at this
  have hsub : ∀ done tx after, block.vtx = done ++ tx :: after → ∀ o ∈ spentBy [tx], o ∈ spentBy block.vtx := by
    intro done tx after hsplit o ho
    rw [hsplit, append_cons, spentBy_append, spentBy_append]
    exact mem_append_left _ (mem_append_right _ ho)
  have hnext : ∀ {done tx t}, Connecting (fun o => free done o ∨ o ∈ spentBy [tx]) (spentBy block.vtx) t →
      Connecting (free (done ++ [tx])) (spentBy block.vtx) t := by
    refine fun {done tx t} ht => ⟨ht.usable, fun o ho => ht.onTop o ?_, ht.restorable⟩
    simpa only [free, spentBy_append, mem_append, or_assoc] using ho
  have hstart : Connecting (free []) (spentBy block.vtx) v := by
    refine ⟨hv, fun o ho hsome => ?_, hall⟩
    rcases ho with ho | ho
    · exact absurd ho hsome
    · cases ho
  have hs := hstart.reads h.reads
  have hpeek := (h.reads.spec hv).2
  have hbegin : Undoes pindex.nHeight exempt [] v s.view := fun u hu hpeeku =>
    ⟨u, rfl, hu, fun o => by rw [hpeeku, hpeek]⟩
  have htxs := h.txs
  rw [hvtx, connectTxs, bind_ok] at htxs
  obtain ⟨_, hcoinbase, htxs⟩ := htxs
  obtain ⟨-, hcoinbase⟩ := connectTx_ok hs.usable hcoinbase (connectTxs_state htxs h.valid)
  have hnew : ∀ o, Stores coinbase 0 coinbase.vout o → s.view.peek o = none := by
    intro o ho
    rw [hpeek]
    rcases hfree [] coinbase rest hvtx o ho with (hnone | hmem) | hmem
    · exact hnone
    · cases hmem
    · rw [mem_spentBy_singleton, hchecked.first] at hmem
      cases hmem.1
  obtain ⟨txundo0, hvtxundo, hs1, hundoes⟩ := hcoinbase.undoes (hchecked.checked coinbase mem_cons_self)
    hheight (hfree [] coinbase rest hvtx) (fun _ => hnew) (hsub [] coinbase rest hvtx) hs hbegin
  rw [h.start, nil_append] at hvtxundo
  rw [hchecked.first, if_pos rfl] at hundoes
  -- The transactions done so far, with the undo data that they left after the coinbase's.
  let I : List CTransaction → ConnectState → Prop := fun remaining t =>
    ∃ done us, rest = done ++ remaining ∧ t.vtxundo = txundo0 :: us ∧ us.length = done.length ∧
      Connecting (free (coinbase :: done)) (spentBy block.vtx) t.view ∧ Undoes pindex.nHeight exempt
        (((coinbase, none) :: done.zip (us.map some)).reverse) v t.view
  have hstep : ∀ tx remaining t t', I (tx :: remaining) t → TxConnected pindex tx t t' → I remaining t' := by
    rintro tx remaining t t' ⟨done, us, hrest, hus, hlength, ht, hdone⟩ htx
    have htxmem : tx ∈ rest := by
      rw [hrest]
      simp
    have hcb := hchecked.others tx htxmem
    have hsplit : block.vtx = (coinbase :: done) ++ tx :: remaining := by rw [hvtx, hrest, cons_append]
    obtain ⟨txundo, hvtx', ht', hdone'⟩ := htx.undoes
      (hchecked.checked tx (mem_cons_of_mem _ htxmem)) hheight
      (hfree _ tx _ hsplit) (fun h => by rw [hcb] at h; cases h) (hsub _ tx _ hsplit) ht hdone
    refine ⟨done ++ [tx], us ++ [txundo], by rw [hrest]; simp, by rw [hvtx', hus]; rfl, by simp [hlength],
      hnext ht', ?_⟩
    rw [hcb] at hdone'
    rw [map_append, zip_append (by simp [hlength])]
    simpa using hdone'
  obtain ⟨-, done, us, hrest, hus, hlength, ht, hdone⟩ := connectTxs_ok EntryOk (I := I)
    (fun _ t ⟨_, _, _, _, _, ht, _⟩ => ht.usable) hstep htxs h.valid
    ⟨[], [], rfl, hvtxundo, rfl, hnext hs1, by simpa using hundoes⟩
  rw [append_nil] at hrest
  have hundo : undo = us := by rw [h.undo, hus]; rfl
  rw [hundo, hrest]
  exact ⟨hlength, ht.usable, hdone⟩

/-- A connected block that replaces no coin can be disconnected, if the coins it spends can be brought back. -/
theorem disconnectBlock_restores (hvalid : Valid v) (hne : v.caches ≠ [])
    (hall : AllRestorable (spentBy block.vtx) v) (hheight : 0 < pindex.nHeight)
    (hgenesis : rules.getHash block.header ≠ rules.params.hashGenesisBlock)
    (hfresh : enforcesBIP30 rules.params pindex = .ok true ∨ OverwritesNothing block.vtx v)
    (hconnect : connectBlock rules block pindex v false = .ok (.ok undo, w)) :
    ∃ v', disconnectBlock block undo pindex w = .ok (.ok, v') ∧ (∀ o, (v'.getCoin o).1 = (v.getCoin o).1) ∧
      v'.caches.head?.map CCoinsViewCache.hashBlock = some pindex.pprev.getBlockHash := by
  obtain ⟨⟨_, _, hvtx, hchecked⟩, -, hcoins⟩ := connectBlock_ok hconnect
  obtain ⟨h, -⟩ | ⟨-, _, _, s', hcoins⟩ := hcoins
  · exact absurd h hgenesis
  obtain ⟨hbest, hpeek⟩ := Usable.sameFinds (w := v.getBestBlock.2) ⟨hvalid, hne⟩
    (bestBlockFrom_finds v.base v.caches) rfl
  have hnothing : OverwritesNothing block.vtx v.getBestBlock.2 := by
    rcases hfresh with hbip30 | hnothing
    · have henforces := hcoins.enforces
      rw [hbip30] at henforces
      cases henforces
      exact hcoins.overwritesNothing hbest
    · intro before tx after hsplit o ho
      rw [hpeek]
      exact hnothing before tx after hsplit o ho
  obtain ⟨hlength, huse, hundoes⟩ := hcoins.undoes hvtx hchecked hheight hbest hnothing
    (fun o ho coin hcoin => hall o ho coin (by rw [← hpeek]; exact hcoin)) (!isBIP30Unspendable pindex)
  obtain ⟨hfinds, hbase⟩ := setBestBlock_finds s'.view pindex.getBlockHash
  obtain ⟨husew, hpeekw⟩ := huse.sameFinds hfinds hbase
  rw [← hcoins.view] at husew hpeekw
  obtain ⟨u, hu, huseu, hpeeku⟩ := hundoes w husew hpeekw
  obtain ⟨hfindsu, hbaseu⟩ := setBestBlock_finds u pindex.pprev.getBlockHash
  obtain ⟨husev', hpeekv'⟩ := huseu.sameFinds hfindsu hbaseu
  refine ⟨u.setBestBlock pindex.pprev.getBlockHash, ?_, fun o => ?_, ?_⟩
  · unfold disconnectBlock
    rw [hvtx, if_neg (by simp [hlength]), zip_cons_cons]
    simp only [hu]
    rfl
  · rw [(getCoin_spec husev'.valid o).1, (getCoin_spec hvalid o).1, hpeekv', hpeeku, hpeek]
  · obtain ⟨caches, base⟩ := u
    cases caches with
    | nil => exact absurd rfl huseu.nonempty
    | cons c cs => rfl

def spendingBlock : CBlock where
  header := ⟨1, 1, 0, 30, mainGenesisBits, 2⟩
  vtx := [easyCoinbase, ⟨[⟨⟨200, 0⟩, [], 0xffffffff⟩], [⟨4, [0x51]⟩, ⟨2, [0x52]⟩], 1, 0, 101⟩]

/-- A view at `hashBlock` with one coin. -/
def viewOf (hashBlock : Uint256) (o : COutPoint) (coin : Coin) : CoinsView :=
  ⟨[.new], ⟨hashBlock, AList.insert o coin ∅⟩⟩

section

variable (h : (viewOf hashBlock o coin).base.coins.lookup o' = some coin')
include h

theorem viewOf_lookup : coin' = coin := by
  unfold viewOf at h
  by_cases ho : o' = o
  · rw [ho, lookup_insert] at h
    exact (Option.some.inj h).symm
  · rw [lookup_insert_ne ho, lookup_empty] at h
    cases h

theorem viewOf_key : o' = o := by
  unfold viewOf at h
  by_contra ho
  rw [lookup_insert_ne ho, lookup_empty] at h
  cases h

end

theorem viewOf_valid (hun : coin.isSpent = false) : Valid (viewOf hashBlock o coin) := by
  refine ⟨fun o' coin' hl => ?_, coherent_of_empty rfl trivial⟩
  rw [viewOf_lookup hl]
  exact hun

def paidCoin : Coin := ⟨⟨7, [0x51]⟩, false, 1⟩

/-- An index above the block from which testnet does not check BIP30. -/
def repeatIndex : CBlockIndex :=
  .mk ⟨2, 21112, 0, 1, 0, 30, 0x1d00ffff#32, 2⟩
    (.mk ⟨(testNetParams 1).BIP34Hash, 21111, 0, 1, 0, 0, 0x1d00ffff#32, 1⟩ .null .null) .null

def repeatRules : Rules := { easyRules with params := testNetParams 1 }
def repeatBlock : CBlock := ⟨⟨1, 0, 0, 30, 0x1d00ffff#32, 2⟩, [easyCoinbase]⟩
def laterBlock : CBlock := { repeatBlock with vtx := spendingBlock.vtx }
def laterView : CoinsView := viewOf (testNetParams 1).BIP34Hash ⟨200, 0⟩ paidCoin

theorem laterBlock_restored : enforcesBIP30 repeatRules.params repeatIndex = .ok false ∧
    ∃ undo w v', connectBlock repeatRules laterBlock repeatIndex laterView false = .ok (.ok undo, w) ∧
      (w.getCoin ⟨200, 0⟩).1 = none ∧ disconnectBlock laterBlock undo repeatIndex w = .ok (.ok, v') ∧
      (v'.getCoin ⟨200, 0⟩).1 = some paidCoin := by
  have hconnect : ∃ undo w, connectBlock repeatRules laterBlock repeatIndex laterView false = .ok (.ok undo, w) ∧
      (w.getCoin ⟨200, 0⟩).1 = none := ⟨_, _, rfl, rfl⟩
  obtain ⟨undo, w, hconnect, hspent⟩ := hconnect
  have hpeek : ∀ o coin, laterView.peek o = some coin → coin = paidCoin ∧ o.hash = 200 := by
    intro o coin hcoin
    have hvalid : Valid laterView := viewOf_valid rfl
    have hbase : BaseUnspent laterView.base := hvalid.base
    have hseen : laterView.peek o = seen laterView.base o [] := peek_of_empty rfl o
    rw [hseen, seen_base hbase] at hcoin
    exact ⟨viewOf_lookup hcoin, viewOf_key hcoin ▸ rfl⟩
  have hnothing : OverwritesNothing laterBlock.vtx laterView := by
    rintro before tx after hvtx o ⟨_, _, -, -, rfl⟩
    refine .inl (Option.eq_none_iff_forall_ne_some.mpr fun coin hcoin => ?_)
    have hhash : ∀ tx ∈ laterBlock.vtx, tx.hash ≠ 200 := by decide
    exact hhash tx (by rw [hvtx]; simp) (hpeek _ coin hcoin).2
  obtain ⟨v', hv', hcoins, -⟩ := disconnectBlock_restores (viewOf_valid rfl) (by simp [viewOf])
    (fun o _ coin hcoin => (hpeek o coin hcoin).1 ▸ ⟨by decide, by decide⟩) (by decide) (by decide)
      (.inr hnothing) hconnect
  exact ⟨rfl, undo, w, v', hconnect, hspent, hv', (hcoins _).trans rfl⟩

def repeatView : CoinsView := viewOf (testNetParams 1).BIP34Hash ⟨100, 0⟩ ⟨⟨7, [0x51]⟩, true, 5⟩
def assumedRules : Rules := { easyRules with fScriptChecks := fun _ => false }
def unspendableView : CoinsView := viewOf 1 ⟨200, 0⟩ ⟨⟨7, [opReturn]⟩, false, 1⟩

/-- A replaced coin is not brought back, nor an unspendable one. -/
theorem coin_not_restored :
    (∃ undo w v', connectBlock repeatRules repeatBlock repeatIndex repeatView false = .ok (.ok undo, w) ∧
    disconnectBlock repeatBlock undo repeatIndex w = .ok (.ok, v') ∧
    (repeatView.getCoin ⟨100, 0⟩).1 = some ⟨⟨7, [0x51]⟩, true, 5⟩ ∧ (v'.getCoin ⟨100, 0⟩).1 = none) ∧
    ∃ undo w v', connectBlock assumedRules spendingBlock easyIndex unspendableView false = .ok (.ok undo, w) ∧
      disconnectBlock spendingBlock undo easyIndex w = .ok (.ok, v') ∧
      (unspendableView.getCoin ⟨200, 0⟩).1 = some ⟨⟨7, [opReturn]⟩, false, 1⟩ ∧ (v'.getCoin ⟨200, 0⟩).1 = none :=
  ⟨⟨_, _, _, rfl, rfl, rfl, rfl⟩, _, _, _, rfl, rfl, rfl, rfl⟩

end FullNode

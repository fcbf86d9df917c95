import FullNode.Validation
import FullNode.CoinsRefinement

/-!
# What an accepted block did to the view

Each function of `ConnectBlock` is taken apart once: on success it only read the view,
then spent inputs and added outputs.
-/

open FullNode.CoinsView List

namespace FullNode

/-! ## Reading -/

/-- `w` is `v` after some reads. -/
inductive Reads (v : CoinsView) : CoinsView → Prop
  | refl : Reads v v
  | fetch {w : CoinsView} (h : Reads v w) (o : COutPoint) : Reads v (w.fetchCoin o).2

variable {v w x : CoinsView} {ok : CCoinsCacheEntry → Option Coin → Prop}

theorem Reads.trans (h : Reads v w) (h' : Reads w x) : Reads v x := by
  induction h' with
  | refl => exact h
  | fetch _ o ih => exact ih.fetch o

theorem Reads.have_ (h : Reads v w) (o : COutPoint) : Reads v (w.haveCoin o).2 := h.fetch o

theorem Reads.access (h : Reads v w) (o : COutPoint) : Reads v (w.accessCoin o).2 := h.fetch o

structure Usable (ok : CCoinsCacheEntry → Option Coin → Prop) (v : CoinsView) : Prop where
  valid : ValidBy ok v
  nonempty : v.caches ≠ []

theorem Reads.spec [Fetches ok] (h : Reads v w) (hv : Usable ok v) : Usable ok w ∧ ∀ o, w.peek o = v.peek o := by
  induction h with
  | refl => exact ⟨hv, fun _ => rfl⟩
  | fetch _ o ih =>
    obtain ⟨hw, hpeek⟩ := ih
    obtain ⟨_, _, heq, -, -, hvalid, hsame⟩ := fetchCoin_spec hw.valid o hw.nonempty
    refine ⟨⟨hvalid, ?_⟩, fun o' => (hsame o').trans (hpeek o')⟩
    rw [heq]
    simp

theorem Usable.sameFinds (h : Usable ok v) (hfinds : SameFinds v.caches w.caches) (hbase : w.base = v.base) :
    Usable ok w ∧ ∀ o, w.peek o = v.peek o := by
  refine ⟨⟨⟨?_, ?_⟩, ?_⟩, fun o => ?_⟩
  · rw [hbase]
    exact h.valid.base
  · rw [hbase]
    exact hfinds.coherent h.valid.coherent
  · intro hnil
    rw [hnil] at hfinds
    exact h.nonempty (forall₂_nil_right_iff.mp hfinds)
  · unfold peek
    rw [hbase]
    exact hfinds.seen o

theorem haveCoins_reads (v : CoinsView) (vin : List CTxIn) : Reads v (haveCoins v vin).2 := by
  induction vin generalizing v with
  | nil => exact .refl
  | cons i vin ih =>
    unfold haveCoins
    have hread := Reads.refl.have_ (v := v) i.prevout
    rcases hr : v.haveCoin i.prevout with ⟨_ | _, w⟩
    · rw [hr] at hread
      exact hread
    · rw [hr] at hread
      exact hread.trans (ih w)

theorem haveInputs_reads (v : CoinsView) (tx : CTransaction) : Reads v (haveInputs v tx).2 := by
  unfold haveInputs
  split
  · exact .refl
  · exact haveCoins_reads v tx.vin

theorem accessCoins_reads (v : CoinsView) (vin : List CTxIn) : Reads v (accessCoins v vin).2 := by
  induction vin generalizing v with
  | nil => exact .refl
  | cons i vin ih =>
    have hread := Reads.refl.access (v := v) i.prevout
    unfold accessCoins
    exact hread.trans (ih _)

theorem checkOverwrites_reads (outpoints : List COutPoint) (v : CoinsView) (state : Option BlockInvalid) :
    Reads v (checkOverwrites outpoints v state).2 := by
  induction outpoints generalizing v state with
  | nil => exact .refl
  | cons o outpoints ih =>
    have hread := Reads.refl.have_ (v := v) o
    unfold checkOverwrites
    exact hread.trans (ih _ _)

/-! ## `CheckTxInputs` -/

def valueAt (v : CoinsView) (o : COutPoint) : Int := (v.peek o).elim 0 fun coin => coin.out.nValue

def InputsThere (v : CoinsView) (vin : List CTxIn) : Prop :=
  ∀ i ∈ vin, ∃ coin, v.peek i.prevout = some coin ∧ moneyRange coin.out.nValue = true

def valueIn (v : CoinsView) (vin : List CTxIn) : Int := (vin.map fun i => valueAt v i.prevout).sum

variable {vin : List CTxIn} {vtx : List CTransaction}

theorem inputsThere_congr (h : ∀ o, w.peek o = v.peek o) : InputsThere w vin ↔ InputsThere v vin := by
  simp only [InputsThere, h]

theorem valueIn_congr (h : ∀ o, w.peek o = v.peek o) (vin : List CTxIn) : valueIn w vin = valueIn v vin := by
  simp only [valueIn, valueAt, h]

theorem sumInputs_ok [Fetches ok] {nSpendHeight n r : Int} (hv : Usable ok v)
    (h : sumInputs nSpendHeight n vin v = .ok (.ok r, w)) : Reads v w ∧ InputsThere v vin ∧ r = n + valueIn v vin := by
  induction vin generalizing v n with
  | nil =>
    cases h
    exact ⟨.refl, by simp [InputsThere], by simp [valueIn]⟩
  | cons i vin ih =>
    have hread := Reads.refl.access (v := v) i.prevout
    obtain ⟨hcoin, -, -, -⟩ := accessCoin_spec hv.valid i.prevout hv.nonempty
    obtain ⟨hv', hpeek⟩ := hread.spec hv
    rw [sumInputs] at h
    simp only at h
    generalize hac : v.accessCoin i.prevout = p at h hread hcoin hv' hpeek
    obtain ⟨coin, _⟩ := p
    simp only at h hread hcoin hv' hpeek
    rw [bind_ok] at h
    obtain ⟨_, hun, h⟩ := h
    rw [check_ok, Bool.not_eq_true'] at hun
    rw [unspent_eq_some hun] at hcoin
    split at h
    · cases h
    · split at h
      · cases h
      · next hrange =>
        simp only [Bool.or_eq_true, Bool.not_eq_true', not_or, Bool.not_eq_false] at hrange
        obtain ⟨hread', hthere, hr⟩ := ih hv' h
        refine ⟨hread.trans hread', ?_, ?_⟩
        · intro j hj
          rcases mem_cons.mp hj with rfl | hj
          · exact ⟨coin, hcoin.symm, hrange.1⟩
          · exact (inputsThere_congr hpeek).mp hthere j hj
        · rw [hr, valueIn_congr hpeek]
          simp only [valueIn, map_cons, sum_cons, valueAt, ← hcoin, Option.elim_some]
          ring

theorem checkTxInputs_ok [Fetches ok] {tx : CTransaction} {nSpendHeight fee : Int} (hv : Usable ok v)
    (h : checkTxInputs tx v nSpendHeight = .ok (.ok fee, w)) :
    Reads v w ∧ InputsThere v tx.vin ∧ fee = valueIn v tx.vin - tx.valueOut := by
  have hread := haveInputs_reads v tx
  obtain ⟨hv', hpeek⟩ := hread.spec hv
  unfold checkTxInputs at h
  generalize haveInputs v tx = p at h hread hv' hpeek
  obtain ⟨_, _⟩ := p
  simp only at h hread hv' hpeek
  split at h
  · cases h
  · rw [bind_ok] at h
    obtain ⟨⟨sum, _⟩, hsum, h⟩ := h
    cases sum with
    | error e => cases h
    | ok nValueIn =>
      obtain ⟨hread', hthere, hr⟩ := sumInputs_ok hv' hsum
      simp only at h
      rw [bind_ok] at h
      obtain ⟨valueOut, hout, h⟩ := h
      have hout := (CTransaction.getValueOut_ok hout).1
      split at h
      · cases h
      · split at h
        · cases h
        · cases h
          refine ⟨hread.trans hread', (inputsThere_congr hpeek).mp hthere, ?_⟩
          rw [hr, valueIn_congr hpeek, hout]
          ring

/-! ## One transaction -/

variable {rules : Rules} {pindex : CBlockIndex} {flags : Uint32} {tx : CTransaction}
  {s s' : ConnectState}

theorem whenValid_ok {next : ConnectState → Checked ConnectState} (h : s.whenValid next = .ok s')
    (hvalid : s'.state = none) : s.state = none ∧ next s = .ok s' := by
  unfold ConnectState.whenValid at h
  split at h
  · next hsome =>
    cases h
    rw [hvalid] at hsome
    cases hsome
  · next hnone => exact ⟨by simpa using hnone, h⟩

theorem connectInputs_ok [Fetches ok] (hv : Usable ok s.view)
    (h : connectInputs rules pindex tx s = .ok s') (hvalid : s'.state = none) :
    Reads s.view s'.view ∧ s'.vtxundo = s.vtxundo ∧ (tx.isCoinBase = true → s'.nFees = s.nFees) ∧
      (tx.isCoinBase = false →
        InputsThere s.view tx.vin ∧ s'.nFees = s.nFees + (valueIn s.view tx.vin - tx.valueOut)) := by
  unfold connectInputs at h
  split at h
  · next hcb =>
    cases h
    exact ⟨.refl, rfl, fun _ => rfl, fun hf => by rw [hcb] at hf; cases hf⟩
  next hcb =>
  rw [bind_ok] at h
  obtain ⟨⟨result, view⟩, hcheck, h⟩ := h
  cases result with
  | error e =>
    cases h
    cases hvalid
  | ok fee =>
    obtain ⟨hread, hthere, hfee⟩ := checkTxInputs_ok hv hcheck
    simp only at h
    split at h
    · cases h
      cases hvalid
    · have hread' := accessCoins_reads view tx.vin
      generalize accessCoins view tx.vin = p at h hread'
      obtain ⟨_, _⟩ := p
      simp only at h hread'
      rw [bind_ok] at h
      obtain ⟨_, -, h⟩ := h
      split at h
      · cases h
        cases hvalid
      · cases h
        exact ⟨hread.trans hread', rfl, fun ht => absurd ht hcb, fun _ => ⟨hthere, by rw [hfee]⟩⟩

theorem connectSigOps_ok (h : connectSigOps rules flags tx s = .ok s') :
    Reads s.view s'.view ∧ s'.nFees = s.nFees ∧ s'.vtxundo = s.vtxundo := by
  have hread : Reads s.view (if tx.isCoinBase then ([], s.view) else accessCoins s.view tx.vin).2 := by
    split
    · exact .refl
    · exact accessCoins_reads s.view tx.vin
  unfold connectSigOps at h
  generalize (if tx.isCoinBase then (([] : List Coin), s.view) else accessCoins s.view tx.vin) = p at h hread
  obtain ⟨coins, view⟩ := p
  simp only [bind_ok] at h
  obtain ⟨_, -, h⟩ := h
  generalize s.nSigOpsCost + rules.getLegacySigOpCount tx * WITNESS_SCALE_FACTOR +
    (if tx.isCoinBase = true then 0 else rules.inputSigOpCost tx coins flags) = cost at h
  cases h
  split <;> exact ⟨hread, rfl, rfl⟩

theorem connectScripts_ok (h : connectScripts rules pindex flags tx s = .ok s') :
    Reads s.view s'.view ∧ s'.nFees = s.nFees ∧ s'.vtxundo = s.vtxundo := by
  unfold connectScripts at h
  split at h
  · cases h
    exact ⟨.refl, rfl, rfl⟩
  · have hread := accessCoins_reads s.view tx.vin
    generalize accessCoins s.view tx.vin = p at h hread
    obtain ⟨_, view⟩ := p
    simp only [bind_ok] at h hread
    obtain ⟨_, -, h⟩ := h
    split at h
    · cases h
      exact ⟨hread, rfl, rfl⟩
    · split at h <;> cases h <;> exact ⟨hread, rfl, rfl⟩

/-- A round of the loop: reads, then the update, and what it left. -/
structure TxConnected (pindex : CBlockIndex) (tx : CTransaction) (s s' : ConnectState) : Prop where
  update : ∃ w txundo, Reads s.view w ∧ updateCoins tx w pindex.nHeight = .ok (txundo, s'.view) ∧
      s'.vtxundo = s.vtxundo ++ [txundo]
  coinbase : tx.isCoinBase = true → s'.nFees = s.nFees
  inputs : tx.isCoinBase = false →
      InputsThere s.view tx.vin ∧ s'.nFees = s.nFees + (valueIn s.view tx.vin - tx.valueOut)

theorem connectTx_ok [Fetches ok] (hv : Usable ok s.view)
    (h : connectTx rules pindex flags tx s = .ok s') (hvalid : s'.state = none) :
    s.state = none ∧ TxConnected pindex tx s s' := by
  unfold connectTx at h
  obtain ⟨hs, h⟩ := whenValid_ok h hvalid
  rw [bind_ok] at h
  obtain ⟨_, h1, h⟩ := h
  obtain ⟨hs1, h⟩ := whenValid_ok h hvalid
  rw [bind_ok] at h
  obtain ⟨_, h2, h⟩ := h
  obtain ⟨-, h⟩ := whenValid_ok h hvalid
  rw [bind_ok] at h
  obtain ⟨s3, h3, h⟩ := h
  obtain ⟨-, h⟩ := whenValid_ok h hvalid
  obtain ⟨hread2, hfees2, hundo2⟩ := connectSigOps_ok h2
  unfold connectUpdate at h
  rw [bind_ok] at h
  obtain ⟨⟨txundo, view⟩, hupdate, h⟩ := h
  cases h
  obtain ⟨hread1, hundo1, hfees1, hinputs⟩ := connectInputs_ok hv h1 hs1
  obtain ⟨hread3, hfees3, hundo3⟩ := connectScripts_ok h3
  refine ⟨hs, ⟨s3.view, txundo, (hread1.trans hread2).trans hread3, hupdate, ?_⟩, fun ht => ?_, fun hf => ?_⟩
  · rw [hundo3, hundo2, hundo1]
  · rw [← hfees1 ht, ← hfees2, ← hfees3]
  · obtain ⟨hthere, hfees⟩ := hinputs hf
    exact ⟨hthere, by rw [← hfees, ← hfees2, ← hfees3]⟩

/-! ## The loop over transactions -/

theorem connectTxs_state (h : connectTxs rules pindex flags vtx s = .ok s') (hvalid : s'.state = none) :
    s.state = none := by
  induction vtx generalizing s with
  | nil =>
    cases h
    exact hvalid
  | cons tx vtx ih =>
    unfold connectTxs at h
    rw [bind_ok] at h
    obtain ⟨_, h1, h⟩ := h
    exact (whenValid_ok h1 (ih h)).1

theorem connectTxs_ok (ok : CCoinsCacheEntry → Option Coin → Prop) [Fetches ok]
    {I : List CTransaction → ConnectState → Prop} (hview : ∀ vtx s, I vtx s → Usable ok s.view)
    (hstep : ∀ tx vtx s s', I (tx :: vtx) s → TxConnected pindex tx s s' → I vtx s')
    (h : connectTxs rules pindex flags vtx s = .ok s')
    (hvalid : s'.state = none) (hs : I vtx s) : s.state = none ∧ I [] s' := by
  induction vtx generalizing s with
  | nil =>
    cases h
    exact ⟨hvalid, hs⟩
  | cons tx vtx ih =>
    unfold connectTxs at h
    rw [bind_ok] at h
    obtain ⟨s1, h1, h⟩ := h
    -- The state stays invalid once it is, so it was valid after this transaction.
    have hs1 : s1.state = none := connectTxs_state h hvalid
    obtain ⟨hstate, htx⟩ := connectTx_ok (hview _ s hs) h1 hs1
    exact ⟨hstate, (ih h (hstep tx vtx s s1 hs htx)).2⟩

/-! ## `CheckBlock` -/

theorem checkTransactions_ok (h : checkTransactions rules vtx = .ok ()) :
    ∀ tx ∈ vtx, checkTransaction rules.txSize tx = .ok () := by
  induction vtx with
  | nil => simp
  | cons tx vtx ih =>
    unfold checkTransactions at h
    split at h
    · cases h
    · next hcheck =>
      intro tx' htx'
      rcases mem_cons.mp htx' with rfl | htx'
      · exact hcheck
      · exact ih h tx' htx'

/-- One coinbase, which comes first, and well-formed transactions. -/
structure BlockChecked (rules : Rules) (coinbase : CTransaction) (rest : List CTransaction) : Prop where
  first : coinbase.isCoinBase = true
  others : ∀ tx ∈ rest, tx.isCoinBase = false
  checked : ∀ tx ∈ coinbase :: rest, checkTransaction rules.txSize tx = .ok ()

theorem guard_ok {ε α β : Type} {c : Prop} [Decidable c] {e : ε} {f : β → Except ε α} {x : Except ε α} {a : α}
    (h : (if c then (throw e : Except ε β) >>= f else x) = .ok a) : ¬c ∧ x = .ok a := by
  split at h
  · cases h
  · next hc => exact ⟨hc, h⟩

theorem optional_ok {ε α : Type} {c : Prop} [Decidable c] {y : Except ε Unit} {x : Except ε α} {a : α}
    (h : (if c then y >>= fun _ => x else x) = .ok a) : x = .ok a := by
  split at h
  · rw [bind_ok] at h
    obtain ⟨_, -, h⟩ := h
    exact h
  · exact h

theorem checkBlock_ok {block : CBlock} {pow merkle : Bool} (h : checkBlock rules block pow merkle = .ok ()) :
    ∃ coinbase rest, block.vtx = coinbase :: rest ∧ BlockChecked rules coinbase rest := by
  unfold checkBlock at h
  obtain ⟨-, h⟩ := guard_ok h
  obtain ⟨-, h⟩ := guard_ok h
  obtain ⟨-, h⟩ := guard_ok (optional_ok h)
  cases hvtx : block.vtx with
  | nil =>
    rw [hvtx] at h
    cases h
  | cons coinbase rest =>
    rw [hvtx] at h
    obtain ⟨hcoinbase, h⟩ := guard_ok h
    obtain ⟨hothers, h⟩ := guard_ok h
    rw [bind_ok] at h
    obtain ⟨_, htxs, -⟩ := h
    refine ⟨coinbase, rest, rfl, by simpa using hcoinbase, ?_, checkTransactions_ok htxs⟩
    intro tx htx
    by_contra hcb
    exact hothers (any_eq_true.mpr ⟨tx, htx, by simpa using hcb⟩)

/-! ## The block -/

variable {block : CBlock} {undo : CBlockUndo}

/-- The loop ran, and the coinbase takes no more than its due. -/
structure CoinsConnected (rules : Rules) (block : CBlock) (pindex : CBlockIndex) (v : CoinsView)
    (undo : CBlockUndo) (v' : CoinsView) (fEnforceBIP30 : Bool) (s s' : ConnectState) : Prop where
  enforces : enforcesBIP30 rules.params pindex = .ok fEnforceBIP30
  start : s = ⟨s.view, none, 0, 0, none, []⟩
  reads : Reads v s.view
  overwrites : fEnforceBIP30 = true → checkOverwrites (block.vtx.flatMap CTransaction.outpoints) v none = (none, s.view)
  txs : connectTxs rules pindex (getBlockScriptFlags rules.params pindex) block.vtx s = .ok s'
  valid : s'.state = none
  reward : ∀ coinbase rest, block.vtx = coinbase :: rest → ∃ subsidy,
    getBlockSubsidy pindex.nHeight rules.params = .ok subsidy ∧ coinbase.valueOut ≤ s'.nFees + subsidy
  undo : undo = s'.vtxundo.tail
  view : v' = s'.view.setBestBlock pindex.getBlockHash

theorem connectReward_ok (h : connectReward rules block pindex false s = .ok (.ok undo, w)) :
    s.state = none ∧ undo = s.vtxundo.tail ∧ w = s.view.setBestBlock pindex.getBlockHash ∧
      ∀ coinbase rest, block.vtx = coinbase :: rest → ∃ subsidy,
        getBlockSubsidy pindex.nHeight rules.params = .ok subsidy ∧ coinbase.valueOut ≤ s.nFees + subsidy := by
  unfold connectReward at h
  rw [bind_ok] at h
  obtain ⟨subsidy, hsubsidy, h⟩ := h
  simp only at h
  split at h
  · cases h
  next coinbase rest hvtx =>
  rw [bind_ok] at h
  obtain ⟨valueOut, hout, h⟩ := h
  split at h
  · cases h
  next hstate =>
  rw [Option.or_eq_none_iff] at hstate
  obtain ⟨hstate, -⟩ := hstate
  split at hstate
  · cases hstate
  next hamount =>
  simp only [hstate, Option.isNone_none, Bool.and_true, decide_eq_true_eq] at hamount
  simp only [Bool.false_eq_true, if_false] at h
  split at h
  · cases h
  cases h
  refine ⟨hstate, rfl, rfl, fun coinbase' rest' hvtx' => ?_⟩
  rw [hvtx] at hvtx'
  cases hvtx'
  have hval := (CTransaction.getValueOut_ok hout).1
  exact ⟨subsidy, hsubsidy, by omega⟩

theorem connectCoins_ok (h : connectCoins rules block pindex v false = .ok (.ok undo, w)) :
    ∃ fEnforceBIP30 s s', CoinsConnected rules block pindex v undo w fEnforceBIP30 s s' := by
  unfold connectCoins at h
  rw [bind_ok] at h
  obtain ⟨fEnforceBIP30, henforces, h⟩ := h
  simp only at h
  rw [bind_ok] at h
  obtain ⟨s', htxs, h⟩ := h
  obtain ⟨hvalid, hundo, hview, hreward⟩ := connectReward_ok h
  have hstate := connectTxs_state htxs hvalid
  simp only at hstate
  refine ⟨fEnforceBIP30, _, s', henforces, ?_, ?_, ?_, htxs, hvalid, hreward, hundo, hview⟩
  · simp only [hstate]
  · simp only
    split
    · exact checkOverwrites_reads _ _ _
    · exact .refl
  · intro ht
    simp only [ht, if_true] at hstate ⊢
    exact Prod.ext hstate rfl

theorem connectBlock_ok (h : connectBlock rules block pindex v false = .ok (.ok undo, w)) :
    (∃ coinbase rest, block.vtx = coinbase :: rest ∧ BlockChecked rules coinbase rest) ∧
      pindex.getBlockHash = rules.getHash block.header ∧ ((rules.getHash block.header = rules.params.hashGenesisBlock ∧
          w = v.getBestBlock.2.setBestBlock pindex.getBlockHash) ∨
            (rules.getHash block.header ≠ rules.params.hashGenesisBlock ∧
          ∃ fEnforceBIP30 s s', CoinsConnected rules block pindex v.getBestBlock.2 undo w fEnforceBIP30 s s')) := by
  unfold connectBlock at h
  simp only [bind_ok] at h
  obtain ⟨_, -, _, hhash, h⟩ := h
  rw [check_ok, beq_iff_eq] at hhash
  split at h
  · cases h
  · next hcheck =>
    refine ⟨checkBlock_ok hcheck, hhash, ?_⟩
    simp only [bind_ok] at h
    obtain ⟨_, -, h⟩ := h
    split at h
    · next hgenesis =>
      cases h
      exact .inl ⟨hgenesis, rfl⟩
    · next hgenesis => exact .inr ⟨hgenesis, connectCoins_ok h⟩

end FullNode

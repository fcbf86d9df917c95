import FullNode.Accepted
import FullNode.Claimable
import FullNode.Lib.SumsWithin
import Mathlib.Algebra.BigOperators.Intervals

/-! # No inflation -/

open FullNode.CoinsView List AList

namespace FullNode

variable {v w : CoinsView} {b : Int}

/-! ## A bound on the view -/

def valueOf (coin : Coin) : Nat := coin.out.nValue.toNat

def negative (coin : Coin) : Nat := if coin.out.nValue < 0 then 1 else 0

def claims (val : Coin → Nat) (v : CoinsView) (o : COutPoint) : Int := claimable val v.base o v.caches

structure Holds (b : Int) (v : CoinsView) : Prop where
  usable : Usable CleanOk v
  within : SumsWithin (claims valueOf v) b
  nonneg : SumsWithin (claims negative v) 0

theorem Holds.weaken {b' : Int} (h : Holds b v) (hb : b ≤ b') : Holds b' v :=
  ⟨h.usable, h.within.weaken hb, h.nonneg⟩

theorem Holds.of_le (h : Holds b v) (hw : Usable CleanOk w) (hle : ∀ val o, claims val w o ≤ claims val v o) :
    Holds b w :=
  ⟨hw, h.within.mono (hle valueOf), h.nonneg.mono (hle negative)⟩

theorem Holds.reads (h : Holds b v) (hread : Reads v w) : Holds b w := by
  induction hread with
  | refl => exact h
  | fetch hread o ih =>
    apply ih.of_le ((Reads.fetch .refl o).spec ih.usable).1
    intro val o'
    exact le_of_eq (fetchCoin_claimable ih.usable.valid o o')

variable {o : COutPoint} {undo : CTxUndo} {tx : CTransaction}

section

variable (h : Holds b v)
include h

theorem Holds.moved {x : (Coin → Nat) → Int} (hmoved : ClaimMoved v o x w)
    (hx : x negative ≤ 0) : Holds (b + x valueOf) w := by
  have hupdate : ∀ val {c : Int}, SumsWithin (claims val v) c → SumsWithin (claims val w) (c + x val) := by
    intro val c hc
    apply hc.update o
    · exact claimable_nonneg _ _ _ _
    · exact hmoved.at_ val
    · intro o' ho
      exact le_of_eq (hmoved.other val o' ho)
  exact ⟨⟨hmoved.valid, hmoved.nonempty⟩, hupdate valueOf h.within, (hupdate negative h.nonneg).weaken (by omega)⟩

theorem Holds.sameFinds (hfinds : SameFinds v.caches w.caches) (hbase : w.base = v.base) : Holds b w := by
  apply h.of_le (h.usable.sameFinds hfinds hbase).1
  intro val o
  rw [claims, hbase, hfinds.claimable]
  exact le_refl _

theorem Holds.kept (hkept : ClaimKept v w) : Holds b w := by
  apply h.of_le ⟨hkept.valid, ?_⟩ hkept.claim
  rw [← length_pos_iff, hkept.length, length_pos_iff]
  exact h.usable.nonempty

theorem Holds.value_nonneg {coin : Coin} (hpeek : v.peek o = some coin) : 0 ≤ coin.out.nValue := by
  have hclaim := h.nonneg {o}
  have hseen := worth_seen_le negative v.base o v.caches
  rw [Finset.sum_singleton] at hclaim
  unfold peek at hpeek
  rw [hpeek] at hseen
  simp only [worth, Option.elim_some, claims, negative] at hseen hclaim
  split at hseen <;> omega

/-! ## One transaction -/

theorem spendInputs_holds {vin : List CTxIn} (hthere : InputsThere v vin)
    (hnodup : (vin.map CTxIn.prevout).Nodup) (hspend : spendInputs vin v = .ok (undo, w)) :
    Holds (b - valueIn v vin) w := by
  induction vin generalizing v b undo with
  | nil =>
    cases hspend
    simpa [valueIn] using h
  | cons i vin ih =>
    rw [map_cons, nodup_cons] at hnodup
    obtain ⟨_, hpeek, -⟩ := hthere i mem_cons_self
    obtain ⟨v', hv', hmoved⟩ := spendCoin_claim h.usable.valid h.usable.nonempty hpeek
    unfold spendInputs at hspend
    rw [hv'] at hspend
    simp only [bind_ok] at hspend
    obtain ⟨⟨_, _⟩, hrest, hspend⟩ := hspend
    cases hspend
    -- The other inputs are still there: no outpoint is spent twice.
    have hpeek' : ∀ j ∈ vin, v'.peek j.prevout = v.peek j.prevout := by
      intro j hj
      apply hmoved.peek
      intro heq
      exact hnodup.1 (mem_map.mpr ⟨j, hj, heq⟩)
    have hthere' : InputsThere v' vin := by
      intro j hj
      rw [hpeek' j hj]
      exact hthere j (mem_cons_of_mem _ hj)
    have hvalue : valueIn v' vin = valueIn v vin := by
      unfold valueIn valueAt
      exact congrArg sum (map_congr_left fun j hj => by rw [hpeek' j hj])
    have hrest := ih (h.moved hmoved (by omega)) hthere' hnodup.2 hrest
    apply hrest.weaken
    rw [hvalue]
    simp only [valueIn, map_cons, sum_cons, valueAt, hpeek, Option.elim_some, valueOf]
    omega

theorem addOutputs_holds {nHeight i : Nat} {vout : List CTxOut}
    (hnonneg : ∀ out ∈ vout, 0 ≤ out.nValue) (hadd : addOutputs tx nHeight false i vout v = .ok w) :
    Holds (b + (vout.map CTxOut.nValue).sum) w := by
  induction vout generalizing v b i with
  | nil =>
    cases hadd
    simpa using h
  | cons out vout ih =>
    unfold addOutputs at hadd
    simp only [Bool.false_eq_true, if_false] at hadd
    split at hadd
    · cases hadd
    · next v' hcoin =>
      have hmoved := addCoin_claim h.usable.valid h.usable.nonempty hcoin
      have hout := hnonneg out mem_cons_self
      have hnext := h.moved hmoved (by simp only [negative]; split <;> omega)
      apply (ih hnext (fun p hp => hnonneg p (mem_cons_of_mem _ hp)) hadd).weaken
      rw [map_cons, sum_cons]
      simp only [valueOf]
      omega

theorem updateCoins_holds {nHeight : Nat} {size : CTransaction → Nat}
    (hcheck : checkTransaction size tx = .ok ())
    (hthere : tx.isCoinBase = false → InputsThere v tx.vin)
    (hupdate : updateCoins tx v nHeight = .ok (undo, w)) :
    Holds (b + tx.valueOut - if tx.isCoinBase then 0 else valueIn v tx.vin) w := by
  obtain ⟨hnodup, hnonneg⟩ := checkTransaction_ok hcheck
  unfold updateCoins at hupdate
  cases hcb : tx.isCoinBase with
  | true =>
    simp only [hcb, if_true, pure_bind, bind_ok] at hupdate
    obtain ⟨w', hadd, hupdate⟩ := hupdate
    cases hupdate
    apply (addOutputs_holds h hnonneg hadd).weaken
    simp [CTransaction.valueOut]
  | false =>
    simp only [hcb, Bool.false_eq_true, if_false, bind_ok] at hupdate
    obtain ⟨⟨_, _⟩, hspend, w', hadd, hupdate⟩ := hupdate
    cases hupdate
    apply (addOutputs_holds (spendInputs_holds h (hthere hcb) hnodup hspend) hnonneg hadd).weaken
    simp only [Bool.false_eq_true, if_false, CTransaction.valueOut]
    omega

end

/-! ## One block -/

variable {rules : Rules} {block : CBlock} {pindex : CBlockIndex} {undo : CBlockUndo}

/-- `GetBlockSubsidy`, or nothing where it faults. -/
def subsidyAt (params : Params) (nHeight : Nat) : Int :=
  match getBlockSubsidy nHeight params with
  | .ok subsidy => subsidy
  | .error _ => 0

theorem reduceSubsidy_nonneg (n : Nat) {nSubsidy : Int} (h : 0 ≤ nSubsidy) : 0 ≤ reduceSubsidy n nSubsidy := by
  induction n generalizing nSubsidy with
  | zero => exact h
  | succ n ih =>
    have hnext : 0 ≤ (nSubsidy * 99).tdiv 100 := Int.tdiv_nonneg (by omega) (by decide)
    unfold reduceSubsidy
    simp only
    split
    · exact hnext
    · exact ih hnext

theorem subsidyAt_nonneg (params : Params) (nHeight : Nat) : 0 ≤ subsidyAt params nHeight := by
  unfold subsidyAt getBlockSubsidy
  cases cdiv (nHeight : Int) params.nSubsidyHalvingInterval with
  | error f => exact le_refl 0
  | ok n => exact reduceSubsidy_nonneg _ (by decide)

def coinbaseOut (vtx : List CTransaction) : Int :=
  (vtx.map fun tx => if tx.isCoinBase then tx.valueOut else 0).sum

/-- Fees go out of the bound as coinbase outputs go in. -/
theorem connectTxs_holds {flags : Uint32} {vtx : List CTransaction} {s s' : ConnectState}
    (h : Holds b s.view) (hcheck : ∀ tx ∈ vtx, checkTransaction rules.txSize tx = .ok ())
    (htxs : connectTxs rules pindex flags vtx s = .ok s') (hvalid : s'.state = none) :
    Holds (b + s.nFees + coinbaseOut vtx - s'.nFees) s'.view := by
  let I : List CTransaction → ConnectState → Prop := fun rest t =>
    (∀ tx ∈ rest, checkTransaction rules.txSize tx = .ok ()) ∧
      Holds (b + s.nFees + coinbaseOut vtx - coinbaseOut rest - t.nFees) t.view
  have hstep : ∀ tx rest t t', I (tx :: rest) t → TxConnected pindex tx t t' → I rest t' := by
    rintro tx rest t t' ⟨hchecks, ht⟩ htx
    refine ⟨fun tx' h' => hchecks tx' (mem_cons_of_mem _ h'), ?_⟩
    obtain ⟨u, _, hread, hupdate, -⟩ := htx.update
    have hpeek := (hread.spec ht.usable).2
    have hthere : tx.isCoinBase = false → InputsThere u tx.vin := fun hcb =>
      (inputsThere_congr hpeek).mpr (htx.inputs hcb).1
    have hnext := updateCoins_holds (ht.reads hread) (hchecks tx mem_cons_self) hthere hupdate
    apply hnext.weaken
    have hout : coinbaseOut (tx :: rest) = (if tx.isCoinBase then tx.valueOut else 0) + coinbaseOut rest := by
      simp only [coinbaseOut, map_cons, sum_cons]
    rw [hout, valueIn_congr hpeek]
    cases hcb : tx.isCoinBase with
    | true =>
      rw [htx.coinbase hcb]
      simp only [if_true]
      omega
    | false =>
      rw [(htx.inputs hcb).2]
      simp only [Bool.false_eq_true, if_false]
      omega
  have hend := (connectTxs_ok CleanOk (I := I) (fun _ t ht => ht.2.usable) hstep htxs hvalid
    ⟨hcheck, h.weaken (by omega)⟩).2.2
  apply hend.weaken
  simp [coinbaseOut]

theorem connectBlock_holds (h : Holds b v) (hok : connectBlock rules block pindex v false = .ok (.ok undo, w)) :
    Holds (b + subsidyAt rules.params pindex.nHeight) w := by
  obtain ⟨⟨coinbase, rest, hvtx, hchecked⟩, -, hcoins⟩ := connectBlock_ok hok
  have hbest : Holds b v.getBestBlock.2 := h.sameFinds (bestBlockFrom_finds _ _) rfl
  rcases hcoins with ⟨-, rfl⟩ | ⟨-, _, s, s', hcoins⟩
  · obtain ⟨hfinds, hbase⟩ := setBestBlock_finds v.getBestBlock.2 pindex.getBlockHash
    apply (hbest.sameFinds hfinds hbase).weaken
    have := subsidyAt_nonneg rules.params pindex.nHeight
    omega
  · obtain ⟨hfinds, hbase⟩ := setBestBlock_finds s'.view pindex.getBlockHash
    obtain ⟨_, hsubsidy, _⟩ := hcoins.reward coinbase rest hvtx
    have hchecks := hchecked.checked
    rw [← hvtx] at hchecks
    have htxs := connectTxs_holds (hbest.reads hcoins.reads) hchecks hcoins.txs hcoins.valid
    rw [hcoins.view]
    apply (htxs.sameFinds hfinds hbase).weaken
    -- Only the first transaction is a coinbase.
    have hrest : coinbaseOut rest = 0 := by
      apply sum_eq_zero
      intro x hx
      obtain ⟨tx, htx, rfl⟩ := mem_map.mp hx
      simp [hchecked.others tx htx]
    have hout : coinbaseOut block.vtx = coinbase.valueOut := by
      rw [hvtx]
      simp only [coinbaseOut, map_cons, sum_cons, hchecked.first, if_true] at hrest ⊢
      omega
    have hfees : s.nFees = 0 := by rw [hcoins.start]
    rw [hout, hfees, subsidyAt, hsubsidy]
    simp only
    omega

/-! ## Runs -/

/-- The views after `h` blocks, with reads and writes between. -/
inductive ChainRun (rules : Rules) : Nat → CoinsView → Prop
  | genesis {v : CoinsView} (hbase : v.base.coins = ∅) (hcaches : ∀ c ∈ v.caches, c.cacheCoins = ∅)
      (hne : v.caches ≠ []) : ChainRun rules 0 v
  | connect {h : Nat} {v w : CoinsView} {block : CBlock} {pindex : CBlockIndex} {undo : CBlockUndo}
      (hrun : ChainRun rules h v) (hheight : pindex.nHeight = h + 1)
      (hok : connectBlock rules block pindex v false = .ok (.ok undo, w)) : ChainRun rules (h + 1) w
  | open_ {h : Nat} {v : CoinsView} (hrun : ChainRun rules h v) : ChainRun rules h { v with caches := .new :: v.caches }
  | close {h : Nat} {v : CoinsView} {c d : CCoinsViewCache} {cs : List CCoinsViewCache}
      (hrun : ChainRun rules h v) (hcaches : v.caches = c :: d :: cs) (hempty : c.cacheCoins = ∅) :
      ChainRun rules h { v with caches := d :: cs }
  | read {h : Nat} {v : CoinsView} (hrun : ChainRun rules h v) (o : COutPoint) : ChainRun rules h (v.fetchCoin o).2
  | uncache {h : Nat} {v : CoinsView} (hrun : ChainRun rules h v) (o : COutPoint) : ChainRun rules h (v.uncache o)
  | sync {h : Nat} {v w : CoinsView} (hrun : ChainRun rules h v) (hok : v.sync .written = (.ok true, w)) :
      ChainRun rules h w
  | flush {h : Nat} {v w : CoinsView} (hrun : ChainRun rules h v) (hok : v.flush .written = (.ok true, w)) :
      ChainRun rules h w

theorem ChainRun.holds {h : Nat} (hrun : ChainRun rules h v) :
    Holds (∑ i ∈ Finset.Icc 1 h, subsidyAt rules.params i) v := by
  induction hrun with
  | @genesis v hbase hcaches hne =>
    obtain ⟨caches, base⟩ := v
    simp only at hbase hcaches hne
    have hunspent : BaseUnspent base := fun o coin hcoin => by rw [hbase, lookup_empty] at hcoin; cases hcoin
    have hempty : CoherentBy CleanOk base caches ∧ ∀ val o, claimable val base o caches = 0 := by
      clear hne
      induction caches with
      | nil =>
        refine ⟨trivial, fun val o => ?_⟩
        rw [claimable, seen_base hunspent, hbase, lookup_empty]
        rfl
      | cons c cs ih =>
        obtain ⟨hcoh, hclaim⟩ := ih fun c' hc' => hcaches c' (mem_cons_of_mem _ hc')
        have hc := hcaches c mem_cons_self
        exact ⟨coherent_of_empty hc hcoh, fun val o => (claimable_of_empty hc o).trans (hclaim val o)⟩
    exact ⟨⟨⟨hunspent, hempty.1⟩, hne⟩, sumsWithin_zero (hempty.2 valueOf), sumsWithin_zero (hempty.2 negative)⟩
  | connect _ hheight hok ih =>
    have hnext := connectBlock_holds ih hok
    rw [hheight] at hnext
    rwa [Finset.sum_Icc_succ_top (by omega)]
  | open_ _ ih =>
    apply ih.of_le
    · exact ⟨⟨ih.usable.valid.base, coherent_of_empty rfl ih.usable.valid.coherent⟩, by simp⟩
    · intro val o
      exact le_of_eq (claimable_of_empty rfl o)
  | @close h v c d cs _ hcaches hempty ih =>
    have hcoh := ih.usable.valid.coherent
    rw [hcaches] at hcoh
    apply ih.of_le
    · exact ⟨⟨ih.usable.valid.base, hcoh.1⟩, by simp⟩
    · intro val o
      unfold claims
      rw [hcaches, claimable_of_empty hempty]
  | read _ o ih => exact ih.reads (.fetch .refl o)
  | @uncache h v _ o ih =>
    obtain ⟨hvalid, hlength, hclaim⟩ := uncache_claim ih.usable.valid o
    exact ih.kept ⟨hvalid, hlength, fun val o' => le_of_eq (hclaim val o')⟩
  | sync _ hok ih => exact ih.kept (sync_claim ih.usable.valid hok)
  | flush _ hok ih => exact ih.kept (flush_claim ih.usable.valid hok)

/-! ## The supply -/

def CoinsView.outpoints (v : CoinsView) : List COutPoint :=
  v.caches.flatMap (fun c => c.cacheCoins.keys) ++ v.base.coins.keys

def CoinsView.totalValue (v : CoinsView) : Int := ∑ o ∈ v.outpoints.toFinset, valueAt v o

theorem mem_outpoints (h : v.peek o ≠ none) : o ∈ v.outpoints := by
  obtain ⟨caches, _⟩ := v
  unfold peek at h
  unfold CoinsView.outpoints
  simp only at h ⊢
  induction caches with
  | nil =>
    rw [flatMap_nil, nil_append, ← AList.mem_keys, ← AList.lookup_isSome]
    unfold seen at h
    rw [← Option.ne_none_iff_isSome]
    intro hnone
    rw [hnone] at h
    exact h rfl
  | cons c cs ih =>
    rw [flatMap_cons, append_assoc, mem_append]
    cases hfind : c.find o with
    | none =>
      rw [seen_of_none hfind] at h
      exact .inr (ih h)
    | some it =>
      left
      rw [← AList.mem_keys, ← AList.lookup_isSome]
      unfold CCoinsViewCache.find at hfind
      rw [hfind]
      rfl

theorem valueAt_le_claims (v : CoinsView) (o : COutPoint) : valueAt v o ≤ claims valueOf v o := by
  have hseen := worth_seen_le valueOf v.base o v.caches
  unfold valueAt peek claims
  cases hpeek : seen v.base o v.caches with
  | none =>
    rw [hpeek] at hseen
    exact hseen
  | some coin =>
    rw [hpeek] at hseen
    simp only [worth, Option.elim_some, valueOf] at hseen ⊢
    omega

theorem Holds.totalValue_le (h : Holds b v) : v.totalValue ≤ b :=
  (Finset.sum_le_sum fun o _ => valueAt_le_claims v o).trans (h.within _)

theorem Holds.exact_ (h : Holds b v) (hvalid : Valid v) : Holds v.totalValue v := by
  refine ⟨h.usable, fun s => ?_, h.nonneg⟩
  have hvalue : ∀ o, claims valueOf v o = valueAt v o := by
    intro o
    rw [claims, claimable_of_coherent hvalid.coherent]
    unfold valueAt
    cases hpeek : v.peek o with
    | none =>
      unfold peek at hpeek
      rw [hpeek]
      rfl
    | some coin =>
      have hnonneg := h.value_nonneg hpeek
      unfold peek at hpeek
      rw [hpeek]
      simp only [worth, Option.elim_some, valueOf]
      omega
  simp only [hvalue]
  rw [← Finset.sum_filter_ne_zero]
  apply Finset.sum_le_sum_of_subset_of_nonneg
  · intro o ho
    rw [mem_toFinset]
    apply mem_outpoints
    intro hnone
    rw [Finset.mem_filter, valueAt, hnone] at ho
    exact ho.2 rfl
  · intro o _ _
    rw [← hvalue]
    exact claimable_nonneg _ _ _ _

/-- The unspent coins are worth at most the subsidies so far, and a block adds at most its own. -/
theorem totalValue_le_subsidies {h : Nat} (hrun : ChainRun rules h v) :
    v.totalValue ≤ ∑ i ∈ Finset.Icc 1 h, subsidyAt rules.params i ∧
    ∀ block pindex undo w, connectBlock rules block pindex v false = .ok (.ok undo, w) →
      Valid v → w.totalValue ≤ v.totalValue + subsidyAt rules.params pindex.nHeight := by
  refine ⟨hrun.holds.totalValue_le, fun block pindex undo w hok hvalid => ?_⟩
  exact (connectBlock_holds (hrun.holds.exact_ hvalid) hok).totalValue_le

/-- A coinbase, and a spend of the first one at a loss of 2. -/
def maturedBlock (h : Nat) : CBlock where
  header := ⟨1, BitVec.ofNat 256 (h + 1), 0, 30, mainGenesisBits, BitVec.ofNat 32 (h + 2)⟩
  vtx := { easyCoinbase with hash := BitVec.ofNat 256 (h + 100) } ::
    if h = 100 then [⟨[⟨⟨100, 0⟩, [], 0xffffffff⟩], [⟨48, [0x51]⟩], 1, 0, 1000⟩] else []

def maturedIndex : Nat → CBlockIndex
  | 0 => easyGenesis
  | h + 1 =>
    let pprev := maturedIndex h
    .mk ⟨BitVec.ofNat 256 (h + 2), h + 1, 0, 1, 0, 30, mainGenesisBits, 2⟩ pprev
      ((CBlockIndex.buildSkip (h + 1) pprev).toOption.getD .null)

def maturedChain : Nat → Checked CoinsView
  | 0 => .ok easyView
  | h + 1 => do
    let v ← maturedChain h
    match ← connectBlock easyRules (maturedBlock h) (maturedIndex (h + 1)) v false with
    | (.ok _, w) => return w
    | (.error _, _) => .error .assertion

theorem maturedChain_run {h : Nat} (hv : maturedChain h = .ok v) : ChainRun easyRules h v := by
  induction h generalizing v with
  | zero =>
    cases hv
    exact .genesis rfl (by simp [easyView]; rfl) (by simp [easyView])
  | succ h ih =>
    obtain ⟨_, hu, hv⟩ := bind_ok.mp hv
    obtain ⟨⟨undo, _⟩, hok, hv⟩ := bind_ok.mp hv
    cases undo with
    | error e => cases hv
    | ok undo =>
      cases hv
      exact (ih hu).connect rfl hok

/-- The last of the 101 blocks spends the coinbase of the first. -/
theorem maturedChain_totalValue : ∃ v, ChainRun easyRules 101 v ∧ (v.getCoin ⟨100, 0⟩).1 = none ∧ v.totalValue = 5048 ∧
    v.totalValue ≤ ∑ i ∈ Finset.Icc 1 101, subsidyAt easyRules.params i := by
  have hany : (maturedChain 101).toOption.any (fun v => v.totalValue = 5048 ∧ (v.getCoin ⟨100, 0⟩).1 = none) =
      true := by
    decide +kernel
  cases hv : maturedChain 101 with
  | error e =>
    rw [hv] at hany
    cases hany
  | ok v =>
    rw [hv] at hany
    obtain ⟨htotal, hspent⟩ := of_decide_eq_true hany
    have hrun := maturedChain_run hv
    exact ⟨v, hrun, hspent, htotal, (totalValue_le_subsidies hrun).1⟩

end FullNode

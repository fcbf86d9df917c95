import FullNode.Basic
import FullNode.Lib.AssocMap

/-!
# Transactions of disconnected blocks

A queue of the transactions of disconnected blocks, newest in front, with an index of its places by txid.
-/

namespace FullNode.DisconnectedTransactions

open List

/-! ## The code -/

structure CTransactionRef where
  hash : Uint256
  /-- The transactions that the inputs spend from. -/
  prevouts : List Uint256
  /-- `RecursiveDynamicUsage`. -/
  usage : Nat
  deriving DecidableEq

structure Cell where
  it : Nat
  tx : CTransactionRef
  deriving DecidableEq

structure DisconnectedBlockTransactions where
  cachedInnerUsage : Nat
  m_max_mem_usage : Nat
  queuedTx : List Cell
  iters_by_txid : AssocMap Uint256 Nat
  bucket_count : Nat
  /-- Addresses from here on are free. -/
  free : Nat
  deriving DecidableEq

/-- A pool that holds nothing, with the buckets it starts with. -/
def DisconnectedBlockTransactions.empty (max_mem_usage bucket_count : Nat) : DisconnectedBlockTransactions :=
  ⟨0, max_mem_usage, [], ∅, bucket_count, 0⟩

/-- `memusage::MallocUsage`, for pointers of eight bytes. -/
def mallocUsage (alloc : Nat) : Nat := if alloc = 0 then 0 else (alloc + 31) / 16 * 16

def subtractUsage (cached usage : Nat) : Checked Nat :=
  if usage ≤ cached then .ok (cached - usage) else .error .overflow

namespace DisconnectedBlockTransactions

def txs (pool : DisconnectedBlockTransactions) : List CTransactionRef := pool.queuedTx.map Cell.tx

/-- Map nodes of 48 bytes, bucket pointers, list nodes of 32 bytes. -/
def dynamicMemoryUsage (pool : DisconnectedBlockTransactions) : Nat :=
  pool.cachedInnerUsage + (mallocUsage 48 * pool.iters_by_txid.entries.length + mallocUsage (8 * pool.bucket_count)) +
    mallocUsage 32 * pool.queuedTx.length

def limitMemoryUsage (pool : DisconnectedBlockTransactions) :
    Checked (List CTransactionRef × DisconnectedBlockTransactions) :=
  match h : pool.queuedTx with
  | [] => .ok ([], pool)
  | front :: rest =>
    if pool.dynamicMemoryUsage > pool.m_max_mem_usage then do
      let cachedInnerUsage ← subtractUsage pool.cachedInnerUsage front.tx.usage
      let (evicted, pool') ← limitMemoryUsage { pool with
        cachedInnerUsage := cachedInnerUsage
        iters_by_txid := pool.iters_by_txid.erase front.tx.hash
        queuedTx := rest }
      return (front.tx :: evicted, pool')
    else .ok ([], pool)
termination_by pool.queuedTx.length
decreasing_by
  rw [h]
  exact Nat.lt_succ_self _

def append (pool : DisconnectedBlockTransactions) (tx : CTransactionRef) : DisconnectedBlockTransactions :=
  { pool with
    queuedTx := pool.queuedTx ++ [⟨pool.free, tx⟩]
    iters_by_txid := pool.iters_by_txid.insert tx.hash pool.free
    cachedInnerUsage := pool.cachedInnerUsage + tx.usage
    free := pool.free + 1 }

def add (pool : DisconnectedBlockTransactions) (tx : CTransactionRef) : Checked DisconnectedBlockTransactions := do
  let () ← check (pool.iters_by_txid.lookup tx.hash).isNone
  return pool.append tx

/-- `reserve` picks a number of buckets by itself. -/
def addTransactionsFromBlock (rehash : Nat → Nat → Nat) (pool : DisconnectedBlockTransactions)
    (vtx : List CTransactionRef) : Checked (List CTransactionRef × DisconnectedBlockTransactions) := do
  let pool ← vtx.reverse.foldlM add
    { pool with bucket_count := rehash pool.bucket_count (pool.iters_by_txid.entries.length + vtx.length) }
  pool.limitMemoryUsage

/-- One transaction is taken out of the queue, if it is there. -/
def remove (pool : DisconnectedBlockTransactions) (tx : CTransactionRef) : Checked DisconnectedBlockTransactions :=
  match pool.iters_by_txid.lookup tx.hash with
  | none => .ok pool
  | some it =>
    match pool.queuedTx.find? fun cell => cell.it == it with
    | none => .error .badIterator
    | some cell => do
      let cachedInnerUsage ← subtractUsage pool.cachedInnerUsage cell.tx.usage
      return { pool with
        iters_by_txid := pool.iters_by_txid.erase tx.hash
        cachedInnerUsage := cachedInnerUsage
        queuedTx := pool.queuedTx.eraseP fun cell => cell.it == it }

def removeForBlock (pool : DisconnectedBlockTransactions) (vtx : List CTransactionRef) :
    Checked DisconnectedBlockTransactions :=
  if pool.queuedTx.isEmpty then .ok pool else vtx.foldlM remove pool

def clear (pool : DisconnectedBlockTransactions) : DisconnectedBlockTransactions :=
  { pool with
    cachedInnerUsage := 0
    iters_by_txid := ∅
    queuedTx := [] }

def take (pool : DisconnectedBlockTransactions) : List CTransactionRef × DisconnectedBlockTransactions :=
  (pool.txs, pool.clear)

end DisconnectedBlockTransactions

inductive Call where
  | addTransactionsFromBlock (vtx : List CTransactionRef)
  | removeForBlock (vtx : List CTransactionRef)
  | take
  | clear
  deriving DecidableEq

def perform (rehash : Nat → Nat → Nat) (pool : DisconnectedBlockTransactions) :
    Call → Checked (List CTransactionRef × DisconnectedBlockTransactions)
  | .addTransactionsFromBlock vtx => pool.addTransactionsFromBlock rehash vtx
  | .removeForBlock vtx => do
    let pool ← pool.removeForBlock vtx
    return ([], pool)
  | .take => .ok pool.take
  | .clear => .ok ([], pool.clear)

def performAll (rehash : Nat → Nat → Nat) (pool : DisconnectedBlockTransactions) (calls : List Call) :
    Checked DisconnectedBlockTransactions :=
  calls.foldlM (fun pool call => do
    let (_, pool) ← perform rehash pool call
    return pool) pool

/-! ## The order of a chain -/

def Call.disconnected : Call → List CTransactionRef
  | .addTransactionsFromBlock vtx => vtx.reverse
  | _ => []

/-- The transactions of disconnected blocks, newest first. -/
def disconnected (calls : List Call) : List CTransactionRef := calls.flatMap Call.disconnected

def Spends (tx parent : CTransactionRef) : Prop := parent.hash ∈ tx.prevouts

/-- With distinct txids, and no spend from a newer one. -/
structure Downward (txs : List CTransactionRef) : Prop where
  txids : (txs.map CTransactionRef.hash).Nodup
  order : txs.Pairwise fun newer older => ¬ Spends older newer

/-! ## The index and the counts -/

def indexEntry (cell : Cell) : Σ _ : Uint256, Nat := ⟨cell.tx.hash, cell.it⟩

def usageOf (txs : List CTransactionRef) : Nat := (txs.map CTransactionRef.usage).sum

structure Coherent (pool : DisconnectedBlockTransactions) : Prop where
  indexed : pool.iters_by_txid.entries.Perm (pool.queuedTx.map indexEntry)
  places : (pool.queuedTx.map Cell.it).Nodup
  free : ∀ cell ∈ pool.queuedTx, cell.it < pool.free
  usage : pool.cachedInnerUsage = usageOf pool.txs

open DisconnectedBlockTransactions

variable {pool pool' : DisconnectedBlockTransactions} {tx : CTransactionRef} {txs vtx : List CTransactionRef}
  {txid : Uint256} {it : Nat} {front : Cell} {rest before after : List Cell}

theorem empty_coherent (max_mem_usage bucket_count : Nat) : Coherent (.empty max_mem_usage bucket_count) :=
  ⟨.refl _, nodup_nil, fun _ h => absurd h not_mem_nil, rfl⟩

theorem subtractUsage_ok (usage rest : Nat) : subtractUsage (usage + rest) usage = .ok rest := by
  unfold subtractUsage
  rw [if_pos (Nat.le_add_right _ _), Nat.add_sub_cancel_left]

namespace Coherent

variable (h : Coherent pool)
include h

theorem txids : (pool.txs.map CTransactionRef.hash).Nodup := by
  have hnodup : (pool.iters_by_txid.entries.map Sigma.fst).Nodup := pool.iters_by_txid.nodupKeys
  have hperm := h.indexed.map Sigma.fst
  rw [map_map] at hperm
  rw [hperm.nodup_iff] at hnodup
  unfold txs
  rw [map_map]
  exact hnodup

theorem lookup_iff : pool.iters_by_txid.lookup txid = some it ↔
    ∃ cell ∈ pool.queuedTx, cell.tx.hash = txid ∧ cell.it = it := by
  rw [← Option.mem_def, AList.mem_lookup_iff, h.indexed.mem_iff, mem_map]
  constructor
  · rintro ⟨cell, hcell, heq⟩
    cases heq
    exact ⟨cell, hcell, rfl, rfl⟩
  · rintro ⟨cell, hcell, rfl, rfl⟩
    exact ⟨cell, hcell, rfl⟩

theorem lookup_none (hnew : tx.hash ∉ pool.txs.map CTransactionRef.hash) :
    pool.iters_by_txid.lookup tx.hash = none := by
  cases hlookup : pool.iters_by_txid.lookup tx.hash with
  | none => rfl
  | some it =>
    obtain ⟨_, hcell, hhash, -⟩ := h.lookup_iff.mp hlookup
    exact absurd (hhash ▸ mem_map_of_mem (mem_map_of_mem hcell)) hnew

theorem without (hsplit : pool.queuedTx = before ++ front :: after) :
    subtractUsage pool.cachedInnerUsage front.tx.usage = .ok (usageOf ((before ++ after).map Cell.tx)) ∧
      Coherent { pool with
        cachedInnerUsage := usageOf ((before ++ after).map Cell.tx)
        iters_by_txid := pool.iters_by_txid.erase front.tx.hash
        queuedTx := before ++ after } := by
  have hmiddle : (before ++ front :: after).Perm (front :: (before ++ after)) := perm_middle
  refine ⟨?_, ?_, ?_, ?_, rfl⟩
  · have husage : pool.cachedInnerUsage = front.tx.usage + usageOf ((before ++ after).map Cell.tx) := by
      rw [h.usage]
      unfold txs usageOf
      rw [hsplit, ((hmiddle.map Cell.tx).map CTransactionRef.usage).sum_eq]
      rfl
    rw [husage, subtractUsage_ok]
  · have hindexed := h.indexed
    rw [hsplit] at hindexed
    exact AssocMap.entries_erase_perm (hindexed.trans (hmiddle.map indexEntry))
  · have hplaces := h.places
    rw [hsplit, (hmiddle.map Cell.it).nodup_iff] at hplaces
    exact (nodup_cons.mp hplaces).2
  · intro cell hcell
    apply h.free
    rw [hsplit]
    exact hmiddle.symm.subset (mem_cons_of_mem _ hcell)

theorem append (hnew : tx.hash ∉ pool.txs.map CTransactionRef.hash) : Coherent (pool.append tx) := by
  unfold DisconnectedBlockTransactions.append
  refine ⟨?_, ?_, ?_, ?_⟩
  · dsimp only
    rw [AList.entries_insert_of_notMem (AList.lookup_eq_none.mp (h.lookup_none hnew)), map_append]
    exact (h.indexed.cons _).trans (perm_append_singleton _ _).symm
  · dsimp only
    rw [map_append, nodup_append]
    refine ⟨h.places, nodup_singleton _, ?_⟩
    intro it hit it' hit' heq
    obtain ⟨cell, hcell, rfl⟩ := mem_map.mp hit
    have hfree := h.free cell hcell
    rw [heq, mem_singleton.mp hit'] at hfree
    exact Nat.lt_irrefl _ hfree
  · intro cell hcell
    rcases mem_append.mp hcell with hold | hlast
    · exact Nat.lt_succ_of_lt (h.free cell hold)
    · rw [mem_singleton.mp hlast]
      exact Nat.lt_succ_self _
  · dsimp only
    rw [h.usage]
    unfold DisconnectedBlockTransactions.txs usageOf
    simp

omit h

end Coherent

theorem txs_append (pool : DisconnectedBlockTransactions) (tx : CTransactionRef) :
    (pool.append tx).txs = pool.txs ++ [tx] := map_append

/-! ## Adding and evicting -/

theorem add_spec (h : Coherent pool) (hnew : tx.hash ∉ pool.txs.map CTransactionRef.hash) :
    pool.add tx = .ok (pool.append tx) := by
  unfold add
  rw [h.lookup_none hnew]
  rfl

theorem addAll_spec (h : Coherent pool) (hnodup : ((pool.txs ++ txs).map CTransactionRef.hash).Nodup) :
    ∃ pool', txs.foldlM add pool = .ok pool' ∧ Coherent pool' ∧ pool'.txs = pool.txs ++ txs ∧
      pool'.m_max_mem_usage = pool.m_max_mem_usage := by
  induction txs generalizing pool with
  | nil => exact ⟨pool, rfl, h, (append_nil _).symm, rfl⟩
  | cons tx txs ih =>
    have hnew : tx.hash ∉ pool.txs.map CTransactionRef.hash := by
      rw [map_append, map_cons, nodup_middle, nodup_cons, mem_append, not_or] at hnodup
      exact hnodup.1.1
    have hsplit : pool.txs ++ tx :: txs = (pool.append tx).txs ++ txs := by
      rw [txs_append, append_assoc]
      rfl
    rw [hsplit] at hnodup
    obtain ⟨pool', hrun, hcoherent, htxs, hmax⟩ := ih (h.append hnew) hnodup
    refine ⟨pool', ?_, hcoherent, htxs.trans hsplit.symm, hmax⟩
    rw [foldlM_cons, add_spec h hnew, ok_bind, hrun]

theorem limitMemoryUsage_spec (h : Coherent pool) :
    ∃ evicted pool', pool.limitMemoryUsage = .ok (evicted, pool') ∧ Coherent pool' ∧ pool.txs = evicted ++ pool'.txs ∧
      (pool'.dynamicMemoryUsage ≤ pool.m_max_mem_usage ∨ pool'.queuedTx = []) ∧
        pool'.m_max_mem_usage = pool.m_max_mem_usage := by
  induction hlength : pool.queuedTx.length generalizing pool with
  | zero =>
    have hnil := eq_nil_of_length_eq_zero hlength
    refine ⟨[], pool, ?_, h, rfl, .inr hnil, rfl⟩
    unfold limitMemoryUsage
    split
    · rfl
    · next hcons =>
      rw [hnil] at hcons
      cases hcons
  | succ n ih =>
    unfold limitMemoryUsage
    split
    · next hnil =>
      rw [hnil] at hlength
      cases hlength
    · next front rest hcons =>
      split
      · obtain ⟨hsubtract, hcoherent⟩ := h.without (show _ = [] ++ _ :: _ from hcons)
        rw [nil_append] at hsubtract hcoherent
        have hrest : rest.length = n := by
          rw [hcons] at hlength
          exact Nat.succ.inj hlength
        obtain ⟨evicted, pool', hrun, hcoherent', htxs, hfits, hmax⟩ := ih hcoherent hrest
        refine ⟨front.tx :: evicted, pool', ?_, hcoherent', ?_, hfits, hmax⟩
        · rw [hsubtract, ok_bind, hrun]
          rfl
        · have hqueue : pool.txs = front.tx :: rest.map Cell.tx := by
            unfold txs
            rw [hcons, map_cons]
          rw [hqueue, cons_append, ← htxs]
          rfl
      · next hfits => exact ⟨[], pool, rfl, h, rfl, .inl (not_lt.mp hfits), rfl⟩

variable (rehash : Nat → Nat → Nat)

theorem addTransactionsFromBlock_spec (h : Coherent pool)
    (hnodup : ((pool.txs ++ vtx.reverse).map CTransactionRef.hash).Nodup) :
    ∃ evicted pool', pool.addTransactionsFromBlock rehash vtx = .ok (evicted, pool') ∧ Coherent pool' ∧
      pool.txs ++ vtx.reverse = evicted ++ pool'.txs ∧
        (pool'.dynamicMemoryUsage ≤ pool'.m_max_mem_usage ∨ pool'.queuedTx = []) := by
  have hreserved : Coherent { pool with
      bucket_count := rehash pool.bucket_count (pool.iters_by_txid.entries.length + vtx.length) } :=
        ⟨h.indexed, h.places, h.free, h.usage⟩
  obtain ⟨_, hadd, hcoherent1, htxs1, -⟩ := addAll_spec hreserved hnodup
  obtain ⟨evicted, pool2, hlimit, hcoherent2, htxs2, hfits, hmax⟩ := limitMemoryUsage_spec hcoherent1
  refine ⟨evicted, pool2, ?_, hcoherent2, htxs1.symm.trans htxs2, by rw [hmax]; exact hfits⟩
  unfold addTransactionsFromBlock
  rw [hadd, ok_bind, hlimit]

/-! ## Removing -/

theorem ne_of_nodup {α κ : Type} {key : α → κ} {a : α} {before after : List α}
    (h : ((before ++ a :: after).map key).Nodup) : ∀ b ∈ before ++ after, key b ≠ key a := by
  rw [map_append, map_cons, nodup_middle, nodup_cons, ← map_append] at h
  intro b hb heq
  exact h.1 (heq ▸ mem_map_of_mem hb)

theorem find_place (h : ((before ++ front :: after).map Cell.it).Nodup) :
    (before ++ front :: after).find? (fun cell => cell.it == front.it) = some front := by
  have hne := ne_of_nodup h
  rw [find?_append, find?_eq_none.mpr, Option.none_or]
  · simp
  · intro cell hcell
    rw [beq_iff_eq]
    exact hne cell (mem_append_left _ hcell)

theorem erase_place (h : ((before ++ front :: after).map Cell.it).Nodup) :
    (before ++ front :: after).eraseP (fun cell => cell.it == front.it) = before ++ after := by
  have hne := ne_of_nodup h
  rw [eraseP_append_right]
  · simp
  · intro cell hcell
    rw [beq_iff_eq]
    exact hne cell (mem_append_left _ hcell)

theorem filter_txid (h : ((before ++ front :: after).map fun cell => cell.tx.hash).Nodup) :
    ((before ++ front :: after).map Cell.tx).filter (fun other => other.hash ≠ front.tx.hash) =
    (before ++ after).map Cell.tx := by
  have hne := ne_of_nodup h
  have hkeep : ∀ cells : List Cell, (∀ cell ∈ cells, cell.tx.hash ≠ front.tx.hash) →
      (cells.map Cell.tx).filter (fun other => other.hash ≠ front.tx.hash) = cells.map Cell.tx := by
    intro cells hcells
    rw [filter_eq_self]
    intro other hother
    obtain ⟨cell, hcell, rfl⟩ := mem_map.mp hother
    exact decide_eq_true (hcells cell hcell)
  rw [map_append, filter_append, map_cons, filter_cons_of_neg (by simp),
    hkeep before fun cell hcell => hne cell (mem_append_left _ hcell),
    hkeep after fun cell hcell => hne cell (mem_append_right _ hcell), map_append]

theorem remove_spec (h : Coherent pool) (tx : CTransactionRef) :
    ∃ pool', pool.remove tx = .ok pool' ∧ Coherent pool' ∧ pool'.txs = pool.txs.filter fun other =>
      other.hash ≠ tx.hash := by
  unfold remove
  cases hlookup : pool.iters_by_txid.lookup tx.hash with
  | none =>
    refine ⟨pool, rfl, h, (filter_eq_self.mpr ?_).symm⟩
    intro other hother
    obtain ⟨cell, hcell, rfl⟩ := mem_map.mp hother
    rw [decide_eq_true_eq]
    intro heq
    rw [h.lookup_iff.mpr ⟨cell, hcell, heq, rfl⟩] at hlookup
    cases hlookup
  | some it =>
    obtain ⟨_, hfront, hhash, rfl⟩ := h.lookup_iff.mp hlookup
    obtain ⟨_, _, hsplit⟩ := append_of_mem hfront
    obtain ⟨hsubtract, hcoherent⟩ := h.without hsplit
    have hplaces := h.places
    have htxids := h.txids
    unfold txs at htxids ⊢
    rw [map_map] at htxids
    rw [hsplit] at hplaces htxids ⊢
    refine ⟨_, ?_, hcoherent, ?_⟩
    · dsimp only
      rw [find_place hplaces]
      dsimp only
      rw [hsubtract, ok_bind, erase_place hplaces, ← hhash]
      rfl
    · rw [← hhash, filter_txid htxids]

theorem removeAll_spec (h : Coherent pool) (vtx : List CTransactionRef) :
    ∃ pool', vtx.foldlM remove pool = .ok pool' ∧ Coherent pool' ∧
    pool'.txs = pool.txs.filter fun other => other.hash ∉ vtx.map CTransactionRef.hash := by
  induction vtx generalizing pool with
  | nil => exact ⟨pool, rfl, h, by simp⟩
  | cons tx vtx ih =>
    obtain ⟨_, hremove, hcoherent1, htxs1⟩ := remove_spec h tx
    obtain ⟨pool2, hrest, hcoherent2, htxs2⟩ := ih hcoherent1
    refine ⟨pool2, ?_, hcoherent2, ?_⟩
    · rw [foldlM_cons, hremove, ok_bind, hrest]
    · rw [htxs2, htxs1, filter_filter]
      apply filter_congr
      intro other _
      rw [← Bool.decide_and, decide_eq_decide, map_cons, mem_cons, not_or]
      exact and_comm

theorem removeForBlock_spec (h : Coherent pool) (vtx : List CTransactionRef) :
    ∃ pool', pool.removeForBlock vtx = .ok pool' ∧ Coherent pool' ∧
      pool'.txs = pool.txs.filter fun other => other.hash ∉ vtx.map CTransactionRef.hash := by
  unfold removeForBlock
  split
  · next hempty =>
    refine ⟨pool, rfl, h, ?_⟩
    unfold txs
    rw [isEmpty_iff.mp hempty]
    rfl
  · exact removeAll_spec h vtx

theorem clear_coherent (pool : DisconnectedBlockTransactions) : Coherent pool.clear :=
  ⟨.refl _, nodup_nil, fun _ hcell => absurd hcell not_mem_nil, rfl⟩

/-! ## Runs -/

def Reports (pool : DisconnectedBlockTransactions) (call : Call) (returned : List CTransactionRef)
    (pool' : DisconnectedBlockTransactions) : Prop :=
  match call with
  | .addTransactionsFromBlock vtx => pool.txs ++ vtx.reverse = returned ++ pool'.txs ∧
      (∀ evicted ∈ returned, ∀ tx ∈ pool'.txs, ¬ Spends tx evicted) ∧
        (pool'.dynamicMemoryUsage ≤ pool'.m_max_mem_usage ∨ pool'.queuedTx = [])
  | .removeForBlock vtx => pool'.txs = pool.txs.filter fun tx => tx.hash ∉ vtx.map CTransactionRef.hash
  | .take => returned = pool.txs ∧ returned.reverse.Pairwise (fun earlier later => ¬ Spends earlier later) ∧
      pool'.queuedTx = []
  | .clear => pool'.queuedTx = []

theorem Downward.sublist {txs' : List CTransactionRef} (h : Downward txs) (hsub : txs'.Sublist txs) : Downward txs' :=
  ⟨h.txids.sublist (hsub.map _), h.order.sublist hsub⟩

theorem perform_spec (h : Coherent pool) (call : Call) (hdown : Downward (pool.txs ++ call.disconnected)) :
    ∃ returned pool', perform rehash pool call = .ok (returned, pool') ∧ Coherent pool' ∧
      pool'.txs.Sublist (pool.txs ++ call.disconnected) ∧ Reports pool call returned pool' := by
  cases call with
  | addTransactionsFromBlock vtx =>
    obtain ⟨evicted, pool', hrun, hcoherent, htxs, hfits⟩ := addTransactionsFromBlock_spec rehash h hdown.txids
    have horder := hdown.order
    have hqueue : pool.txs ++ (Call.addTransactionsFromBlock vtx).disconnected = evicted ++ pool'.txs := htxs
    rw [hqueue, pairwise_append] at horder
    refine ⟨evicted, pool', hrun, hcoherent, ?_, htxs, horder.2.2, hfits⟩
    rw [hqueue]
    exact sublist_append_right _ _
  | removeForBlock vtx =>
    obtain ⟨pool', hrun, hcoherent, htxs⟩ := removeForBlock_spec h vtx
    refine ⟨[], pool', ?_, hcoherent, ?_, htxs⟩
    · show (pool.removeForBlock vtx >>= fun pool => pure ([], pool)) = _
      rw [hrun]
      rfl
    · rw [htxs]
      exact filter_sublist.trans (sublist_append_left _ _)
  | take =>
    refine ⟨pool.txs, pool.clear, rfl, clear_coherent pool, nil_sublist _, rfl, ?_, rfl⟩
    rw [pairwise_reverse]
    exact (hdown.sublist (sublist_append_left _ _)).order
  | clear => exact ⟨[], pool.clear, rfl, clear_coherent pool, nil_sublist _, rfl⟩

theorem performAll_spec (h : Coherent pool) (calls : List Call)
    (hdown : Downward (pool.txs ++ disconnected calls)) : ∃ pool', performAll rehash pool calls = .ok pool' ∧
      Coherent pool' ∧ pool'.txs.Sublist (pool.txs ++ disconnected calls) := by
  induction calls generalizing pool with
  | nil => exact ⟨pool, rfl, h, sublist_append_left _ _⟩
  | cons call calls ih =>
    have hsplit : pool.txs ++ disconnected (call :: calls) = pool.txs ++ call.disconnected ++ disconnected calls := by
      unfold disconnected
      rw [flatMap_cons, append_assoc]
    rw [hsplit] at hdown ⊢
    obtain ⟨_, _, hrun, hcoherent1, hsub1, -⟩ := perform_spec rehash h call (hdown.sublist (sublist_append_left _ _))
    have hsub := hsub1.append (Sublist.refl (disconnected calls))
    obtain ⟨pool2, hrest, hcoherent2, hsub2⟩ := ih hcoherent1 (hdown.sublist hsub)
    refine ⟨pool2, ?_, hcoherent2, hsub2.trans hsub⟩
    unfold performAll at hrest ⊢
    rw [foldlM_cons, hrun]
    exact hrest

/-- Every call of a run returns, and reports what it says. -/
theorem run_reports (rehash : Nat → Nat → Nat) (max_mem_usage bucket_count : Nat) (calls : List Call) (call : Call)
    (hdown : Downward (disconnected (calls ++ [call]))) :
    ∃ pool returned pool', performAll rehash (.empty max_mem_usage bucket_count) calls = .ok pool ∧ Coherent pool ∧
      perform rehash pool call = .ok (returned, pool') ∧ Coherent pool' ∧ Reports pool call returned pool' := by
  have hsplit : disconnected (calls ++ [call]) = disconnected calls ++ call.disconnected := by
    unfold disconnected
    rw [flatMap_append, flatMap_singleton]
  rw [hsplit] at hdown
  obtain ⟨pool, hrun, hcoherent, hsub⟩ := performAll_spec rehash (empty_coherent max_mem_usage bucket_count) calls
    (hdown.sublist (sublist_append_left _ _))
  have hsub' : (pool.txs ++ call.disconnected).Sublist (disconnected calls ++ call.disconnected) :=
    Sublist.append hsub (Sublist.refl _)
  obtain ⟨returned, pool', hcall, hcoherent', -, hreports⟩ := perform_spec rehash hcoherent call (hdown.sublist hsub')
  exact ⟨pool, returned, pool', hrun, hcoherent, hcall, hcoherent', hreports⟩

def parentTx : CTransactionRef := ⟨1, [], 100⟩
def childTx : CTransactionRef := ⟨2, [1], 100⟩

def reserveExactly (buckets wanted : Nat) : Nat := max buckets wanted

theorem two_reports : ∃ pool returned pool', performAll reserveExactly (.empty 300 1) [] = .ok pool ∧ Coherent pool ∧
    perform reserveExactly pool (.addTransactionsFromBlock [parentTx, childTx]) = .ok (returned, pool') ∧
      Coherent pool' ∧ Reports pool (.addTransactionsFromBlock [parentTx, childTx]) returned pool' :=
  run_reports reserveExactly 300 1 [] (.addTransactionsFromBlock [parentTx, childTx])
    ⟨by decide, by unfold Spends; decide⟩

def afterBlock (vtx : List CTransactionRef) : Checked (List CTransactionRef × List CTransactionRef) := do
  let (evicted, pool) ← perform reserveExactly (.empty 300 1) (.addTransactionsFromBlock vtx)
  return (evicted, pool.txs)

/-- A child is evicted while its parent stays. -/
theorem child_evicted : Downward (disconnected [.addTransactionsFromBlock [parentTx, childTx]]) ∧
    afterBlock [parentTx, childTx] = .ok ([childTx], [parentTx]) ∧ Spends childTx parentTx :=
  ⟨⟨by decide, by unfold Spends; decide⟩, by decide +kernel, by unfold Spends; decide⟩

end FullNode.DisconnectedTransactions

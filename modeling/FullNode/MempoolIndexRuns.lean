import FullNode.MempoolIndices

/-!
# Runs of the pool

Any order of `Apply` and of removals, from the empty pool. A transaction that enters is not linked to what spends it
already, and so such a child stays when it goes.
-/

namespace FullNode.Mempool

open List CTxMemPoolEntry

namespace CTxMemPool

variable {pool pool' pool1 : CTxMemPool} {k p x : Uint256} {e entry : CTxMemPoolEntry}
  {its set stage cached : List Uint256} {entries : List CTxMemPoolEntry}

/-! ## Entries enter -/

theorem add_keys (hadd : (pool.insertEntry entry).addNewTransaction entry.tx.hash set = .ok pool') :
    x ∈ pool'.keys ↔ x = entry.tx.hash ∨ x ∈ pool.keys := by
  have hfind := congrArg Option.isSome (add_find hadd x)
  rw [Option.isSome_map] at hfind
  rw [← existsTxid_iff, ← existsTxid_iff]
  unfold existsTxid
  rw [hfind]
  split
  · next hx => simp [hx]
  · next hx => simp [hx]

variable {E : Uint256 → Uint256 → Prop} {event : IndexEvent} {e : CTxMemPoolEntry}

theorem add_linked (hlinked : Linked E pool) (hfresh : pool.find entry.tx.hash = none) (hparents : entry.parents = [])
    (hchildren : entry.children = [])
    (hadd : (pool.insertEntry entry).addNewTransaction entry.tx.hash set = .ok pool') :
    Linked (fun c q => E c q ∨ c = entry.tx.hash ∧ q ∈ entry.tx.parentHashes ∧ (q = entry.tx.hash ∨ q ∈ pool.keys))
      pool' := by
  have hstart : Linked E (pool.insertEntry entry) := by
    apply Links.linked
    apply hlinked.links.of_same
    · intro j
      unfold parentsOf
      rw [find_insertEntry]
      split
      · next hj => rw [hj, hfresh, Option.elim_some, hparents, Option.elim_none]
      · rfl
    · intro j
      unfold childrenOf
      rw [find_insertEntry]
      split
      · next hj => rw [hj, hfresh, Option.elim_some, hchildren, Option.elim_none]
      · rfl
  refine (addNewTransaction_links hadd (by rw [find_insertEntry, if_pos rfl]) hparents hstart).congr fun c q => ?_
  rw [keys_insertEntry, Finset.mem_insert]

/-- All below some entries goes, with what spends the same, and members are new, unlinked and disjoint. -/
structure ApplySound (pool : CTxMemPool) (its stage : List Uint256) (entries : List CTxMemPoolEntry) : Prop where
  staged : pool.calculateAllDescendants its [] = .ok stage
  fresh : ∀ entry ∈ entries, entry.tx.hash ∉ pool.keys
  parents : ∀ entry ∈ entries, entry.parents = []
  children : ∀ entry ∈ entries, entry.children = []
  conflicts : ∀ entry ∈ entries, ∀ o ∈ entry.tx.prevouts, ∀ k, pool.mapNextTx.lookup o = some k → k ∈ stage
  consistent : entries.Pairwise fun e e' => ∀ o ∈ e.tx.prevouts, o ∉ e'.tx.prevouts

theorem Coherent.enters (henters : Enters pool entries pool') (h : Coherent pool)
    (henter : ∀ entry ∈ entries, Enterable pool entry)
    (hconsistent : entries.Pairwise fun e e' => ∀ o ∈ e.tx.prevouts, o ∉ e'.tx.prevouts) : Coherent pool' := by
  induction henters with
  | nil => exact h
  | @cons pool pool1 pool' entry entries set hfresh hadd hrest ih =>
    obtain ⟨hfirst, hothers⟩ := pairwise_cons.mp hconsistent
    have h1 := h.add hfresh (henter entry mem_cons_self) hadd
    refine ih h1 (fun e he => ?_) hothers
    obtain ⟨hparents, hchildren, hunspent⟩ := henter e (mem_cons_of_mem _ he)
    refine ⟨hparents, hchildren, fun o ho => ?_⟩
    cases hspent : pool1.mapNextTx.lookup o with
    | none => rfl
    | some spender =>
      obtain ⟨e', he', hmem⟩ := h1.nextTx.mp hspent
      rcases add_found hadd he' with ⟨-, hbare⟩ | ⟨-, e0, he0, hbare⟩
      · rw [tx_of_bare hbare] at hmem
        exact absurd ho (hfirst e he o hmem)
      · rw [tx_of_bare hbare] at hmem
        have hold := h.nextTx.mpr ⟨e0, he0, hmem⟩
        rw [hunspent o ho] at hold
        cases hold

theorem Coherent.apply (h : Coherent pool) (hsound : ApplySound pool its stage entries)
    (happly : pool.apply stage cached entries = .ok pool') : Coherent pool' := by
  obtain ⟨pool1, hremove, henters⟩ := apply_ok happly
  have h1 := h.removeStaged hremove
  refine h1.enters henters (fun entry hentry =>
    ⟨hsound.parents entry hentry, hsound.children entry hentry, fun o ho => ?_⟩) hsound.consistent
  cases hspent : pool1.mapNextTx.lookup o with
  | none => rfl
  | some spender =>
    -- a spender that is left was there before, and then it was staged
    obtain ⟨_, he', hmem⟩ := h1.nextTx.mp hspent
    obtain ⟨hkept, e, he, htx⟩ := removeStaged_left hremove he'
    rw [htx] at hmem
    exact absurd (hsound.conflicts entry hentry o ho spender (h.nextTx.mpr ⟨e, he, hmem⟩)) hkept

theorem Enters.mirrored (henters : Enters pool entries pool') (h : Mirrored pool)
    (hparents : ∀ entry ∈ entries, entry.parents = []) (hchildren : ∀ entry ∈ entries, entry.children = []) :
    Mirrored pool' ∧ ∀ x, x ∈ pool'.keys ↔ (∃ entry ∈ entries, entry.tx.hash = x) ∨ x ∈ pool.keys := by
  induction henters with
  | nil => exact ⟨h, fun x => by simp⟩
  | @cons pool pool1 pool' entry entries set hfresh hadd hrest ih =>
    have hlinked := add_linked h hfresh (hparents entry mem_cons_self) (hchildren entry mem_cons_self) hadd
    obtain ⟨hmirrored, hkeys⟩ := ih hlinked.mirrored (fun e he => hparents e (mem_cons_of_mem _ he)) fun e he =>
        hchildren e (mem_cons_of_mem _ he)
    refine ⟨hmirrored, fun x => ?_⟩
    rw [hkeys, add_keys hadd, eq_comm (a := x)]
    simp only [mem_cons, exists_eq_or_imp]
    rw [or_left_comm, or_assoc]

/-! ## Runs -/

inductive IndexEvent where
  | apply (its stage cached : List Uint256) (entries : List CTxMemPoolEntry)
  | removeRecursive (origTx : CTransaction)
  | removeForBlock (vtx : List CTransaction)
  | removeForReorg (checkFinalAndMature : Uint256 → Bool)
  | expire (time : Int)
  | trimToSize (full : CTxMemPool → Bool) (its : List Uint256)

namespace IndexEvent

def happen (pool : CTxMemPool) : IndexEvent → Checked CTxMemPool
  | .apply _ stage cached entries => pool.apply stage cached entries
  | .removeRecursive origTx => pool.removeRecursive origTx
  | .removeForBlock vtx => pool.removeForBlock vtx
  | .removeForReorg checkFinalAndMature => pool.removeForReorg checkFinalAndMature
  | .expire time => pool.expire time
  | .trimToSize full its => CTxMemPool.trimToSize full its pool

def Sound (pool : CTxMemPool) : IndexEvent → Prop
  | .apply its stage _ entries => ApplySound pool its stage entries
  | _ => True

/-- Nothing that stays or came before spends what enters. -/
def Childless (pool : CTxMemPool) : IndexEvent → Prop
  | .apply _ stage _ entries => (∀ entry ∈ entries, ∀ k e, pool.find k = some e → k ∉ stage →
      entry.tx.hash ∉ e.tx.parentHashes) ∧ entries.Pairwise fun e e' => e'.tx.hash ∉ e.tx.parentHashes
  | _ => True

def Includes (pool : CTxMemPool) (p : Uint256) : IndexEvent → Prop
  | .removeForBlock vtx => IncludedInBlock vtx pool p
  | _ => False

end IndexEvent

inductive IndexRun (P : CTxMemPool → IndexEvent → Prop) : CTxMemPool → Prop
  | empty : IndexRun P {}
  | event {pool pool' : CTxMemPool} {event : IndexEvent} (hrun : IndexRun P pool) (hevent : P pool event)
      (h : event.happen pool = .ok pool') : IndexRun P pool'

theorem coherent_happen (h : Coherent pool) (hsound : event.Sound pool) (hhappen : event.happen pool = .ok pool') :
    Coherent pool' := by
  cases event with
  | apply its stage cached entries => exact h.apply hsound hhappen
  | removeRecursive origTx => exact coherent_kept.removeRecursive hhappen h
  | removeForBlock vtx => exact coherent_kept.removeForBlock hhappen h
  | removeForReorg checkFinalAndMature => exact coherent_kept.removeForReorg hhappen h
  | expire time => exact coherent_kept.expire hhappen h
  | trimToSize full its => exact coherent_kept.trimToSize hhappen h

theorem mirrored_happen (h : Mirrored pool) (hsound : event.Sound pool) (hhappen : event.happen pool = .ok pool') :
    Mirrored pool' ∧ ∀ k p, pool.Parent k p → p ∉ pool'.keys → k ∈ pool'.keys → event.Includes pool p := by
  have hclosed : Mirrored pool' ∧ Together pool pool' → Mirrored pool' ∧ ∀ k p, pool.Parent k p → p ∉ pool'.keys →
      k ∈ pool'.keys → event.Includes pool p :=
    fun hkept => ⟨hkept.1, fun k p hparent hp hk => absurd hk (hkept.2.together hparent hp)⟩
  have hstart : Mirrored pool ∧ Together pool pool := ⟨h, .refl h⟩
  cases event with
  | apply its stage cached entries =>
    obtain ⟨_, hremove, henters⟩ := apply_ok hhappen
    obtain ⟨h1, htogether⟩ := removeStaged_together h hsound.staged hremove
    obtain ⟨h', hkeys⟩ := henters.mirrored h1 hsound.parents hsound.children
    refine ⟨h', fun k p hparent hp hk => ?_⟩
    rw [hkeys, not_or] at hp
    rw [hkeys] at hk
    rcases hk with ⟨entry, hentry, rfl⟩ | hk
    · exact absurd (h.child_mem hparent) (hsound.fresh entry hentry)
    · exact absurd hk (htogether.together hparent hp.2)
  | removeRecursive origTx => exact hclosed ((together_kept pool).removeRecursive hhappen hstart)
  | removeForBlock vtx =>
    rcases removeForBlock_ok hhappen with ⟨rfl, -⟩ | hcode
    · exact ⟨h, fun k p hparent hp _ => absurd (h.parent_mem hparent) hp⟩
    · obtain ⟨h', -, hblock⟩ := removeForBlock_together h hcode
      exact ⟨h', fun k p => hblock⟩
  | removeForReorg checkFinalAndMature => exact hclosed ((together_kept pool).removeForReorg hhappen hstart)
  | expire time => exact hclosed ((together_kept pool).expire hhappen hstart)
  | trimToSize full its => exact hclosed ((together_kept pool).trimToSize hhappen hstart)

/-! ## Spends -/

theorem removeStaged_spends {updateDescendants : Bool} (h : pool.removeStaged stage updateDescendants = .ok pool') :
    pool'.Spends k p ↔ pool.Spends k p ∧ k ∉ stage ∧ p ∉ stage := by
  unfold Spends
  rw [removeStaged_keys h]
  constructor
  · rintro ⟨e', he', hp, hkey, hkept⟩
    obtain ⟨hk, e, he, htx⟩ := removeStaged_left h he'
    exact ⟨⟨e, he, htx ▸ hp, hkey⟩, hk, hkept⟩
  · rintro ⟨⟨e, he, hp, hkey⟩, hk, hkept⟩
    have hfind := removeStaged_find h k
    rw [if_neg hk, he, Option.map_some] at hfind
    obtain ⟨e', he', hbare⟩ := Option.map_eq_some_iff.mp hfind
    exact ⟨e', he', (tx_of_bare hbare).symm ▸ hp, hkey, hkept⟩

theorem linkedSpends_kept : KeptByRemoval fun pool => Linked pool.Spends pool := by
  have hremoved : ∀ {pool pool' : CTxMemPool} {stage updateDescendants},
      pool.removeStaged stage updateDescendants = .ok pool' →
      Linked pool.Spends pool → Linked pool'.Spends pool' :=
    fun hremove h => (removeStaged_linked hremove h).congr fun _ _ => (removeStaged_spends hremove).symm
  exact ⟨⟨fun _ hremove h => hremoved hremove h,
    fun h => ⟨h.parents, h.children, h.parents_nodup, h.children_nodup⟩⟩, fun hremove h => hremoved hremove h⟩

theorem add_spends (hlinked : Linked pool.Spends pool) (hfresh : pool.find entry.tx.hash = none)
    (hparents : entry.parents = []) (hchildren : entry.children = [])
    (hchildless : ∀ k e, pool.find k = some e → entry.tx.hash ∉ e.tx.parentHashes)
    (hadd : (pool.insertEntry entry).addNewTransaction entry.tx.hash set = .ok pool') : Linked pool'.Spends pool' := by
  refine (add_linked hlinked hfresh hparents hchildren hadd).congr fun c q => ?_
  unfold Spends
  rw [add_keys hadd]
  constructor
  · rintro (⟨e, he, hq, hkey⟩ | ⟨rfl, hq, hkey⟩)
    · have hc : c ≠ entry.tx.hash := by
        rintro rfl
        rw [hfresh] at he
        cases he
      obtain ⟨e', he', hbare⟩ := add_old hadd hc he
      exact ⟨e', he', (tx_of_bare hbare).symm ▸ hq, .inr hkey⟩
    · obtain ⟨e', he', hbare⟩ := add_new hadd
      exact ⟨e', he', (tx_of_bare hbare).symm ▸ hq, hkey⟩
  · rintro ⟨e', he', hq, hkey⟩
    rcases add_found hadd he' with ⟨rfl, hbare⟩ | ⟨-, e, he, hbare⟩
    · rw [tx_of_bare hbare] at hq
      exact .inr ⟨rfl, hq, hkey⟩
    · rw [tx_of_bare hbare] at hq
      rcases hkey with rfl | hkey
      · exact absurd hq (hchildless c e he)
      · exact .inl ⟨e, he, hq, hkey⟩

theorem Enters.spends (henters : Enters pool entries pool') (h : Linked pool.Spends pool)
    (hparents : ∀ entry ∈ entries, entry.parents = []) (hchildren : ∀ entry ∈ entries, entry.children = [])
    (hchildless : ∀ entry ∈ entries, ∀ k e, pool.find k = some e → entry.tx.hash ∉ e.tx.parentHashes)
    (hsorted : entries.Pairwise fun e e' => e'.tx.hash ∉ e.tx.parentHashes) : Linked pool'.Spends pool' := by
  induction henters with
  | nil => exact h
  | @cons pool pool1 pool' entry entries set hfresh hadd hrest ih =>
    obtain ⟨hfirst, hothers⟩ := pairwise_cons.mp hsorted
    refine ih (add_spends h hfresh (hparents entry mem_cons_self) (hchildren entry mem_cons_self)
      (hchildless entry mem_cons_self) hadd)
      (fun e he => hparents e (mem_cons_of_mem _ he)) (fun e he => hchildren e (mem_cons_of_mem _ he))
        (fun later hlater k e' he' => ?_) hothers
    rcases add_found hadd he' with ⟨-, hbare⟩ | ⟨-, e, he, hbare⟩
    · rw [tx_of_bare hbare]
      exact hfirst later hlater
    · rw [tx_of_bare hbare]
      exact hchildless later (mem_cons_of_mem _ hlater) k e he

theorem spends_happen (h : Linked pool.Spends pool) (hsound : event.Sound pool) (hchildless : event.Childless pool)
    (hhappen : event.happen pool = .ok pool') : Linked pool'.Spends pool' := by
  cases event with
  | apply its stage cached entries =>
    obtain ⟨_, hremove, henters⟩ := apply_ok hhappen
    refine henters.spends (linkedSpends_kept.closed hsound.staged hremove h) hsound.parents hsound.children
      (fun entry hentry k e' he' => ?_) hchildless.2
    obtain ⟨hk, e, he, htx⟩ := removeStaged_left hremove he'
    rw [htx]
    exact hchildless.1 entry hentry k e he hk
  | removeRecursive origTx => exact linkedSpends_kept.removeRecursive hhappen h
  | removeForBlock vtx => exact linkedSpends_kept.removeForBlock hhappen h
  | removeForReorg checkFinalAndMature => exact linkedSpends_kept.removeForReorg hhappen h
  | expire time => exact linkedSpends_kept.expire hhappen h
  | trimToSize full its => exact linkedSpends_kept.trimToSize hhappen h

/-! ## The pools that are reached -/

theorem coherent_empty : Coherent {} := by
  refine ⟨?_, ?_, rfl⟩
  · intro o k
    constructor
    · intro hspent
      cases hspent
    · rintro ⟨e, he, -⟩
      cases he
  · intro i k
    constructor
    · intro hlisted
      cases hlisted
    · rintro ⟨e, he, -⟩
      cases he

theorem linked_empty (hE : ∀ k p, ¬E k p) : Linked E {} := by
  refine ⟨?_, ?_, fun _ => nodup_nil, fun _ => nodup_nil⟩
  all_goals exact fun {k p} => iff_of_false not_mem_nil (hE k p)

/-- Who stays while a parent goes has that parent in a block. -/
def GoesWithParents (parent : Uint256 → Uint256 → Prop) (pool : CTxMemPool) : Prop :=
  ∀ (event : IndexEvent) (pool' : CTxMemPool), event.Sound pool → event.happen pool = .ok pool' →
    ∀ k p, parent k p → p ∉ pool'.keys → k ∈ pool'.keys → event.Includes pool p

/-- In every run the indices are coherent, and an entry goes with its parents, or with what it spends. -/
theorem indices_coherent :
    (∀ pool, IndexRun (fun pool event => event.Sound pool) pool → Coherent pool ∧ GoesWithParents pool.Parent pool) ∧
      ∀ pool, IndexRun (fun pool event => event.Sound pool ∧ event.Childless pool) pool →
        GoesWithParents pool.Spends pool := by
  constructor
  · intro pool hrun
    have hboth : Coherent pool ∧ Mirrored pool := by
      induction hrun with
      | empty => exact ⟨coherent_empty, linked_empty fun _ _ => not_mem_nil⟩
      | event _ hsound hhappen ih =>
        exact ⟨coherent_happen ih.1 hsound hhappen, (mirrored_happen ih.2 hsound hhappen).1⟩
    exact ⟨hboth.1, fun event pool' hsound hhappen => (mirrored_happen hboth.2 hsound hhappen).2⟩
  · intro pool hrun
    have hlinked : Linked pool.Spends pool := by
      induction hrun with
      | empty =>
        apply linked_empty
        rintro k p ⟨_, he, -⟩
        cases he
      | event _ hevent hhappen ih => exact spends_happen ih hevent.1 hevent.2 hhappen
    intro event pool' hsound hhappen k p hspends
    exact (mirrored_happen hlinked.mirrored hsound hhappen).2 k p (hlinked.parents.mpr hspends)

/-! ### A parent and a child -/

def reorgParent : CTxMemPoolEntry :=
  CTxMemPoolEntry.new ⟨[⟨⟨1, 0⟩, [], 0xffffffff⟩], [⟨9000, [0x51]⟩], 2, 0, 10⟩ 10 1000 400 0 0 0 20 600

def reorgChild : CTxMemPoolEntry :=
  CTxMemPoolEntry.new ⟨[⟨⟨10, 0⟩, [], 0xffffffff⟩], [⟨8000, [0x52]⟩], 2, 0, 20⟩ 20 1000 400 0 0 0 20 500

theorem applySound_single (hfresh : e.tx.hash ∉ pool.keys) (hparents : e.parents = []) (hchildren : e.children = [])
    (hunspent : ∀ o ∈ e.tx.prevouts, pool.mapNextTx.lookup o = none) : ApplySound pool [] [] [e] := by
  refine ⟨rfl, ?_, ?_, ?_, ?_, pairwise_singleton _ _⟩
  · exact fun entry hentry => mem_singleton.mp hentry ▸ hfresh
  · exact fun entry hentry => mem_singleton.mp hentry ▸ hparents
  · exact fun entry hentry => mem_singleton.mp hentry ▸ hchildren
  · intro entry hentry o ho k hspent
    rw [mem_singleton.mp hentry] at ho
    rw [hunspent o ho] at hspent
    cases hspent

theorem IndexRun.apply_single (hrun : IndexRun (fun pool event => event.Sound pool) pool)
    (hsound : ApplySound pool [] [] [e]) (h : pool.apply [] cached [e] = .ok pool') :
    IndexRun (fun pool event => event.Sound pool) pool' :=
  .event hrun (show IndexEvent.Sound pool (.apply [] [] cached [e]) from hsound) h

/-- The parent enters, and then the child. -/
theorem family_coherent :
    ∃ pool, CTxMemPool.apply {} [] [] [reorgParent] >>= (fun pool => pool.apply [] [10] [reorgChild]) = .ok pool ∧
    Coherent pool ∧ GoesWithParents pool.Parent pool ∧ pool.txnsRandomized = [10, 20] ∧
      pool.cachedInnerUsage = 600 + 500 + 64 + 64 := by
  have hcode : (apply {} [] [] [reorgParent] >>= fun pool1 =>
      check (decide (20 ∉ pool1.mapTx.keys) && decide (pool1.mapNextTx.lookup ⟨10, 0⟩ = none)) >>= fun _ =>
      pool1.apply [] [10] [reorgChild] >>= fun pool =>
      check (decide (pool.txnsRandomized = [10, 20]) && decide (pool.cachedInnerUsage = 600 + 500 + 64 + 64))) =
        .ok () := by decide
  obtain ⟨pool1, hfirst, hcode⟩ := bind_ok.mp hcode
  obtain ⟨⟨⟩, hfree, hcode⟩ := bind_ok.mp hcode
  obtain ⟨pool, hsecond, hcode⟩ := bind_ok.mp hcode
  simp only [check_ok, Bool.and_eq_true, decide_eq_true_eq] at hfree hcode
  have hrun1 := IndexRun.empty.apply_single (applySound_single (Finset.notMem_empty _) rfl rfl fun _ _ => rfl) hfirst
  have hrun : IndexRun (fun pool event => event.Sound pool) pool := by
    refine hrun1.apply_single (applySound_single ?_ rfl rfl fun o ho => ?_) hsecond
    · exact fun hbad => hfree.1 (mem_toFinset.mp hbad)
    · rw [mem_singleton.mp ho]
      exact hfree.2
  obtain ⟨hcoherent, hgoes⟩ := indices_coherent.1 pool hrun
  exact ⟨pool, by rw [hfirst, ok_bind, hsecond], hcoherent, hgoes, hcode⟩

/-- The parent enters below its child, and goes without it. -/
theorem child_left_behind : ∃ pool pool', IndexRun (fun pool event => event.Sound pool) pool ∧
    pool.removeRecursive reorgParent.tx = .ok pool' ∧
    pool.Spends 20 10 ∧ 10 ∉ pool'.keys ∧ 20 ∈ pool'.keys := by
  have hcode : (apply {} [] [] [reorgChild] >>= fun pool1 =>
      check (decide (10 ∉ pool1.mapTx.keys) && decide (pool1.mapNextTx.lookup ⟨1, 0⟩ = none)) >>= fun _ =>
      pool1.apply [] [] [reorgParent] >>= fun pool =>
      check ((pool.find 20).any (fun e => 10 ∈ e.tx.parentHashes) && decide (10 ∈ pool.mapTx.keys)) >>= fun _ =>
      pool.removeRecursive reorgParent.tx >>= fun pool' =>
      check (decide (10 ∉ pool'.mapTx.keys) && decide (20 ∈ pool'.mapTx.keys))) = .ok () := by decide
  obtain ⟨pool1, hfirst, hcode⟩ := bind_ok.mp hcode
  obtain ⟨⟨⟩, hfree, hcode⟩ := bind_ok.mp hcode
  obtain ⟨pool, hsecond, hcode⟩ := bind_ok.mp hcode
  obtain ⟨⟨⟩, hspends, hcode⟩ := bind_ok.mp hcode
  obtain ⟨pool', hremove, hcode⟩ := bind_ok.mp hcode
  simp only [check_ok, Bool.and_eq_true, decide_eq_true_eq, Option.any_eq_true] at hfree hspends hcode
  obtain ⟨⟨e, he, hparent⟩, hmem⟩ := hspends
  have hrun1 := IndexRun.empty.apply_single (applySound_single (Finset.notMem_empty _) rfl rfl fun _ _ => rfl) hfirst
  refine ⟨pool, pool', ?_, hremove, ⟨e, he, hparent, mem_toFinset.mpr hmem⟩, fun hbad => hcode.1 (mem_toFinset.mp hbad),
    mem_toFinset.mpr hcode.2⟩
  refine hrun1.apply_single (applySound_single ?_ rfl rfl fun o ho => ?_) hsecond
  · exact fun hbad => hfree.1 (mem_toFinset.mp hbad)
  · rw [mem_singleton.mp ho]
    exact hfree.2

end CTxMemPool
end FullNode.Mempool

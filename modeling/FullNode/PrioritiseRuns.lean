import FullNode.Prioritise
import FullNode.Lib.Loop

/-! # Runs of prioritising -/

namespace FullNode.Mempool.CTxMemPool

open Ancestry Worklist List
open Relation

variable {pool pool' : CTxMemPool} {hash k : Uint256} {nFeeDelta : Int} {set : List Uint256}
  {calls : List (Uint256 × Int)} {opts : Options} {args : ATMPArgs} {facts : TxFacts} {tx : CTransaction}
  {fee : Int} {mapSPK : AssocMap Uint160 SpkState}
  {entry : CTxMemPoolEntry} {f : CTxMemPoolEntry → Checked CTxMemPoolEntry} {limits : Limits}

/-! ## Saturation stays -/

theorem sticky_of_changed {R : Uint256 → CTxMemPoolEntry → CTxMemPoolEntry → Prop} (h : Changed R pool pool')
    (hsat : pool.saturated = true) : pool'.saturated = true := by
  cases hsat' : pool'.saturated with
  | true => rfl
  | false =>
    rw [h.saturated hsat'] at hsat
    cases hsat

theorem modify_sticky (h : pool.modify k f = .ok pool') (hsat : pool.saturated = true) :
    pool'.saturated = true := sticky_of_changed (modify_changed h).1 hsat

theorem modifyAll_sticky {ks : List Uint256} (h : modifyAll f ks pool = .ok pool')
    (hsat : pool.saturated = true) : pool'.saturated = true :=
  foldlM_keeps (P := fun pool => pool.saturated = true) (fun _ _ _ hmodify hsat => modify_sticky hmodify hsat) h hsat

theorem prioritiseEntry_sticky (h : pool.prioritiseEntry hash nFeeDelta = .ok pool')
    (hsat : pool.saturated = true) : pool'.saturated = true := by
  unfold prioritiseEntry at h
  obtain ⟨_, hown, h⟩ := bind_ok.mp h
  obtain ⟨_, -, h⟩ := bind_ok.mp h
  obtain ⟨_, -, h⟩ := bind_ok.mp h
  obtain ⟨_, habove, h⟩ := bind_ok.mp h
  obtain ⟨_, -, hbelow⟩ := bind_ok.mp h
  exact modifyAll_sticky hbelow (modifyAll_sticky habove (modify_sticky hown hsat))

theorem prioritiseTransaction_sticky (h : pool.prioritiseTransaction hash nFeeDelta = .ok pool')
    (hsat : pool.saturated = true) : pool'.saturated = true := by
  unfold prioritiseTransaction at h
  rw [hsat] at h
  dsimp only at h
  generalize (if saturatingAdd ((pool.mapDeltas.lookup hash).getD 0) nFeeDelta = 0 then pool.mapDeltas.erase hash
    else pool.mapDeltas.insert hash (saturatingAdd ((pool.mapDeltas.lookup hash).getD 0) nFeeDelta)) = mapDeltas at h
  split at h
  · exact prioritiseEntry_sticky h rfl
  · cases h
    rfl

theorem addNewTransaction_sticky (h : pool.addNewTransaction k set = .ok pool') (hsat : pool.saturated = true) :
    pool'.saturated = true := by
  obtain ⟨_, hit, -⟩ := bind_ok.mp h
  obtain ⟨_, pool1, pool2, _, pool4, -, hlinks, hrelatives, hsums, hplace, rfl⟩ :=
    addNewTransaction_steps h (entryAt_ok.mp hit)
  have hlinked : pool1.saturated = true :=
    foldlM_keeps (P := fun pool => pool.saturated = true) (fun _ _ _ hupdate hsat =>
      sticky_of_changed (updateParent_changed hupdate) hsat) hlinks hsat
  have hrelated : pool2.saturated = true := by
    unfold updateAncestorsOf at hrelatives
    obtain ⟨_, -, hrelatives⟩ := bind_ok.mp hrelatives
    obtain ⟨pool3, hchildren, hrelatives⟩ := bind_ok.mp hrelatives
    obtain ⟨_, -, hrelatives⟩ := bind_ok.mp hrelatives
    apply modifyAll_sticky hrelatives
    exact foldlM_keeps (P := fun pool => pool.saturated = true) (fun _ _ _ hupdate hsat =>
      sticky_of_changed (updateChild_changed hupdate) hsat) hchildren hlinked
  unfold updateEntryForAncestors at hsums
  obtain ⟨⟨_, _, _⟩, -, hsums⟩ := bind_ok.mp hsums
  have hsat4 : pool4.saturated = true := modify_sticky hplace (modify_sticky hsums hrelated)
  exact hsat4

/-! ## A transaction enters -/

theorem stageAddition_alone : (stageAddition pool opts args facts tx fee mapSPK).Alone := by
  unfold stageAddition
  simp only
  split
  · exact ⟨rfl, rfl, rfl, rfl⟩
  · exact ⟨rfl, rfl, rfl, rfl⟩

theorem applyDeltas_eq : pool.applyDeltas hash 0 = pool.deltaOf hash := zero_add _

theorem stageAddition_recorded (hsat : (stageAddition pool opts args facts tx fee mapSPK).saturated = false) :
    (stageAddition pool opts args facts tx fee mapSPK).modifiedFee =
      (stageAddition pool opts args facts tx fee mapSPK).nFee + pool.deltaOf tx.hash := by
  unfold stageAddition at hsat ⊢
  simp only [applyDeltas_eq] at hsat ⊢
  split
  · next hdelta =>
    rw [if_pos hdelta] at hsat
    exact (updateModifiedFee_moves hsat).2.1
  · next hdelta =>
    rw [ne_eq, not_not] at hdelta
    rw [hdelta, add_zero]
    rfl

theorem apply_one {ancestors : List Uint256} (h : pool.apply [] ancestors [entry] = .ok pool') :
    (pool.insertEntry entry).addNewTransaction entry.tx.hash ancestors = .ok pool' := by
  unfold apply at h
  obtain ⟨_, hremove, h⟩ := bind_ok.mp h
  cases hremove
  obtain ⟨-, -, h⟩ := bind_ok.mp h
  obtain ⟨_, hadd, hrest⟩ := bind_ok.mp h
  cases hrest
  exact hadd

theorem apply_sticky {ancestors : List Uint256} (h : pool.apply [] ancestors [entry] = .ok pool')
    (hsat : pool.saturated = true) : pool'.saturated = true := by
  apply addNewTransaction_sticky (apply_one h)
  simp [insertEntry, hsat]

theorem calculateMemPoolAncestors_nodup {ancestors : List Uint256}
    (h : pool.calculateMemPoolAncestors entry limits = .ok ancestors) : ancestors.Nodup := by
  unfold calculateMemPoolAncestors at h
  obtain ⟨_, -, hwalk⟩ := bind_ok.mp h
  exact walk_nodup hwalk nodup_nil

theorem Tidy.apply {ancestors : List Uint256} (htidy : Tidy pool) (hnew : Newcomer pool entry.tx) (halone : entry.Alone)
    (hrecorded : entry.modifiedFee = entry.nFee + pool.deltaOf entry.tx.hash)
    (hancestors : pool.calculateMemPoolAncestors entry limits = .ok ancestors)
    (h : pool.apply [] ancestors [entry] = .ok pool') (hsat : pool'.saturated = false) :
    Tidy pool' ∧ pool'.mapDeltas = pool.mapDeltas := by
  have hset : ∀ a, a ∈ ancestors ↔ pool.AncestorOf entry.tx a :=
      fun a => htidy.exact.linked.calculateMemPoolAncestors_spec hancestors
  have hnodup : ancestors.Nodup := calculateMemPoolAncestors_nodup hancestors
  have hother : entry.tx.hash ∉ ancestors := by
    intro hloop
    obtain ⟨_, -, hp, hreach⟩ := (hset _).mp hloop
    exact hnew.fresh (htidy.exact.linked.reaches_mem hreach hp)
  obtain ⟨parents, hadded⟩ :=
      addNewTransaction_spec (apply_one h) hsat (by rw [find_insertEntry, if_pos rfl]) halone.parents hnodup
        hnew.notOwn hother
  obtain ⟨hexact, hspends⟩ := hadded.exact htidy.exact hnew halone hset hnodup
  have hdeltas : pool'.mapDeltas = pool.mapDeltas := hadded.mapDeltas
  refine ⟨⟨hexact, ?_, ?_⟩, hdeltas⟩
  · rw [hspends]
    exact hnew.acyclic htidy.acyclic
  · intro k e' he'
    have hdelta : pool'.deltaOf k = pool.deltaOf k := by
      unfold deltaOf
      rw [hdeltas]
    have hfee : ∀ {a b : CTxMemPoolEntry}, b.bare = a.bare → b.modifiedFee = a.modifiedFee ∧ b.nFee = a.nFee :=
        fun {a b} hbare =>
      ⟨(congrArg CTxMemPoolEntry.modifiedFee hbare : b.bare.modifiedFee = a.bare.modifiedFee),
        (congrArg CTxMemPoolEntry.nFee hbare : b.bare.nFee = a.bare.nFee)⟩
    obtain ⟨e, he, hentered⟩ : ∃ e, (pool.insertEntry entry).find k = some e ∧
        Entered entry.tx.hash parents ancestors entry
        (ancestors.map (pool.insertEntry entry).own).sum k e e' := by
      cases hfind : (pool.insertEntry entry).find k with
      | none =>
        rw [hadded.absent hfind] at he'
        cases he'
      | some e =>
        obtain ⟨_, hx, hentered⟩ := hadded.found hfind
        rw [he'] at hx
        cases hx
        exact ⟨e, rfl, hentered⟩
    obtain ⟨hmodified, hbase⟩ := hfee hentered.bare
    rw [hmodified, hbase, hdelta]
    rw [find_insertEntry] at he
    split at he
    · next hk =>
      cases he
      rw [hk, hrecorded]
    · exact htidy.recorded he

/-! ## Runs -/

/-- Calls, and transactions as `StageAddition` has them. -/
inductive FeeRun (pool : CTxMemPool) : List (Uint256 × Int) → CTxMemPool → Prop
  | start : FeeRun pool [] pool
  | prioritise {pool1 pool' : CTxMemPool} {calls : List (Uint256 × Int)} {hash : Uint256} {nFeeDelta : Int}
      (hrun : FeeRun pool calls pool1) (hcall : pool1.prioritiseTransaction hash nFeeDelta = .ok pool') :
      FeeRun pool ((hash, nFeeDelta) :: calls) pool'
  | enter {pool1 pool' : CTxMemPool} {calls : List (Uint256 × Int)} {opts : Options} {args : ATMPArgs} {facts : TxFacts}
      {tx : CTransaction} {fee : Int} {mapSPK : AssocMap Uint160 SpkState} {limits : Limits} {ancestors : List Uint256}
      (hrun : FeeRun pool calls pool1) (hnew : Newcomer pool1 tx)
      (hancestors : pool1.calculateMemPoolAncestors (stageAddition pool1 opts args facts tx fee mapSPK) limits =
        .ok ancestors)
      (happly : pool1.apply [] ancestors [stageAddition pool1 opts args facts tx fee mapSPK] = .ok pool') :
      FeeRun pool calls pool'

def totalDelta (calls : List (Uint256 × Int)) (hash : Uint256) : Int :=
  (calls.map fun call => if hash = call.1 then call.2 else 0).sum

theorem FeeRun.tidy (hrun : FeeRun pool calls pool') (htidy : Tidy pool) (hsat : pool'.saturated = false) :
    Tidy pool' ∧ ∀ h, pool'.deltaOf h = pool.deltaOf h + totalDelta calls h := by
  induction hrun with
  | start => exact ⟨htidy, fun h => (add_zero _).symm⟩
  | @prioritise pool1 pool' calls hash nFeeDelta _ hcall ih =>
    have hsat1 : pool1.saturated = false := Bool.eq_false_iff.mpr fun hbad =>
      Bool.false_ne_true (hsat.symm.trans (prioritiseTransaction_sticky hcall hbad))
    obtain ⟨htidy1, hdelta⟩ := ih hsat1
    have hspec := prioritiseTransaction_spec htidy1.exact.linked htidy1.acyclic hcall hsat
    refine ⟨hspec.tidy htidy1, fun h => ?_⟩
    rw [hspec.delta, hdelta, add_assoc, add_comm (totalDelta calls h)]
    rfl
  | @enter pool1 pool' calls opts args facts tx fee mapSPK limits ancestors _ hnew hancestors happly ih =>
    have hsat1 : pool1.saturated = false := Bool.eq_false_iff.mpr fun hbad =>
      Bool.false_ne_true (hsat.symm.trans (apply_sticky happly hbad))
    obtain ⟨htidy1, hdelta⟩ := ih hsat1
    have hentry : (stageAddition pool1 opts args facts tx fee mapSPK).saturated = false := by
      refine Bool.eq_false_iff.mpr fun hbad =>
        Bool.false_ne_true (hsat.symm.trans (addNewTransaction_sticky (apply_one happly) ?_))
      simp [insertEntry, hbad]
    have htx : (stageAddition pool1 opts args facts tx fee mapSPK).tx = tx := stageAddition_tx
    have hrecorded := stageAddition_recorded hentry
    rw [← htx] at hnew
    obtain ⟨htidy', hdeltas⟩ :=
        htidy1.apply hnew stageAddition_alone (by rw [htx]; exact hrecorded) hancestors happly hsat
    refine ⟨htidy', fun h => ?_⟩
    rw [← hdelta]
    unfold deltaOf
    rw [hdeltas]

/-! ## Calls without entering -/

def prioritiseAll (calls : List (Uint256 × Int)) (pool : CTxMemPool) : Checked CTxMemPool :=
  calls.foldlM (fun pool call => pool.prioritiseTransaction call.1 call.2) pool

/-- Fees moved by their totals, and sums by those of relatives. -/
structure Shifted (total : Uint256 → Int) (pool pool' : CTxMemPool) : Prop where
  found : ∀ {k e}, pool.find k = some e → ∃ e', pool'.find k = some e' ∧ e'.feeless = e.feeless ∧
      e'.modifiedFee = e.modifiedFee + total k ∧
    e'.withAncestors = e.withAncestors + (0, 0, ∑ a ∈ ancestors pool.Spends pool.keys k, total a, 0) ∧
    e'.withDescendants = e.withDescendants + (0, 0, ∑ d ∈ descendants pool.Spends pool.keys k, total d)
  absent : ∀ {k}, pool.find k = none → pool'.find k = none
  delta : ∀ k, pool'.deltaOf k = pool.deltaOf k + total k

theorem Prioritised.shifted (hexact : Exact pool) (h : Prioritised hash nFeeDelta pool pool') :
    Shifted (fun k => if k = hash then nFeeDelta else 0) pool pool' := by
  refine ⟨?_, h.absent, h.delta⟩
  intro k e he
  obtain ⟨e', he', hmoved⟩ := h.found he
  have hkey := mem_keys_of_find he
  have habove : ReflTransGen pool.Spends k hash ↔ hash ∈ ancestors pool.Spends pool.keys k := by
    rw [mem_ancestors]
    exact ⟨fun hreach => ⟨hexact.linked.reaches_mem hreach hkey, hreach⟩, fun hmem => hmem.2⟩
  have hbelow : ReflTransGen pool.Spends hash k ↔ hash ∈ descendants pool.Spends pool.keys k := by
    rw [mem_descendants]
    exact ⟨fun hreach => ⟨hexact.linked.mem_of_reaches hreach hkey, hreach⟩, fun hmem => hmem.2⟩
  refine ⟨e', he', hmoved.rest, hmoved.fee, ?_, ?_⟩
  · rw [hmoved.above, Finset.sum_ite_eq']
    simp only [habove]
    split
    · rfl
    · rfl
  · rw [hmoved.below, Finset.sum_ite_eq']
    simp only [hbelow]
    split
    · rfl
    · rfl

theorem prioritiseAll_sticky (h : prioritiseAll calls pool = .ok pool') (hsat : pool.saturated = true) :
    pool'.saturated = true :=
  foldlM_keeps (P := fun pool => pool.saturated = true) (fun _ _ _ hcall hsat =>
    prioritiseTransaction_sticky hcall hsat) h hsat

theorem prioritiseAll_shifted (htidy : Tidy pool) (h : prioritiseAll calls pool = .ok pool')
    (hsat : pool'.saturated = false) : Shifted (totalDelta calls) pool pool' := by
  induction calls generalizing pool with
  | nil =>
    cases h
    exact ⟨fun {k e} he => ⟨e, he, rfl, by simp [totalDelta], by simp [totalDelta], by simp [totalDelta]⟩, id,
      fun _ => by simp [totalDelta]⟩
  | cons call calls ih =>
    obtain ⟨pool1, hcall, hrest⟩ := bind_ok.mp h
    have hsat1 : pool1.saturated = false := Bool.eq_false_iff.mpr fun hbad =>
      Bool.false_ne_true (hsat.symm.trans (prioritiseAll_sticky hrest hbad))
    have hspec := prioritiseTransaction_spec htidy.exact.linked htidy.acyclic hcall hsat1
    have hfirst := hspec.shifted htidy.exact
    have hlast := ih (hspec.tidy htidy) hrest
    have htotal : ∀ k, totalDelta (call :: calls) k = (if k = call.1 then call.2 else 0) + totalDelta calls k :=
        fun _ => rfl
    refine ⟨?_, fun hk => hlast.absent (hfirst.absent hk), fun k => ?_⟩
    · intro k e he
      obtain ⟨_, he1, hrest1, hfee1, habove1, hbelow1⟩ := hfirst.found he
      obtain ⟨e2, he2, hrest2, hfee2, habove2, hbelow2⟩ := hlast.found he1
      rw [hspec.keys_eq, hspec.spends_eq] at habove2 hbelow2
      simp only [htotal, Finset.sum_add_distrib]
      refine ⟨e2, he2, hrest2.trans hrest1, ?_, ?_, ?_⟩
      · rw [hfee2, hfee1, add_assoc]
      · rw [habove2, habove1, add_assoc]
        rfl
      · rw [hbelow2, hbelow1, add_assoc]
        rfl
    · rw [hlast.delta, hfirst.delta, htotal, add_assoc]

/-! ## Fees are additive -/

theorem FeeRun.prioritiseAll {pool1 : CTxMemPool} {more : List (Uint256 × Int)} (hrun : FeeRun pool calls pool1)
    (hmore : prioritiseAll more pool1 = .ok pool') : FeeRun pool (more.reverse ++ calls) pool' := by
  induction more generalizing pool1 calls with
  | nil =>
    cases hmore
    exact hrun
  | cons call more ih =>
    obtain ⟨_, hcall, hrest⟩ := bind_ok.mp hmore
    rw [reverse_cons, append_assoc]
    exact ih (hrun.prioritise hcall) hrest

theorem familyPool_tidy : Tidy familyPool := by
  have hentries : (familyPool.mapTx.entries.all fun s =>
      s.2.tx.parentHashes.all fun p => !familyPool.existsTxid p || p.toNat < s.1.toNat) = true := by
    decide
  simp only [all_eq_true, Bool.or_eq_true, Bool.not_eq_true', decide_eq_true_eq] at hentries
  have hless : ∀ {x y}, familyPool.Spends x y → y.toNat < x.toNat := by
    rintro x y ⟨e, he, hy, hkey⟩
    rcases hentries ⟨x, e⟩ (AList.mem_lookup_iff.mp he) y hy with hout | hlt
    · rw [existsTxid_iff.mpr hkey] at hout
      cases hout
    · exact hlt
  have hrecorded : ∀ s ∈ familyPool.mapTx.entries, s.2.modifiedFee = s.2.nFee + familyPool.deltaOf s.1 := by decide
  refine ⟨familyPool_exact, ?_, fun {k e} he => hrecorded ⟨k, e⟩ (AList.mem_lookup_iff.mp he)⟩
  intro x hcycle
  have hlt : ∀ {y}, TransGen familyPool.Spends x y → y.toNat < x.toNat := by
    intro y hpath
    induction hpath with
    | single hstep => exact hless hstep
    | tail _ hstep ih => exact lt_trans (hless hstep) ih
  exact Nat.lt_irrefl _ (hlt hcycle)

def familySister : CTransaction := ⟨[⟨⟨10, 1⟩, [], 0xfffffffd⟩], [⟨4000, [0x54]⟩], 2, 0, 30⟩

def familySisterEntry (pool : CTxMemPool) : CTxMemPoolEntry :=
  stageAddition pool familyOptions (familyArgs []) (familyFacts ⟨10, 1⟩ ⟨9000, [0x52]⟩) familySister 5000 ∅

def isNewcomer (pool : CTxMemPool) (tx : CTransaction) : Bool :=
  !pool.existsTxid tx.hash && pool.mapTx.entries.all (fun s => tx.hash ∉ s.2.tx.parentHashes) &&
    tx.prevouts.all (fun o => (pool.mapNextTx.lookup o).isNone) && tx.hash ∉ tx.parentHashes

theorem newcomer_of_isNewcomer (h : pool.isNewcomer tx = true) : Newcomer pool tx := by
  unfold isNewcomer at h
  simp only [Bool.and_eq_true, Bool.not_eq_true', all_eq_true, decide_eq_true_eq, Option.isNone_iff_eq_none] at h
  obtain ⟨⟨⟨hfresh, hchildless⟩, hunspent⟩, hown⟩ := h
  refine ⟨?_, fun {k e} he => hchildless ⟨k, e⟩ (AList.mem_lookup_iff.mp he), hunspent, hown⟩
  rw [← existsTxid_iff, hfresh]
  exact Bool.false_ne_true

end FullNode.Mempool.CTxMemPool

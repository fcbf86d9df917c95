import FullNode.BlockTree

/-! # What every call keeps in the block tree -/

namespace FullNode.BlockTree

open Forest List Bool

namespace Chainstate

variable {env : Env} {s s' t : Chainstate} {a b c p x y T : Nat} {f : BlockStatus → BlockStatus} {cond : Ptr → Bool}
  {queue : List Ptr}

/-! ## The order of the candidates -/

theorem comp_iff : s.comp a b = true ↔ s.nChainWork a < s.nChainWork b ∨
    s.nChainWork a = s.nChainWork b ∧
      (s.nSequenceId b < s.nSequenceId a ∨ s.nSequenceId a = s.nSequenceId b ∧ b < a) := by
  unfold comp
  split
  · simp only [decide_eq_true_eq]
    omega
  · split
    · simp only [decide_eq_true_eq, gt_iff_lt]
      omega
    · rw [decide_eq_true_eq]
      constructor
      · intro hlt
        exact .inr ⟨by omega, .inr ⟨by omega, hlt⟩⟩
      · rintro (hwork | ⟨-, _ | ⟨-, hlt⟩⟩)
        · omega
        · omega
        · exact hlt

theorem comp_irrefl (x : Ptr) : s.comp x x = false := by
  rw [← not_eq_true, comp_iff]
  omega

theorem comp_trans (h : s.comp a b = true) (h' : s.comp b c = true) : s.comp a c = true := by
  rw [comp_iff] at *
  omega

theorem comp_asymm (h : s.comp a b = true) : s.comp b a = false := by
  rw [← not_eq_true]
  rw [comp_iff] at *
  omega

theorem comp_not_trans (h : s.comp a b = false) (h' : s.comp b c = false) : s.comp a c = false := by
  rw [← not_eq_true] at *
  rw [comp_iff] at *
  omega

variable {l : List Ptr} {nUpTo : BlockValid}

theorem bestCandidate_some (h : s.bestCandidate l = some x) : x ∈ l ∧ ∀ y ∈ l, s.comp x y = false := by
  induction l generalizing x with
  | nil => cases h
  | cons z l ih =>
    unfold bestCandidate at h
    split at h
    · next hnone =>
      cases h
      have hnil : l = [] := by
        cases l with
        | nil => rfl
        | cons w l =>
          unfold bestCandidate at hnone
          split at hnone
          · cases hnone
          · split at hnone <;> cases hnone
      subst hnil
      simp [comp_irrefl]
    · next best hbest =>
      obtain ⟨hmem, hmax⟩ := ih hbest
      split at h
      · next hlt =>
        cases h
        refine ⟨mem_cons_self, fun y hy => ?_⟩
        rcases mem_cons.mp hy with rfl | hy
        · exact comp_irrefl _
        · exact comp_not_trans (comp_asymm hlt) (hmax y hy)
      · next hnot =>
        cases h
        refine ⟨mem_cons_of_mem _ hmem, fun y hy => ?_⟩
        rcases mem_cons.mp hy with rfl | hy
        · simpa using hnot
        · exact hmax y hy

theorem bestCandidate_none (h : s.bestCandidate l = none) : l = [] := by
  cases l with
  | nil => rfl
  | cons z l =>
    unfold bestCandidate at h
    split at h
    · cases h
    · split at h <;> cases h

/-! ## The same tree -/

structure SameTree (s s' : Chainstate) : Prop where
  blockIndex : s'.blockIndex = s.blockIndex
  pprev : s'.pprev = s.pprev
  nHeight : s'.nHeight = s.nHeight
  nChainWork : s'.nChainWork = s.nChainWork
  nSequenceId : s'.nSequenceId = s.nSequenceId
  nTx : s'.nTx = s.nTx
  chainTxCount : s'.chainTxCount = s.chainTxCount
  haveData : s'.haveData = s.haveData
  level : ∀ x, s.level x ≤ s'.level x

theorem SameTree.refl (s : Chainstate) : SameTree s s :=
  ⟨rfl, rfl, rfl, rfl, rfl, rfl, rfl, rfl, fun _ => Nat.le_refl _⟩

theorem SameTree.trans (h : SameTree s s') (h' : SameTree s' t) : SameTree s t where
  blockIndex := h'.blockIndex.trans h.blockIndex
  pprev := h'.pprev.trans h.pprev
  nHeight := h'.nHeight.trans h.nHeight
  nChainWork := h'.nChainWork.trans h.nChainWork
  nSequenceId := h'.nSequenceId.trans h.nSequenceId
  nTx := h'.nTx.trans h.nTx
  chainTxCount := h'.chainTxCount.trans h.chainTxCount
  haveData := h'.haveData.trans h.haveData
  level x := Nat.le_trans (h.level x) (h'.level x)

theorem SameTree.haveNumChainTxs (h : SameTree s s') : s'.haveNumChainTxs = s.haveNumChainTxs := by
  funext x
  rw [Chainstate.haveNumChainTxs, h.chainTxCount, Chainstate.haveNumChainTxs]

theorem SameTree.comp (h : SameTree s s') : s'.comp = s.comp := by
  funext x y
  rw [Chainstate.comp, h.nChainWork, h.nSequenceId, Chainstate.comp]

/-- A status changes without its data or a lower level. -/
def KeepsData (f : BlockStatus → BlockStatus) : Prop := ∀ st, (f st).haveData = st.haveData ∧
    st.valid.level ≤ (f st).valid.level

theorem keepsData_markValid : KeepsData .markValid := fun _ => ⟨rfl, Nat.le_refl _⟩
theorem keepsData_markChild : KeepsData .markChild := fun _ => ⟨rfl, Nat.le_refl _⟩
theorem keepsData_clear : KeepsData .clear := fun _ => ⟨rfl, Nat.le_refl _⟩

theorem keepsData_raiseValidity (nUpTo : BlockValid) : KeepsData (.raiseValidity nUpTo) := by
  intro st
  unfold BlockStatus.raiseValidity
  split
  · exact ⟨rfl, Nat.le_refl _⟩
  · split
    · next hlt => exact ⟨rfl, Nat.le_of_lt hlt⟩
    · exact ⟨rfl, Nat.le_refl _⟩

theorem sameTree_block {block' : Ptr → CBlockIndex} (h : ∀ y, block' y = s.block y ∨
    ∃ f, KeepsData f ∧ block' y = { s.block y with nStatus := f (s.block y).nStatus }) :
    SameTree s { s with block := block' } := by
  have hfield : ∀ {β : Type} (g : CBlockIndex → β), (∀ b st, g { b with nStatus := st } = g b) →
      (fun y => g (block' y)) = fun y => g (s.block y) := by
    intro β g hg
    funext y
    rcases h y with hy | ⟨f, -, hy⟩
    · rw [hy]
    · rw [hy, hg]
  refine ⟨rfl, hfield (·.pprev) fun _ _ => rfl, hfield (·.nHeight) fun _ _ => rfl, hfield (·.nChainWork) fun _ _ => rfl,
    hfield (·.nSequenceId) fun _ _ => rfl, hfield (·.nTx) fun _ _ => rfl, hfield (·.chainTxCount) fun _ _ =>
      rfl, ?_, ?_⟩
  · funext y
    rcases h y with hy | ⟨f, hf, hy⟩
    · exact congrArg (·.nStatus.haveData) hy
    · exact (congrArg (·.nStatus.haveData) hy).trans (hf _).1
  · intro y
    rcases h y with hy | ⟨f, hf, hy⟩
    · exact Nat.le_of_eq (congrArg (·.nStatus.valid.level) hy).symm
    · exact Nat.le_trans (hf _).2 (Nat.le_of_eq (congrArg (·.nStatus.valid.level) hy).symm)

theorem sameTree_setStatus (hf : KeepsData f) (x : Ptr) : SameTree s (s.setStatus x f) := by
  refine sameTree_block fun y => ?_
  by_cases hy : y = x
  · subst hy
    exact .inr ⟨f, hf, if_pos rfl⟩
  · exact .inl (if_neg hy)

theorem sameTree_setStatusWhere (hf : KeepsData f) (cond : Ptr → Bool) : SameTree s (s.setStatusWhere cond f) := by
  refine sameTree_block fun y => ?_
  by_cases hy : y ∈ s.blockIndex ∧ cond y = true
  · exact .inr ⟨f, hf, if_pos hy⟩
  · exact .inl (if_neg hy)

/-! ## Marks -/

theorem failed_eq (x : Ptr) : s.failed x = (s.failedValid x || s.failedChild x) := rfl

theorem isValid_iff : s.isValid x nUpTo = true ↔ s.failed x = false ∧ nUpTo.level ≤ s.level x := by
  simp [isValid, BlockStatus.isValid, failed, level]

theorem failedValid_setStatus (x y : Ptr) (f : BlockStatus → BlockStatus) :
    (s.setStatus x f).failedValid y = if y = x then (f (s.block x).nStatus).failedValid else s.failedValid y := by
  simp only [failedValid, setStatus, modify]
  split <;> rfl

theorem failedChild_setStatus (x y : Ptr) (f : BlockStatus → BlockStatus) :
    (s.setStatus x f).failedChild y = if y = x then (f (s.block x).nStatus).failedChild else s.failedChild y := by
  simp only [failedChild, setStatus, modify]
  split <;> rfl

theorem failedValid_setStatusWhere (cond : Ptr → Bool) (f : BlockStatus → BlockStatus) (y : Ptr) :
    (s.setStatusWhere cond f).failedValid y =
      if y ∈ s.blockIndex ∧ cond y then (f (s.block y).nStatus).failedValid else s.failedValid y := by
  simp only [failedValid, setStatusWhere]
  split <;> rfl

theorem failedChild_setStatusWhere (cond : Ptr → Bool) (f : BlockStatus → BlockStatus) (y : Ptr) :
    (s.setStatusWhere cond f).failedChild y =
      if y ∈ s.blockIndex ∧ cond y then (f (s.block y).nStatus).failedChild else s.failedChild y := by
  simp only [failedChild, setStatusWhere]
  split <;> rfl

theorem failedValid_markValid : (s.setStatus x .markValid).failedValid y = true ↔ y = x ∨ s.failedValid y = true := by
  rw [failedValid_setStatus]
  by_cases hy : y = x
  · simp [hy, BlockStatus.markValid]
  · simp [hy]

theorem failedChild_markValid : (s.setStatus x .markValid).failedChild = s.failedChild := by
  funext y
  rw [failedChild_setStatus]
  by_cases hy : y = x
  · subst hy
    exact if_pos rfl
  · exact if_neg hy

theorem raiseValidity_flags (nUpTo : BlockValid) (st : BlockStatus) :
    (st.raiseValidity nUpTo).failedValid = st.failedValid ∧ (st.raiseValidity nUpTo).failedChild = st.failedChild := by
  unfold BlockStatus.raiseValidity
  split
  · exact ⟨rfl, rfl⟩
  · split <;> exact ⟨rfl, rfl⟩

theorem failedValid_raiseValidity : (s.setStatus x (.raiseValidity nUpTo)).failedValid = s.failedValid := by
  funext y
  rw [failedValid_setStatus, (raiseValidity_flags _ _).1]
  split
  · next hy => rw [hy, failedValid]
  · rfl

theorem failedChild_raiseValidity : (s.setStatus x (.raiseValidity nUpTo)).failedChild = s.failedChild := by
  funext y
  rw [failedChild_setStatus, (raiseValidity_flags _ _).2]
  split
  · next hy => rw [hy, failedChild]
  · rfl

structure Marks (s s' : Chainstate) : Prop where
  valid : ∀ x, s.failedValid x = true → s'.failedValid x = true
  child : ∀ x, s.failedChild x = true → s'.failedChild x = true

theorem Marks.failed (h : Marks s s') (hx : s.failed x = true) : s'.failed x = true := by
  rw [failed_eq, or_eq_true] at *
  exact hx.imp (h.valid x) (h.child x)

theorem Marks.not_failed (h : Marks s s') (hx : s'.failed x = false) : s.failed x = false := by
  rw [← not_eq_true] at *
  exact fun hfailed => hx (h.failed hfailed)

theorem Marks.refl (s : Chainstate) : Marks s s := ⟨fun _ h => h, fun _ h => h⟩

theorem Marks.trans (h : Marks s s') (h' : Marks s' t) : Marks s t :=
  ⟨fun x hx => h'.valid x (h.valid x hx), fun x hx => h'.child x (h.child x hx)⟩

theorem marks_markValid : Marks s (s.setStatus x .markValid) := by
  refine ⟨fun y hy => failedValid_markValid.mpr (.inr hy), fun y hy => ?_⟩
  rw [failedChild_markValid]
  exact hy

theorem sameTree_of_block (hi : s'.blockIndex = s.blockIndex) (hb : s'.block = s.block) : SameTree s s' := by
  have hall : ∀ {β : Type} (g : CBlockIndex → β), (fun y => g (s'.block y)) = fun y => g (s.block y) := by
    intro β g
    rw [hb]
  refine ⟨hi, hall (·.pprev), hall (·.nHeight), hall (·.nChainWork), hall (·.nSequenceId), hall (·.nTx),
    hall (·.chainTxCount), hall (·.nStatus.haveData), fun x => ?_⟩
  exact Nat.le_of_eq (congrFun (hall (·.nStatus.valid.level)) x).symm

theorem failedValid_of_block (hb : s'.block = s.block) : s'.failedValid = s.failedValid := by
  funext x
  rw [failedValid, hb, failedValid]

theorem failedChild_of_block (hb : s'.block = s.block) : s'.failedChild = s.failedChild := by
  funext x
  rw [failedChild, hb, failedChild]

theorem marks_of_block (hb : s'.block = s.block) : Marks s s' := by
  constructor
  · rw [failedValid_of_block hb]
    exact fun _ h => h
  · rw [failedChild_of_block hb]
    exact fun _ h => h

/-! ## Where marks come from -/

/-- The genesis block is not connected, so nothing is said of it. -/
def Rejects (env : Env) (x : Ptr) : Prop := x ≠ env.hashGenesisBlock ∧ env.connects x = false

/-- Marks are on account of `bad` blocks, and no block is lost. -/
structure Judges (bad : Ptr → Prop) (s s' : Chainstate) : Prop where
  mem : ∀ a ∈ s.blockIndex, a ∈ s'.blockIndex
  above : ∀ a ∈ s.blockIndex, ∀ c, Above s.pprev c a → Above s'.pprev c a
  valid : ∀ a ∈ s'.blockIndex, s'.failedValid a = true →
    a ∈ s.blockIndex ∧ s.failedValid a = true ∨ ∃ c, Above s'.pprev c a ∧ bad c

namespace Judges

variable {bad bad' : Ptr → Prop}

theorem refl (s : Chainstate) : Judges bad s s := ⟨fun _ h => h, fun _ _ _ h => h, fun _ hmem ha => .inl ⟨hmem, ha⟩⟩

theorem trans (h : Judges bad s s') (h' : Judges bad s' t) : Judges bad s t := by
  refine ⟨fun a ha => h'.mem a (h.mem a ha), fun a ha c hca => h'.above a (h.mem a ha) c (h.above a ha c hca),
    fun a hmem ha => ?_⟩
  rcases h'.valid a hmem ha with ⟨hmem', ha'⟩ | hnew
  · rcases h.valid a hmem' ha' with hold | ⟨c, hca, hc⟩
    · exact .inl hold
    · exact .inr ⟨c, h'.above a hmem' c hca, hc⟩
  · exact .inr hnew

theorem mono (h : Judges bad s s') (hbad : ∀ c, bad c → bad' c) : Judges bad' s s' :=
  ⟨h.mem, h.above, fun a hmem ha => (h.valid a hmem ha).imp id fun ⟨c, hca, hc⟩ => ⟨c, hca, hbad c hc⟩⟩

theorem of_marked (hi : s'.blockIndex = s.blockIndex) (hp : s'.pprev = s.pprev)
    (hv : ∀ a, s'.failedValid a = true → s.failedValid a = true ∨ ∃ c, Above s.pprev c a ∧ bad c) :
    Judges bad s s' := by
  refine ⟨?_, ?_, ?_⟩
  · rw [hi]
    exact fun _ h => h
  · rw [hp]
    exact fun _ _ _ h => h
  · rw [hi, hp]
    exact fun a hmem ha => (hv a ha).imp (fun hold => ⟨hmem, hold⟩) id

theorem of_eq (hi : s'.blockIndex = s.blockIndex) (hp : s'.pprev = s.pprev) (hv : s'.failedValid = s.failedValid) :
    Judges bad s s' := by
  refine of_marked hi hp fun a ha => .inl ?_
  rwa [hv] at ha

end Judges

/-! ## The tree -/

/-- A parent is one lower with less work, and all descend from genesis. -/
structure Tree (env : Env) (s : Chainstate) : Prop where
  genesis : env.hashGenesisBlock ∈ s.blockIndex
  rooted : ∀ x ∈ s.blockIndex, Above s.pprev env.hashGenesisBlock x
  parent : ∀ x p, s.pprev x = some p →
    x ∈ s.blockIndex ∧ p ∈ s.blockIndex ∧ s.nHeight x = s.nHeight p + 1 ∧ s.nChainWork p < s.nChainWork x

namespace Tree

variable (h : Tree env s)
include h

theorem ranked : Ranked s.pprev s.nHeight := fun x p hp => (h.parent x p hp).2.2.1

theorem ne_genesis (hp : s.pprev x = some p) : x ≠ env.hashGenesisBlock := by
  rintro rfl
  obtain ⟨-, hmem, _, -⟩ := h.parent _ p hp
  have hle := (h.rooted p hmem).rank_le h.ranked
  omega

theorem getAncestor_iff : s.getAncestor x (s.nHeight a) = some a ↔ Above s.pprev a x :=
  climb_rank_iff h.ranked (Nat.lt_succ_self _)

theorem contains_iff : s.contains x = true ↔ Above s.pprev x s.tip := by
  unfold contains
  rw [beq_iff_eq, h.getAncestor_iff]

theorem work_le (ha : Above s.pprev a x) : s.nChainWork a ≤ s.nChainWork x :=
  ha.keeps_down (k := fun y => s.nChainWork a ≤ s.nChainWork y)
    (fun y p hp hle => Nat.le_trans hle (Nat.le_of_lt (h.parent y p hp).2.2.2)) (Nat.le_refl _)

theorem comp_of_strictlyAbove (ha : StrictlyAbove s.pprev a x) : s.comp a x = true := by
  obtain ⟨p, hp, ha⟩ := ha
  exact comp_iff.mpr (.inl (Nat.lt_of_le_of_lt (h.work_le ha) (h.parent x p hp).2.2.2))

theorem mem_above (ha : Above s.pprev a x) (hx : x ∈ s.blockIndex) : a ∈ s.blockIndex :=
  ha.keeps (fun y p hp _ => (h.parent y p hp).2.1) hx

theorem mem_below (ha : StrictlyAbove s.pprev a x) : x ∈ s.blockIndex := by
  obtain ⟨p, hp, -⟩ := ha
  exact (h.parent x p hp).1

theorem of_eq (hi : s'.blockIndex = s.blockIndex) (hp : s'.pprev = s.pprev)
    (hh : s'.nHeight = s.nHeight) (hw : s'.nChainWork = s.nChainWork) : Tree env s' := by
  refine ⟨?_, ?_, ?_⟩
  · rw [hi]
    exact h.genesis
  · rw [hi, hp]
    exact h.rooted
  · rw [hp, hi, hh, hw]
    exact h.parent

theorem same (hs : SameTree s s') : Tree env s' :=
  h.of_eq hs.blockIndex hs.pprev hs.nHeight hs.nChainWork

omit h

end Tree

/-! ## Block data -/

/-- A block is linked when all below have data, or `queue` is to link it. Else it waits, unless its
parent failed first. -/
structure Data (s : Chainstate) (queue : List Ptr) : Prop where
  have_iff : ∀ x ∈ s.blockIndex, s.haveData x = true ↔ s.nTx x ≠ 0
  tree : ∀ x ∈ s.blockIndex, BlockValid.tree.level ≤ s.level x
  level : ∀ x ∈ s.blockIndex, s.nTx x ≠ 0 → BlockValid.transactions.level ≤ s.level x
  of_linked : ∀ x ∈ s.blockIndex, s.haveNumChainTxs x = true →
    s.nTx x ≠ 0 ∧ ∀ p, s.pprev x = some p → s.haveNumChainTxs p = true
  linked : ∀ x ∈ s.blockIndex, s.nTx x ≠ 0 → (∀ p, s.pprev x = some p → s.haveNumChainTxs p = true) →
    s.haveNumChainTxs x = true ∨ x ∈ queue
  queued : ∀ x ∈ queue, x ∈ s.blockIndex ∧ s.nTx x ≠ 0 ∧ ∀ p, s.pprev x = some p → s.haveNumChainTxs p = true
  unlinked : ∀ e ∈ s.blocksUnlinked, s.pprev e.2 = some e.1 ∧ s.nTx e.2 ≠ 0 ∧ s.haveNumChainTxs e.1 = false
  waiting : ∀ x p, s.pprev x = some p → s.nTx x ≠ 0 → s.haveNumChainTxs p = false →
    (p, x) ∈ s.blocksUnlinked ∨ s.failedValid p = true ∧ s.nTx p = 0

namespace Data

theorem of_eq (h : Data s queue) (hi : s'.blockIndex = s.blockIndex) (hp : s'.pprev = s.pprev) (hn : s'.nTx = s.nTx)
    (hl : s'.haveNumChainTxs = s.haveNumChainTxs) (hd : s'.haveData = s.haveData) (hlevel : ∀ x, s.level x ≤ s'.level x)
    (hu : s'.blocksUnlinked = s.blocksUnlinked) (hv : ∀ x, s.failedValid x = true → s'.failedValid x = true) :
    Data s' queue := by
  refine ⟨?_, ?_, ?_, ?_, ?_, ?_, ?_, ?_⟩
  · rw [hi, hd, hn]
    exact h.have_iff
  · rw [hi]
    exact fun x hx => Nat.le_trans (h.tree x hx) (hlevel x)
  · rw [hi, hn]
    exact fun x hx htx => Nat.le_trans (h.level x hx htx) (hlevel x)
  · rw [hi, hn, hp, hl]
    exact h.of_linked
  · rw [hi, hn, hp, hl]
    exact h.linked
  · rw [hi, hn, hp, hl]
    exact h.queued
  · rw [hu, hn, hp, hl]
    exact h.unlinked
  · rw [hu, hn, hp, hl]
    exact fun x p hxp hx hlp => (h.waiting x p hxp hx hlp).imp id fun hw => ⟨hv p hw.1, hw.2⟩

theorem same (h : Data s queue) (hs : SameTree s s') (hm : Marks s s') (hu : s'.blocksUnlinked = s.blocksUnlinked) :
    Data s' queue :=
  h.of_eq hs.blockIndex hs.pprev hs.nTx hs.haveNumChainTxs hs.haveData hs.level hu hm.valid

theorem linked_above (h : Data s queue) (ht : Tree env s) (hx : x ∈ s.blockIndex) (hl : s.haveNumChainTxs x = true)
    (ha : Above s.pprev a x) : s.haveNumChainTxs a = true := by
  have hboth : a ∈ s.blockIndex ∧ s.haveNumChainTxs a = true :=
    ha.keeps (k := fun y => y ∈ s.blockIndex ∧ s.haveNumChainTxs y = true)
      (fun y p hp hy => ⟨(ht.parent y p hp).2.1, (h.of_linked y hy.1 hy.2).2 p hp⟩) ⟨hx, hl⟩
  exact hboth.2

theorem linked_iff (h : Data s []) (ht : Tree env s) (hx : x ∈ s.blockIndex) :
    s.haveNumChainTxs x = true ↔ ∀ a, Above s.pprev a x → s.haveData a = true := by
  constructor
  · intro hl a ha
    have hmem := ht.mem_above ha hx
    exact (h.have_iff a hmem).mpr (h.of_linked a hmem (h.linked_above ht hx hl ha)).1
  · intro hall
    induction hn : s.nHeight x using Nat.strong_induction_on generalizing x with
    | _ n ih =>
      have hself := (h.have_iff x hx).mp (hall x (.refl x))
      refine (h.linked x hx hself fun p hp => ?_).resolve_right (by simp)
      obtain ⟨-, hmem, _, -⟩ := ht.parent x p hp
      exact ih (s.nHeight p) (by omega) hmem (fun a ha => hall a (ha.trans (.of_parent hp))) rfl

end Data

/-! ## Failure flags -/

/-- `a` is marked, and so is everything built on it. -/
structure Closed (s : Chainstate) (a : Ptr) : Prop where
  mem : a ∈ s.blockIndex
  valid : s.failedValid a = true
  below : ∀ x, Above s.pprev a x → s.failed x = true

/-- A block that failed with its data took its descendants with it. -/
structure Flags (s : Chainstate) : Prop where
  closed : ∀ a ∈ s.blockIndex, s.failedValid a = true → s.nTx a ≠ 0 → Closed s a
  child : ∀ x ∈ s.blockIndex, s.failedChild x = true → ∃ a, StrictlyAbove s.pprev a x ∧ Closed s a
  listed : ∀ a ∈ s.failedBlocks, Closed s a

theorem Closed.marks (h : Closed s a) (hs : SameTree s s') (hm : Marks s s') : Closed s' a := by
  refine ⟨?_, hm.valid a h.valid, fun x hx => hm.failed (h.below x ?_)⟩
  · rw [hs.blockIndex]
    exact h.mem
  · rwa [hs.pprev] at hx

theorem Closed.of_eq (h : Closed s a) (hi : s'.blockIndex = s.blockIndex) (hp : s'.pprev = s.pprev)
    (hv : s'.failedValid = s.failedValid) (hc : s'.failedChild = s.failedChild) : Closed s' a := by
  refine ⟨?_, ?_, ?_⟩
  · rw [hi]
    exact h.mem
  · rw [hv]
    exact h.valid
  · intro x hx
    rw [hp] at hx
    rw [failed_eq, hv, hc]
    exact h.below x hx

theorem Flags.of_eq (h : Flags s) (hi : s'.blockIndex = s.blockIndex) (hp : s'.pprev = s.pprev)
    (hv : s'.failedValid = s.failedValid) (hc : s'.failedChild = s.failedChild) (hb : s'.failedBlocks = s.failedBlocks)
    (hn : ∀ a, s.failedValid a = true → s'.nTx a ≠ 0 → s.nTx a ≠ 0) : Flags s' := by
  have hkeep := fun {a} (ha : Closed s a) => ha.of_eq hi hp hv hc
  refine ⟨?_, ?_, ?_⟩
  · rw [hi, hv]
    exact fun a hmem ha htx => hkeep (h.closed a hmem ha (hn a ha htx))
  · rw [hi, hc, hp]
    intro x hmem hx
    obtain ⟨a, hax, ha⟩ := h.child x hmem hx
    exact ⟨a, hax, hkeep ha⟩
  · rw [hb]
    exact fun a ha => hkeep (h.listed a ha)

theorem Flags.failed_below (h : Flags s) (hd : Data s queue) (ht : Tree env s) (hx : x ∈ s.blockIndex)
    (hl : s.haveNumChainTxs x = true) (ha : Above s.pprev a x) (hfailed : s.failed a = true) : s.failed x = true := by
  have hmem := ht.mem_above ha hx
  rw [failed_eq, or_eq_true] at hfailed
  rcases hfailed with hvalid | hchild
  · have hn := (hd.of_linked a hmem (hd.linked_above ht hx hl ha)).1
    exact (h.closed a hmem hvalid hn).below x ha
  · obtain ⟨_, hca, hc⟩ := h.child a hmem hchild
    exact hc.below x (hca.above.trans ha)

/-- `s'` has the marks of `s`, and those on `p` and above. -/
structure Invalidates (s s' : Chainstate) (p : Ptr) : Prop where
  tree : SameTree s s'
  marks : Marks s s'
  closed : Closed s' p
  valid : ∀ a, s'.failedValid a = true → s.failedValid a = true ∨ Above s.pprev p a
  child : ∀ x, s'.failedChild x = true → s.failedChild x = true ∨ StrictlyAbove s.pprev p x
  listed : ∀ a ∈ s'.failedBlocks, a ∈ s.failedBlocks ∨ a = p
  unlinked : s'.blocksUnlinked = s.blocksUnlinked

theorem Invalidates.not_failed (h : Invalidates s s' p) (hx : s.failed x = false) (hp : ¬ Above s.pprev p x) :
    s'.failed x = false := by
  rw [← not_eq_true, failed_eq, or_eq_true] at *
  rintro (hvalid | hchild)
  · exact (h.valid x hvalid).elim (fun hv => hx (.inl hv)) hp
  · exact (h.child x hchild).elim (fun hc => hx (.inr hc)) fun hs => hp hs.above

theorem Flags.invalidate (h : Flags s) (hi : Invalidates s s' p) : Flags s' := by
  refine ⟨fun a hmem ha hn => ?_, fun x hmem hx => ?_, fun a ha => ?_⟩
  · rcases hi.valid a ha with hold | hnew
    · rw [hi.tree.blockIndex] at hmem
      rw [hi.tree.nTx] at hn
      exact (h.closed a hmem hold hn).marks hi.tree hi.marks
    · refine ⟨hmem, ha, fun x hx => hi.closed.below x ?_⟩
      rw [hi.tree.pprev] at hx ⊢
      exact hnew.trans hx
  · rw [hi.tree.blockIndex] at hmem
    rw [hi.tree.pprev]
    rcases hi.child x hx with hold | hnew
    · obtain ⟨a, hax, ha⟩ := h.child x hmem hold
      exact ⟨a, hax, ha.marks hi.tree hi.marks⟩
    · exact ⟨p, hnew, hi.closed⟩
  · rcases hi.listed a ha with hold | rfl
    · exact (h.listed a hold).marks hi.tree hi.marks
    · exact hi.closed

theorem failedChild_setBlockFailureFlags (ht : Tree env s) :
    (s.setBlockFailureFlags p).failedChild x = true ↔
      s.failedChild x = true ∨ x ∈ s.blockIndex ∧ Above s.pprev p x ∧ s.failed x = false := by
  have hcond : (s.getAncestor x (s.nHeight p) == some p && !s.failed x) = true ↔
      Above s.pprev p x ∧ s.failed x = false := by
    rw [and_eq_true, beq_iff_eq, ht.getAncestor_iff, not_eq_true']
  unfold setBlockFailureFlags
  rw [failedChild_setStatusWhere]
  split
  · next hmarked => exact ⟨fun _ => .inr ⟨hmarked.1, hcond.mp hmarked.2⟩, fun _ => rfl⟩
  · next hnot => exact ⟨.inl, fun h => h.resolve_right fun hm => hnot ⟨hm.1, hcond.mpr hm.2⟩⟩

theorem failedValid_setBlockFailureFlags : (s.setBlockFailureFlags p).failedValid = s.failedValid := by
  funext x
  unfold setBlockFailureFlags
  rw [failedValid_setStatusWhere]
  split <;> rfl

theorem marks_setBlockFailureFlags : Marks s (s.setBlockFailureFlags p) := by
  constructor
  · rw [failedValid_setBlockFailureFlags]
    exact fun _ h => h
  · intro x hx
    unfold setBlockFailureFlags
    rw [failedChild_setStatusWhere]
    split
    · rfl
    · exact hx

theorem invalidates_setBlockFailureFlags (ht : Tree env s) (hs : SameTree s s') (hm : Marks s s')
    (hmem : p ∈ s.blockIndex) (hp : s'.failedValid p = true)
    (hvalid : ∀ a, s'.failedValid a = true → s.failedValid a = true ∨ Above s.pprev p a)
    (hchild : s'.failedChild = s.failedChild) (hlisted : ∀ a ∈ s'.failedBlocks, a ∈ s.failedBlocks ∨ a = p)
    (hu : s'.blocksUnlinked = s.blocksUnlinked) : Invalidates s (s'.setBlockFailureFlags p) p := by
  have ht' := ht.same hs
  have hsame : SameTree s' (s'.setBlockFailureFlags p) := sameTree_setStatusWhere keepsData_markChild _
  have hv := failedValid_setBlockFailureFlags (s := s') (p := p)
  have hc := fun x => failedChild_setBlockFailureFlags (x := x) (p := p) ht'
  have hindex : s'.blockIndex = s.blockIndex := hs.blockIndex
  refine ⟨hs.trans hsame, hm.trans marks_setBlockFailureFlags, ⟨?_, ?_, ?_⟩, ?_, ?_, hlisted, hu⟩
  · rw [hsame.blockIndex, hindex]
    exact hmem
  · rw [hv]
    exact hp
  · intro x hx
    rw [hsame.pprev] at hx
    rw [failed_eq, or_eq_true, hv, hc]
    rcases hx.cases with rfl | hstrict
    · exact .inl hp
    · by_cases hfailed : s'.failed x = true
      · rw [failed_eq, or_eq_true] at hfailed
        exact hfailed.imp id .inl
      · exact .inr (.inr ⟨ht'.mem_below hstrict, hx, by simpa using hfailed⟩)
  · rw [hv]
    exact hvalid
  · intro x hx
    rcases (hc x).mp hx with hold | ⟨-, habove, hnot⟩
    · rw [hchild] at hold
      exact .inl hold
    · rw [hs.pprev] at habove
      refine .inr (.of_above habove ?_)
      rintro rfl
      rw [failed_eq, hp] at hnot
      cases hnot

theorem invalidates_markInvalid (ht : Tree env s) (hs : SameTree s s') (hm : Marks s s') (hmem : p ∈ s.blockIndex)
    (hvalid : ∀ a, s'.failedValid a = true → s.failedValid a = true ∨ Above s.pprev p a)
    (hchild : s'.failedChild = s.failedChild) (hlisted : s'.failedBlocks = s.failedBlocks)
    (hu : s'.blocksUnlinked = s.blocksUnlinked) (hi : t.blockIndex = s'.blockIndex)
    (hb : t.block = (s'.markInvalid p).block) (hl : t.failedBlocks = s'.failedBlocks.insert p)
    (hu' : t.blocksUnlinked = s'.blocksUnlinked) : Invalidates s (t.invalidChainFound p) p := by
  have hv : ∀ y, t.failedValid y = true ↔ y = p ∨ s'.failedValid y = true := by
    rw [failedValid_of_block hb]
    exact fun y => failedValid_markValid
  have hc : t.failedChild = s'.failedChild := (failedChild_of_block hb).trans failedChild_markValid
  have hsame : SameTree s' t := by
    refine (sameTree_setStatus keepsData_markValid p).trans ?_
    exact sameTree_of_block hi hb
  refine invalidates_setBlockFailureFlags ht (hs.trans hsame) (hm.trans ⟨fun y hy => (hv y).mpr (.inr hy), ?_⟩) hmem
    ((hv p).mpr (.inl rfl)) ?_ (hc.trans hchild) ?_ (hu'.trans hu)
  · rw [hc]
    exact fun _ hy => hy
  · intro a ha
    rcases (hv a).mp ha with rfl | hold
    · exact .inr (.refl _)
    · exact hvalid a hold
  · intro a ha
    rw [hl, mem_insert_iff, hlisted] at ha
    exact ha.symm

theorem setBlockFailureFlags_of_closed (ht : Tree env s) (h : ∀ x, Above s.pprev p x → s.failed x = true) :
    s.setBlockFailureFlags p = s := by
  have hblock : (s.setBlockFailureFlags p).block = s.block := by
    funext y
    unfold setBlockFailureFlags setStatusWhere
    refine if_neg ?_
    rintro ⟨-, hcond⟩
    simp only [and_eq_true, beq_iff_eq, ht.getAncestor_iff, not_eq_true'] at hcond
    rw [h y hcond.1] at hcond
    cases hcond.2
  calc s.setBlockFailureFlags p = { s with block := (s.setBlockFailureFlags p).block } := rfl
    _ = s := by rw [hblock]

/-! ## The whole invariant -/

structure Usable (s : Chainstate) (x : Ptr) : Prop where
  mem : x ∈ s.blockIndex
  way : ∀ a, Above s.pprev a x → s.failed a = false ∧ s.haveNumChainTxs a = true

section

variable (h : Usable s x)
include h

theorem Usable.above (ht : Tree env s) (ha : Above s.pprev a x) : Usable s a :=
  ⟨ht.mem_above ha h.mem, fun b hb => h.way b (hb.trans ha)⟩

theorem Usable.self : s.failed x = false ∧ s.haveNumChainTxs x = true := h.way x (.refl x)

theorem Usable.of_le (hi : s'.blockIndex = s.blockIndex) (hp : s'.pprev = s.pprev)
    (hf : s'.failed = s.failed) (hl : ∀ a, s.haveNumChainTxs a = true → s'.haveNumChainTxs a = true) : Usable s' x := by
  constructor
  · rw [hi]
    exact h.mem
  · rw [hp, hf]
    exact fun a ha => ⟨(h.way a ha).1, hl a (h.way a ha).2⟩

theorem Usable.same (hs : SameTree s s') (hf : ∀ a, Above s.pprev a x → s'.failed a = false) :
    Usable s' x := by
  constructor
  · rw [hs.blockIndex]
    exact h.mem
  · rw [hs.pprev, hs.haveNumChainTxs]
    exact fun a ha => ⟨hf a ha, (h.way a ha).2⟩

theorem Usable.invalidate (hi : Invalidates s s' p) (hp : ¬ Above s.pprev p x) : Usable s' x :=
  h.same hi.tree fun a ha => hi.not_failed (h.way a ha).1 fun hpa => hp (hpa.trans ha)

end

theorem Flags.usable (h : Flags s) (hd : Data s queue) (ht : Tree env s) (hx : x ∈ s.blockIndex)
    (hl : s.haveNumChainTxs x = true) (hfailed : s.failed x = false) : Usable s x := by
  refine ⟨hx, fun a ha => ⟨?_, hd.linked_above ht hx hl ha⟩⟩
  rw [← not_eq_true]
  intro hmarked
  rw [h.failed_below hd ht hx hl ha hmarked] at hfailed
  cases hfailed

structure Active (env : Env) (s : Chainstate) (x : Ptr) : Prop where
  usable : Usable s x
  connects : ∀ a, Above s.pprev a x → s.pprev a = none ∨ env.connects a = true

section

variable (h : Active env s x)
include h

theorem Active.above (ht : Tree env s) (ha : Above s.pprev a x) : Active env s a :=
  ⟨h.usable.above ht ha, fun b hb => h.connects b (hb.trans ha)⟩

theorem Active.of_le (hi : s'.blockIndex = s.blockIndex) (hp : s'.pprev = s.pprev)
    (hf : s'.failed = s.failed) (hl : ∀ a, s.haveNumChainTxs a = true → s'.haveNumChainTxs a = true) :
    Active env s' x := by
  refine ⟨h.usable.of_le hi hp hf hl, ?_⟩
  rw [hp]
  exact h.connects

theorem Active.same (hs : SameTree s s') (hf : ∀ a, Above s.pprev a x → s'.failed a = false) :
    Active env s' x := by
  refine ⟨h.usable.same hs hf, ?_⟩
  rw [hs.pprev]
  exact h.connects

theorem Active.invalidate (hi : Invalidates s s' p) (hp : ¬ Above s.pprev p x) : Active env s' x := by
  refine ⟨h.usable.invalidate hi hp, ?_⟩
  rw [hi.tree.pprev]
  exact h.connects

end

/-- Every usable block sorting before neither tip nor `best` is in. -/
structure Candidates (s : Chainstate) (best : Ptr) : Prop where
  linked : ∀ x ∈ s.setBlockIndexCandidates, x ∈ s.blockIndex ∧ s.haveNumChainTxs x = true
  complete : ∀ x ∈ s.blockIndex, s.haveNumChainTxs x = true → s.failed x = false → s.comp x best = false →
    s.comp x s.tip = false → x ∈ s.setBlockIndexCandidates

/-- The invariant of the search, which started from the tip `best`. -/
structure Inv (env : Env) (s : Chainstate) (best : Ptr) : Prop where
  tree : Tree env s
  data : Data s []
  flags : Flags s
  start : Active env s best
  tip : Active env s s.tip
  candidates : Candidates s best

abbrev Settled (env : Env) (s : Chainstate) : Prop := Inv env s s.tip

theorem Settled.intro (ht : Tree env s) (hd : Data s []) (hf : Flags s) (htip : Active env s s.tip)
    (hc : Candidates s s.tip) : Settled env s := ⟨ht, hd, hf, htip, htip, hc⟩

theorem Candidates.fewer (h : Candidates s T) (hs : SameTree s s') (hm : Marks s s') (htip : s'.tip = s.tip)
    (hsub : ∀ x ∈ s'.setBlockIndexCandidates, x ∈ s.setBlockIndexCandidates)
    (hkeep : ∀ x ∈ s.setBlockIndexCandidates, s'.failed x = false → s'.comp x s.tip = false →
      x ∈ s'.setBlockIndexCandidates) : Candidates s' T := by
  constructor
  · rw [hs.blockIndex, hs.haveNumChainTxs]
    exact fun x hx => h.linked x (hsub x hx)
  · rw [hs.blockIndex, hs.haveNumChainTxs, hs.comp, htip]
    rw [hs.comp] at hkeep
    exact fun x hx hl hf hT ht => hkeep x (h.complete x hx hl (hm.not_failed hf) hT ht) hf ht

theorem Inv.same (h : Inv env s T) (hs : SameTree s s') (hv : s'.failedValid = s.failedValid)
    (hc : s'.failedChild = s.failedChild) (hu : s'.blocksUnlinked = s.blocksUnlinked)
    (hb : s'.failedBlocks = s.failedBlocks) (htip : Active env s s'.tip) (hcand : Candidates s' T) : Inv env s' T := by
  have hlinked : ∀ a, s.haveNumChainTxs a = true → s'.haveNumChainTxs a = true := by
    rw [hs.haveNumChainTxs]
    exact fun _ hl => hl
  have hfailed : s'.failed = s.failed := by
    funext x
    rw [failed_eq, hv, hc, failed_eq]
  have hmarks : Marks s s' := by
    constructor
    · rw [hv]
      exact fun _ hx => hx
    · rw [hc]
      exact fun _ hx => hx
  refine ⟨h.tree.same hs, h.data.same hs hmarks hu, h.flags.of_eq hs.blockIndex hs.pprev hv hc hb ?_,
    h.start.of_le hs.blockIndex hs.pprev hfailed hlinked, htip.of_le hs.blockIndex hs.pprev hfailed hlinked, hcand⟩
  rw [hs.nTx]
  exact fun _ _ hn => hn

theorem Inv.of_block (h : Inv env s T) (hi : s'.blockIndex = s.blockIndex) (hb : s'.block = s.block)
    (hu : s'.blocksUnlinked = s.blocksUnlinked) (hfb : s'.failedBlocks = s.failedBlocks)
    (htip : Active env s s'.tip) (hc : Candidates s' T) : Inv env s' T :=
  h.same (sameTree_of_block hi hb) (failedValid_of_block hb) (failedChild_of_block hb) hu hfb htip hc

theorem Inv.invalidate (h : Inv env s T) (hi : Invalidates s s' p) (htip' : s'.tip = s.tip) (hT : ¬ Above s.pprev p T)
    (htip : ¬ Above s.pprev p s.tip) (hc : Candidates s' T) : Inv env s' T := by
  refine ⟨h.tree.same hi.tree, h.data.same hi.tree hi.marks hi.unlinked, h.flags.invalidate hi,
    h.start.invalidate hi hT, ?_, hc⟩
  rw [htip']
  exact h.tip.invalidate hi htip

end Chainstate

end FullNode.BlockTree

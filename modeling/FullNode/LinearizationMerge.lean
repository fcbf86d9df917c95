import FullNode.Linearization

/-!
# Merging linearizations

It has a feerate no chunk exceeds, and what it takes from behind a chunk is no worse, so no line gets a prefix that is
lower than before.
-/

namespace FullNode.ClusterLinearize

open MiniMiner (FeeFrac)
open Covering FeeDiagrams Diagram LinearizationChunking DepGraph List Finset SetInfo

variable {N : Nat} {g : DepGraph N} {c c' : LinearizationChunking N} {info subset accumulator S : SetInfo N}
  {l lin lin1 lin2 ret seg : List (Fin N)} {segs done : List (List (Fin N))} {chunks : List (SetInfo N)}
  {slope : ℚ} {i : Fin N} {todo s : Finset (Fin N)}

/-! ## Sets and their feerates -/

def Covers (g : DepGraph N) (info : SetInfo N) (l : List (Fin N)) : Prop :=
  info.transactions = l.toFinset ∧ toStep info.feerate = sumStep g.step l

def Measured (g : DepGraph N) (info : SetInfo N) : Prop :=
  toStep info.feerate = sumStep g.step (elements info.transactions)

theorem elements_nodup (s : Finset (Fin N)) : (elements s).Nodup := (nodup_finRange N).filter _

theorem perm_elements (hnodup : l.Nodup) (h : ∀ i, i ∈ l ↔ i ∈ s) : l.Perm (elements s) :=
  (perm_ext_iff_of_nodup hnodup (elements_nodup s)).mpr fun i => by rw [h, mem_elements]

theorem sumStep_perm {l' : List (Fin N)} (h : l.Perm l') : sumStep g.step l = sumStep g.step l' := by
  unfold sumStep
  rw [(h.map _).sum_eq, (h.map _).sum_eq]

theorem Covers.measured (h : Covers g info l) (hnodup : l.Nodup) : Measured g info := by
  unfold Measured
  rw [h.2, h.1, sumStep_perm (perm_elements hnodup fun i => mem_toFinset.symm)]

theorem feeRateOf_spec : toStep (g.feeRateOf s) = sumStep g.step (elements s) := by
  have hloop : ∀ (l : List (Fin N)) (ret : FeeFrac),
      toStep (l.foldl (fun ret pos => add ret (g.feeRate pos)) ret) =
        ⟨(toStep ret).rise + (sumStep g.step l).rise, (toStep ret).run + (sumStep g.step l).run⟩ := by
    intro l
    induction l with
    | nil => simp [sumStep]
    | cons i l ih =>
      intro ret
      rw [foldl_cons, ih]
      simp only [sumStep, List.map_cons, List.sum_cons, toStep, add, DepGraph.step, Int.cast_add, add_assoc]
  unfold DepGraph.feeRateOf
  rw [hloop]
  simp [toStep, sumStep]

theorem excess_eq (hpos : g.Positive l) (hne : l ≠ []) :
    excess g.step slope l = ((sumStep g.step l).rate - slope) * (sumStep g.step l).run := by
  rw [← excess_sumStep, Step.rise_eq (sumStep_run_pos hpos hne)]
  ring

theorem run_nonneg (hpos : g.Positive l) : 0 ≤ (sumStep g.step l).run := by
  by_cases hl : l = []
  · rw [hl]
    exact le_rfl
  · exact (sumStep_run_pos hpos hl).le

/-! ## What a set takes from the chunks -/

/-- Nothing in the first chunks, or less per size than overall. -/
def Lower (g : DepGraph N) (c : SetInfo N) (l : List (Fin N)) : Prop :=
  l.filter (· ∈ c.transactions) = [] ∨ (sumStep g.step (l.filter (· ∈ c.transactions))).rate < (toStep c.feerate).rate

/-- A part of `c` with no less per size, behind some chunks. -/
structure Cut (g : DepGraph N) (segs : List (List (Fin N))) (c S : SetInfo N) : Prop where
  nonempty : S.transactions.Nonempty
  measured : Measured g S
  rate : (toStep c.feerate).rate ≤ (toStep S.feerate).rate
  place : ∃ n, S.transactions = c.transactions ∩ (segs.take n).flatten.toFinset ∧ ∀ k < n,
      Lower g c (segs.take k).flatten

theorem elements_ne_nil (h : s.Nonempty) : elements s ≠ [] := by
  obtain ⟨_, hi⟩ := h
  exact ne_nil_of_mem (mem_elements.mpr hi)

/-- A smaller part with a lower rate. -/
theorem excess_le_of_part (hpos : g.Positive lin) (hsub : ∀ i ∈ l, i ∈ lin) (hnodup : l.Nodup)
    (hrate : (sumStep g.step l).rate ≤ (sumStep g.step lin).rate) (hnonneg : 0 ≤ excess g.step slope lin) :
    excess g.step slope l ≤ excess g.step slope lin := by
  by_cases hl : l = []
  · rw [hl]
    exact hnonneg
  have hlin : lin ≠ [] := by
    obtain ⟨i, hi⟩ := exists_mem_of_ne_nil l hl
    exact ne_nil_of_mem (hsub i hi)
  have hrun := sumStep_run_pos hpos hlin
  obtain ⟨_, hl', hsublist⟩ := subperm_of_subset hnodup hsub
  obtain ⟨rest, hrest⟩ := hsublist.exists_perm_append
  have hperm := hrest.trans (hl'.append_right rest)
  have hsum := sumStep_perm (g := g) hperm
  have hrest : g.Positive rest := fun i hi => hpos i (hperm.symm.subset (mem_append_right _ hi))
  have hpart : (sumStep g.step l).run ≤ (sumStep g.step lin).run := by
    rw [hsum, sumStep_append]
    exact le_add_of_nonneg_right (run_nonneg hrest)
  have hpos' : g.Positive l := fun i hi => hpos i (hsub i hi)
  have hslope : 0 ≤ (sumStep g.step lin).rate - slope := by
    rw [excess_eq hpos hlin] at hnonneg
    exact nonneg_of_mul_nonneg_left hnonneg hrun
  rw [excess_eq hpos' hl, excess_eq hpos hlin]
  calc ((sumStep g.step l).rate - slope) * (sumStep g.step l).run
      ≤ ((sumStep g.step lin).rate - slope) * (sumStep g.step l).run :=
        mul_le_mul_of_nonneg_right (sub_le_sub_right hrate _) (run_nonneg hpos')
    _ ≤ ((sumStep g.step lin).rate - slope) * (sumStep g.step lin).run := mul_le_mul_of_nonneg_left hpart hslope

theorem Cut.steep (h : Cut g segs subset S) (hpos : g.Positive (elements S.transactions))
    (hnodup : segs.flatten.Nodup) (k : Nat) (hnonneg : 0 ≤ excess g.step slope (elements S.transactions)) :
    excess g.step slope ((segs.take k).flatten.filter (· ∈ S.transactions)) ≤
      excess g.step slope (elements S.transactions) := by
  obtain ⟨n, hplace, hlower⟩ := h.place
  have hnodup' : ∀ k, ((segs.take k).flatten.filter (· ∈ S.transactions)).Nodup := fun k =>
    (hnodup.sublist (IsPrefix.flatten ( take_prefix k segs)).sublist).filter _
  have hmono : ∀ {m k : Nat}, m ≤ k → ∀ i ∈ (segs.take m).flatten, i ∈ (segs.take k).flatten := fun hmk i hi =>
    (IsPrefix.flatten (take_prefix_take_left hmk)).subset hi
  rcases le_or_gt n k with hnk | hkn
  · refine (excess_perm (perm_elements (hnodup' k) fun i => ?_)).le
    rw [mem_filter, decide_eq_true_eq, and_iff_right_iff_imp]
    intro hi
    rw [hplace, mem_inter, mem_toFinset] at hi
    exact hmono hnk i hi.2
  · have hsame : (segs.take k).flatten.filter (· ∈ S.transactions) =
        (segs.take k).flatten.filter (· ∈ subset.transactions) := by
      refine filter_congr fun i hi => ?_
      rw [hplace, decide_eq_decide, mem_inter, mem_toFinset, and_iff_left (hmono hkn.le i hi)]
    rcases hlower k hkn with hnone | hless
    · rw [hsame, hnone, excess_nil]
      exact hnonneg
    · refine excess_le_of_part hpos (fun i hi => ?_) (hnodup' k) ?_ hnonneg
      · exact mem_elements.mpr (of_decide_eq_true (mem_filter.mp hi).2)
      · rw [hsame, ← h.measured]
        exact hless.le.trans h.rate

theorem Cut.flat (h : Cut g segs subset S) (hpos : g.Positive (elements S.transactions)) (hsegs : Segmented g segs)
    (htop : ∀ seg ∈ segs, (sumStep g.step seg).rate ≤ (toStep subset.feerate).rate) (k : Nat)
    (hneg : excess g.step slope (elements S.transactions) < 0) : excess g.step slope (segs.take k).flatten ≤ 0 := by
  have hrun := sumStep_run_pos hpos (elements_ne_nil h.nonempty)
  have hslope := (excess_rate hrun).mp hneg.le
  rw [← h.measured] at hslope
  rw [← excess_segs]
  refine excess_nonpos (fun s hs => ?_) fun s hs => ?_
  all_goals
    obtain ⟨seg, hseg, rfl⟩ := mem_map.mp hs
    have hmem := mem_of_mem_take hseg
  · exact sumStep_run_pos (hsegs.positive seg hmem) (hsegs.nonempty seg hmem)
  · exact ((htop seg hmem).trans h.rate).trans hslope

/-- A part of the first chunk. -/
theorem Cut.first (h : Cut g segs subset S) (hsub : S.transactions ⊆ seg.toFinset) (segs' : List (List (Fin N))) :
    Cut g (seg :: segs') S S := by
  refine ⟨h.nonempty, h.measured, le_rfl, 1, ?_, fun k hk => ?_⟩
  · rw [take_succ_cons, take_zero, flatten_singleton, inter_eq_left.mpr hsub]
  · rw [Nat.lt_one_iff.mp hk]
    exact .inl rfl

theorem compare_lt {a b : FeeFrac} (ha : 0 < (toStep a).run) (hb : 0 < (toStep b).run) :
    (feeRateCompare a b == .lt) = true ↔ (toStep a).rate < (toStep b).rate := by
  unfold Step.rate
  rw [feeRateCompare_lt, div_lt_div_iff₀ ha hb]
  change _ ↔ (a.fee : ℚ) * b.size < b.fee * a.size
  exact_mod_cast Iff.rfl

theorem measured_union {t : Finset (Fin N)} {fee : FeeFrac} (hs : Measured g ⟨s, fee⟩) (hdisjoint : Disjoint s t) :
    Measured g ⟨s ∪ t, add fee (g.feeRateOf t)⟩ := by
  have hperm : (elements s ++ elements t).Perm (elements (s ∪ t)) := by
    refine perm_elements (nodup_append'.mpr ⟨elements_nodup s, elements_nodup t, fun i hi hi' => ?_⟩) fun i => ?_
    · exact disjoint_left.mp hdisjoint (mem_elements.mp hi) (mem_elements.mp hi')
    · rw [mem_append, mem_elements, mem_elements, mem_union]
  unfold Measured at hs ⊢
  rw [← sumStep_perm hperm, sumStep_append, ← hs, ← feeRateOf_spec]
  simp only [toStep, add, Int.cast_add]

variable (done) in
theorem intersectLoop_spec (hchunks : Forall₂ (Covers g) chunks segs) (hnodup : (done ++ segs).flatten.Nodup)
    (hsubset : Measured g subset) (hpos : g.Positive (elements subset.transactions))
    (hne : subset.transactions.Nonempty) (hall : ∀ i ∈ subset.transactions, i ∈ (done ++ segs).flatten)
    (haccumulator : Measured g accumulator)
    (hdone : accumulator.transactions = subset.transactions ∩ done.flatten.toFinset)
    (hlower : ∀ k ≤ done.length, Lower g subset ((done ++ segs).take k).flatten) :
    Cut g (done ++ segs) subset (intersectLoop g subset accumulator chunks) := by
  induction hchunks generalizing done accumulator with
  | nil =>
    refine ⟨hne, hsubset, le_rfl, done.length, ?_, fun k hk => hlower k hk.le⟩
    rw [append_nil] at hall
    rw [append_nil, take_length]
    exact (inter_eq_left.mpr fun i hi => mem_toFinset.mpr (hall i hi)).symm
  | @cons chunk seg chunks segs hchunk hchunks ih =>
    have hassoc : done ++ seg :: segs = (done ++ [seg]) ++ segs := by simp
    have hinit : ((done ++ seg :: segs).take (done.length + 1)).flatten = done.flatten ++ seg := by
      rw [hassoc, take_left' (by simp)]
      simp
    have hadd : accumulator.transactions ∪ chunk.transactions ∩ subset.transactions =
        subset.transactions ∩ (done.flatten ++ seg).toFinset := by
      rw [hdone, hchunk.1, toFinset_append, inter_union_distrib_left, inter_comm seg.toFinset]
    have hnext : ∀ {acc : SetInfo N}, Measured g acc →
        acc.transactions = subset.transactions ∩ (done.flatten ++ seg).toFinset →
        Lower g subset (done.flatten ++ seg) →
          Cut g (done ++ seg :: segs) subset (intersectLoop g subset acc chunks) := by
      intro acc hacc hacc' hlower'
      rw [hassoc] at hnodup hall hlower ⊢
      refine ih _ hnodup hall hacc (by simpa using hacc') fun k hk => ?_
      rcases Nat.lt_or_ge k (done.length + 1) with hlt | hge
      · exact hlower k (Nat.le_of_lt_succ hlt)
      · have hlen : k = done.length + 1 := by simp at hk; omega
        rw [← hassoc, hlen, hinit]
        exact hlower'
    have hcut : ∀ {S' : SetInfo N}, S'.transactions.Nonempty → Measured g S' →
        (toStep subset.feerate).rate ≤ (toStep S'.feerate).rate →
        S'.transactions = subset.transactions ∩ (done.flatten ++ seg).toFinset →
          Cut g (done ++ seg :: segs) subset S' :=
      fun hS hmeasured hrate hplace => ⟨hS, hmeasured, hrate, done.length + 1, by rw [hinit, hplace], fun k hk =>
        hlower k (Nat.le_of_lt_succ hk)⟩
    unfold intersectLoop
    dsimp only
    split
    · next hempty =>
      rw [hempty, union_empty] at hadd
      have hnone : seg.filter (· ∈ subset.transactions) = [] := by
        refine filter_eq_nil_iff.mpr fun i hi hmem => ?_
        have hboth : i ∈ chunk.transactions ∩ subset.transactions :=
          mem_inter.mpr ⟨hchunk.1 ▸ mem_toFinset.mpr hi, of_decide_eq_true hmem⟩
        rw [hempty] at hboth
        exact notMem_empty i hboth
      have hbefore := hlower done.length le_rfl
      rw [take_left] at hbefore
      refine hnext haccumulator hadd ?_
      unfold Lower
      rw [filter_append, hnone, append_nil]
      exact hbefore
    · next hsome =>
      split
      · next heq =>
        rw [heq] at hadd
        exact hcut hne hsubset le_rfl hadd
      · have hdisjoint : Disjoint accumulator.transactions (chunk.transactions ∩ subset.transactions) := by
          rw [hassoc, flatten_append, flatten_append, flatten_singleton] at hnodup
          refine disjoint_left.mpr fun i hi hi' => ?_
          rw [hdone, mem_inter, mem_toFinset] at hi
          rw [hchunk.1, mem_inter, mem_toFinset] at hi'
          exact disjoint_of_nodup_append hnodup.of_append_left hi.2 hi'.1
        have hmeasured := measured_union haccumulator hdisjoint
        have hrun := sumStep_run_pos hpos (elements_ne_nil hne)
        have hne' : (accumulator.transactions ∪ chunk.transactions ∩ subset.transactions).Nonempty :=
          (nonempty_of_ne_empty hsome).mono subset_union_right
        have hpos' : g.Positive (elements (accumulator.transactions ∪ chunk.transactions ∩ subset.transactions)) := by
          intro i hi
          rw [mem_elements, hadd, mem_inter] at hi
          exact hpos i (mem_elements.mpr hi.1)
        have hrun' := sumStep_run_pos hpos' (elements_ne_nil hne')
        rw [← hmeasured] at hrun'
        rw [← hsubset] at hrun
        split
        · next hlt =>
          refine hnext hmeasured hadd (.inr ?_)
          have hperm : ((done.flatten ++ seg).filter (· ∈ subset.transactions)).Perm
              (elements (accumulator.transactions ∪ chunk.transactions ∩ subset.transactions)) := by
            refine perm_elements (Nodup.filter _ ?_) fun i => ?_
            · rw [← hinit]
              exact hnodup.sublist (IsPrefix.flatten ( take_prefix _ _)).sublist
            · rw [hadd, mem_filter, decide_eq_true_eq, mem_inter, mem_toFinset, and_comm]
          rw [sumStep_perm hperm, ← hmeasured]
          exact (compare_lt hrun' hrun).mp hlt
        · next hge => exact hcut hne' hmeasured (not_lt.mp (mt (compare_lt hrun' hrun).mpr hge)) hadd

/-! ## What is left of a linearization -/

structure Remains (g : DepGraph N) (lin : List (Fin N)) (c : LinearizationChunking N) : Prop where
  todo : ∀ i ∈ c.m_todo, i ∈ lin
  rest : c.m_linearization.filter (· ∈ c.m_todo) = lin.filter (· ∈ c.m_todo)
  chunks : ∃ segs, List.Forall₂ (Covers g) (c.m_chunks.drop c.m_chunks_skip) segs ∧ Segmented g segs ∧
    segs.flatten = lin.filter (· ∈ c.m_todo)

theorem filter_dropWhile (p : Fin N → Bool) (l : List (Fin N)) : (l.dropWhile fun i => !p i).filter p = l.filter p := by
  induction l with
  | nil => rfl
  | cons i l ih =>
    cases hp : p i
    · rw [dropWhile_cons_of_pos (by simp [hp]), ih, filter_cons_of_neg (by simp [hp])]
    · rw [dropWhile_cons_of_neg (by simp [hp])]

theorem filter_sdiff (l : List (Fin N)) (todo s : Finset (Fin N)) :
    l.filter (· ∈ todo \ s) = (l.filter (· ∈ todo)).filter fun i => !decide (i ∈ s) := by
  rw [List.filter_filter]
  refine List.filter_congr fun i _ => ?_
  simp [mem_sdiff, Bool.and_comm]

theorem buildChunks_remains (hpos : g.Positive lin) (htodo : ∀ i ∈ c.m_todo, i ∈ lin) (hskip : c.m_chunks_skip = 0)
    (hrest : c.m_linearization.filter (· ∈ c.m_todo) = lin.filter (· ∈ c.m_todo)) :
    Remains g lin (buildChunks g c) := by
  have hfilter : (c.m_linearization.dropWhile (· ∉ c.m_todo)).filter (· ∈ c.m_todo) = lin.filter (· ∈ c.m_todo) := by
    rw [← hrest, ← filter_dropWhile (· ∈ c.m_todo) c.m_linearization]
    simp only [decide_not]
  have hjoin : ∀ {c seg back seg'}, Covers g c seg → Covers g back seg' → Covers g (join c back) (seg' ++ seg) := by
    intro c seg back seg' hc hback
    refine ⟨?_, ?_⟩
    · rw [toFinset_append, ← hc.1, ← hback.1, union_comm]
      rfl
    · rw [sumStep_append, ← hc.2, ← hback.2]
      simp only [join, toStep, add, Int.cast_add, add_comm]
  have hsingle : ∀ i, Covers g (single g i) [i] := fun i => ⟨by simp [single], by simp [single, sumStep, step]⟩
  obtain ⟨segs, hrep, hsegs, hflat⟩ := chunked feerate join (Covers g) (fun h => h.2) hjoin hsingle
    (fun i hi => hpos i (mem_of_mem_filter hi) : g.Positive (lin.filter (· ∈ c.m_todo)))
  refine ⟨htodo, hfilter, segs, ?_, hsegs, hflat⟩
  unfold buildChunks
  dsimp only
  rw [hskip, drop_zero, hfilter]
  exact hrep

theorem Remains.first (h : Remains g lin c) (hfirst : c.getChunk 0 = some info) : ∃ chunks seg segs,
    c.m_chunks.drop c.m_chunks_skip = info :: chunks ∧ Covers g info seg ∧ Forall₂ (Covers g) chunks segs ∧
      Segmented g (seg :: segs) ∧ seg ++ segs.flatten = lin.filter (· ∈ c.m_todo) := by
  obtain ⟨segs, hchunks, hsegs, hflat⟩ := h.chunks
  have hhead : (c.m_chunks.drop c.m_chunks_skip).head? = some info := by
    rw [head?_drop, ← Nat.zero_add c.m_chunks_skip]
    exact hfirst
  obtain ⟨chunks, hdrop⟩ := head?_eq_some_iff.mp hhead
  rw [hdrop] at hchunks ⊢
  cases hchunks with
  | cons hcovers hchunks => exact ⟨_, _, _, rfl, hcovers, hchunks, hsegs, hflat⟩

theorem new_remains (hpos : g.Positive lin) : Remains g lin (new g lin) ∧ (new g lin).m_todo = lin.toFinset :=
  ⟨buildChunks_remains hpos (fun _ hi => mem_toFinset.mp hi) rfl rfl, rfl⟩

theorem markDone_todo (g : DepGraph N) (c : LinearizationChunking N) (s : Finset (Fin N)) :
    (markDone g c s).m_todo = c.m_todo \ s := by
  unfold markDone
  dsimp only
  split <;> rfl

theorem markDone_remains (h : Remains g lin c) (hnodup : lin.Nodup) (hpos : g.Positive lin) (s : Finset (Fin N)) :
    Remains g lin (markDone g c s) := by
  have htodo : ∀ i ∈ c.m_todo \ s, i ∈ lin := fun i hi => h.todo i (mem_sdiff.mp hi).1
  have hrest : c.m_linearization.filter (· ∈ c.m_todo \ s) = lin.filter (· ∈ c.m_todo \ s) := by
    rw [filter_sdiff, filter_sdiff, h.rest]
  unfold markDone
  dsimp only
  split
  · next hfirst =>
    obtain ⟨chunk, hchunk, rfl⟩ := Option.map_eq_some_iff.mp hfirst
    obtain ⟨_, seg, segs, hdrop, hcovers, hchunks, hsegs, hflat⟩ := h.first hchunk
    have hnodup' : (seg ++ segs.flatten).Nodup := hflat ▸ hnodup.filter _
    have hleft : (seg ++ segs.flatten).filter (fun i => !decide (i ∈ chunk.transactions)) = segs.flatten := by
      rw [hcovers.1, filter_append, filter_eq_nil_iff.mpr (by simp), nil_append]
      refine List.filter_eq_self.mpr fun i hi => ?_
      have hnot : i ∉ seg := fun hi' => disjoint_of_nodup_append hnodup' hi' hi
      simpa using hnot
    have hlater : lin.filter (· ∈ c.m_todo \ chunk.transactions) = segs.flatten := by
      rw [filter_sdiff, ← hflat, hleft]
    refine ⟨htodo, ?_, segs, ?_, ?_, hlater.symm⟩
    · -- what is dropped is done
      have hcard : chunk.transactions.card = seg.length := by
        rw [hcovers.1, toFinset_card_of_nodup hnodup'.of_append_left]
      have hdone : (c.m_linearization.take chunk.transactions.card).filter (· ∈ c.m_todo \ chunk.transactions) =
          [] := by
        have hinit : ((c.m_linearization.take chunk.transactions.card).filter (· ∈ c.m_todo)).IsPrefix seg := by
          refine prefix_of_prefix_length_le (( take_prefix _ _).filter _) ?_ ?_
          · rw [h.rest, ← hflat]
            exact prefix_append _ _
          · exact (length_filter_le _ _).trans ((length_take_le _ _).trans hcard.le)
        rw [filter_sdiff]
        refine filter_eq_nil_iff.mpr fun i hi => ?_
        have hmem := hinit.subset hi
        simpa [hcovers.1] using hmem
      have hsplit := congrArg (List.filter (· ∈ c.m_todo \ chunk.transactions))
        (take_append_drop chunk.transactions.card c.m_linearization)
      rw [filter_append, hdone, nil_append] at hsplit
      exact hsplit.trans hrest
    · rw [← drop_drop, hdrop]
      exact hchunks
    · exact ⟨fun seg' h' => hsegs.nonempty seg' (List.mem_cons_of_mem _ h'),
        fun seg' h' => hsegs.positive seg' (List.mem_cons_of_mem _ h'),
        fun seg' h' => hsegs.peaked seg' (List.mem_cons_of_mem _ h'), (List.pairwise_cons.mp hsegs.sorted).2⟩
  · exact buildChunks_remains hpos htodo rfl hrest

theorem Remains.left (h : Remains g lin c) : c.numChunksLeft = 0 ↔ c.m_todo = ∅ := by
  obtain ⟨segs, hchunks, hsegs, hflat⟩ := h.chunks
  have hempty : c.m_todo = ∅ ↔ segs = [] := by
    rw [eq_empty_iff_forall_notMem]
    constructor
    · intro hnone
      cases segs with
      | nil => rfl
      | cons seg segs =>
        obtain ⟨i, hi⟩ := exists_mem_of_ne_nil seg (hsegs.nonempty seg mem_cons_self)
        have hmem : i ∈ lin.filter (· ∈ c.m_todo) := hflat ▸ mem_flatten_of_mem mem_cons_self hi
        exact absurd (of_decide_eq_true (mem_filter.mp hmem).2) (hnone i)
    · rintro rfl i hi
      have hmem : i ∈ lin.filter (· ∈ c.m_todo) := mem_filter.mpr ⟨h.todo i hi, decide_eq_true hi⟩
      rw [← hflat] at hmem
      cases hmem
  rw [hempty, ← length_eq_zero_iff, ← hchunks.length_eq, length_drop]
  rfl

theorem Remains.exists_first (h : Remains g lin c) (hne : c.m_todo.Nonempty) : ∃ info, c.getChunk 0 = some info := by
  have hleft := mt h.left.mp hne.ne_empty
  unfold numChunksLeft at hleft
  exact ⟨_, getElem?_eq_getElem (by omega)⟩

/-! ## A round -/

structure Linearization (g : DepGraph N) (l : List (Fin N)) : Prop where
  nodup : l.Nodup
  mem : ∀ i, i ∈ l ↔ i ∈ g.m_used
  ordered : l.Pairwise fun a b => b ∉ g.ancestors a

def ClosedIn (g : DepGraph N) (todo s : Finset (Fin N)) : Prop := ∀ i ∈ s, ∀ a ∈ g.ancestors i, a ∈ todo → a ∈ s

theorem closedIn_prefix (hlin : Linearization g lin) (hall : ∀ i ∈ todo, i ∈ lin)
    (hinit : l.IsPrefix (lin.filter (· ∈ todo))) : ClosedIn g todo l.toFinset := by
  obtain ⟨rest, hrest⟩ := hinit
  have hordered := hlin.ordered.filter (· ∈ todo)
  rw [← hrest, pairwise_append] at hordered
  intro i hi a ha htodo
  have hmem : a ∈ l ++ rest := hrest ▸ mem_filter.mpr ⟨hall a htodo, decide_eq_true htodo⟩
  rcases mem_append.mp hmem with hmem | hmem
  · exact mem_toFinset.mpr hmem
  · exact absurd ha (hordered.2.2 i (mem_toFinset.mp hi) a hmem)

/-- Moving the set to the front makes no prefix worse. -/
structure Advances (g : DepGraph N) (lin : List (Fin N)) (todo : Finset (Fin N)) (S : SetInfo N) : Prop where
  cut : ∃ segs subset, Segmented g segs ∧ segs.flatten = lin.filter (· ∈ todo) ∧ Cut g segs subset S ∧
    ∀ seg ∈ segs, (sumStep g.step seg).rate ≤ (toStep subset.feerate).rate

theorem appendTopo_perm (g : DepGraph N) (ret : List (Fin N)) (s : Finset (Fin N)) :
    ∃ front, g.appendTopo ret s = ret ++ front ∧ front.Perm (elements s) := ⟨_, rfl, mergeSort_perm _ _⟩

theorem Advances.above (h : Advances g lin todo S) (hnodup : lin.Nodup) (hpos : g.Positive (elements S.transactions))
    (habove : Above g.step (ret ++ lin.filter (· ∈ todo)) lin) :
    Above g.step (g.appendTopo ret S.transactions ++ lin.filter (· ∈ todo \ S.transactions)) lin := by
  obtain ⟨segs, _, hsegs, hflat, hcut, htop⟩ := h.cut
  obtain ⟨front, happend, hfront⟩ := appendTopo_perm g ret S.transactions
  have hnodup' : segs.flatten.Nodup := hflat ▸ hnodup.filter _
  have hmoved : Above g.step (ret ++ (front ++ segs.flatten.filter fun i => !decide (i ∈ S.transactions)))
    (ret ++ segs.flatten) := above_front hsegs.peaked (fun slope k hnonneg => ?_) fun slope k hneg => ?_
  · rw [happend, append_assoc, filter_sdiff]
    rw [hflat] at hmoved
    exact hmoved.trans habove
  · rw [excess_perm hfront] at hnonneg ⊢
    exact hcut.steep hpos hnodup' k hnonneg
  · rw [excess_perm hfront] at hneg
    exact hcut.flat hpos hsegs htop k hneg

theorem best_spec {A B : LinearizationChunking N} {linA linB : List (Fin N)} {firstA firstB : SetInfo N}
    (hlinA : Linearization g linA) (hlinB : Linearization g linB) (hpos : g.Positive (elements g.m_used))
    (hA : Remains g linA A) (hB : Remains g linB B) (htodo : A.m_todo = B.m_todo)
    (hfirstA : A.getChunk 0 = some firstA) (hfirstB : B.getChunk 0 = some firstB)
    (hrate : (toStep firstA.feerate).rate ≤ (toStep firstB.feerate).rate) (hS : A.intersectPrefixes g firstB = S) :
    S.transactions ⊆ A.m_todo ∧ S.transactions.Nonempty ∧ ClosedIn g A.m_todo S.transactions ∧
      Advances g linA A.m_todo S ∧ Advances g linB A.m_todo S := by
  obtain ⟨_, segA, segsA, hdropA, hcoversA, hchunksA, hsegsA, hflatA⟩ := hA.first hfirstA
  obtain ⟨_, segB, segsB, -, hcoversB, -, hsegsB, hflatB⟩ := hB.first hfirstB
  have hallA : ∀ i ∈ A.m_todo, i ∈ linA.filter (· ∈ A.m_todo) :=
      fun i hi => mem_filter.mpr ⟨hA.todo i hi, decide_eq_true hi⟩
  rw [← htodo] at hflatB
  have hnodupA : (segA ++ segsA.flatten).Nodup := hflatA ▸ hlinA.nodup.filter _
  have hnodupB : segB.Nodup := (hflatB ▸ hlinB.nodup.filter _ : (segB ++ segsB.flatten).Nodup).of_append_left
  have hinB : ∀ i ∈ segB, i ∈ A.m_todo := fun i hi => by
    have hmem : i ∈ linB.filter (· ∈ A.m_todo) := hflatB ▸ mem_append_left _ hi
    exact of_decide_eq_true (mem_filter.mp hmem).2
  have hused : ∀ i ∈ A.m_todo, i ∈ g.m_used := fun i hi => (hlinA.mem i).mp (hA.todo i hi)
  have hmemB : ∀ i ∈ firstB.transactions, i ∈ segB := fun i hi => mem_toFinset.mp (hcoversB.1 ▸ hi)
  have hneB : firstB.transactions.Nonempty := by
    rw [hcoversB.1, toFinset_nonempty_iff]
    exact hsegsB.nonempty segB mem_cons_self
  have hcut : Cut g (segA :: segsA) firstB S := by
    rw [← hS]
    unfold intersectPrefixes
    rw [hdropA]
    refine intersectLoop_spec [] (.cons hcoversA hchunksA) hnodupA (hcoversB.measured hnodupB)
      (fun i hi => ?_) hneB (fun i hi => ?_) ?_ (by simp) fun k hk => ?_
    · exact hpos i (mem_elements.mpr (hused i (hinB i (hmemB i (mem_elements.mp hi)))))
    · rw [nil_append, flatten_cons, hflatA]
      exact hallA i (hinB i (hmemB i hi))
    · simp [Measured, toStep, elements, sumStep]
    · rw [Nat.le_zero.mp hk]
      exact .inl rfl
  obtain ⟨n, hplace, -⟩ := hcut.place
  have hsubB : S.transactions ⊆ segB.toFinset := by
    rw [hplace, ← hcoversB.1]
    exact inter_subset_left
  refine ⟨fun i hi => hinB i (mem_toFinset.mp (hsubB hi)), hcut.nonempty, fun i hi a ha hmem => ?_,
    ⟨segA :: segsA, firstB, hsegsA, hflatA, hcut, ?_⟩,
    ⟨segB :: segsB, S, hsegsB, hflatB, hcut.first hsubB segsB, ?_⟩⟩
  · rw [hplace, mem_inter] at hi ⊢
    refine ⟨?_, ?_⟩
    · rw [hcoversB.1] at hi ⊢
      exact closedIn_prefix hlinB (fun j hj => hB.todo j (htodo ▸ hj)) ⟨_, hflatB⟩ i hi.1 a ha hmem
    · exact closedIn_prefix hlinA hA.todo (hflatA ▸ IsPrefix.flatten ( take_prefix n (segA :: segsA))) i hi.2 a ha hmem
  all_goals
    intro seg hseg
    rcases mem_cons.mp hseg with rfl | hseg
  · exact hcoversA.2 ▸ hrate
  · exact ((pairwise_cons.mp hsegsA.sorted).1 _ (mem_map_of_mem hseg)).trans (hcoversA.2 ▸ hrate)
  · exact hcoversB.2 ▸ hcut.rate
  · exact ((pairwise_cons.mp hsegsB.sorted).1 _ (mem_map_of_mem hseg)).trans (hcoversB.2 ▸ hcut.rate)

theorem appendTopo_ordered (hordered : Ordered g.ancestors g.m_used) (hs : s ⊆ g.m_used)
    (happend : g.appendTopo ret s = ret ++ l) (hl : l.Perm (elements s)) : l.Pairwise fun a b => b ∉ g.ancestors a := by
  have hsorted : l.Pairwise fun a b => toLex ((g.ancestors a).card, a) ≤ toLex ((g.ancestors b).card, b) := by
    rw [← append_cancel_left happend]
    have hsort := @pairwise_mergeSort _
        (fun a b => decide (toLex ((g.ancestors a).card, a) ≤ toLex ((g.ancestors b).card, b)))
      (fun a b c hab hbc => decide_eq_true ((of_decide_eq_true hab).trans (of_decide_eq_true hbc)))
      (fun a b => by simpa using le_total _ _) (elements s)
    exact hsort.imp fun h => of_decide_eq_true h
  have hused : ∀ {i}, i ∈ l → i ∈ g.m_used := fun hi => hs (mem_elements.mp (hl.mem_iff.mp hi))
  refine (hsorted.and (hl.nodup_iff.mpr (elements_nodup s))).imp_of_mem fun {a b} ha hb hab hmem => ?_
  -- an ancestor has fewer ancestors
  have hfewer : g.ancestors b ⊂ g.ancestors a := by
    refine Finset.ssubset_iff_subset_ne.mpr ⟨hordered.trans a (hused ha) b hmem, fun heq => hab.2 ?_⟩
    exact hordered.antisymm a (hused ha) b (hused hb) (heq ▸ hordered.refl a (hused ha)) hmem
  have hcard := card_lt_card hfewer
  rcases Prod.Lex.toLex_le_toLex.mp hab.1 with hlt | ⟨heq, -⟩
  · exact absurd hcard hlt.not_gt
  · exact absurd hcard heq.not_gt

/-- `ret` and what is left of both. -/
structure Merging (g : DepGraph N) (lin1 lin2 : List (Fin N)) (todo : Finset (Fin N)) (ret : List (Fin N)) : Prop where
  used : todo ⊆ g.m_used
  nodup : ret.Nodup
  mem : ∀ i, i ∈ ret ↔ i ∈ g.m_used ∧ i ∉ todo
  ordered : ret.Pairwise fun a b => b ∉ g.ancestors a
  behind : ∀ a ∈ ret, ∀ b ∈ todo, b ∉ g.ancestors a
  above : Above g.step (ret ++ lin1.filter (· ∈ todo)) lin1 ∧ Above g.step (ret ++ lin2.filter (· ∈ todo)) lin2

variable {c1 c2 : LinearizationChunking N}

theorem Merging.advance (h : Merging g lin1 lin2 todo ret) (hordered : Ordered g.ancestors g.m_used)
    (hpos : g.Positive (elements g.m_used)) (hlin1 : lin1.Nodup) (hlin2 : lin2.Nodup)
    (hsub : S.transactions ⊆ todo) (hclosed : ClosedIn g todo S.transactions) (h1 : Advances g lin1 todo S)
    (h2 : Advances g lin2 todo S) :
    Merging g lin1 lin2 (todo \ S.transactions) (g.appendTopo ret S.transactions) := by
  obtain ⟨front, happend, hfront⟩ := appendTopo_perm g ret S.transactions
  have hmem : ∀ i, i ∈ front ↔ i ∈ S.transactions := fun i => hfront.mem_iff.trans mem_elements
  have hpos' : g.Positive (elements S.transactions) :=
      fun i hi => hpos i (mem_elements.mpr (h.used (hsub (mem_elements.mp hi))))
  refine ⟨sdiff_subset.trans h.used, ?_, fun i => ?_, ?_, fun a ha b hb => ?_, h1.above hlin1 hpos' h.above.1,
    h2.above hlin2 hpos' h.above.2⟩
  · rw [happend]
    refine nodup_append'.mpr ⟨h.nodup, hfront.nodup_iff.mpr (elements_nodup _), fun i hi hi' => ?_⟩
    exact ((h.mem i).mp hi).2 (hsub ((hmem i).mp hi'))
  · rw [happend, mem_append, h.mem, hmem, mem_sdiff]
    have hall : i ∈ S.transactions → i ∈ g.m_used := fun hi => h.used (hsub hi)
    tauto
  · rw [happend]
    refine pairwise_append.mpr ⟨h.ordered, appendTopo_ordered hordered (hsub.trans h.used) happend hfront,
      fun a ha b hb => ?_⟩
    exact h.behind a ha b (hsub ((hmem b).mp hb))
  · rw [happend] at ha
    obtain ⟨hb, hnot⟩ := mem_sdiff.mp hb
    rcases mem_append.mp ha with ha | ha
    · exact h.behind a ha b hb
    · exact fun hbad => hnot (hclosed a ((hmem a).mp ha) b hbad hb)

theorem mergeLoop_spec (hordered : Ordered g.ancestors g.m_used) (hpos : g.Positive (elements g.m_used))
    (hlin1 : Linearization g lin1) (hlin2 : Linearization g lin2) {fuel : Nat} (hfuel : c1.m_todo.card ≤ fuel)
    (hne : c1.m_todo.Nonempty) (h1 : Remains g lin1 c1) (h2 : Remains g lin2 c2) (htodo : c1.m_todo = c2.m_todo)
    (h : Merging g lin1 lin2 c1.m_todo ret) :
    ∃ ret', mergeLoop g fuel c1 c2 ret = some ret' ∧ Merging g lin1 lin2 ∅ ret' := by
  have hpos' : ∀ {lin}, Linearization g lin → g.Positive lin :=
      fun hlin i hi => hpos i (mem_elements.mpr ((hlin.mem i).mp hi))
  induction fuel generalizing c1 c2 ret with
  | zero => exact absurd hne (not_nonempty_iff_eq_empty.mpr (card_eq_zero.mp (Nat.le_zero.mp hfuel)))
  | succ fuel ih =>
    obtain ⟨first1, hfirst1⟩ := h1.exists_first hne
    obtain ⟨first2, hfirst2⟩ := h2.exists_first (htodo ▸ hne)
    unfold mergeLoop
    simp only [hfirst1, hfirst2, Option.bind_eq_bind, Option.bind_some]
    generalize hbest : (if feeRateCompare first2.feerate first1.feerate == .gt then c1.intersectPrefixes g first2
      else c2.intersectPrefixes g first1) = S
    have hrun : ∀ {lin c first}, Linearization g lin → Remains g lin c → c.getChunk 0 = some first →
        0 < (toStep first.feerate).run := by
      intro lin c first hlin hc hfirst
      obtain ⟨_, seg, _, -, hcovers, -, hsegs, -⟩ := hc.first hfirst
      rw [hcovers.2]
      exact sumStep_run_pos (hsegs.positive seg mem_cons_self) (hsegs.nonempty seg mem_cons_self)
    have hcompare := compare_gt (hrun hlin2 h2 hfirst2) (hrun hlin1 h1 hfirst1)
    obtain ⟨hsub, hneS, hclosed, hadv1, hadv2⟩ : S.transactions ⊆ c1.m_todo ∧ S.transactions.Nonempty ∧
        ClosedIn g c1.m_todo S.transactions ∧ Advances g lin1 c1.m_todo S ∧ Advances g lin2 c1.m_todo S := by
      split at hbest
      · next hgt => exact best_spec hlin1 hlin2 hpos h1 h2 htodo hfirst1 hfirst2 (hcompare.mp hgt).le hbest
      · next hle =>
        have hbest' := best_spec hlin2 hlin1 hpos h2 h1 htodo.symm hfirst2 hfirst1
            (not_lt.mp (mt hcompare.mpr hle)) hbest
        rw [← htodo] at hbest'
        exact ⟨hbest'.1, hbest'.2.1, hbest'.2.2.1, hbest'.2.2.2.2, hbest'.2.2.2.1⟩
    have hround := h.advance hordered hpos hlin1.nodup hlin2.nodup hsub hclosed hadv1 hadv2
    have hrest1 := markDone_remains h1 hlin1.nodup (hpos' hlin1) S.transactions
    have htodo1 := markDone_todo g c1 S.transactions
    rw [← htodo1] at hround
    split
    · next hend => exact ⟨_, rfl, hrest1.left.mp hend ▸ hround⟩
    · next hmore =>
      refine ih ?_ (nonempty_iff_ne_empty.mpr (mt hrest1.left.mpr hmore)) hrest1
        (markDone_remains h2 hlin2.nodup (hpos' hlin2) S.transactions) ?_ hround
      · obtain ⟨i, hi⟩ := hneS
        have hfewer : (c1.m_todo \ S.transactions).card < c1.m_todo.card :=
          card_lt_card (sdiff_ssubset hsub ⟨i, hi⟩)
        rw [htodo1]
        omega
      · rw [htodo1, markDone_todo, htodo]

theorem diagram_le (hpos : g.Positive (elements g.m_used)) (hlin : Linearization g lin) (hret : Linearization g ret)
    (habove : Above g.step ret lin) {x : ℚ} (hx : 0 ≤ x) :
    diagram (chunkLinearization g lin) x ≤ diagram (chunkLinearization g ret) x := by
  have hpos' : ∀ {l}, Linearization g l → g.Positive l := fun hl i hi => hpos i (mem_elements.mpr ((hl.mem i).mp hi))
  obtain ⟨segs, hchunks, hsegs, hflat⟩ := chunkLinearization_spec (hpos' hlin)
  obtain ⟨_, hchunks', hsegs', hflat'⟩ := chunkLinearization_spec (hpos' hret)
  have hsteps : ∀ {segs}, Segmented g segs → Diagram.Positive (segs.map (sumStep g.step)) := fun hsegs s hs => by
    obtain ⟨seg, hseg, rfl⟩ := mem_map.mp hs
    exact sumStep_run_pos (hsegs.positive seg hseg) (hsegs.nonempty seg hseg)
  unfold diagram
  rw [hchunks, hchunks']
  refine height_le_height (hsteps hsegs) (hsteps hsegs') hsegs'.peaked hsegs'.sorted ?_ ?_ hx
  · rw [hflat, hflat']
    exact (perm_ext_iff_of_nodup hret.nodup hlin.nodup).mpr fun i => by rw [hret.mem, hlin.mem]
  · rw [hflat, hflat']
    exact habove

/-- The result is a linearization, its diagram nowhere below the two. -/
theorem mergeLinearizations_dominates {H : History N} (hrun : Run g H)
    (hacyclic : ∀ a, ¬Relation.TransGen H.Depends a a) (hpos : ∀ i ∈ g.m_used, 0 < (g.feeRate i).size)
    (hlin1 : Linearization g lin1) (hlin2 : Linearization g lin2) :
    ∃ ret, mergeLinearizations g lin1 lin2 = some ret ∧ Linearization g ret ∧ ∀ x : ℚ, 0 ≤ x →
      diagram (chunkLinearization g lin1) x ≤ diagram (chunkLinearization g ret) x ∧
        diagram (chunkLinearization g lin2) x ≤ diagram (chunkLinearization g ret) x := by
  have hpos' : g.Positive (elements g.m_used) := fun i hi => hpos i (mem_elements.mp hi)
  have hused : ∀ {lin}, Linearization g lin → lin.toFinset = g.m_used :=
      fun hlin => ext fun i => by rw [mem_toFinset, hlin.mem]
  have hfull : ∀ {lin}, Linearization g lin → lin.filter (· ∈ g.m_used) = lin := fun hlin =>
    filter_eq_self.mpr fun i hi => decide_eq_true ((hlin.mem i).mp hi)
  have hstart : Merging g lin1 lin2 g.m_used [] := by
    refine ⟨Finset.Subset.refl _, .nil, by simp, .nil, nofun, ?_⟩
    rw [nil_append, hfull hlin1, hfull hlin2]
    exact ⟨fun slope k => ⟨k, le_rfl⟩, fun slope k => ⟨k, le_rfl⟩⟩
  obtain ⟨ret, hret, h⟩ : ∃ ret, mergeLinearizations g lin1 lin2 = some ret ∧ Merging g lin1 lin2 ∅ ret := by
    unfold mergeLinearizations
    split
    · next hempty => exact ⟨[], rfl, card_eq_zero.mp hempty ▸ hstart⟩
    · next hsome =>
      obtain ⟨hremains1, htodo1⟩ := new_remains fun i hi => hpos i ((hlin1.mem i).mp hi)
      obtain ⟨hremains2, htodo2⟩ := new_remains fun i hi => hpos i ((hlin2.mem i).mp hi)
      rw [hused hlin1] at htodo1
      rw [hused hlin2] at htodo2
      refine mergeLoop_spec (ancestors_ordered (Run.inv hrun) hacyclic) hpos' hlin1 hlin2 ?_ ?_ hremains1 hremains2
        (htodo1.trans htodo2.symm) ?_
      · rw [htodo1]
      · rw [htodo1]
        exact nonempty_iff_ne_empty.mpr (mt card_eq_zero.mpr hsome)
      · rw [htodo1]
        exact hstart
  have hlin : Linearization g ret := ⟨h.nodup, fun i => by rw [h.mem, and_iff_left (notMem_empty i)], h.ordered⟩
  have hnone : ∀ l : List (Fin N), ret ++ l.filter (· ∈ (∅ : Finset (Fin N))) = ret := fun l => by simp
  refine ⟨ret, hret, hlin, fun x hx => ⟨?_, ?_⟩⟩
  · exact diagram_le hpos' hlin1 hlin (hnone lin1 ▸ h.above.1) hx
  · exact diagram_le hpos' hlin2 hlin (hnone lin2 ▸ h.above.2) hx

/-- Two transactions that do not depend on each other. -/
theorem apart_merged : ∃ ret, mergeLinearizations apart [0, 1] [1, 0] = some ret ∧ Linearization apart ret ∧
    ∀ x : ℚ, 0 ≤ x →
    diagram (chunkLinearization apart [0, 1]) x ≤ diagram (chunkLinearization apart ret) x ∧
      diagram (chunkLinearization apart [1, 0]) x ≤ diagram (chunkLinearization apart ret) x := by
  have hrun : Run apart ((History.add ⟨0, fun _ => 0, fun _ _ => False⟩ 0).add 1) :=
    .addTransaction (.addTransaction .start ⟨5, 1⟩ rfl) ⟨3, 1⟩ rfl
  refine mergeLinearizations_dominates hrun (fun a hcycle => ?_) (by decide) ⟨by decide, by decide, by decide⟩
    ⟨by decide, by decide, by decide⟩
  obtain ⟨_, hb, -⟩ := Relation.TransGen.head'_iff.mp hcycle
  exact hb

end FullNode.ClusterLinearize

import FullNode.DepGraph
import FullNode.FeeDiagrams
import FullNode.Lib.Hull

/-!
# Chunks of linearizations

A linearization is cut into chunks by merging a new one with those before it as long as it has the higher feerate.
-/

namespace FullNode.ClusterLinearize

open MiniMiner (FeeFrac)
open FeeDiagrams Diagram List

variable {N : Nat}

/-! ## The code -/

namespace DepGraph

def feeRate (g : DepGraph N) (i : Fin N) : FeeFrac := (g.entry i).feerate

def feeRateOf (g : DepGraph N) (elems : Finset (Fin N)) : FeeFrac :=
  (elements elems).foldl (fun ret pos => add ret (g.feeRate pos)) ⟨0, 0⟩

/-- By the number of ancestors, then by position. -/
def appendTopo (g : DepGraph N) (list : List (Fin N)) (select : Finset (Fin N)) : List (Fin N) :=
  list ++ (elements select).mergeSort fun a b => toLex ((g.ancestors a).card, a) ≤ toLex ((g.ancestors b).card, b)

end DepGraph

structure SetInfo (N : Nat) where
  transactions : Finset (Fin N)
  feerate : FeeFrac

def SetInfo.single (g : DepGraph N) (pos : Fin N) : SetInfo N := ⟨{pos}, g.feeRate pos⟩

def SetInfo.join (a b : SetInfo N) : SetInfo N := ⟨a.transactions ∪ b.transactions, add a.feerate b.feerate⟩

/-- The inner loop of both chunkings, the last chunk in front. -/
def absorb {C : Type} (rate : C → FeeFrac) (join : C → C → C) (new_chunk : C) : List C → List C
  | [] => [new_chunk]
  | back :: ret =>
    if feeRateCompare (rate new_chunk) (rate back) == .gt then absorb rate join (join new_chunk back) ret
    else new_chunk :: back :: ret

def chunkLinearization (g : DepGraph N) (linearization : List (Fin N)) : List FeeFrac :=
  (linearization.foldl (fun ret i => absorb id add (g.feeRate i) ret) []).reverse

structure LinearizationChunking (N : Nat) where
  m_linearization : List (Fin N)
  m_chunks : List (SetInfo N)
  m_chunks_skip : Nat
  m_todo : Finset (Fin N)

namespace LinearizationChunking

def buildChunks (g : DepGraph N) (c : LinearizationChunking N) : LinearizationChunking N :=
  let m_linearization := c.m_linearization.dropWhile (· ∉ c.m_todo)
  { c with
    m_linearization
    m_chunks := ((m_linearization.filter (· ∈ c.m_todo)).foldl
      (fun m_chunks idx => absorb SetInfo.feerate SetInfo.join (SetInfo.single g idx) m_chunks) []).reverse }

def new (g : DepGraph N) (lin : List (Fin N)) : LinearizationChunking N := buildChunks g ⟨lin, [], 0, lin.toFinset⟩

def numChunksLeft (c : LinearizationChunking N) : Nat := c.m_chunks.length - c.m_chunks_skip

def getChunk (c : LinearizationChunking N) (n : Nat) : Option (SetInfo N) := c.m_chunks[n + c.m_chunks_skip]?

def markDone (g : DepGraph N) (c : LinearizationChunking N) (subset : Finset (Fin N)) : LinearizationChunking N :=
  let m_todo := c.m_todo \ subset
  if (c.getChunk 0).map SetInfo.transactions = some subset then
    { c with
      m_todo
      m_chunks_skip := c.m_chunks_skip + 1
      m_linearization := c.m_linearization.drop subset.card }
  else
    buildChunks g { c with
      m_todo
      m_chunks := []
      m_chunks_skip := 0 }

/-- The loop of `IntersectPrefixes` over the chunks that are left. -/
def intersectLoop (g : DepGraph N) (subset : SetInfo N) : SetInfo N → List (SetInfo N) → SetInfo N
  | _, [] => subset
  | accumulator, chunk :: chunks =>
    let to_add := chunk.transactions ∩ subset.transactions
    if to_add = ∅ then intersectLoop g subset accumulator chunks
    else
      let transactions := accumulator.transactions ∪ to_add
      if transactions = subset.transactions then subset
      else
        let accumulator := ⟨transactions, add accumulator.feerate (g.feeRateOf to_add)⟩
        if feeRateCompare accumulator.feerate subset.feerate == .lt then intersectLoop g subset accumulator chunks
        else accumulator

def intersectPrefixes (g : DepGraph N) (c : LinearizationChunking N) (subset : SetInfo N) : SetInfo N :=
  intersectLoop g subset ⟨∅, ⟨0, 0⟩⟩ (c.m_chunks.drop c.m_chunks_skip)

end LinearizationChunking

/-- `fuel` bounds the rounds. -/
def mergeLoop (g : DepGraph N) : Nat → LinearizationChunking N → LinearizationChunking N → List (Fin N) →
    Option (List (Fin N))
  | 0, _, _, _ => none
  | fuel + 1, chunking1, chunking2, ret => do
    let lin1_firstchunk ← chunking1.getChunk 0
    let lin2_firstchunk ← chunking2.getChunk 0
    let best := if feeRateCompare lin2_firstchunk.feerate lin1_firstchunk.feerate == .gt then
        chunking1.intersectPrefixes g lin2_firstchunk
      else chunking2.intersectPrefixes g lin1_firstchunk
    let ret := g.appendTopo ret best.transactions
    let chunking1 := chunking1.markDone g best.transactions
    if chunking1.numChunksLeft = 0 then return ret
    mergeLoop g fuel chunking1 (chunking2.markDone g best.transactions) ret

def mergeLinearizations (g : DepGraph N) (lin1 lin2 : List (Fin N)) : Option (List (Fin N)) :=
  if g.m_used.card = 0 then some []
  else mergeLoop g g.m_used.card (.new g lin1) (.new g lin2) []

/-! ## Chunkings -/

def DepGraph.step (g : DepGraph N) (i : Fin N) : Step ℚ := toStep (g.feeRate i)

def DepGraph.Positive (g : DepGraph N) (l : List (Fin N)) : Prop := ∀ i ∈ l, 0 < (g.feeRate i).size

/-- Segments in the order of their rates, each without an inner peak. -/
structure Segmented (g : DepGraph N) (segs : List (List (Fin N))) : Prop where
  nonempty : ∀ seg ∈ segs, seg ≠ []
  positive : ∀ seg ∈ segs, g.Positive seg
  peaked : ∀ seg ∈ segs, Peaked g.step seg
  sorted : (segs.map (sumStep g.step)).Pairwise fun s s' => s'.rate ≤ s.rate

variable {g : DepGraph N} {C : Type} {rate : C → FeeFrac} {join : C → C → C} {Rep : C → List (Fin N) → Prop}
  {c : C} {stack : List C} {l seg : List (Fin N)} {segs : List (List (Fin N))}

theorem sumStep_append {T : Type} {w : T → Step ℚ} {a b : List T} :
    sumStep w (a ++ b) = ⟨(sumStep w a).rise + (sumStep w b).rise, (sumStep w a).run + (sumStep w b).run⟩ := by
  unfold sumStep
  rw [map_append, map_append, sum_append, sum_append]

theorem sumStep_run_pos (hpos : g.Positive seg) (hne : seg ≠ []) : 0 < (sumStep g.step seg).run := by
  cases seg with
  | nil => exact absurd rfl hne
  | cons i seg =>
    have hrest : 0 ≤ (seg.map fun t => (g.step t).run).sum := sum_nonneg fun x hx => by
      obtain ⟨j, hj, rfl⟩ := mem_map.mp hx
      exact Int.cast_nonneg (hpos j (mem_cons_of_mem _ hj)).le
    have hfirst : 0 < (g.step i).run := Int.cast_pos.mpr (hpos i mem_cons_self)
    simp only [sumStep, map_cons, sum_cons]
    linarith

/-- A compared chunk stands for a segment. -/
theorem compare_gt {a b : FeeFrac} (ha : 0 < (toStep a).run) (hb : 0 < (toStep b).run) :
    (feeRateCompare a b == .gt) = true ↔ (toStep b).rate < (toStep a).rate := by
  unfold Step.rate
  rw [feeRateCompare_gt, div_lt_div_iff₀ hb ha]
  change _ ↔ (b.fee : ℚ) * a.size < a.fee * b.size
  exact_mod_cast Iff.rfl

theorem excess_rate {slope : ℚ} (hrun : 0 < (sumStep g.step seg).run) : excess g.step slope seg ≤ 0 ↔
    (sumStep g.step seg).rate ≤ slope := by
  unfold Step.rate
  rw [← excess_sumStep, sub_nonpos, div_le_iff₀ hrun]

theorem segmented_concat : Segmented g (segs ++ [seg]) ↔
    Segmented g segs ∧ seg ≠ [] ∧ g.Positive seg ∧ Peaked g.step seg ∧
    ∀ seg' ∈ segs, (sumStep g.step seg).rate ≤ (sumStep g.step seg').rate := by
  constructor
  · rintro ⟨hnonempty, hpositive, hpeaked, hsorted⟩
    rw [map_append, pairwise_append] at hsorted
    rw [forall_mem_append, forall_mem_singleton] at hnonempty hpositive hpeaked
    exact ⟨⟨hnonempty.1, hpositive.1, hpeaked.1, hsorted.1⟩, hnonempty.2, hpositive.2, hpeaked.2,
      fun seg' hseg' => hsorted.2.2 _ (mem_map_of_mem hseg') _ (by simp)⟩
  · rintro ⟨⟨hnonempty, hpositive, hpeaked, hsorted⟩, hne, hpos, hpeak, hrates⟩
    refine ⟨?_, ?_, ?_, ?_⟩
    · exact forall_mem_append.mpr ⟨hnonempty, forall_mem_singleton.mpr hne⟩
    · exact forall_mem_append.mpr ⟨hpositive, forall_mem_singleton.mpr hpos⟩
    · exact forall_mem_append.mpr ⟨hpeaked, forall_mem_singleton.mpr hpeak⟩
    · rw [map_append, pairwise_append]
      refine ⟨hsorted, pairwise_singleton _ _, fun s hs s' hs' => ?_⟩
      obtain ⟨seg', hseg', rfl⟩ := mem_map.mp hs
      rw [mem_singleton.mp hs']
      exact hrates seg' hseg'

variable (Rep) in
theorem absorb_spec (hrate : ∀ {c seg}, Rep c seg → toStep (rate c) = sumStep g.step seg)
    (hjoin : ∀ {c seg back seg'}, Rep c seg → Rep back seg' → Rep (join c back) (seg' ++ seg))
    (hstack : Forall₂ Rep stack segs) (hsegs : Segmented g segs.reverse)
    (hc : Rep c seg) (hne : seg ≠ []) (hpos : g.Positive seg) (hpeaked : Peaked g.step seg) :
    ∃ segs', Forall₂ Rep (absorb rate join c stack) segs' ∧ Segmented g segs'.reverse ∧
      segs'.reverse.flatten = segs.reverse.flatten ++ seg := by
  induction hstack generalizing c seg with
  | nil =>
    refine ⟨[seg], .cons hc .nil, ?_, by simp⟩
    rw [reverse_singleton]
    exact segmented_concat.mpr ⟨hsegs, hne, hpos, hpeaked, nofun⟩
  | @cons back seg0 stack segs hback hstack ih =>
    rw [reverse_cons] at hsegs ⊢
    obtain ⟨hrest, hne0, hpos0, hpeaked0, hrates⟩ := segmented_concat.mp hsegs
    have hrun := sumStep_run_pos hpos hne
    have hrun0 := sumStep_run_pos hpos0 hne0
    have hcompare := compare_gt (hrate hc ▸ hrun) (hrate hback ▸ hrun0)
    rw [hrate hc, hrate hback] at hcompare
    unfold absorb
    split
    · next hgt =>
      have hlt := hcompare.mp hgt
      have hmerged : Peaked g.step (seg0 ++ seg) := peaked_append hpeaked0 hpeaked fun slope hfall =>
        (excess_rate hrun0).mpr (hlt.le.trans ((excess_rate hrun).mp hfall))
      obtain ⟨segs', hstack', hsegs', hflat⟩ := ih hrest (hjoin hc hback) (append_ne_nil_of_left_ne_nil hne0 _)
        (forall_mem_append.mpr ⟨hpos0, hpos⟩) hmerged
      exact ⟨segs', hstack', hsegs', by rw [hflat, flatten_append]; simp⟩
    · next hle =>
      have hle := not_lt.mp (mt hcompare.mpr hle)
      refine ⟨seg :: seg0 :: segs, .cons hc (.cons hback hstack), ?_, by simp⟩
      rw [reverse_cons, reverse_cons]
      refine segmented_concat.mpr ⟨hsegs, hne, hpos, hpeaked, fun seg' hseg' => ?_⟩
      rcases mem_append.mp hseg' with hseg' | hseg'
      · exact hle.trans (hrates seg' hseg')
      · rw [mem_singleton.mp hseg']
        exact hle

variable (rate join Rep) in
theorem chunked (hrate : ∀ {c seg}, Rep c seg → toStep (rate c) = sumStep g.step seg)
    (hjoin : ∀ {c seg back seg'}, Rep c seg → Rep back seg' → Rep (join c back) (seg' ++ seg))
    {single : Fin N → C} (hsingle : ∀ i, Rep (single i) [i]) (hpos : g.Positive l) :
    ∃ segs, Forall₂ Rep (l.foldl (fun ret i => absorb rate join (single i) ret) []).reverse segs ∧
      Segmented g segs ∧ segs.flatten = l := by
  have hloop : ∀ (l : List (Fin N)) (stack : List C) (segs : List (List (Fin N))), g.Positive l →
      Forall₂ Rep stack segs →
      Segmented g segs.reverse →
        ∃ segs', Forall₂ Rep (l.foldl (fun ret i => absorb rate join (single i) ret) stack) segs' ∧
        Segmented g segs'.reverse ∧ segs'.reverse.flatten = segs.reverse.flatten ++ l := by
    intro l
    induction l with
    | nil => exact fun stack segs _ hstack hsegs => ⟨segs, hstack, hsegs, (append_nil _).symm⟩
    | cons i l ih =>
      intro stack segs hpos hstack hsegs
      obtain ⟨hi, hpos⟩ := forall_mem_cons.mp hpos
      obtain ⟨segs1, hstack1, hsegs1, hflat1⟩ := absorb_spec Rep hrate hjoin hstack hsegs (hsingle i) (cons_ne_nil _ _)
        (forall_mem_singleton.mpr hi) (peaked_singleton _ i)
      obtain ⟨segs2, hstack2, hsegs2, hflat2⟩ := ih _ segs1 hpos hstack1 hsegs1
      exact ⟨segs2, hstack2, hsegs2, by rw [hflat2, hflat1, append_assoc, singleton_append]⟩
  obtain ⟨segs, hstack, hsegs, hflat⟩ := hloop l [] [] hpos .nil ⟨nofun, nofun, nofun, .nil⟩
  exact ⟨segs.reverse, forall₂_reverse_iff.mpr hstack, hsegs, hflat⟩

theorem chunkLinearization_spec (hpos : g.Positive l) :
    ∃ segs, (chunkLinearization g l).map toStep = segs.map (sumStep g.step) ∧
    Segmented g segs ∧ segs.flatten = l := by
  have hjoin : ∀ {c seg back seg'}, toStep c = sumStep g.step seg → toStep back = sumStep g.step seg' →
      toStep (add c back) = sumStep g.step (seg' ++ seg) := by
    intro c seg back seg' hc hback
    rw [sumStep_append, ← hc, ← hback]
    simp only [toStep, add, Int.cast_add, add_comm]
  have hsingle : ∀ i, toStep (g.feeRate i) = sumStep g.step [i] := fun i => by simp [sumStep, DepGraph.step]
  obtain ⟨segs, hrep, hsegs, hflat⟩ :=
      chunked id add (fun c seg => toStep c = sumStep g.step seg) (fun h => h) hjoin hsingle hpos
  refine ⟨segs, ?_, hsegs, hflat⟩
  rw [← forall₂_eq_eq_eq, forall₂_map_left_iff, forall₂_map_right_iff]
  exact hrep

end FullNode.ClusterLinearize

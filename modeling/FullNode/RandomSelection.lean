import FullNode.SelectionPool

/-!
# Selections at random

What chance decides is given from outside: the shuffles, the bits, and which of several least groups a heap has on
top.
-/

namespace FullNode.CoinSelection

open List
open Mempool (int64 int32Sum INT64_MAX)

structure Shuffle (α : Type) where
  shuffled : List α → List α
  perm : ∀ l, (shuffled l).Perm l

/-- A least amount on top. The number counts groups given up. -/
structure MinHeap where
  pop : ℕ → OutputGroup → List OutputGroup → OutputGroup × List OutputGroup
  perm : ∀ n group groups, ((pop n group groups).1 :: (pop n group groups).2).Perm (group :: groups)
  least : ∀ n group groups, ∀ other ∈ (pop n group groups).2, (pop n group groups).1.getSelectionAmount ≤
      other.getSelectionAmount

/-! ## Single random draw -/

structure DrawState where
  heap : List OutputGroup := []
  popped : ℕ := 0
  selectedEffValue : Int := 0
  weight : Int := 0
  maxTxWeightExceeded : Bool := false

section

variable (minHeap : MinHeap) (pool : List OutputGroup) (targetValue maxSelectionWeight : Int)

/-- `do … while`: the heap is not empty. -/
def removeLeast : ℕ → DrawState → Checked DrawState
  | 0, _ => .error .endless
  | fuel + 1, s =>
    match s.heap with
    | [] => .error .badIterator
    | group :: groups => do
      let top := minHeap.pop s.popped group groups
      let selectedEffValue ← int64 (s.selectedEffValue - top.1.getSelectionAmount)
      let weight ← int32Sum (s.weight - top.1.weight)
      let s := { s with heap := top.2, popped := s.popped + 1, selectedEffValue := selectedEffValue, weight := weight }
      if s.heap ≠ [] ∧ s.weight > maxSelectionWeight then removeLeast fuel s else return s

/-- Draws until the target is reached. The flag says whether it is. -/
def draw : List ℕ → DrawState → Checked (Bool × DrawState)
  | [], s => .ok (false, s)
  | i :: indexes, s => do
    let group ← utxoAt pool i
    check (group.getSelectionAmount > 0)
    let selectedEffValue ← int64 (s.selectedEffValue + group.getSelectionAmount)
    let weight ← int32Sum (s.weight + group.weight)
    let s := { s with heap := group :: s.heap, selectedEffValue := selectedEffValue, weight := weight }
    let s ← (if s.weight > maxSelectionWeight then
      removeLeast minHeap maxSelectionWeight s.heap.length { s with maxTxWeightExceeded := true } else .ok s)
    if s.selectedEffValue ≥ targetValue then return (true, s) else draw indexes s

def drain (minHeap : MinHeap) : ℕ → ℕ → List OutputGroup → List OutputGroup
  | fuel + 1, popped, group :: groups =>
    let top := minHeap.pop popped group groups
    top.1 :: drain minHeap fuel (popped + 1) top.2
  | _, _, _ => []

end

def selectCoinsSRD (shuffle : Shuffle ℕ) (minHeap : MinHeap) (utxoPool : List OutputGroup)
    (targetValue changeFee maxSelectionWeight : Int) : Checked (Result SelectionResult) := do
  let change ← int64 (CHANGE_LOWER + changeFee)
  let withChange ← int64 (targetValue + change)
  let drawn ← draw minHeap utxoPool withChange maxSelectionWeight (shuffle.shuffled (List.range utxoPool.length)) {}
  if drawn.1 then do
    let groups := drain minHeap drawn.2.heap.length drawn.2.popped drawn.2.heap
    let result ← { target := targetValue, algo := .srd : SelectionResult }.addGroups groups
    return .ok result
  else return .error (if drawn.2.maxTxWeightExceeded then errorMaxWeightExceeded else "")

/-! ## What is drawn -/

variable {minHeap : MinHeap} {pool : List OutputGroup} {targetValue cap : Int} {s : DrawState} {drawn : List ℕ}

theorem drain_perm (minHeap : MinHeap) (popped : ℕ) (heap : List OutputGroup) :
    (drain minHeap heap.length popped heap).Perm heap := by
  generalize hn : heap.length = n
  induction n generalizing popped heap with
  | zero =>
    rw [length_eq_zero_iff.mp hn]
    exact .refl _
  | succ n ih =>
    obtain ⟨group, groups, rfl⟩ := exists_cons_of_length_eq_add_one hn
    have hperm := minHeap.perm popped group groups
    have hlen := hperm.length_eq
    rw [length_cons, hn] at hlen
    exact ((ih (popped + 1) _ (by omega)).cons _).trans hperm

/-- The heap has groups that were drawn, and their totals. -/
structure Draws (pool : List OutputGroup) (drawn : List ℕ) (s : DrawState) : Prop where
  heap : s.heap.Subperm (groupsAt pool drawn)
  value : s.selectedEffValue = (s.heap.map OutputGroup.getSelectionAmount).sum
  weight : s.weight = (s.heap.map OutputGroup.weight).sum

theorem removeLeast_spec (hsub : (groupsAt pool drawn).Subperm pool) (hs : Draws pool drawn s) {fuel : ℕ}
    (hfuel : s.heap.length ≤ fuel) (hne : s.heap ≠ []) :
    Ensures (Overflows pool) (fun s' => Draws pool drawn s' ∧ (s'.heap = [] ∨ s'.weight ≤ cap))
      (removeLeast minHeap cap fuel s) := by
  induction fuel generalizing s with
  | zero => exact absurd (length_eq_zero_iff.mp (Nat.le_zero.mp hfuel)) hne
  | succ fuel ih =>
    unfold removeLeast
    split
    · next hnil => exact absurd hnil hne
    · next group groups hheap =>
      have hperm := minHeap.perm s.popped group groups
      have hsubHeap := hs.heap
      have hvalue := hs.value
      have hweight := hs.weight
      rw [hheap] at hsubHeap hvalue hweight hfuel
      generalize minHeap.pop s.popped group groups = top at hperm
      rw [← (hperm.map _).sum_eq, map_cons, sum_cons] at hvalue hweight
      have hrest : top.2.Subperm (groupsAt pool drawn) :=
          (sublist_cons_self _ _).subperm.trans (hperm.subperm_right.mpr hsubHeap)
      have hlen := hperm.length_eq
      dsimp only
      rw [hvalue, hweight, add_sub_cancel_left, add_sub_cancel_left]
      refine (int64_ensures fun h => (h.abs_sum_le (hrest.trans hsub)).trans (by decide)).bind ?_
      rintro _ rfl
      refine (int32Sum_ensures fun h => h.weight_range (hrest.trans hsub)).bind ?_
      rintro _ rfl
      have hnext : Draws pool drawn { s with
          heap := top.2
          popped := s.popped + 1
          selectedEffValue := (top.2.map OutputGroup.getSelectionAmount).sum
          weight := (top.2.map OutputGroup.weight).sum } := ⟨hrest, rfl, rfl⟩
      split
      · next hmore =>
        refine ih hnext ?_ hmore.1
        simp only [length_cons] at hlen hfuel
        dsimp only
        omega
      · next hstop =>
        refine ⟨hnext, ?_⟩
        by_cases hnil : top.2 = []
        · exact .inl hnil
        · exact .inr (not_lt.mp fun h => hstop ⟨hnil, h⟩)

theorem draw_spec (minHeap : MinHeap) (cap : Int) (hpositive : ∀ group ∈ pool, 0 < group.getSelectionAmount)
    (hpos : 0 < targetValue) {indexes : List ℕ} (hperm : (drawn ++ indexes).Perm (range pool.length))
    (hs : Draws pool drawn s) :
    Ensures (Overflows pool)
      (fun r => r.1 = true → r.2.heap.Subperm pool ∧ r.2.weight = (r.2.heap.map OutputGroup.weight).sum ∧
        r.2.weight ≤ cap ∧ targetValue ≤ (r.2.heap.map OutputGroup.getSelectionAmount).sum)
      (draw minHeap pool targetValue cap indexes s) := by
  induction indexes generalizing drawn s with
  | nil => exact fun h => absurd h (by simp)
  | cons i indexes ih =>
    have hi : i < pool.length := mem_range.mp (hperm.mem_iff.mp (mem_append_right _ mem_cons_self))
    have hperm' : ((i :: drawn) ++ indexes).Perm (range pool.length) := perm_middle.symm.trans hperm
    have hsub : (groupsAt pool (i :: drawn)).Subperm pool := by
      have hplaces := ((sublist_append_left (i :: drawn) indexes).subperm.trans hperm'.subperm)
      obtain ⟨part, hpart, hle⟩ := hplaces
      have := hle.map (nth pool)
      rw [map_nth] at this
      exact ⟨part.map (nth pool), hpart.map _, this⟩
    have hheap : (nth pool i :: s.heap).Subperm (groupsAt pool (i :: drawn)) := (subperm_cons _).mpr hs.heap
    unfold draw
    rw [utxoAt_ok hi, ok_bind, decide_eq_true (hpositive _ (nth_mem hi)), check_true, ok_bind, hs.value, hs.weight,
      add_comm _ (nth pool i).weight, add_comm _ (nth pool i).getSelectionAmount]
    refine (int64_ensures fun h => (h.abs_sum_le (hheap.trans hsub)).trans (by decide)).bind ?_
    rintro _ rfl
    refine (int32Sum_ensures fun h => h.weight_range (hheap.trans hsub)).bind ?_
    rintro _ rfl
    have hpushed : ∀ exceeded, Draws pool (i :: drawn) {
        heap := nth pool i :: s.heap
        popped := s.popped
        selectedEffValue := (nth pool i).getSelectionAmount + (s.heap.map OutputGroup.getSelectionAmount).sum
        weight := (nth pool i).weight + (s.heap.map OutputGroup.weight).sum
        maxTxWeightExceeded := exceeded } := fun _ => ⟨hheap, rfl, rfl⟩
    have hlightened : ∀ s1 : DrawState, s1.heap ≠ [] →
        (∀ exceeded, Draws pool (i :: drawn) { s1 with maxTxWeightExceeded := exceeded }) →
        Ensures (Overflows pool) (fun s' => Draws pool (i :: drawn) s' ∧ (s'.heap = [] ∨ s'.weight ≤ cap))
          (if s1.weight > cap then
            removeLeast minHeap cap s1.heap.length { s1 with maxTxWeightExceeded := true } else .ok s1) := by
      intro s1 hne hdraws
      split
      · exact removeLeast_spec hsub (hdraws true) le_rfl hne
      · next hlight => exact ⟨hdraws s1.maxTxWeightExceeded, .inr (not_lt.mp hlight)⟩
    refine (hlightened _ (by simp) hpushed).bind ?_
    · rintro s' ⟨hs', hlight⟩
      split
      · next henough =>
        intro _
        refine ⟨hs'.heap.trans hsub, hs'.weight, ?_, hs'.value ▸ henough⟩
        rcases hlight with hnil | hlight
        · have := hs'.value
          rw [hnil, map_nil, sum_nil] at this
          omega
        · exact hlight
      · exact ih hperm' hs'

theorem selectCoinsSRD_spec (shuffle : Shuffle ℕ) (minHeap : MinHeap) {changeFee : Int}
    (hpositive : ∀ group ∈ pool, 0 < group.getSelectionAmount) (htarget : 0 < targetValue) (hfee : 0 ≤ changeFee)
    (hfits : targetValue ≤ MAX_MONEY ∧ changeFee ≤ MAX_MONEY) :
    Ensures (fun e => SelectionResult.SharedAmong (pool.flatMap OutputGroup.outputs) e ∨ Overflows pool e)
      (fun r => ∀ result, r = .ok result →
        ∃ chosen, Selects pool cap (targetValue + (CHANGE_LOWER + changeFee)) chosen result)
      (selectCoinsSRD shuffle minHeap pool targetValue changeFee cap) := by
  have hchange : int64 (CHANGE_LOWER + changeFee) = .ok (CHANGE_LOWER + changeFee) :=
    int64_of_abs (abs_le.mpr (by simp only [MAX_MONEY, COIN, INT64_MAX, CHANGE_LOWER] at *; omega))
  have hsum : int64 (targetValue + (CHANGE_LOWER + changeFee)) = .ok (targetValue + (CHANGE_LOWER + changeFee)) :=
    int64_of_abs (abs_le.mpr (by simp only [MAX_MONEY, COIN, INT64_MAX, CHANGE_LOWER] at *; omega))
  unfold selectCoinsSRD
  rw [hchange, ok_bind, hsum, ok_bind]
  have hpos : 0 < targetValue + (CHANGE_LOWER + changeFee) := by
    simp only [CHANGE_LOWER]
    omega
  have hstart : Draws pool [] {} := ⟨nil_subperm, rfl, rfl⟩
  have hdraw := draw_spec minHeap cap hpositive hpos (shuffle.perm (range pool.length)) hstart
  refine (hdraw.weaken fun e he => .inr he).bind fun r hr => ?_
  split
  · next hfound =>
    obtain ⟨hsub, hweight, _, _⟩ := hr hfound
    have hperm := drain_perm minHeap r.2.popped r.2.heap
    have hgroups : (drain minHeap r.2.heap.length r.2.popped r.2.heap).Subperm pool := hperm.subperm_right.mpr hsub
    refine (addGroups_spec hgroups rfl rfl).bind ?_
    rintro _ rfl
    rintro _ ⟨⟩
    refine ⟨_, selects_added _ hgroups rfl rfl ?_ ?_⟩
    · rwa [(hperm.map _).sum_eq, ← hweight]
    · rwa [(hperm.map _).sum_eq]
  · exact fun result h => by cases h

end FullNode.CoinSelection

import FullNode.Lib.Diagram
import Mathlib.Data.List.Infix

/-!
# Prefixes and the lines above them

The diagram of a list of steps is the hull of the points its prefixes end at. Such hulls are compared line by line: one
is above the other when no line has a prefix of the other list above all prefixes of the one.
-/

namespace FullNode.Diagram

open List

variable {K T : Type} [Field K]

/-- How far the steps of `l` rise above a line through their start. -/
def excess (w : T → Step K) (slope : K) (l : List T) : K := (l.map fun t => (w t).rise - slope * (w t).run).sum

def sumStep (w : T → Step K) (l : List T) : Step K := ⟨(l.map fun t => (w t).rise).sum, (l.map fun t => (w t).run).sum⟩

variable {w : T → Step K} {slope ρ : K} {l l' front : List T} {segs segs' : List (List T)} {p : T → Bool} {x : K}
  {s : Step K} {steps steps' : List (Step K)}

@[simp] theorem excess_nil : excess w slope [] = 0 := rfl

@[simp] theorem excess_cons (t : T) : excess w slope (t :: l) = (w t).rise - slope * (w t).run + excess w slope l := by
  unfold excess
  rw [map_cons, sum_cons]

@[simp] theorem excess_append : excess w slope (l ++ l') = excess w slope l + excess w slope l' := by
  unfold excess
  rw [map_append, sum_append]

theorem excess_perm (h : l.Perm l') : excess w slope l = excess w slope l' := (h.map _).sum_eq

theorem excess_sumStep : (sumStep w l).rise - slope * (sumStep w l).run = excess w slope l := by
  induction l with
  | nil => simp [sumStep]
  | cons t l ih =>
    rw [excess_cons, ← ih]
    simp only [sumStep, map_cons, sum_cons]
    ring

theorem excess_segs : excess id slope (segs.map (sumStep w)) = excess w slope segs.flatten := by
  induction segs with
  | nil => rfl
  | cons seg segs ih => rw [map_cons, excess_cons, id, excess_sumStep, ih, flatten_cons, excess_append]

theorem excess_filter : excess w slope (l.filter p) + excess w slope (l.filter fun t => !p t) = excess w slope l := by
  induction l with
  | nil => simp
  | cons t l ih =>
    rw [excess_cons, ← ih]
    cases hp : p t
    · rw [filter_cons_of_neg (by simp [hp]), filter_cons_of_pos (by simp [hp]), excess_cons]
      ring
    · rw [filter_cons_of_pos hp, filter_cons_of_neg (by simp [hp]), excess_cons]
      ring

variable [LinearOrder K]

/-! ## Heights and lines -/

variable [IsStrictOrderedRing K]

theorem excess_nonpos (hpos : Positive steps) (h : ∀ s ∈ steps, s.rate ≤ slope) : excess id slope steps ≤ 0 := by
  induction steps with
  | nil => exact le_rfl
  | cons s steps ih =>
    have hrun := hpos s mem_cons_self
    have htail := ih (fun t ht => hpos t (mem_cons_of_mem _ ht)) fun t ht => h t (mem_cons_of_mem _ ht)
    have hrate := mul_le_mul_of_nonneg_right (h s mem_cons_self) hrun.le
    rw [excess_cons, id, Step.rise_eq hrun]
    linarith

theorem height_le_line (hpos : Positive steps) (hx : 0 ≤ x) (htotal : x ≤ total steps) (slope : K) :
    ∃ j, height steps x ≤ slope * x + excess id slope (steps.take j) := by
  induction steps generalizing x with
  | nil =>
    rw [le_antisymm htotal hx]
    exact ⟨0, by simp [height, total]⟩
  | cons s steps ih =>
    have hrun := hpos s mem_cons_self
    rcases le_total x s.run with hle | hge
    · rw [height_cons_of_le hle]
      rcases le_total s.rate slope with hrate | hrate
      · exact ⟨0, by simpa using mul_le_mul_of_nonneg_right hrate hx⟩
      · refine ⟨1, ?_⟩
        have hgap := mul_le_mul_of_nonneg_left hle (sub_nonneg.mpr hrate)
        rw [take_one, head?_cons, Option.toList_some, excess_cons, excess_nil, id, Step.rise_eq hrun]
        linarith
    · rw [total_cons] at htotal
      obtain ⟨j, _⟩ := ih (fun t ht => hpos t (mem_cons_of_mem _ ht)) (sub_nonneg.mpr hge) (by linarith)
      refine ⟨j + 1, ?_⟩
      rw [height_cons_of_ge hpos hge, take_succ_cons, excess_cons, id]
      linarith

theorem line_le_height (hpos : Positive steps) (hsorted : steps.Pairwise fun s s' => s'.rate ≤ s.rate)
    (hrates : ∀ s ∈ steps, s.rate ≤ ρ) (hx : 0 ≤ x) (htotal : x ≤ total steps) :
    ∃ slope ≤ ρ, ∀ j, slope * x + excess id slope (steps.take j) ≤ height steps x := by
  induction steps generalizing x ρ with
  | nil =>
    rw [le_antisymm htotal hx]
    exact ⟨ρ, le_rfl, fun j => by simp [height, total]⟩
  | cons s steps ih =>
    have hrun := hpos s mem_cons_self
    have hpos' : Positive steps := fun t ht => hpos t (mem_cons_of_mem _ ht)
    obtain ⟨hfirst, htail⟩ := pairwise_cons.mp hsorted
    rcases le_total x s.run with hle | hge
    · refine ⟨s.rate, hrates s mem_cons_self, fun j => ?_⟩
      rw [height_cons_of_le hle]
      cases j with
      | zero => simp
      | succ j =>
        have hrest : excess id s.rate (steps.take j) ≤ 0 :=
          excess_nonpos (fun t ht => hpos' t (mem_of_mem_take ht)) fun t ht => hfirst t (mem_of_mem_take ht)
        rw [take_succ_cons, excess_cons, id, Step.rise_eq hrun]
        linarith
    · rw [total_cons] at htotal
      obtain ⟨slope, hslope, hline⟩ := ih hpos' htail hfirst (sub_nonneg.mpr hge) (by linarith)
      refine ⟨slope, hslope.trans (hrates s mem_cons_self), fun j => ?_⟩
      rw [height_cons_of_ge hpos hge]
      cases j with
      | zero =>
        have hstart := hline 0
        have hrise := mul_le_mul_of_nonneg_right hslope hrun.le
        rw [take_zero, excess_nil] at hstart ⊢
        rw [Step.rise_eq hrun]
        linarith
      | succ j =>
        have hrest := hline j
        rw [take_succ_cons, excess_cons, id]
        linarith

/-! ## Chunks -/

/-- No line has an inner prefix above both ends. -/
def Peaked (w : T → Step K) (l : List T) : Prop := ∀ slope k, excess w slope (l.take k) ≤ max 0 (excess w slope l)

/-- No line has a prefix of `l` above all prefixes of `l'`. -/
def Above (w : T → Step K) (l' l : List T) : Prop :=
  ∀ slope k, ∃ k', excess w slope (l.take k) ≤ excess w slope (l'.take k')

omit [IsStrictOrderedRing K] in
theorem Above.trans {l'' : List T} (h : Above w l'' l') (h' : Above w l' l) : Above w l'' l := fun slope k => by
  obtain ⟨k', hk'⟩ := h' slope k
  obtain ⟨k'', hk''⟩ := h slope k'
  exact ⟨k'', hk'.trans hk''⟩

omit [IsStrictOrderedRing K] in
theorem peaked_singleton (w : T → Step K) (t : T) : Peaked w [t] := by
  intro slope k
  cases k with
  | zero => exact le_max_left _ _
  | succ k =>
    rw [take_of_length_le (by simp)]
    exact le_max_right _ _

theorem peaked_append (hl : Peaked w l) (hl' : Peaked w l')
    (hrates : ∀ slope, excess w slope l' ≤ 0 → excess w slope l ≤ 0) : Peaked w (l ++ l') := by
  intro slope k
  have hfirst := hl slope k
  have hsecond := hl' slope (k - l.length)
  rw [take_append, excess_append, excess_append]
  rcases le_or_gt (excess w slope l') 0 with hfall | hrise
  · have hfall' := hrates slope hfall
    rw [max_eq_left hfall] at hsecond
    rw [max_eq_left hfall'] at hfirst
    exact (by linarith : _ ≤ (0 : K)).trans (le_max_left _ _)
  · rw [max_eq_right hrise.le] at hsecond
    rcases le_total k l.length with hk | hk
    · rw [Nat.sub_eq_zero_of_le hk, take_zero, excess_nil, add_zero]
      exact hfirst.trans (max_le_max le_rfl (by linarith))
    · rw [take_of_length_le hk]
      exact (by linarith : _ ≤ excess w slope l + excess w slope l').trans (le_max_right _ _)

theorem peaked_flatten (h : ∀ seg ∈ segs, Peaked w seg) (slope : K) (k : Nat) :
    ∃ j, excess w slope (segs.flatten.take k) ≤ excess w slope (segs.take j).flatten := by
  induction segs generalizing k with
  | nil => exact ⟨0, by simp⟩
  | cons seg segs ih =>
    obtain ⟨j, _⟩ := ih (fun seg' hseg' => h seg' (mem_cons_of_mem _ hseg')) (k - seg.length)
    rw [flatten_cons, take_append, excess_append]
    rcases le_total k seg.length with hk | hk
    · rw [Nat.sub_eq_zero_of_le hk, take_zero, excess_nil, add_zero]
      rcases le_max_iff.mp (h seg mem_cons_self slope k) with hstart | hend
      · exact ⟨0, by simpa using hstart⟩
      · exact ⟨1, by simpa using hend⟩
    · refine ⟨j + 1, ?_⟩
      rw [take_of_length_le hk, take_succ_cons, flatten_cons, excess_append]
      linarith

omit [Field K] [LinearOrder K] [IsStrictOrderedRing K] in
theorem exists_take (h : l.IsPrefix l') : ∃ k, l'.take k = l := ⟨l.length, (prefix_iff_eq_take.mp h).symm⟩

theorem height_end (hpos : Positive steps) (h : total steps ≤ x) : height steps x = (steps.map Step.rise).sum := by
  induction steps generalizing x with
  | nil => rfl
  | cons s steps ih =>
    have hpos' : Positive steps := fun t ht => hpos t (mem_cons_of_mem _ ht)
    have hrest := total_nonneg hpos'
    rw [total_cons] at h
    rw [height_cons_of_ge hpos (by linarith), ih hpos' (by linarith), map_cons, sum_cons]

omit [LinearOrder K] [IsStrictOrderedRing K] in
theorem sum_segs : total (segs.map (sumStep w)) = (segs.flatten.map fun t => (w t).run).sum ∧
    ((segs.map (sumStep w)).map Step.rise).sum = (segs.flatten.map fun t => (w t).rise).sum := by
  induction segs with
  | nil => exact ⟨rfl, rfl⟩
  | cons seg segs ih =>
    rw [flatten_cons, map_append, map_append, sum_append, sum_append, ← ih.1, ← ih.2, map_cons, total_cons,
      map_cons, sum_cons]
    exact ⟨rfl, rfl⟩

/-- The diagrams of two ways to cut the same steps into chunks. -/
theorem height_le_height (hpos : Positive (segs.map (sumStep w))) (hpos' : Positive (segs'.map (sumStep w)))
    (hpeaked' : ∀ seg ∈ segs', Peaked w seg) (hsorted : (segs'.map (sumStep w)).Pairwise fun s s' => s'.rate ≤ s.rate)
    (hperm : segs'.flatten.Perm segs.flatten) (h : Above w segs'.flatten segs.flatten) (hx : 0 ≤ x) :
    height (segs.map (sumStep w)) x ≤ height (segs'.map (sumStep w)) x := by
  have htotal : total (segs'.map (sumStep w)) = total (segs.map (sumStep w)) := by
    rw [sum_segs.1, sum_segs.1, (hperm.map _).sum_eq]
  rcases le_total x (total (segs.map (sumStep w))) with hle | hge
  · obtain ⟨ρ, hρ⟩ : ∃ ρ, ∀ s ∈ segs'.map (sumStep w), s.rate ≤ ρ := by
      cases segs' with
      | nil => exact ⟨0, by simp⟩
      | cons seg segs' => exact ⟨(sumStep w seg).rate, forall_mem_cons.mpr ⟨le_rfl, (pairwise_cons.mp hsorted).1⟩⟩
    obtain ⟨slope, -, hline⟩ := line_le_height hpos' hsorted hρ hx (htotal ▸ hle)
    obtain ⟨j, hj⟩ := height_le_line hpos hx hle slope
    obtain ⟨k, hk⟩ := exists_take (IsPrefix.flatten ( take_prefix j segs))
    obtain ⟨k', hk'⟩ := h slope k
    obtain ⟨j', _⟩ := peaked_flatten hpeaked' slope k'
    have hj'' := hline j'
    rw [← map_take, excess_segs] at hj hj''
    rw [hk] at hk'
    linarith
  · rw [height_end hpos hge, height_end hpos' (htotal ▸ hge), sum_segs.2, sum_segs.2, (hperm.map _).sum_eq]

/-! ## Moving steps to the front -/

/-- The moved steps rise more steeply than any chunk. -/
theorem above_front {pre : List T} (hpeaked : ∀ seg ∈ segs, Peaked w seg)
    (hsteep : ∀ slope j, 0 ≤ excess w slope front →
      excess w slope ((segs.take j).flatten.filter p) ≤ excess w slope front)
    (hflat : ∀ slope j, excess w slope front < 0 → excess w slope (segs.take j).flatten ≤ 0) :
    Above w (pre ++ (front ++ segs.flatten.filter fun t => !p t)) (pre ++ segs.flatten) := by
  intro slope k
  obtain ⟨j, _⟩ := peaked_flatten hpeaked slope (k - pre.length)
  rcases le_total k pre.length with hk | hk
  · exact ⟨k, by rw [take_append_of_le_length hk, take_append_of_le_length hk]⟩
  · rw [take_append, take_of_length_le hk, excess_append]
    rcases lt_or_ge (excess w slope front) 0 with hneg | hnonneg
    · refine ⟨pre.length, ?_⟩
      have hchunks := hflat slope j hneg
      rw [take_left]
      linarith
    · have hprefix : (pre ++ (front ++ (segs.take j).flatten.filter fun t => !p t)).IsPrefix
          (pre ++ (front ++ segs.flatten.filter fun t => !p t)) :=
        (prefix_append_right_inj _).mpr
          ((prefix_append_right_inj _).mpr ((IsPrefix.flatten ( take_prefix j segs)).filter _))
      obtain ⟨k', hk'⟩ := exists_take hprefix
      have hsplit : excess w slope ((segs.take j).flatten.filter p) + _ = _ := excess_filter
      have hmoved := hsteep slope j hnonneg
      refine ⟨k', ?_⟩
      rw [hk', excess_append, excess_append]
      linarith

end FullNode.Diagram

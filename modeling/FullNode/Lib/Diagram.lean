import Mathlib.Algebra.Order.Field.Basic
import Mathlib.Algebra.Order.BigOperators.Group.List
import Mathlib.Tactic.FieldSimp
import Mathlib.Tactic.Linarith
import Mathlib.Tactic.Ring

/-!
# Piecewise linear diagrams

A diagram goes up by steps, each over a run of its own, and stays level behind the last one. Steps in the
order of their rates lie above every other way to fill them.
-/

namespace FullNode.Diagram

open List

variable {K : Type} [Field K] [LinearOrder K]

structure Step (K : Type) where
  rise : K
  run : K

def Step.rate (s : Step K) : K := s.rise / s.run

def height : List (Step K) → K → K
  | [], _ => 0
  | s :: steps, x => if x ≤ s.run then s.rate * x else s.rise + height steps (x - s.run)

def Positive (steps : List (Step K)) : Prop := ∀ s ∈ steps, 0 < s.run

def total (steps : List (Step K)) : K := (steps.map Step.run).sum

variable {s : Step K} {steps : List (Step K)} {x y z a b ρ : K} {f g : K → K}

/-! ## Heights -/

theorem Step.rise_eq (h : 0 < s.run) : s.rise = s.rate * s.run := by
  unfold Step.rate
  rw [div_mul_cancel₀ _ h.ne']

theorem height_cons_of_le (h : x ≤ s.run) : height (s :: steps) x = s.rate * x := if_pos h

theorem height_zero (h : Positive steps) : height steps 0 = 0 := by
  cases steps with
  | nil => rfl
  | cons s steps => rw [height_cons_of_le (h s mem_cons_self).le, mul_zero]

theorem height_cons_of_ge (hpos : Positive (s :: steps)) (h : s.run ≤ x) :
    height (s :: steps) x = s.rise + height steps (x - s.run) := by
  rcases h.eq_or_lt with rfl | hlt
  · rw [height_cons_of_le le_rfl, sub_self, height_zero fun s' hs' => hpos s' (mem_cons_of_mem _ hs'), add_zero,
      Step.rise_eq (hpos s mem_cons_self)]
  · exact if_neg (not_le.mpr hlt)

omit [LinearOrder K] in
theorem total_cons (s : Step K) (steps : List (Step K)) : total (s :: steps) = s.run + total steps := by
  unfold total
  rw [map_cons, sum_cons]

variable [IsStrictOrderedRing K]

theorem total_nonneg (h : Positive steps) : 0 ≤ total steps :=
  sum_nonneg fun x hx => by
    obtain ⟨s, hs, rfl⟩ := mem_map.mp hx
    exact (h s hs).le

/-- Where no rate is above `ρ`, no part of the diagram is steeper. -/
theorem height_le_add (hpos : Positive steps) (hrates : ∀ s ∈ steps, s.rate ≤ ρ) (hy : 0 ≤ y) (hyz : y ≤ z)
    (hz : z ≤ total steps) : height steps z ≤ height steps y + ρ * (z - y) := by
  induction steps generalizing y z with
  | nil =>
    have hzero : z - y = 0 := by
      unfold total at hz
      rw [map_nil, sum_nil] at hz
      linarith
    rw [hzero]
    simp [height]
  | cons s steps ih =>
    have hrun := hpos s mem_cons_self
    have hrate := hrates s mem_cons_self
    have hpos' : Positive steps := fun s' hs' => hpos s' (mem_cons_of_mem _ hs')
    have hrates' : ∀ s' ∈ steps, s'.rate ≤ ρ := fun s' hs' => hrates s' (mem_cons_of_mem _ hs')
    rw [total_cons] at hz
    rcases le_total z s.run with hzs | hsz
    · rw [height_cons_of_le hzs, height_cons_of_le (hyz.trans hzs)]
      nlinarith
    · rw [height_cons_of_ge hpos hsz]
      rcases le_total y s.run with hys | hsy
      · have htail := ih hpos' hrates' le_rfl (sub_nonneg.mpr hsz) (by linarith)
        rw [height_zero hpos', sub_zero, zero_add] at htail
        rw [height_cons_of_le hys, Step.rise_eq hrun]
        nlinarith
      · have htail := ih hpos' hrates' (sub_nonneg.mpr hsy) (sub_le_sub_right hyz _) (by linarith)
        rw [height_cons_of_ge hpos hsy]
        linarith

/-! ## The best way to fill the steps -/

def Parts (steps : List (Step K)) (parts : List K) : Prop :=
  List.Forall₂ (fun s part => 0 ≤ part ∧ part ≤ s.run) steps parts

variable {parts : List K} {rise run : K}

theorem parts_bounds (h : Parts steps parts) : 0 ≤ parts.sum ∧ parts.sum ≤ total steps := by
  induction h with
  | nil => exact ⟨le_rfl, le_rfl⟩
  | cons hpart _ ih =>
    rw [sum_cons, total_cons]
    exact ⟨add_nonneg hpart.1 ih.1, add_le_add hpart.2 ih.2⟩

theorem parts_le_rate (h : Parts steps parts) (hrates : ∀ s ∈ steps, s.rate ≤ ρ) :
    (zipWith (fun s part => s.rate * part) steps parts).sum ≤ ρ * parts.sum := by
  induction h with
  | nil => simp
  | cons hpart _ ih =>
    rw [zipWith_cons_cons, sum_cons, sum_cons, mul_add]
    exact add_le_add (mul_le_mul_of_nonneg_right (hrates _ mem_cons_self) hpart.1)
      (ih fun s' hs' => hrates s' (mem_cons_of_mem _ hs'))

theorem parts_le_height (hpos : Positive steps) (hsorted : steps.Pairwise fun s s' => s'.rate ≤ s.rate)
    (h : Parts steps parts) : (zipWith (fun s part => s.rate * part) steps parts).sum ≤ height steps parts.sum := by
  induction h with
  | nil => exact le_rfl
  | @cons s part steps parts hpart hparts ih =>
    obtain ⟨hfirst, htail⟩ := pairwise_cons.mp hsorted
    have hrun := hpos s mem_cons_self
    have hpos' : Positive steps := fun s' hs' => hpos s' (mem_cons_of_mem _ hs')
    have hbounds := parts_bounds hparts
    rw [zipWith_cons_cons, sum_cons, sum_cons]
    rcases le_total (part + parts.sum) s.run with hle | hge
    · rw [height_cons_of_le hle, mul_add]
      exact add_le_add_right (parts_le_rate hparts hfirst) _
    · -- what the first step leaves free is filled from behind
      have hmoved := height_le_add hpos' hfirst (by linarith : 0 ≤ part + parts.sum - s.run) (by linarith) hbounds.2
      have hrest := ih hpos' htail
      rw [height_cons_of_ge hpos hge, Step.rise_eq hrun]
      linarith

/-! ## From a point on -/

def heightFrom (rise run : K) (steps : List (Step K)) (x : K) : K := rise + height steps (x - run)

omit [IsStrictOrderedRing K] in
theorem heightFrom_start (hpos : Positive steps) (rise run : K) : heightFrom rise run steps run = rise := by
  unfold heightFrom
  rw [sub_self, height_zero hpos, add_zero]

theorem heightFrom_cons_of_le (h : x ≤ run + s.run) :
    heightFrom rise run (s :: steps) x = rise + s.rate * (x - run) := by
  unfold heightFrom
  rw [height_cons_of_le (by linarith)]

theorem heightFrom_cons_of_ge (hpos : Positive (s :: steps)) (h : run + s.run ≤ x) :
    heightFrom rise run (s :: steps) x = heightFrom (rise + s.rise) (run + s.run) steps x := by
  unfold heightFrom
  rw [height_cons_of_ge hpos (by linarith), add_assoc, sub_sub]

def StraightOn (f : K → K) (a b : K) : Prop := ∃ slope, ∀ x, a ≤ x → x ≤ b → f x = f a + slope * (x - a)

omit [IsStrictOrderedRing K] in
theorem straightOn_nil (rise run : K) : StraightOn (heightFrom rise run []) a b :=
  ⟨0, fun x _ _ => by unfold heightFrom height; ring⟩

theorem straightOn_cons (hb : b ≤ run + s.run) : StraightOn (heightFrom rise run (s :: steps)) a b := by
  refine ⟨s.rate, fun x hax hxb => ?_⟩
  rw [heightFrom_cons_of_le (hxb.trans hb), heightFrom_cons_of_le (hax.trans (hxb.trans hb))]
  ring

/-- Of straight pieces one is higher inside only if at an end. -/
theorem higher_at_end (hf : StraightOn f a b) (hg : StraightOn g a b) (hax : a ≤ x) (hxb : x ≤ b) (h : g x < f x) :
    g a < f a ∨ g b < f b := by
  obtain ⟨p, hp⟩ := hf
  obtain ⟨q, hq⟩ := hg
  by_contra hnot
  obtain ⟨ha, hb⟩ := not_or.mp hnot
  rw [hp b (hax.trans hxb) le_rfl, hq b (hax.trans hxb) le_rfl] at hb
  rw [hp x hax hxb, hq x hax hxb] at h
  rw [not_lt] at ha hb
  rcases le_total p q with hpq | hqp
  · have hle := mul_le_mul_of_nonneg_right hpq (sub_nonneg.mpr hax)
    linarith
  · have hle := mul_le_mul_of_nonneg_left (sub_le_sub_right hxb a) (sub_nonneg.mpr hqp)
    rw [sub_mul, sub_mul] at hle
    linarith

end FullNode.Diagram

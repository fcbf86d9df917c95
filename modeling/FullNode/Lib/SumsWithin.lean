import Mathlib.Algebra.Order.BigOperators.Group.Finset
import Mathlib.Tactic.Linarith

/-!
# Sums with a bound

`SumsWithin f b` says that `f` adds up to at most `b`, over any finite part. It needs no
support, so a change of `f` at one place is one inequality.
-/

namespace FullNode

open Finset

variable {ι : Type} {f g : ι → Int} {b x : Int}

def SumsWithin (f : ι → Int) (b : Int) : Prop := ∀ s : Finset ι, ∑ i ∈ s, f i ≤ b

theorem SumsWithin.mono (h : SumsWithin f b) (hle : ∀ i, g i ≤ f i) : SumsWithin g b := by
  intro s
  exact (sum_le_sum fun i _ => hle i).trans (h s)

theorem SumsWithin.weaken (h : SumsWithin f b) (hx : b ≤ x) : SumsWithin f x :=
  fun s => (h s).trans hx

theorem SumsWithin.update [DecidableEq ι] (h : SumsWithin f b) (i : ι) (hnonneg : 0 ≤ g i)
    (hat : g i ≤ f i + x) (hother : ∀ j, j ≠ i → g j ≤ f j) : SumsWithin g (b + x) := by
  intro s
  have hrest : ∑ j ∈ s.erase i, g j ≤ ∑ j ∈ s.erase i, f j :=
    sum_le_sum fun j hj => hother j (ne_of_mem_erase hj)
  have hall := h (insert i (s.erase i))
  rw [sum_insert (notMem_erase i s)] at hall
  by_cases hi : i ∈ s
  · rw [← add_sum_erase s g hi]
    linarith
  · rw [erase_eq_of_notMem hi] at hrest hall
    linarith

theorem sumsWithin_zero (h : ∀ i, f i = 0) : SumsWithin f 0 := by
  intro s
  simp [h]

end FullNode

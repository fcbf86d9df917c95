import Mathlib.Algebra.Order.BigOperators.Group.Finset
import Mathlib.Algebra.Order.Ring.Int

/-!
# Sums over sets that overlap

A family of sets is indexed by a list. The sum over the family counts an element once for each set it is in, the
sum over the union once.
-/

namespace FullNode.Overlap

open Finset

variable {ι α : Type} [DecidableEq α] {A : ι → Finset α} {W : List ι} {t : α}

def cover (A : ι → Finset α) (W : List ι) : Finset α := W.foldr (fun o union => A o ∪ union) ∅

theorem mem_cover : t ∈ cover A W ↔ ∃ o ∈ W, t ∈ A o := by
  unfold cover
  induction W with
  | nil => simp
  | cons o W ih => simp [ih]

/-- If only what is at most 0 is in two sets, the union's sum is larger. -/
theorem sum_family_le_cover (f : α → Int) (hshared : W.Pairwise fun o o' => ∀ t ∈ A o, t ∈ A o' → f t ≤ 0) :
    (W.map fun o => ∑ t ∈ A o, f t).sum ≤ ∑ t ∈ cover A W, f t := by
  induction W with
  | nil => simp [cover]
  | cons o W ih =>
    rw [List.pairwise_cons] at hshared
    have hboth : ∑ t ∈ A o ∩ cover A W, f t ≤ 0 := by
      refine sum_nonpos fun t ht => ?_
      obtain ⟨hin, hcover⟩ := mem_inter.mp ht
      obtain ⟨o', ho', ht'⟩ := mem_cover.mp hcover
      exact hshared.1 o' ho' t hin ht'
    have hrest := ih hshared.2
    have hunion : ∑ t ∈ A o ∪ cover A W, f t + ∑ t ∈ A o ∩ cover A W, f t =
        ∑ t ∈ A o, f t + ∑ t ∈ cover A W, f t := sum_union_inter
    rw [List.map_cons, List.sum_cons]
    change _ ≤ ∑ t ∈ A o ∪ cover A W, f t
    omega

end FullNode.Overlap

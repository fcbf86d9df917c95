import Mathlib.Data.Finset.Max
import Mathlib.Data.Finset.Union

/-!
# Least generating sets

Every point of a finite set has the points above it. The top points are the least set that generates the others, and a
sweep finds them in any order.
-/

namespace FullNode.Covering

open Finset

variable {α : Type} [DecidableEq α] {up : α → Finset α} {P Q S : Finset α} {p q : α} {l : List α}

structure Ordered (up : α → Finset α) (P : Finset α) : Prop where
  refl : ∀ p ∈ P, p ∈ up p
  trans : ∀ p ∈ P, ∀ q ∈ up p, up q ⊆ up p
  antisymm : ∀ p ∈ P, ∀ q ∈ P, p ∈ up q → q ∈ up p → p = q

def Top (up : α → Finset α) (P : Finset α) (p : α) : Prop := p ∈ P ∧ ∀ q ∈ P, p ∈ up q → q = p

def sweepStep (up : α → Finset α) (Q : Finset α) (p : α) : Finset α := if p ∈ Q then insert p (Q \ up p) else Q

def sweep (up : α → Finset α) (Q : Finset α) (l : List α) : Finset α := l.foldl (sweepStep up) Q

theorem exists_top (h : Ordered up P) (hq : q ∈ P) : ∃ p, Top up P p ∧ q ∈ up p := by
  have hne : (P.filter fun p => q ∈ up p).Nonempty := ⟨q, Finset.mem_filter.mpr ⟨hq, h.refl q hq⟩⟩
  obtain ⟨p, hp, hmax⟩ := exists_max_image _ (fun p => (up p).card) hne
  obtain ⟨hpP, hqp⟩ := Finset.mem_filter.mp hp
  refine ⟨p, ⟨hpP, fun r hr hpr => ?_⟩, hqp⟩
  by_contra hrp
  -- a point above generates more
  have hsub : up p ⊂ up r := by
    refine Finset.ssubset_iff_subset_ne.mpr ⟨h.trans r hr p hpr, fun heq => hrp ?_⟩
    exact h.antisymm r hr p hpP (heq ▸ h.refl r hr) hpr
  exact absurd (hmax r (Finset.mem_filter.mpr ⟨hr, hsub.1 hqp⟩)) (not_le.mpr (card_lt_card hsub))

theorem sweepStep_subset : sweepStep up Q p ⊆ Q := by
  unfold sweepStep
  split
  · next hp => exact insert_subset hp sdiff_subset
  · exact Finset.Subset.refl Q

theorem top_sweepStep (hQ : ∀ q ∈ Q, q ∈ P) (hp : Top up P p) (hmem : p ∈ Q) : p ∈ sweepStep up Q q := by
  unfold sweepStep
  split
  · next hq =>
    rw [mem_insert, mem_sdiff]
    by_cases hpq : p ∈ up q
    · exact .inl (hp.2 q (hQ q hq) hpq).symm
    · exact .inr ⟨hmem, hpq⟩
  · exact hmem

theorem mem_sweep (h : Ordered up P) (hQ : Q ⊆ P) (htops : ∀ p, Top up P p → p ∈ Q)
    (hdone : ∀ p, Top up P p → p ∉ l → ∀ q ∈ Q, q ∈ up p → q = p) : q ∈ sweep up Q l ↔ Top up P q := by
  induction l generalizing Q with
  | nil =>
    refine ⟨fun hq => ?_, htops q⟩
    obtain ⟨p, hp, hqp⟩ := exists_top h (hQ hq)
    exact hdone p hp List.not_mem_nil q hq hqp ▸ hp
  | cons r l ih =>
    refine ih (sweepStep_subset.trans hQ) (fun p hp => top_sweepStep (fun q hq => hQ hq) hp (htops p hp)) ?_
    intro p hp hpl q hq hqp
    by_cases hpr : p = r
    · subst hpr
      unfold sweepStep at hq
      rw [if_pos (htops p hp), mem_insert, mem_sdiff] at hq
      exact hq.resolve_right fun hand => hand.2 hqp
    · refine hdone p hp (fun hmem => ?_) q (sweepStep_subset hq) hqp
      exact (List.mem_cons.mp hmem).elim hpr hpl

theorem mem_sweep_all (h : Ordered up P) (hl : ∀ p ∈ P, p ∈ l) : q ∈ sweep up P l ↔ Top up P q :=
  mem_sweep h (Finset.Subset.refl P) (fun _ hp => hp.1) fun p hp hnot => absurd (hl p hp.1) hnot

theorem top_generates (h : Ordered up P) (hq : q ∈ P) (hQ : ∀ p, p ∈ Q ↔ Top up P p) : q ∈ Q.biUnion up := by
  obtain ⟨p, hp, hqp⟩ := exists_top h hq
  exact mem_biUnion.mpr ⟨p, (hQ p).mpr hp, hqp⟩

theorem top_mem (hp : Top up P p) (hS : S ⊆ P) (hgen : p ∈ S.biUnion up) : p ∈ S := by
  obtain ⟨s, hs, hps⟩ := mem_biUnion.mp hgen
  exact hp.2 s (hS hs) hps ▸ hs

end FullNode.Covering

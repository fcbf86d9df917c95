import Mathlib.Logic.Relation
import Mathlib.Tactic.Common

/-!
# A forest of parent pointers

Every node has at most one parent. `Above parent a x` reads: following parents from `x` leads
to `a`, and a node is above itself. Ranks go down by one from a node to its parent, so a walk of
as many steps as the rank says reaches a root.
-/

namespace FullNode.Forest

open Relation ReflTransGen

variable {α : Type} {parent : α → Option α} {rank : α → Nat} {stop : α → Bool} {a b c p x y : α} {n : Nat}

def Above (parent : α → Option α) (a x : α) : Prop := ReflTransGen (fun x p => parent x = some p) x a

def StrictlyAbove (parent : α → Option α) (a x : α) : Prop := ∃ p, parent x = some p ∧ Above parent a p

def Ranked (parent : α → Option α) (rank : α → Nat) : Prop := ∀ x p, parent x = some p → rank x = rank p + 1

namespace Above

theorem refl (x : α) : Above parent x x := ReflTransGen.refl

theorem trans (h : Above parent a b) (h' : Above parent b c) : Above parent a c := ReflTransGen.trans h' h

theorem of_parent (h : parent x = some p) : Above parent p x := single h

theorem cases (h : Above parent a x) : a = x ∨ StrictlyAbove parent a x := by
  rcases cases_head h with heq | ⟨p, hp, hrest⟩
  · exact .inl heq.symm
  · exact .inr ⟨p, hp, hrest⟩

theorem rank_le (hr : Ranked parent rank) (h : Above parent a x) : rank a ≤ rank x := by
  induction h using head_induction_on with
  | refl => exact Nat.le_refl _
  | head hstep _ ih =>
    have hrank := hr _ _ hstep
    omega

theorem eq_of_rank (hr : Ranked parent rank) (h : Above parent a x) (hrank : rank a = rank x) : a = x := by
  rcases h.cases with heq | ⟨_, hp, ha⟩
  · exact heq
  · have hle := ha.rank_le hr
    have hstep := hr _ _ hp
    omega

variable {k : α → Prop}

theorem keeps (hstep : ∀ x p, parent x = some p → k x → k p) (h : Above parent a x) (hx : k x) : k a := by
  induction h with
  | refl => exact hx
  | tail _ hp ih => exact hstep _ _ hp ih

theorem keeps_down (hstep : ∀ x p, parent x = some p → k p → k x) (h : Above parent a x) (ha : k a) : k x := by
  induction h using head_induction_on with
  | refl => exact ha
  | head hp _ ih => exact hstep _ _ hp ih

end Above

namespace StrictlyAbove

theorem above (h : StrictlyAbove parent a x) : Above parent a x := by
  obtain ⟨_, hp, ha⟩ := h
  exact ha.trans (.of_parent hp)

theorem rank_lt (hr : Ranked parent rank) (h : StrictlyAbove parent a x) : rank a < rank x := by
  obtain ⟨_, hp, ha⟩ := h
  have hle := ha.rank_le hr
  have hstep := hr _ _ hp
  omega

theorem of_above (h : Above parent a x) (hne : a ≠ x) : StrictlyAbove parent a x := h.cases.resolve_left hne

end StrictlyAbove

theorem above_iff_of_parent (h : parent x = some p) : Above parent a x ↔ a = x ∨ Above parent a p := by
  constructor
  · intro hax
    rcases hax.cases with rfl | ⟨_, hq, ha⟩
    · exact .inl rfl
    · cases hq.symm.trans h
      exact .inr ha
  · rintro (rfl | ha)
    · exact .refl _
    · exact ha.trans (.of_parent h)

theorem above_root (h : parent x = none) : Above parent a x ↔ a = x := by
  constructor
  · intro hax
    rcases hax.cases with rfl | ⟨_, hq, -⟩
    · rfl
    · rw [h] at hq
      cases hq
  · rintro rfl
    exact .refl _

theorem above_congr {parent' : α → Option α} {k : α → Prop} (hk : ∀ x p, parent x = some p → k x → k p)
    (heq : ∀ x, k x → parent' x = parent x) (hx : k x) : Above parent' a x ↔ Above parent a x := by
  constructor
  · intro h
    induction h using head_induction_on with
    | refl => exact .refl _
    | head hp _ ih =>
      rw [heq _ hx] at hp
      exact (ih (hk _ _ hp hx)).trans (.of_parent hp)
  · intro h
    induction h using head_induction_on with
    | refl => exact .refl _
    | head hp _ ih => exact (ih (hk _ _ hp hx)).trans (.of_parent ((heq _ hx).trans hp))

/-- Where two ways part: the first node of one off the other. -/
theorem exists_branch (h : Above parent a x) (ha : Above parent a b) (hx : ¬ Above parent x b) :
    ∃ z p, parent z = some p ∧ Above parent z x ∧ ¬ Above parent z b ∧ Above parent p b ∧ Above parent a p := by
  induction h using head_induction_on with
  | refl => exact absurd ha hx
  | @head x p hp hrest ih =>
    by_cases hpb : Above parent p b
    · exact ⟨x, p, hp, .refl x, hx, hpb, hrest⟩
    · obtain ⟨z, q, hq, hz, hzb, hqb, haq⟩ := ih hpb
      exact ⟨z, q, hq, hz.trans (.of_parent hp), hzb, hqb, haq⟩

/-! ## Walks -/

def climb (parent : α → Option α) (stop : α → Bool) : Nat → α → Option α
  | 0, _ => none
  | n + 1, x => if stop x then some x else
    match parent x with
    | none => none
    | some p => climb parent stop n p

/-- The nodes from `x` up to where `stop` holds. -/
def wayTo (parent : α → Option α) (stop : α → Bool) : Nat → α → List α
  | 0, _ => []
  | n + 1, x => if stop x then [] else
    x :: match parent x with
      | none => []
      | some p => wayTo parent stop n p

theorem climb_some (h : climb parent stop n x = some a) : Above parent a x ∧ stop a = true := by
  induction n generalizing x with
  | zero => cases h
  | succ n ih =>
    unfold climb at h
    split at h
    · next hstop =>
      obtain rfl := Option.some.inj h
      exact ⟨.refl x, hstop⟩
    · split at h
      · cases h
      · next p hp =>
        obtain ⟨ha, hstop⟩ := ih h
        exact ⟨ha.trans (.of_parent hp), hstop⟩

theorem climb_first (h : climb parent stop n x = some a) (hb : Above parent b x) (hstop : stop b = true) :
    Above parent b a := by
  induction n generalizing x with
  | zero => cases h
  | succ n ih =>
    unfold climb at h
    split at h
    · cases h
      exact hb
    · next hnot =>
      split at h
      · cases h
      · next p hp =>
        rcases (above_iff_of_parent hp).mp hb with rfl | hb
        · exact absurd hstop hnot
        · exact ih h hb

/-- With enough steps the walk stops where it should. -/
theorem climb_isSome (hr : Ranked parent rank) (hn : rank x < n) (ha : Above parent a x) (hstop : stop a = true) :
    ∃ b, climb parent stop n x = some b := by
  induction n generalizing x with
  | zero => omega
  | succ n ih =>
    unfold climb
    split
    · exact ⟨x, rfl⟩
    · next hnot =>
      rcases ha.cases with rfl | ⟨_, hp, ha⟩
      · exact absurd hstop hnot
      · have hrank := hr _ _ hp
        rw [hp]
        exact ih (by omega) ha

theorem climb_rank_iff (hr : Ranked parent rank) (hn : rank x < n) :
    climb parent (fun y => rank y == rank a) n x = some a ↔ Above parent a x := by
  constructor
  · intro h
    exact (climb_some h).1
  · intro ha
    have hstop : (rank a == rank a) = true := beq_self_eq_true _
    obtain ⟨b, hb⟩ : ∃ b, climb parent (fun y => rank y == rank a) n x = some b := climb_isSome hr hn ha hstop
    obtain ⟨-, hrank⟩ := climb_some hb
    have hab : Above parent a b := climb_first hb ha hstop
    rw [hb, hab.eq_of_rank hr (by simpa using (beq_iff_eq.mp hrank).symm)]

theorem above_of_mem_wayTo (h : y ∈ wayTo parent stop n x) : Above parent y x := by
  induction n generalizing x with
  | zero => cases h
  | succ n ih =>
    unfold wayTo at h
    split at h
    · cases h
    · rcases List.mem_cons.mp h with rfl | h
      · exact .refl _
      · split at h
        · cases h
        · next p hp => exact (ih h).trans (.of_parent hp)

theorem wayTo_stop (h : stop x = true) : wayTo parent stop n x = [] := by
  cases n with
  | zero => rfl
  | succ n => exact if_pos h

theorem head_wayTo (h : y ∈ wayTo parent stop n x) (d : α) : (wayTo parent stop n x).headD d = x := by
  cases n with
  | zero => cases h
  | succ n =>
    unfold wayTo at h ⊢
    split at h
    · cases h
    · next hnot =>
      rw [if_neg hnot]
      rfl

end FullNode.Forest

import Mathlib.Algebra.BigOperators.Group.Finset.Basic

/-!
# Ancestors and descendants in a finite graph

`E k p` reads: `p` is a parent of `k`. Both sets hold the node itself.
-/

namespace FullNode.Ancestry

open Relation

variable {κ : Type} {E : κ → κ → Prop} {V : Finset κ} {x y : κ}

open Classical in
noncomputable def ancestors (E : κ → κ → Prop) (V : Finset κ) (x : κ) : Finset κ := V.filter fun y => ReflTransGen E x y

open Classical in
noncomputable def descendants (E : κ → κ → Prop) (V : Finset κ) (x : κ) : Finset κ :=
  V.filter fun y => ReflTransGen E y x

@[simp] theorem mem_ancestors : y ∈ ancestors E V x ↔ y ∈ V ∧ ReflTransGen E x y := by
  simp only [ancestors, Finset.mem_filter]

@[simp] theorem mem_descendants : y ∈ descendants E V x ↔ y ∈ V ∧ ReflTransGen E y x := by
  simp only [descendants, Finset.mem_filter]

theorem ancestors_insert [DecidableEq κ] (h : ReflTransGen E x y) :
    ancestors E (insert y V) x = insert y (ancestors E V x) := by
  ext z
  simp only [mem_ancestors, Finset.mem_insert]
  constructor
  · rintro ⟨rfl | hz, hreach⟩
    · exact .inl rfl
    · exact .inr ⟨hz, hreach⟩
  · rintro (rfl | ⟨hz, hreach⟩)
    · exact ⟨.inl rfl, h⟩
    · exact ⟨.inr hz, hreach⟩

theorem ancestors_insert_of_not [DecidableEq κ] (h : ¬ReflTransGen E x y) :
    ancestors E (insert y V) x = ancestors E V x := by
  ext z
  simp only [mem_ancestors, Finset.mem_insert]
  constructor
  · rintro ⟨rfl | hz, hreach⟩
    · exact absurd hreach h
    · exact ⟨hz, hreach⟩
  · rintro ⟨hz, hreach⟩
    exact ⟨.inr hz, hreach⟩

theorem reach_mono {F : κ → κ → Prop} (hsub : ∀ k p, E k p → F k p) (h : ReflTransGen E x y) : ReflTransGen F x y := by
  induction h with
  | refl => exact .refl
  | tail _ hstep ih => exact ih.tail (hsub _ _ hstep)

/-! ## One more node -/

/-- The graph with a node `n` and its parents. -/
def withNode (E : κ → κ → Prop) (n : κ) (P : κ → Prop) (k p : κ) : Prop := E k p ∨ (k = n ∧ P p)

variable {n : κ} {P : κ → Prop}

theorem reach_withNode : ReflTransGen (withNode E n P) x y ↔ ReflTransGen E x y ∨ ReflTransGen E x n ∧ ∃ p,
    P p ∧ ReflTransGen E p y := by
  constructor
  · intro h
    induction h with
    | refl => exact .inl .refl
    | tail _ hstep ih =>
      rcases hstep with hstep | ⟨rfl, hp⟩
      · rcases ih with ih | ⟨hn, p, hp, ih⟩
        · exact .inl (ih.tail hstep)
        · exact .inr ⟨hn, p, hp, ih.tail hstep⟩
      · rcases ih with ih | ⟨hn, -⟩
        · exact .inr ⟨ih, _, hp, .refl⟩
        · exact .inr ⟨hn, _, hp, .refl⟩
  · rintro (h | ⟨hn, p, hp, h⟩)
    · exact reach_mono (fun _ _ => .inl) h
    · exact (reach_mono (fun _ _ => .inl) hn).trans (.head (.inr ⟨rfl, hp⟩) (reach_mono (fun _ _ => .inl) h))

theorem reach_withNode_of_ne (hfresh : ∀ k, ¬E k n) (hx : x ≠ n) : ReflTransGen (withNode E n P) x y ↔
    ReflTransGen E x y := by
  rw [reach_withNode, or_iff_left]
  rintro ⟨hn, -⟩
  rcases ReflTransGen.cases_tail hn with heq | ⟨k, -, hk⟩
  · exact hx heq.symm
  · exact hfresh k hk

theorem reach_withNode_self (hout : ∀ p, ¬E n p) : ReflTransGen (withNode E n P) n y ↔
    y = n ∨ ∃ p, P p ∧ ReflTransGen E p y := by
  have hn : ReflTransGen E n y ↔ y = n := by
    constructor
    · intro h
      rcases ReflTransGen.cases_head h with heq | ⟨p, hp, -⟩
      · exact heq.symm
      · exact absurd hp (hout p)
    · rintro rfl
      exact .refl
  rw [reach_withNode, hn, and_iff_right .refl]

end FullNode.Ancestry

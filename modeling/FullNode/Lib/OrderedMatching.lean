import Mathlib.Data.List.NodupEquivFin

/-!
# Matching one list into another in order

Every item of the first list is to be matched with an item of the second, in the same order. Taking the
first match for each item finds such a matching when there is one.
-/

namespace FullNode.OrderedMatching

open List

variable {α β : Type} (rel : α → β → Bool)

def greedy : List α → List β → Bool
  | [], _ => true
  | _ :: _, [] => false
  | a :: as, b :: bs => if rel a b then greedy as bs else greedy (a :: as) bs

def OrderedMatch (as : List α) (bs : List β) : Prop :=
  ∃ f : Fin as.length → Fin bs.length, StrictMono f ∧ ∀ i, rel (as.get i) (bs.get (f i)) = true

variable {rel} {as : List α} {bs : List β} {a : α} {b : β}

theorem orderedMatch_iff_sublist : OrderedMatch rel as bs ↔ SublistForall₂ (fun a b => rel a b = true) as bs := by
  rw [sublistForall₂_iff]
  constructor
  · rintro ⟨f, hmono, hrel⟩
    refine ⟨ofFn fun i => bs.get (f i), ?_, ?_⟩
    · rw [forall₂_iff_get]
      refine ⟨by rw [length_ofFn], fun i hi _ => ?_⟩
      rw [get_ofFn]
      exact hrel ⟨i, hi⟩
    · rw [sublist_iff_exists_fin_orderEmbedding_get_eq]
      have hlen : (ofFn fun i => bs.get (f i)).length = as.length := length_ofFn
      refine ⟨OrderEmbedding.ofStrictMono (fun i => f (i.cast hlen)) fun i j hij => hmono hij, fun i => ?_⟩
      rw [get_ofFn]
      rfl
  · rintro ⟨_, hrel, hsub⟩
    obtain ⟨f, hf⟩ := sublist_iff_exists_fin_orderEmbedding_get_eq.mp hsub
    obtain ⟨hlen, hget⟩ := forall₂_iff_get.mp hrel
    refine ⟨fun i => f (i.cast hlen), fun i j hij => f.strictMono hij, fun i => ?_⟩
    rw [← hf]
    exact hget i i.isLt (hlen ▸ i.isLt)

theorem orderedMatch_nil : OrderedMatch rel [] bs := orderedMatch_iff_sublist.mpr .nil

theorem not_orderedMatch_nil : ¬ OrderedMatch rel (a :: as) [] := by
  rw [orderedMatch_iff_sublist]
  rintro ⟨⟩

/-- An item may take the first place: later places can wait. -/
theorem orderedMatch_cons_of_rel (h : rel a b = true) : OrderedMatch rel (a :: as) (b :: bs) ↔
    OrderedMatch rel as bs := by
  rw [orderedMatch_iff_sublist, orderedMatch_iff_sublist]
  constructor
  · rintro (⟨⟩ | ⟨-, hrest⟩ | hlater)
    · exact hrest
    · obtain ⟨_, hrel, hsub⟩ := sublistForall₂_iff.mp hlater
      cases hrel with
      | cons _ hrel => exact sublistForall₂_iff.mpr ⟨_, hrel, sublist_of_cons_sublist hsub⟩
  · exact .cons h

/-- A place the first item does not match is of no use later. -/
theorem orderedMatch_cons_of_not_rel (h : rel a b = false) : OrderedMatch rel (a :: as) (b :: bs) ↔
    OrderedMatch rel (a :: as) bs := by
  rw [orderedMatch_iff_sublist, orderedMatch_iff_sublist]
  constructor
  · rintro (⟨⟩ | ⟨hfirst, -⟩ | hlater)
    · rw [h] at hfirst
      cases hfirst
    · exact hlater
  · exact .cons_right

theorem greedy_iff : greedy rel as bs = true ↔ OrderedMatch rel as bs := by
  fun_induction greedy rel as bs with
  | case1 bs => exact iff_of_true rfl orderedMatch_nil
  | case2 a as => exact iff_of_false Bool.false_ne_true not_orderedMatch_nil
  | case3 a as b bs h ih => rw [ih, orderedMatch_cons_of_rel h]
  | case4 a as b bs h ih => rw [ih, orderedMatch_cons_of_not_rel (by simpa using h)]

theorem greedy_of_length (h : bs.length < as.length) : greedy rel as bs = false := by
  rw [← Bool.not_eq_true, greedy_iff, orderedMatch_iff_sublist, sublistForall₂_iff]
  rintro ⟨_, hrel, hsub⟩
  have hle := hsub.length_le
  rw [← hrel.length_eq] at hle
  omega

end FullNode.OrderedMatching
